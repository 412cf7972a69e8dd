import FirebaseLogin.Core.MapChanges
import Mathlib.Data.List.Lex

/-!
ObjectValue of object_value.cc: reading, setting and deleting the fields of a
document along field paths. ParentMap creates the maps on the way to a field, and
turns a value that is in the way into a map.
-/

namespace FirebaseLogin.Core

open SortedEntries

abbrev FieldPath := List String

/-- A std::set of field paths: ascending, each once. -/
abbrev FieldMask := List FieldPath

/-- By which insertPath and every other search of a mask are decided. -/
instance decidableMemMask (path : FieldPath) (mask : FieldMask) : Decidable (path ∈ mask) :=
  inferInstance

def insertPath (path : FieldPath) (mask : FieldMask) : FieldMask :=
  if path ∈ mask then mask else mask.orderedInsert (· ≤ ·) path

@[simp] theorem mem_insertPath {path other : FieldPath} {mask : FieldMask} :
    other ∈ insertPath path mask ↔ other = path ∨ other ∈ mask := by
  unfold insertPath
  split
  · next h =>
      constructor
      · exact .inr
      · rintro (rfl | h')
        · exact h
        · exact h'
  · exact List.mem_orderedInsert _

/-- IsImmediateParentOf of base_path.h. -/
def isImmediateParentOf (parent child : FieldPath) : Bool :=
  parent.length + 1 == child.length && parent == child.take parent.length

def FieldValue.get : FieldValue → FieldPath → Option FieldValue
  | v, [] => some v
  | .map fields, segment :: path => (find segment fields).bind fun v => v.get path
  | .scalar _, _ :: _ | .array _, _ :: _ => none

/-- Assigning the value of an entry that is there. -/
def replaceValue (key : String) (value : FieldValue) (fields : MapValue) : MapValue :=
  fields.map fun e => if e.1 = key then (key, value) else e

/-- ParentMap, followed by the caller's change of the map it returns. -/
def updateParentMap (change : MapValue → MapValue) : FieldPath → MapValue → MapValue
  | [], fields => change fields
  | segment :: path, fields =>
      match find segment fields with
      | some (.map nested) =>
          replaceValue segment (.map (updateParentMap change path nested)) fields
      | some (.scalar _) | some (.array _) =>
          replaceValue segment (.map (updateParentMap change path [])) fields
      | none =>
          replaceValue segment (.map (updateParentMap change path []))
            (applyChanges fields [(segment, .map [])] [])

def setPath (path : FieldPath) (value : FieldValue) (fields : MapValue) : MapValue :=
  updateParentMap (fun m => applyChanges m [(path.getLastD "", value)] []) path.dropLast fields

def deletePath : FieldPath → MapValue → MapValue
  | [], fields => fields
  | [key], fields => applyChanges fields [] [key]
  | segment :: next :: path, fields =>
      match find segment fields with
      | some (.map nested) => replaceValue segment (.map (deletePath (next :: path) nested)) fields
      | _ => fields

/-- A std::map from paths to values; a path without a value is deleted. -/
abbrev TransformMap := List (FieldPath × Option FieldValue)

structure SetAllState where
  parent : FieldPath := []
  upserts : MapValue := []
  deletes : List String := []
  fields : MapValue

/-- The accumulated changes, made at their parent. -/
def SetAllState.flush (st : SetAllState) : MapValue :=
  updateParentMap (fun m => applyChanges m st.upserts st.deletes) st.parent st.fields

def SetAllState.add (st : SetAllState) (entry : FieldPath × Option FieldValue) : SetAllState :=
  let st :=
    if isImmediateParentOf st.parent entry.1 then st
    else { parent := entry.1.dropLast, fields := st.flush }
  match entry.2 with
  | some value => { st with upserts := put (entry.1.getLastD "") value st.upserts }
  | none =>
      let key := entry.1.getLastD ""
      { st with deletes := if key ∈ st.deletes then st.deletes
                           else st.deletes.orderedInsert (· ≤ ·) key }

def setAll (data : TransformMap) (fields : MapValue) : MapValue :=
  (data.foldl SetAllState.add { fields := fields }).flush

mutual

def FieldValue.extractFieldMask : FieldValue → FieldMask
  | .map fields => fieldMaskOfEntries fields
  | .scalar _ | .array _ => []

def fieldMaskOfEntries : List (String × FieldValue) → FieldMask
  | [] => []
  | (key, v) :: fields =>
      -- An empty map and a value that is no map are named themselves.
      (match v.extractFieldMask with
        | [] => [[key]]
        | nested => nested.map (key :: ·)) ++ fieldMaskOfEntries fields

end

structure ObjectValue where
  fields : MapValue
  sorted : (FieldValue.map fields).Sorted

def ObjectValue.empty : ObjectValue := ⟨[], List.Pairwise.nil, trivial⟩

/-- An object with one number. -/
def oneField (name : String) (i : Int) : ObjectValue :=
  ⟨[(name, .scalar (.integer i))], by simp [FieldValue.Sorted, Ascending, SortedValues]⟩

def ObjectValue.get (o : ObjectValue) (path : FieldPath) : Option FieldValue :=
  (FieldValue.map o.fields).get path

theorem ObjectValue.ext {o o' : ObjectValue} (h : o.fields = o'.fields) : o = o' := by
  cases o; cases o'; cases h; rfl

theorem ObjectValue.ext_find {o o' : ObjectValue}
    (h : ∀ key, find key o.fields = find key o'.fields) : o = o' :=
  ObjectValue.ext (SortedEntries.ext o.sorted.1 o'.sorted.1 h)

section Paths

variable {fields : MapValue} {key segment : String} {value : FieldValue}

/-- The map below an entry; anything else counts as the empty map. -/
def nestedMap (segment : String) (fields : MapValue) : MapValue :=
  match find segment fields with
  | some (.map nested) => nested
  | _ => []

theorem applyChanges_single (hf : Ascending fields) (key : String) (hv : value.Sorted) :
    applyChanges fields [(key, value)] [] = put key value fields :=
  applyChanges_without_deletes hf (List.pairwise_singleton _ _) ⟨hv, trivial⟩

theorem find_replaceValue (key other : String) (value : FieldValue) (fields : MapValue) :
    find other (replaceValue key value fields) =
      if key = other then (find other fields).map fun _ => value else find other fields := by
  induction fields with
  | nil => simp [replaceValue]
  | cons e fields ih =>
      simp only [replaceValue, List.map_cons] at ih ⊢
      by_cases he : e.1 = key
      · by_cases ho : key = other
        · simp [find_cons, he, ho]
        · simp [find_cons, he, ho, ih]
      · rw [if_neg he, find_cons, find_cons, ih]
        by_cases ho : e.1 = other
        · rw [if_pos ho, if_pos ho, if_neg fun h => he (ho.trans h.symm)]
        · rw [if_neg ho, if_neg ho]

theorem ascending_replaceValue (hf : Ascending fields) (key : String) (value : FieldValue) :
    Ascending (replaceValue key value fields) := by
  refine List.pairwise_map.mpr (hf.imp fun {a b} hab => ?_)
  have hkey : ∀ e : String × FieldValue, (if e.1 = key then (key, value) else e).1 = e.1 := by
    intro e
    split
    · next h => exact h.symm
    · rfl
  rw [hkey, hkey]
  exact hab

theorem replaceValue_put (hf : Ascending fields) (key : String) (value value' : FieldValue) :
    replaceValue key value (put key value' fields) = put key value fields := by
  refine SortedEntries.ext (ascending_replaceValue (ascending_put hf key value') key value)
    (ascending_put hf key value) fun other => ?_
  rw [find_replaceValue, find_put _ _ _ hf, find_put _ _ _ hf]
  split <;> rfl

theorem replaceValue_of_find (hf : Ascending fields) {old : FieldValue}
    (h : find key fields = some old) (value : FieldValue) :
    replaceValue key value fields = put key value fields := by
  refine SortedEntries.ext (ascending_replaceValue hf key value) (ascending_put hf key value)
    fun other => ?_
  rw [find_replaceValue, find_put _ _ _ hf]
  split
  · next heq => rw [← heq, h]; rfl
  · rfl

/-- However the entry was found, it ends up as the changed map. -/
theorem updateParentMap_cons (change : MapValue → MapValue) (hf : Ascending fields)
    (path : FieldPath) :
    updateParentMap change (segment :: path) fields =
      put segment (.map (updateParentMap change path (nestedMap segment fields))) fields := by
  have hempty : (FieldValue.map []).Sorted := ⟨List.Pairwise.nil, trivial⟩
  cases h : find segment fields with
  | none =>
      simp only [updateParentMap, nestedMap, h]
      rw [applyChanges_single hf segment hempty, replaceValue_put hf]
  | some old =>
      cases old with
      | scalar v | array values | map nested =>
          simp only [updateParentMap, nestedMap, h]
          exact replaceValue_of_find hf h _

theorem sorted_put (hf : (FieldValue.map fields).Sorted) (key : String) (hv : value.Sorted) :
    (FieldValue.map (put key value fields)).Sorted := by
  refine ⟨ascending_put hf.1 key value, sortedValues_iff.mpr fun e he => ?_⟩
  obtain rfl | he := mem_put he
  · exact hv
  · exact sortedValues_iff.mp hf.2 e he

theorem sorted_of_find (hf : (FieldValue.map fields).Sorted) (h : find key fields = some value) :
    value.Sorted :=
  sortedValues_iff.mp hf.2 _ (mem_of_find h)

theorem sorted_nestedMap (hf : (FieldValue.map fields).Sorted) (segment : String) :
    (FieldValue.map (nestedMap segment fields)).Sorted := by
  unfold nestedMap
  split
  · next nested h => exact sorted_of_find hf h
  · exact ⟨List.Pairwise.nil, trivial⟩

@[simp] theorem nestedMap_put (hf : Ascending fields) (segment : String) (nested : MapValue) :
    nestedMap segment (put segment (.map nested) fields) = nested := by
  simp [nestedMap, find_put _ _ _ hf]

theorem sorted_updateParentMap {change : MapValue → MapValue}
    (hchange : ∀ m, (FieldValue.map m).Sorted → (FieldValue.map (change m)).Sorted)
    (path : FieldPath) (hf : (FieldValue.map fields).Sorted) :
    (FieldValue.map (updateParentMap change path fields)).Sorted := by
  induction path generalizing fields with
  | nil => exact hchange fields hf
  | cons segment path ih =>
      rw [updateParentMap_cons change hf.1 path]
      exact sorted_put hf segment (ih (sorted_nestedMap hf segment))

/-- Two changes of the same map are one change. -/
theorem updateParentMap_comp (change change' : MapValue → MapValue)
    (path : FieldPath) (hf : (FieldValue.map fields).Sorted) :
    updateParentMap change' path (updateParentMap change path fields) =
      updateParentMap (fun m => change' (change m)) path fields := by
  induction path generalizing fields with
  | nil => rfl
  | cons segment path ih =>
      have hnested := sorted_nestedMap hf segment
      rw [updateParentMap_cons change hf.1 path,
        updateParentMap_cons change' (ascending_put hf.1 segment _) path,
        nestedMap_put hf.1, ih hnested, put_put hf.1, updateParentMap_cons _ hf.1 path]

theorem updateParentMap_congr {change change' : MapValue → MapValue}
    (h : ∀ m, (FieldValue.map m).Sorted → change m = change' m)
    (path : FieldPath) (hf : (FieldValue.map fields).Sorted) :
    updateParentMap change path fields = updateParentMap change' path fields := by
  induction path generalizing fields with
  | nil => exact h fields hf
  | cons segment path ih =>
      rw [updateParentMap_cons change hf.1 path, updateParentMap_cons change' hf.1 path,
        ih (sorted_nestedMap hf segment)]

end Paths

end FirebaseLogin.Core
