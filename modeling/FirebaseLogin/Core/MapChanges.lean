import FirebaseLogin.Library.SortedEntries
import FirebaseLogin.Firestore.Document
import Mathlib.Data.String.Basic

/-!
The values of the client library's documents and the one function that edits a
map in place, ApplyChanges of object_value.cc. It merges the sorted entries with
sorted upserts and deletes by three cursors, and stops after as many entries as
it computed beforehand.
-/

namespace FirebaseLogin.Core

open SortedEntries

inductive FieldValue where
  | scalar (v : Value)
  | array (values : List FieldValue)
  | map (fields : List (String × FieldValue))

abbrev MapValue := List (String × FieldValue)

mutual

def FieldValue.sortFields : FieldValue → FieldValue
  | .scalar v => .scalar v
  | .array values => .array (sortArray values)
  | .map fields => .map ((sortEntries fields).insertionSort fun a b => a.1 ≤ b.1)

def sortArray : List FieldValue → List FieldValue
  | [] => []
  | v :: values => v.sortFields :: sortArray values

def sortEntries : List (String × FieldValue) → List (String × FieldValue)
  | [] => []
  | (key, v) :: fields => (key, v.sortFields) :: sortEntries fields

end

mutual

/-- Every map inside the value has strictly ascending keys. -/
def FieldValue.Sorted : FieldValue → Prop
  | .scalar _ => True
  | .array values => SortedArray values
  | .map fields => Ascending fields ∧ SortedValues fields

def SortedArray : List FieldValue → Prop
  | [] => True
  | v :: values => v.Sorted ∧ SortedArray values

def SortedValues : List (String × FieldValue) → Prop
  | [] => True
  | (_, v) :: fields => v.Sorted ∧ SortedValues fields

end

theorem sortedValues_iff {fields : MapValue} :
    SortedValues fields ↔ ∀ e ∈ fields, e.2.Sorted := by
  induction fields with
  | nil => simp [SortedValues]
  | cons e fields ih => simp [SortedValues, ih]

mutual

/-- Sorting changes nothing in a value that is sorted already. -/
theorem sortFields_eq_self : ∀ {v : FieldValue}, v.Sorted → v.sortFields = v
  | .scalar _, _ => rfl
  | .array values, h => by
      rw [FieldValue.sortFields, sortArray_eq_self h]
  | .map fields, h => by
      rw [FieldValue.sortFields, sortEntries_eq_self h.2,
        List.Pairwise.insertionSort_eq (h.1.imp fun hab => hab.le)]

theorem sortArray_eq_self : ∀ {values : List FieldValue},
    SortedArray values → sortArray values = values
  | [], _ => rfl
  | v :: values, h => by
      rw [sortArray, sortFields_eq_self h.1, sortArray_eq_self h.2]

theorem sortEntries_eq_self : ∀ {fields : List (String × FieldValue)},
    SortedValues fields → sortEntries fields = fields
  | [], _ => rfl
  | (key, v) :: fields, h => by
      rw [sortEntries, sortFields_eq_self h.1, sortEntries_eq_self h.2]

end

def calculateSizeOfUnion (fields upserts : MapValue) (deletes : List String) : Nat :=
  upserts.length +
    fields.countP fun e => decide (e.1 ∉ deletes) && (find e.1 upserts).isNone

/-- The loop of ApplyChanges. Every round moves the source or the upsert cursor,
so as many rounds as there are entries are enough. -/
def mergeLoop : Nat → Nat → MapValue → MapValue → List String → MapValue
  | 0, _, _, _, _ => []
  | _ + 1, 0, _, _, _ => []
  | rounds + 1, count + 1, s :: source, upserts, deletes =>
      if deletes.head? = some s.1 then mergeLoop rounds (count + 1) source upserts deletes.tail
      else
        match upserts with
        | [] => s :: mergeLoop rounds count source [] deletes
        | u :: rest =>
            if u.1 = s.1 then u :: mergeLoop rounds count source rest deletes
            else if s.1 < u.1 then s :: mergeLoop rounds count source (u :: rest) deletes
            else u :: mergeLoop rounds count (s :: source) rest deletes
  | rounds + 1, count + 1, [], u :: rest, deletes => u :: mergeLoop rounds count [] rest deletes
  | _ + 1, _ + 1, [], [], _ => []

def applyChanges (fields upserts : MapValue) (deletes : List String) : MapValue :=
  mergeLoop (fields.length + upserts.length) (calculateSizeOfUnion fields upserts deletes) fields
    (sortEntries upserts) deletes

/-- What the deletion cursor takes out: it moves only past a key that it meets. -/
def removeInOrder : MapValue → List String → MapValue
  | [], _ => []
  | s :: source, deletes =>
      if deletes.head? = some s.1 then removeInOrder source deletes.tail
      else s :: removeInOrder source deletes

/-- The edit the caller asks for. -/
def editedMap (fields upserts : MapValue) (deletes : List String) : MapValue :=
  putAll (fields.filter fun e => decide (e.1 ∉ deletes)) upserts

theorem mem_of_mem_removeInOrder {source : MapValue} {deletes : List String}
    {e : String × FieldValue} (h : e ∈ removeInOrder source deletes) : e ∈ source := by
  induction source generalizing deletes with
  | nil => cases h
  | cons s source ih =>
      rw [removeInOrder] at h
      split at h
      · exact List.mem_cons_of_mem s (ih h)
      · obtain rfl | h := List.mem_cons.mp h
        · exact List.mem_cons_self
        · exact List.mem_cons_of_mem s (ih h)

theorem mergeLoop_eq {rounds n : Nat} {source upserts : MapValue} (deletes : List String)
    (hs : Ascending source) (hu : Ascending upserts)
    (hrounds : source.length + upserts.length ≤ rounds) :
    mergeLoop rounds n source upserts deletes =
      (putAll (removeInOrder source deletes) upserts).take n := by
  induction rounds generalizing n source upserts deletes with
  | zero =>
      obtain rfl : source = [] := List.length_eq_zero_iff.mp (by omega)
      obtain rfl : upserts = [] := List.length_eq_zero_iff.mp (by omega)
      simp [mergeLoop, removeInOrder]
  | succ rounds ih =>
      cases n with
      | zero => simp [mergeLoop]
      | succ n =>
          cases source with
          | nil =>
              cases upserts with
              | nil => simp [mergeLoop, removeInOrder]
              | cons u rest =>
                  have hu' := ascending_cons.mp hu
                  have hrec := ih (n := n) deletes hs hu'.2 (by simp at hrounds ⊢; omega)
                  simp only [mergeLoop, hrec, removeInOrder, putAll_cons, put]
                  rw [putAll_cons_of_lt [] hu'.1, List.take_succ_cons]
          | cons s source =>
              have hs' := ascending_cons.mp hs
              simp only [mergeLoop, removeInOrder]
              split
              · exact ih deletes.tail hs'.2 hu (by simp at hrounds ⊢; omega)
              · next hhead =>
                cases upserts with
                | nil =>
                    rw [ih deletes hs'.2 hu (by simp at hrounds ⊢; omega)]
                    rfl
                | cons u rest =>
                    have hu' := ascending_cons.mp hu
                    simp only [List.length_cons] at hrounds
                    simp only [putAll_cons, put]
                    by_cases heq : u.1 = s.1
                    · rw [if_pos heq, if_neg heq.not_lt, if_pos heq,
                        ih deletes hs'.2 hu'.2 (by omega), putAll_cons_of_lt _ hu'.1,
                        List.take_succ_cons]
                    · rw [if_neg heq, if_neg heq]
                      by_cases hlt : s.1 < u.1
                      · have hbelow : ∀ e ∈ rest, s.1 < e.1 := fun e he => hlt.trans (hu'.1 e he)
                        rw [if_pos hlt, if_neg hlt.asymm, putAll_cons_of_lt _ hbelow,
                          List.take_succ_cons,
                          ih deletes hs'.2 hu (by simp only [List.length_cons]; omega), putAll_cons]
                      · have hgt : u.1 < s.1 := lt_of_le_of_ne (not_lt.mp hlt) heq
                        have hrec := ih (n := n) deletes hs hu'.2
                          (by simp only [List.length_cons]; omega)
                        simp only [removeInOrder, if_neg hhead] at hrec
                        rw [if_neg hlt, if_pos hgt, putAll_cons_of_lt _ hu'.1, List.take_succ_cons,
                          hrec]

theorem ascending_removeInOrder {source : MapValue} (hs : Ascending source)
    (deletes : List String) : Ascending (removeInOrder source deletes) := by
  induction source generalizing deletes with
  | nil => exact hs
  | cons s source ih =>
      have hs' := ascending_cons.mp hs
      rw [removeInOrder]
      split
      · exact ih hs'.2 deletes.tail
      · exact ascending_cons.mpr
          ⟨fun e he => hs'.1 e (mem_of_mem_removeInOrder he), ih hs'.2 deletes⟩

/-- A key is taken out exactly when it is to be deleted and every smaller key to
be deleted is there. -/
theorem find_removeInOrder {source : MapValue} {deletes : List String} (hs : Ascending source)
    (hd : deletes.Pairwise (· < ·)) (key : String) :
    find key (removeInOrder source deletes) =
      if key ∈ deletes ∧ ∀ d ∈ deletes, d < key → (find d source).isSome then none
      else find key source := by
  induction source generalizing deletes with
  | nil => simp [removeInOrder]
  | cons s source ih =>
      have hs' := ascending_cons.mp hs
      have hbelow : ∀ {k : String}, k ≤ s.1 → find k source = none := fun hk =>
        find_eq_none fun e he => (hk.trans_lt (hs'.1 e he)).ne'
      rw [removeInOrder]
      cases deletes with
      | nil => simp [find_cons, ih hs'.2 List.Pairwise.nil]
      | cons d ds =>
          have hd' := List.pairwise_cons.mp hd
          by_cases hds : d = s.1
          · subst hds
            rw [if_pos List.head?_cons, List.tail_cons, ih hs'.2 hd'.2]
            by_cases hk : s.1 = key
            · subst hk
              rw [hbelow le_rfl, ite_self, if_pos]
              refine ⟨List.mem_cons_self, fun d hmem hlt => ?_⟩
              obtain rfl | hmem := List.mem_cons.mp hmem
              · exact absurd hlt (lt_irrefl _)
              · exact absurd hlt (hd'.1 d hmem).asymm
            · have hsame : ∀ d ∈ ds, find d (s :: source) = find d source := fun d hmem =>
                if_neg (hd'.1 d hmem).ne
              have hself : (find s.1 (s :: source)).isSome := by simp [find_cons]
              rw [find_cons, if_neg hk]
              congr 1
              rw [List.mem_cons, List.forall_mem_cons]
              simp +contextual [Ne.symm hk, hself, hsame]
          · rw [if_neg (by simpa using hds), find_cons, find_cons]
            -- A smaller key that is missing pins the cursor.
            have hpinned : ∀ {k : String}, k ∈ ds → k ≤ s.1 → find d (s :: source) = none := by
              intro k hmem hle
              rw [find_cons, if_neg (Ne.symm hds), hbelow ((hd'.1 k hmem).le.trans hle)]
            by_cases hk : s.1 = key
            · subst hk
              rw [if_pos rfl, if_pos rfl, if_neg]
              rintro ⟨hmem, hall⟩
              obtain rfl | hmem := List.mem_cons.mp hmem
              · exact hds rfl
              · simpa [hpinned hmem le_rfl] using hall d List.mem_cons_self (hd'.1 _ hmem)
            · rw [if_neg hk, if_neg hk, ih hs'.2 hd]
              congr 1
              refine propext (and_congr_right fun _ => ⟨fun hall d' hmem hlt => ?_,
                fun hall d' hmem hlt => ?_⟩)
              · rw [find_cons]
                split
                · rfl
                · exact hall d' hmem hlt
              · by_cases hd's : s.1 = d'
                · subst hd's
                  have hmem' : s.1 ∈ ds := (List.mem_cons.mp hmem).resolve_left (Ne.symm hds)
                  have := hall d List.mem_cons_self ((hd'.1 _ hmem').trans hlt)
                  simp [hpinned hmem' le_rfl] at this
                · simpa [find_cons, hd's] using hall d' hmem hlt

/-- What the loop would write without the bound on the number of entries. -/
def mergedMap (fields upserts : MapValue) (deletes : List String) : MapValue :=
  putAll (removeInOrder fields deletes) upserts

section Changes

variable {fields upserts : MapValue} {deletes : List String}

theorem applyChanges_eq_take (hf : Ascending fields) (hu : Ascending upserts)
    (hsorted : SortedValues upserts) :
    applyChanges fields upserts deletes =
      (mergedMap fields upserts deletes).take (calculateSizeOfUnion fields upserts deletes) := by
  rw [applyChanges, sortEntries_eq_self hsorted]
  exact mergeLoop_eq deletes hf hu le_rfl

theorem ascending_editedMap (hf : Ascending fields) (upserts : MapValue) (deletes : List String) :
    Ascending (editedMap fields upserts deletes) :=
  ascending_putAll (hf.filter _) upserts

theorem find_editedMap (hf : Ascending fields) (hu : Ascending upserts) (deletes : List String)
    (key : String) :
    find key (editedMap fields upserts deletes) =
      (find key upserts).or (if key ∈ deletes then none else find key fields) := by
  rw [editedMap, find_putAll (hf.filter _) hu, find_filter_key (fun k => decide (k ∉ deletes))]
  by_cases h : key ∈ deletes
  · simp [h]
  · simp [h]

/-- The number of entries computed beforehand is that of the edit. -/
theorem length_editedMap (hf : Ascending fields) (hu : Ascending upserts) :
    (editedMap fields upserts deletes).length = calculateSizeOfUnion fields upserts deletes := by
  rw [editedMap, length_putAll (hf.filter _) hu, List.countP_filter, calculateSizeOfUnion]
  congr 2
  funext e
  exact Bool.and_comm _ _

theorem editedMap_eq_filter (hf : Ascending fields) (hu : Ascending upserts)
    (hd : deletes.Pairwise (· < ·)) (disjoint : ∀ d ∈ deletes, find d upserts = none) :
    editedMap fields upserts deletes =
      (mergedMap fields upserts deletes).filter fun e => decide (e.1 ∉ deletes) := by
  have hr := ascending_removeInOrder hf deletes
  refine ext (ascending_editedMap hf upserts deletes) ((ascending_putAll hr upserts).filter _)
    fun key => ?_
  rw [find_editedMap hf hu, find_filter_key (fun k => decide (k ∉ deletes)), mergedMap,
    find_putAll hr hu, find_removeInOrder hf hd]
  by_cases h : key ∈ deletes
  · simp [h, disjoint key h]
  · simp [h]

theorem find_mergedMap (hf : Ascending fields) (hu : Ascending upserts)
    (hd : deletes.Pairwise (· < ·)) (disjoint : ∀ d ∈ deletes, find d upserts = none)
    {key : String} (hkey : key ∈ deletes) :
    find key (mergedMap fields upserts deletes) =
      if ∀ d ∈ deletes, d < key → (find d fields).isSome then none else find key fields := by
  rw [mergedMap, find_putAll (ascending_removeInOrder hf deletes) hu, find_removeInOrder hf hd,
    disjoint key hkey, Option.none_or]
  simp only [hkey, true_and]

/-- Where the result has none of the fields to be deleted, it is as long as the edit
and so all of it. -/
theorem applyChanges_eq_editedMap_of_deleted (hf : Ascending fields) (hu : Ascending upserts)
    (hsorted : SortedValues upserts) (hd : deletes.Pairwise (· < ·))
    (disjoint : ∀ d ∈ deletes, find d upserts = none)
    (hgone : ∀ key ∈ deletes, find key (applyChanges fields upserts deletes) = none) :
    applyChanges fields upserts deletes = editedMap fields upserts deletes := by
  have hm : Ascending (mergedMap fields upserts deletes) :=
    ascending_putAll (ascending_removeInOrder hf deletes) upserts
  rw [applyChanges_eq_take hf hu hsorted, ← length_editedMap hf hu,
    editedMap_eq_filter hf hu hd disjoint] at hgone ⊢
  set kept := (mergedMap fields upserts deletes).filter fun e => decide (e.1 ∉ deletes) with hkept
  have htake := List.take_sublist kept.length (mergedMap fields upserts deletes)
  have hstays : ∀ e ∈ (mergedMap fields upserts deletes).take kept.length,
      decide (e.1 ∉ deletes) = true := by
    intro e he
    refine decide_eq_true fun hin => ?_
    have hfind := find_of_mem (List.Pairwise.sublist htake hm) he
    rw [hgone e.1 hin] at hfind
    cases hfind
  have hsublist := htake.filter fun e => decide (e.1 ∉ deletes)
  rw [List.filter_eq_self.mpr hstays, ← hkept] at hsublist
  refine hsublist.eq_of_length ?_
  rw [List.length_take, min_eq_left (List.length_filter_le _ _)]

theorem applyChanges_eq_editedMap_iff_ordered (hf : Ascending fields) (hu : Ascending upserts)
    (hsorted : SortedValues upserts) (hd : deletes.Pairwise (· < ·))
    (disjoint : ∀ d ∈ deletes, find d upserts = none) :
    applyChanges fields upserts deletes = editedMap fields upserts deletes ↔
      ∀ missing ∈ deletes, find missing fields = none →
        ∀ present ∈ deletes, (find present fields).isSome → missing < present →
          ∀ key, (find key (editedMap fields upserts deletes)).isSome → key < present := by
  have hm : Ascending (mergedMap fields upserts deletes) :=
    ascending_putAll (ascending_removeInOrder hf deletes) upserts
  rw [applyChanges_eq_take hf hu hsorted, ← length_editedMap hf hu,
    editedMap_eq_filter hf hu hd disjoint, take_eq_filter_iff hm]
  constructor
  · intro h missing hmissing hnone present hpresent hsome hlt key hkey
    obtain ⟨value, hvalue⟩ := Option.isSome_iff_exists.mp hkey
    obtain ⟨kept, hkept⟩ := List.mem_filter.mp (mem_of_find hvalue)
    obtain ⟨old, hold⟩ := Option.isSome_iff_exists.mp hsome
    refine h (present, old) ?_ (by simpa using hpresent) (key, value) kept hkept
    apply mem_of_find
    rw [find_mergedMap hf hu hd disjoint hpresent, if_neg, hold]
    intro hall
    simpa [hnone] using hall missing hmissing hlt
  · intro h dropped hdropped hout kept hkept hin
    have hmem : dropped.1 ∈ deletes := by simpa using hout
    have hfind := find_of_mem hm hdropped
    rw [find_mergedMap hf hu hd disjoint hmem] at hfind
    split at hfind
    · cases hfind
    · next hpinned =>
        simp only [not_forall] at hpinned
        obtain ⟨missing, hmissing, hlt, hnone⟩ := hpinned
        refine h missing hmissing (by simpa using hnone) dropped.1 hmem (by simp [hfind]) hlt kept.1 ?_
        rw [find_of_mem (hm.filter _) (List.mem_filter.mpr ⟨hkept, hin⟩)]
        rfl

/-- The loop makes the edit it is asked for exactly when no field that stays lies
above a field to be deleted that lies above a missing one. Otherwise it keeps a
field that it was to delete. -/
theorem applyChanges_eq_editedMap_iff (hf : Ascending fields) (hu : Ascending upserts)
    (hsorted : SortedValues upserts) (hd : deletes.Pairwise (· < ·))
    (disjoint : ∀ d ∈ deletes, find d upserts = none) :
    (applyChanges fields upserts deletes = editedMap fields upserts deletes ↔
      ∀ missing ∈ deletes, find missing fields = none →
        ∀ present ∈ deletes, (find present fields).isSome → missing < present →
          ∀ key, (find key (editedMap fields upserts deletes)).isSome → key < present) ∧
      (applyChanges fields upserts deletes ≠ editedMap fields upserts deletes →
        ∃ key ∈ deletes, (find key (applyChanges fields upserts deletes)).isSome) := by
  refine ⟨applyChanges_eq_editedMap_iff_ordered hf hu hsorted hd disjoint, fun hne => ?_⟩
  by_contra hgone
  refine hne (applyChanges_eq_editedMap_of_deleted hf hu hsorted hd disjoint fun key hkey => ?_)
  exact Option.not_isSome_iff_eq_none.mp fun hsome => hgone ⟨key, hkey, hsome⟩

/-- Deleting two fields of which the first is missing keeps the second. -/
theorem applyChanges_keeps_deleted :
    applyChanges [("c", .scalar .null), ("d", .scalar .null)] [] ["a", "c"] ≠
        editedMap [("c", .scalar .null), ("d", .scalar .null)] [] ["a", "c"] ∧
      ∃ key ∈ ["a", "c"], (find key
        (applyChanges [("c", .scalar .null), ("d", .scalar .null)] [] ["a", "c"])).isSome := by
  have hiff := @applyChanges_eq_editedMap_iff [("c", .scalar .null), ("d", .scalar .null)] []
    ["a", "c"] (by decide) List.Pairwise.nil trivial (by decide) (by simp)
  have hne : applyChanges [("c", .scalar .null), ("d", .scalar .null)] [] ["a", "c"] ≠
      editedMap [("c", .scalar .null), ("d", .scalar .null)] [] ["a", "c"] := by
    intro h
    have hkey := hiff.1.mp h "a" (by simp) rfl "c" (by simp) rfl (by decide) "d" rfl
    exact absurd hkey (by decide)
  exact ⟨hne, hiff.2 hne⟩

theorem applyChanges_without_deletes (hf : Ascending fields) (hu : Ascending upserts)
    (hsorted : SortedValues upserts) : applyChanges fields upserts [] = putAll fields upserts := by
  rw [applyChanges_eq_take hf hu hsorted, ← length_editedMap hf hu]
  have hkeep : ∀ l : MapValue, removeInOrder l [] = l := by
    intro l
    induction l with
    | nil => rfl
    | cons e l ih => simp [removeInOrder, ih]
  simp [mergedMap, editedMap, hkeep]

theorem sorted_applyChanges (hf : (FieldValue.map fields).Sorted) (hu : Ascending upserts)
    (hsorted : SortedValues upserts) (deletes : List String) :
    (FieldValue.map (applyChanges fields upserts deletes)).Sorted := by
  rw [applyChanges_eq_take hf.1 hu hsorted]
  constructor
  · exact List.Pairwise.sublist (List.take_sublist _ _)
      (ascending_putAll (ascending_removeInOrder hf.1 deletes) upserts)
  · refine sortedValues_iff.mpr fun e he => ?_
    obtain he | he := mem_putAll (List.mem_of_mem_take he)
    · exact sortedValues_iff.mp hf.2 e (mem_of_mem_removeInOrder he)
    · exact sortedValues_iff.mp hsorted e he

end Changes

end FirebaseLogin.Core
