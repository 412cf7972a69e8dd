import FirebaseLogin.Core.ObjectValue

/-!
SetAll makes its changes map by map, in one pass over the sorted paths. As long
as nothing is deleted it agrees with setting the fields one after the other, and
on the fields of a document's own mask it is the deep merge of the two documents.
-/

namespace FirebaseLogin.Core

open SortedEntries

variable {fields : MapValue} {value : FieldValue}

section SetPath

theorem setPath_singleton (hf : Ascending fields) (key : String) (hv : value.Sorted) :
    setPath [key] value fields = put key value fields :=
  applyChanges_single hf key hv

/-- Setting below an entry sets inside the map of that entry. -/
theorem setPath_cons (hf : Ascending fields) (segment : String) {path : FieldPath}
    (hp : path ≠ []) (value : FieldValue) :
    setPath (segment :: path) value fields =
      put segment (.map (setPath path value (nestedMap segment fields))) fields := by
  obtain ⟨next, rest, rfl⟩ := List.exists_cons_of_ne_nil hp
  exact updateParentMap_cons _ hf _

theorem sorted_setPath (hf : (FieldValue.map fields).Sorted) (path : FieldPath)
    (hv : value.Sorted) : (FieldValue.map (setPath path value fields)).Sorted :=
  sorted_updateParentMap (fun _ hm => sorted_applyChanges hm (List.pairwise_singleton _ _)
    ⟨hv, trivial⟩ []) path.dropLast hf

@[simp] theorem get_cons (segment : String) (path : FieldPath) :
    (FieldValue.map fields).get (segment :: path) =
      (find segment fields).bind fun v => v.get path := rfl

theorem get_setPath_append (hf : (FieldValue.map fields).Sorted) {path : FieldPath}
    (hp : path ≠ []) (hv : value.Sorted) (rest : FieldPath) :
    (FieldValue.map (setPath path value fields)).get (path ++ rest) = value.get rest := by
  induction path generalizing fields with
  | nil => exact absurd rfl hp
  | cons segment path ih =>
      cases path with
      | nil =>
          rw [setPath_singleton hf.1 segment hv]
          simp [find_put _ _ _ hf.1]
      | cons next path =>
          rw [setPath_cons hf.1 segment (List.cons_ne_nil next path)]
          simp only [List.cons_append, get_cons, find_put _ _ _ hf.1, if_pos, Option.bind_some]
          exact ih (sorted_nestedMap hf segment) (List.cons_ne_nil next path)

/-- A map that is missing or not a map reads like the empty one below itself. -/
theorem get_nestedMap (segment : String) {path : FieldPath} (hp : path ≠ []) :
    (FieldValue.map (nestedMap segment fields)).get path =
      (FieldValue.map fields).get (segment :: path) := by
  obtain ⟨next, rest, rfl⟩ := List.exists_cons_of_ne_nil hp
  rw [get_cons, get_cons, nestedMap]
  cases h : find segment fields with
  | none => rfl
  | some v =>
      cases v with
      | scalar _ | array _ | map _ => rfl

theorem get_setPath_of_diverge (hf : (FieldValue.map fields).Sorted) {path other : FieldPath}
    (hv : value.Sorted) (hpo : ¬ path <+: other) (hop : ¬ other <+: path) :
    (FieldValue.map (setPath path value fields)).get other = (FieldValue.map fields).get other := by
  induction path generalizing fields other with
  | nil => exact absurd (List.nil_prefix) hpo
  | cons segment path ih =>
      cases other with
      | nil => exact absurd (List.nil_prefix) hop
      | cons segment' other =>
          by_cases hs : segment = segment'
          · subst hs
            have hpath : path ≠ [] := by
              rintro rfl
              exact hpo (by simp)
            have hother : other ≠ [] := by
              rintro rfl
              exact hop (by simp)
            rw [setPath_cons hf.1 segment hpath, get_cons, find_put _ _ _ hf.1, if_pos rfl,
              ← get_nestedMap segment hother]
            exact ih (sorted_nestedMap hf segment) (fun h => hpo (by simpa using h))
              fun h => hop (by simpa using h)
          · have hfind : find segment' (setPath (segment :: path) value fields) =
                find segment' fields := by
              cases path with
              | nil => rw [setPath_singleton hf.1 segment hv, find_put _ _ _ hf.1, if_neg hs]
              | cons next path =>
                  rw [setPath_cons hf.1 segment (List.cons_ne_nil next path),
                    find_put _ _ _ hf.1, if_neg hs]
            rw [get_cons, get_cons, hfind]

/-- What is set is read back, and no path that branches off reads differently. -/
theorem get_setPath (hf : (FieldValue.map fields).Sorted) {path : FieldPath} (hp : path ≠ [])
    (hv : value.Sorted) :
    (∀ rest, (FieldValue.map (setPath path value fields)).get (path ++ rest) = value.get rest) ∧
      ∀ other, ¬ path <+: other → ¬ other <+: path →
        (FieldValue.map (setPath path value fields)).get other =
          (FieldValue.map fields).get other :=
  ⟨get_setPath_append hf hp hv, fun _ => get_setPath_of_diverge hf hv⟩

theorem get_setPath_nested :
    (FieldValue.map (setPath ["a", "b"] (.scalar .null) [("a", .scalar .null)])).get ["a", "b"] =
        some (.scalar .null) ∧
      (FieldValue.map (setPath ["a", "b"] (.scalar .null) [("a", .scalar .null)])).get ["c"] =
        none := by
  have hf : (FieldValue.map [("a", .scalar .null)]).Sorted :=
    ⟨List.pairwise_singleton _ _, trivial, trivial⟩
  have hv : (FieldValue.scalar .null).Sorted := trivial
  have h := get_setPath hf (List.cons_ne_nil "a" ["b"]) hv
  exact ⟨h.1 [], h.2 ["c"] (by decide) (by decide)⟩

end SetPath

section Sequential

/-- Setting the fields one after the other. -/
def setEach (data : List (FieldPath × FieldValue)) (fields : MapValue) : MapValue :=
  data.foldl (fun acc e => setPath e.1 e.2 acc) fields

def valued (data : List (FieldPath × FieldValue)) : TransformMap :=
  data.map fun e => (e.1, some e.2)

structure Settable (data : List (FieldPath × FieldValue)) : Prop where
  nonempty : ∀ e ∈ data, e.1 ≠ []
  sorted : ∀ e ∈ data, e.2.Sorted

theorem Settable.tail {e : FieldPath × FieldValue} {data : List (FieldPath × FieldValue)}
    (h : Settable (e :: data)) : Settable data where
  nonempty e' he' := h.nonempty e' (List.mem_cons_of_mem e he')
  sorted e' he' := h.sorted e' (List.mem_cons_of_mem e he')

theorem sorted_setEach {data : List (FieldPath × FieldValue)} (hd : Settable data)
    (hf : (FieldValue.map fields).Sorted) : (FieldValue.map (setEach data fields)).Sorted := by
  induction data generalizing fields with
  | nil => exact hf
  | cons e data ih =>
      exact ih hd.tail (sorted_setPath hf e.1 (hd.sorted e List.mem_cons_self))

theorem sortedValues_put {m : MapValue} (hm : SortedValues m) (key : String)
    (hv : value.Sorted) : SortedValues (put key value m) := by
  refine sortedValues_iff.mpr fun e he => ?_
  obtain rfl | he := mem_put he
  · exact hv
  · exact sortedValues_iff.mp hm e he

/-- Upserts and fields are sorted at every point of the pass. -/
structure SetAllState.Ordered (st : SetAllState) : Prop where
  ascending : Ascending st.upserts
  values : SortedValues st.upserts
  fields : (FieldValue.map st.fields).Sorted

theorem SetAllState.Ordered.sorted_flush {st : SetAllState} (h : st.Ordered) :
    (FieldValue.map st.flush).Sorted :=
  sorted_updateParentMap
    (fun _ hm => sorted_applyChanges hm h.ascending h.values st.deletes) st.parent h.fields

theorem SetAllState.Ordered.add {st : SetAllState} (h : st.Ordered)
    {entry : FieldPath × Option FieldValue} (hv : ∀ v, entry.2 = some v → v.Sorted) :
    (st.add entry).Ordered := by
  have hstart : (if isImmediateParentOf st.parent entry.1 then st
      else { parent := entry.1.dropLast, fields := st.flush }).Ordered := by
    split
    · exact h
    · exact ⟨List.Pairwise.nil, trivial, h.sorted_flush⟩
  unfold SetAllState.add
  cases hvalue : entry.2 with
  | none => exact ⟨hstart.ascending, hstart.values, hstart.fields⟩
  | some v =>
      exact ⟨ascending_put hstart.ascending _ _, sortedValues_put hstart.values _ (hv v hvalue),
        hstart.fields⟩

def SortedData (data : TransformMap) : Prop := ∀ e ∈ data, ∀ v, e.2 = some v → v.Sorted

theorem sorted_setAll {data : TransformMap} (hd : SortedData data)
    (hf : (FieldValue.map fields).Sorted) : (FieldValue.map (setAll data fields)).Sorted := by
  have hfold : ∀ {st : SetAllState}, st.Ordered → (data.foldl SetAllState.add st).Ordered := by
    induction data with
    | nil => exact fun h => h
    | cons e data ih =>
        intro st h
        exact ih (fun e' he' => hd e' (List.mem_cons_of_mem e he'))
          (h.add (hd e List.mem_cons_self))
  have hstart : SetAllState.Ordered { fields := fields } := ⟨List.Pairwise.nil, trivial, hf⟩
  exact (hfold hstart).sorted_flush

/-- Nothing is to be deleted so far. -/
structure SetAllState.Valid (st : SetAllState) : Prop extends st.Ordered where
  deletes : st.deletes = []

theorem SetAllState.Valid.change {st : SetAllState} (h : st.Valid) {m : MapValue}
    (hm : Ascending m) : applyChanges m st.upserts st.deletes = putAll m st.upserts := by
  rw [h.deletes]
  exact applyChanges_without_deletes hm h.ascending h.values

theorem eq_dropLast_of_isImmediateParentOf {parent child : FieldPath}
    (h : isImmediateParentOf parent child = true) : parent = child.dropLast := by
  simp only [isImmediateParentOf, Bool.and_eq_true, beq_iff_eq] at h
  rw [List.dropLast_eq_take, ← h.1, Nat.add_sub_cancel]
  exact h.2

/-- One more field is set, whether or not its map is the current one. -/
theorem SetAllState.Valid.add {st : SetAllState} (h : st.Valid) (path : FieldPath)
    (hv : value.Sorted) :
    (st.add (path, some value)).Valid ∧
      (st.add (path, some value)).flush = setPath path value st.flush := by
  have hordered : (st.add (path, some value)).Ordered := h.toOrdered.add fun v heq => by
    cases heq
    exact hv
  by_cases hparent : isImmediateParentOf st.parent path = true
  · have hpath := eq_dropLast_of_isImmediateParentOf hparent
    have hadd : st.add (path, some value) =
        { st with upserts := put (path.getLastD "") value st.upserts } := by
      rw [SetAllState.add, if_pos hparent]
    rw [hadd] at hordered ⊢
    refine ⟨⟨hordered, h.deletes⟩, ?_⟩
    simp only [SetAllState.flush, setPath, ← hpath]
    rw [updateParentMap_comp _ _ _ h.fields]
    refine updateParentMap_congr (fun m hm => ?_) st.parent h.fields
    have hups := ascending_put h.ascending (path.getLastD "") value
    rw [h.change hm.1, applyChanges_single (ascending_putAll hm.1 _) _ hv, h.deletes,
      applyChanges_without_deletes hm.1 hups (sortedValues_put h.values _ hv),
      putAll_put hm.1 h.ascending]
  · have hadd : st.add (path, some value) =
        { parent := path.dropLast, upserts := [(path.getLastD "", value)], fields := st.flush } := by
      rw [SetAllState.add, if_neg hparent]
      rfl
    rw [hadd] at hordered ⊢
    exact ⟨⟨hordered, rfl⟩, rfl⟩

theorem SetAllState.Valid.foldl {st : SetAllState} (h : st.Valid)
    {data : List (FieldPath × FieldValue)} (hd : Settable data) :
    ((valued data).foldl SetAllState.add st).flush = setEach data st.flush := by
  induction data generalizing st with
  | nil => rfl
  | cons e data ih =>
      have hadd := h.add e.1 (hd.sorted e List.mem_cons_self)
      have hrest := ih hadd.1 hd.tail
      rw [hadd.2] at hrest
      exact hrest

/-- SetAll without deletions is Set, one field after the other. -/
theorem setAll_eq_setEach {data : List (FieldPath × FieldValue)} (hd : Settable data)
    (hf : (FieldValue.map fields).Sorted) :
    setAll (valued data) fields = setEach data fields := by
  have hvalid : SetAllState.Valid { fields := fields } :=
    ⟨⟨List.Pairwise.nil, trivial, hf⟩, rfl⟩
  rw [setAll, hvalid.foldl hd]
  congr 1
  exact hvalid.change hf.1

/-- SetAll flushes one parent map at a time; the result is that of one Set after
the other. -/
theorem setAll_eq_foldl_setPath {data : List (FieldPath × FieldValue)} {fields : MapValue}
    (hd : Settable data) (hf : (FieldValue.map fields).Sorted) :
    setAll (data.map fun e => (e.1, some e.2)) fields =
      data.foldl (fun acc e => setPath e.1 e.2 acc) fields :=
  setAll_eq_setEach hd hf

theorem setAll_two_parents :
    setAll ([(["a", "b"], FieldValue.scalar .null), (["c"], .scalar .null)].map
      fun e => (e.1, some e.2)) [] =
      [(["a", "b"], FieldValue.scalar .null), (["c"], .scalar .null)].foldl
        (fun acc e => setPath e.1 e.2 acc) [] :=
  setAll_eq_foldl_setPath ⟨by simp, by simp [FieldValue.Sorted]⟩ ⟨List.Pairwise.nil, trivial⟩

end Sequential

section DeepMerge

mutual

/-- A map that is not empty is merged into the map already there; any other
value replaces what is there. -/
def mergeValue : MapValue → FieldValue → FieldValue
  | base, .map (e :: fields) => .map (mergeEntries base (e :: fields))
  | _, v => v

def mergeEntries : MapValue → List (String × FieldValue) → MapValue
  | base, [] => base
  | base, (key, v) :: fields =>
      mergeEntries (put key (mergeValue (nestedMap key base) v) base) fields

end

mutual

/-- The paths of the field mask, each with the value found there. -/
def FieldValue.leaves : FieldValue → List (FieldPath × FieldValue)
  | .map fields => leafEntries fields
  | .scalar _ | .array _ => []

def leafEntries : List (String × FieldValue) → List (FieldPath × FieldValue)
  | [] => []
  | (key, v) :: fields =>
      (match v.leaves with
        | [] => [([key], v)]
        | nested => nested.map fun e => (key :: e.1, e.2)) ++ leafEntries fields

end

/-- GetPatch of patch_mutation.cc. -/
def getPatch (mask : FieldMask) (o : MapValue) : TransformMap :=
  (mask.filter fun p => p ≠ []).map fun p => (p, (FieldValue.map o).get p)

/-- The leaves below one entry. -/
def leavesAt (key : String) (v : FieldValue) : List (FieldPath × FieldValue) :=
  match v.leaves with
  | [] => [([key], v)]
  | nested => nested.map fun e => (key :: e.1, e.2)

theorem leafEntries_cons (key : String) (v : FieldValue) (fields : MapValue) :
    leafEntries ((key, v) :: fields) = leavesAt key v ++ leafEntries fields := by
  rw [leafEntries, leavesAt]

theorem leavesAt_of_nil {v : FieldValue} (h : v.leaves = []) (key : String) :
    leavesAt key v = [([key], v)] := by
  rw [leavesAt, h]

theorem leavesAt_of_ne_nil {v : FieldValue} (h : v.leaves ≠ []) (key : String) :
    leavesAt key v = v.leaves.map fun e => (key :: e.1, e.2) := by
  rw [leavesAt]
  cases hl : v.leaves with
  | nil => exact absurd hl h
  | cons e rest => rfl

mutual

theorem extractFieldMask_eq : ∀ v : FieldValue, v.extractFieldMask = v.leaves.map Prod.fst
  | .scalar _ | .array _ => rfl
  | .map fields => fieldMaskOfEntries_eq fields

theorem fieldMaskOfEntries_eq : ∀ fields : List (String × FieldValue),
    fieldMaskOfEntries fields = (leafEntries fields).map Prod.fst
  | [] => rfl
  | (key, v) :: fields => by
      rw [fieldMaskOfEntries, leafEntries_cons, List.map_append, ← fieldMaskOfEntries_eq fields,
        extractFieldMask_eq v, leavesAt]
      cases v.leaves with
      | nil => rfl
      | cons e rest => simp

end

theorem leavesAt_sound {v : FieldValue} (hv : v.Sorted) (hsettable : Settable v.leaves)
    (hget : ∀ e ∈ v.leaves, v.get e.1 = some e.2) (key : String) :
    ∀ e ∈ leavesAt key v, ∃ p, e.1 = key :: p ∧ v.get p = some e.2 ∧ e.2.Sorted := by
  intro e he
  by_cases hl : v.leaves = []
  · rw [leavesAt_of_nil hl, List.mem_singleton] at he
    subst he
    exact ⟨[], rfl, by cases v <;> rfl, hv⟩
  · rw [leavesAt_of_ne_nil hl] at he
    obtain ⟨e', he', rfl⟩ := List.mem_map.mp he
    exact ⟨e'.1, rfl, hget e' he', hsettable.sorted e' he'⟩

/-- An entry in front with a smaller key does not change what a path reads. -/
theorem get_cons_of_get {key : String} {v w : FieldValue} {fields : MapValue}
    (hlt : ∀ e ∈ fields, key < e.1) {path : FieldPath} (hp : path ≠ [])
    (h : (FieldValue.map fields).get path = some w) :
    (FieldValue.map ((key, v) :: fields)).get path = some w := by
  obtain ⟨segment, rest, rfl⟩ := List.exists_cons_of_ne_nil hp
  rw [get_cons] at h ⊢
  obtain ⟨u, hu, -⟩ := Option.bind_eq_some_iff.mp h
  rwa [find_cons, if_neg (hlt _ (mem_of_find hu)).ne]

mutual

theorem leaves_sound : ∀ {v : FieldValue}, v.Sorted →
    Settable v.leaves ∧ ∀ e ∈ v.leaves, v.get e.1 = some e.2
  | .scalar _, _ | .array _, _ => ⟨⟨by simp [FieldValue.leaves], by simp [FieldValue.leaves]⟩,
      by simp [FieldValue.leaves]⟩
  | .map _, h => leafEntries_sound h

theorem leafEntries_sound : ∀ {fields : List (String × FieldValue)},
    (FieldValue.map fields).Sorted →
    Settable (leafEntries fields) ∧
      ∀ e ∈ leafEntries fields, (FieldValue.map fields).get e.1 = some e.2
  | [], _ => ⟨⟨by simp [leafEntries], by simp [leafEntries]⟩, by simp [leafEntries]⟩
  | (key, v) :: fields, h => by
      have hasc := ascending_cons.mp h.1
      obtain ⟨hsettable, hget⟩ := leaves_sound h.2.1
      have htail : (FieldValue.map fields).Sorted := ⟨hasc.2, h.2.2⟩
      obtain ⟨hrest, hgetrest⟩ := leafEntries_sound htail
      have hhead := leavesAt_sound h.2.1 hsettable hget key
      rw [leafEntries_cons]
      refine ⟨⟨fun e he => ?_, fun e he => ?_⟩, fun e he => ?_⟩
      · obtain he | he := List.mem_append.mp he
        · obtain ⟨p, hp, -⟩ := hhead e he
          simp [hp]
        · exact hrest.nonempty e he
      · obtain he | he := List.mem_append.mp he
        · obtain ⟨p, -, -, hsorted⟩ := hhead e he
          exact hsorted
        · exact hrest.sorted e he
      · obtain he | he := List.mem_append.mp he
        · obtain ⟨p, hp, hval, -⟩ := hhead e he
          simpa [hp, find_cons] using hval
        · exact get_cons_of_get hasc.1 (hrest.nonempty e he) (hgetrest e he)

end

/-- The patch a document's own mask selects sets every leaf of the document. -/
theorem getPatch_fieldMask {o : MapValue} (ho : (FieldValue.map o).Sorted) :
    getPatch (fieldMaskOfEntries o) o = valued (leafEntries o) := by
  obtain ⟨hsettable, hget⟩ := leafEntries_sound ho
  have hfilter : (fieldMaskOfEntries o).filter (fun p => p ≠ []) = fieldMaskOfEntries o := by
    rw [fieldMaskOfEntries_eq, List.filter_eq_self]
    intro p hp
    obtain ⟨e, he, rfl⟩ := List.mem_map.mp hp
    simpa using hsettable.nonempty e he
  rw [getPatch, hfilter, fieldMaskOfEntries_eq, List.map_map, valued]
  refine List.map_congr_left fun e he => ?_
  exact congrArg (Prod.mk e.1) (hget e he)

/-- Setting fields below one entry sets them inside the map of that entry. -/
theorem setEach_below (key : String) {data : List (FieldPath × FieldValue)} (hne : data ≠ [])
    (hd : Settable data) (hf : (FieldValue.map fields).Sorted) :
    setEach (data.map fun e => (key :: e.1, e.2)) fields =
      put key (.map (setEach data (nestedMap key fields))) fields := by
  induction data generalizing fields with
  | nil => exact absurd rfl hne
  | cons e data ih =>
      have hp := hd.nonempty e List.mem_cons_self
      have hv := hd.sorted e List.mem_cons_self
      have hnested := sorted_setPath (sorted_nestedMap hf key) e.1 hv
      rw [List.map_cons]
      simp only [setEach, List.foldl_cons]
      rw [setPath_cons hf.1 key hp]
      cases data with
      | nil => rfl
      | cons d data =>
          have hrec := ih (List.cons_ne_nil d data) hd.tail (sorted_put hf key hnested)
          rw [nestedMap_put hf.1, put_put hf.1] at hrec
          exact hrec

theorem setEach_append (data data' : List (FieldPath × FieldValue)) (fields : MapValue) :
    setEach (data ++ data') fields = setEach data' (setEach data fields) :=
  List.foldl_append

theorem leaves_ne_nil (e : String × FieldValue) (fields : MapValue) :
    (FieldValue.map (e :: fields)).leaves ≠ [] := by
  intro h
  have happ := List.append_eq_nil_iff.mp ((leafEntries_cons e.1 e.2 fields).symm.trans h)
  by_cases hl : e.2.leaves = []
  · simpa [leavesAt_of_nil hl] using happ.1
  · rw [leavesAt_of_ne_nil hl, List.map_eq_nil_iff] at happ
    exact hl happ.1

mutual

theorem setEach_leavesAt : ∀ {v : FieldValue} {base : MapValue} (key : String), v.Sorted →
    (FieldValue.map base).Sorted →
    setEach (leavesAt key v) base = put key (mergeValue (nestedMap key base) v) base
  | .scalar v, base, key, hv, hbase => setPath_singleton hbase.1 key hv
  | .array values, base, key, hv, hbase => setPath_singleton hbase.1 key hv
  | .map [], base, key, hv, hbase => setPath_singleton hbase.1 key hv
  | .map (e :: fields), base, key, hv, hbase => by
      rw [leavesAt_of_ne_nil (leaves_ne_nil e fields),
        setEach_below key (leaves_ne_nil e fields) (leaves_sound hv).1 hbase, mergeValue]
      congr 2
      exact setEach_leafEntries hv (sorted_nestedMap hbase key)

theorem setEach_leafEntries : ∀ {o : List (String × FieldValue)} {base : MapValue},
    (FieldValue.map o).Sorted → (FieldValue.map base).Sorted →
    setEach (leafEntries o) base = mergeEntries base o
  | [], _, _, _ => rfl
  | (key, v) :: fields, base, ho, hbase => by
      have hhead := setEach_leavesAt key ho.2.1 hbase
      have hsound := leavesAt_sound ho.2.1 (leaves_sound ho.2.1).1 (leaves_sound ho.2.1).2 key
      have hsettable : Settable (leavesAt key v) := by
        constructor
        · intro e he
          obtain ⟨p, hp, -⟩ := hsound e he
          simp [hp]
        · intro e he
          obtain ⟨p, -, -, hsorted⟩ := hsound e he
          exact hsorted
      have hnext := sorted_setEach hsettable hbase
      rw [leafEntries_cons, setEach_append, hhead, mergeEntries]
      rw [hhead] at hnext
      exact setEach_leafEntries ⟨(ascending_cons.mp ho.1).2, ho.2.2⟩ hnext

end

/-- Applying the patch of a document's own mask is the deep merge. -/
theorem setAll_fieldMask (o base : ObjectValue) :
    setAll (getPatch (fieldMaskOfEntries o.fields) o.fields) base.fields =
      mergeEntries base.fields o.fields := by
  rw [getPatch_fieldMask o.sorted, setAll_eq_setEach (leafEntries_sound o.sorted).1 base.sorted,
    setEach_leafEntries o.sorted base.sorted]

end DeepMerge

end FirebaseLogin.Core
