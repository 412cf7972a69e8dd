import FirebaseLogin.Core.Mutation

/-!
The overlay of a document is one mutation computed from the result of all local
mutations and the mask of the fields they wrote. Applied to the base document it
has to give that result again. It does so for every sequence of mutations whose
patches write whole top-level fields.
-/

namespace FirebaseLogin.Core

open SortedEntries

variable {fields : MapValue} {key : String}

@[simp] theorem FieldValue.get_nil (v : FieldValue) : v.get [] = some v := by
  cases v <;> rfl

@[simp] theorem get_singleton (fields : MapValue) (key : String) :
    (FieldValue.map fields).get [key] = find key fields := by
  rw [get_cons]
  cases find key fields <;> simp

/-- A top-level field holds a value it was set to, or it was not set. -/
theorem find_setEach {data : List (FieldPath × FieldValue)} (hd : Settable data)
    (flat : ∀ e ∈ data, ∃ name, e.1 = [name]) (hf : (FieldValue.map fields).Sorted)
    (key : String) :
    (∃ v, ([key], v) ∈ data ∧ find key (setEach data fields) = some v) ∨
      (∀ e ∈ data, e.1 ≠ [key]) ∧ find key (setEach data fields) = find key fields := by
  induction data generalizing fields with
  | nil => exact .inr ⟨by simp, rfl⟩
  | cons e data ih =>
      obtain ⟨name, hname⟩ := flat e List.mem_cons_self
      have hv := hd.sorted e List.mem_cons_self
      have hset : setPath e.1 e.2 fields = put name e.2 fields := by
        rw [hname, setPath_singleton hf.1 name hv]
      have hrec := ih hd.tail (fun e' he' => flat e' (List.mem_cons_of_mem e he'))
        (sorted_put hf name hv)
      rw [setEach, List.foldl_cons, hset, ← setEach]
      obtain ⟨v, hmem, hfind⟩ | ⟨hnone, hfind⟩ := hrec
      · exact .inl ⟨v, List.mem_cons_of_mem e hmem, hfind⟩
      · rw [hfind, find_put _ _ _ hf.1]
        by_cases hk : name = key
        · subst hk
          exact .inl ⟨e.2, hname ▸ List.mem_cons_self, by simp⟩
        · rw [if_neg hk]
          refine .inr ⟨fun e' he' => ?_, rfl⟩
          obtain rfl | he' := List.mem_cons.mp he'
          · rw [hname]
            simpa using hk
          · exact hnone e' he'

section Patches

/-- The mask names top-level fields that the value has. -/
def TopLevelMask (value : ObjectValue) (mask : FieldMask) : Prop :=
  ∀ p ∈ mask, ∃ name, p = [name] ∧ (find name value.fields).isSome

/-- The patch writes whole top-level fields and removes none. -/
def Mutation.TopLevel : Mutation → Prop
  | .patch _ value mask _ => TopLevelMask value mask
  | .set _ _ _ | .delete _ _ => True

variable {value : ObjectValue} {mask : FieldMask}

def patchData (mask : FieldMask) (value : ObjectValue) : List (FieldPath × FieldValue) :=
  mask.filterMap fun p => (value.get p).map fun v => (p, v)

theorem mem_patchData {e : FieldPath × FieldValue} :
    e ∈ patchData mask value ↔ e.1 ∈ mask ∧ value.get e.1 = some e.2 := by
  simp only [patchData, List.mem_filterMap, Option.map_eq_some_iff]
  constructor
  · rintro ⟨p, hp, v, hv, rfl⟩
    exact ⟨hp, hv⟩
  · rintro ⟨hp, hv⟩
    exact ⟨e.1, hp, e.2, hv, rfl⟩

theorem getPatch_of_topLevel (h : TopLevelMask value mask) :
    getPatch mask value.fields = valued (patchData mask value) := by
  induction mask with
  | nil => rfl
  | cons p mask ih =>
      obtain ⟨name, rfl, hsome⟩ := h p List.mem_cons_self
      obtain ⟨v, hv⟩ := Option.isSome_iff_exists.mp hsome
      have hget : value.get [name] = some v := (get_singleton value.fields name).trans hv
      have hrec := ih fun q hq => h q (List.mem_cons_of_mem [name] hq)
      rw [patchData, List.filterMap_cons, hget]
      rw [getPatch, List.filter_cons_of_pos (by simp), List.map_cons]
      exact congrArg₂ List.cons (congrArg _ hget) hrec

theorem settable_patchData (h : TopLevelMask value mask) : Settable (patchData mask value) where
  nonempty e he := by
    obtain ⟨name, hname, -⟩ := h e.1 (mem_patchData.mp he).1
    simp [hname]
  sorted e he := value.sorted_of_get (mem_patchData.mp he).2

/-- A patch of top-level fields writes the masked fields and keeps the others. -/
theorem find_setAll_getPatch (h : TopLevelMask value mask) (hf : (FieldValue.map fields).Sorted)
    (key : String) :
    find key (setAll (getPatch mask value.fields) fields) =
      if [key] ∈ mask then find key value.fields else find key fields := by
  have hsettable := settable_patchData h
  have hflat : ∀ e ∈ patchData mask value, ∃ name, e.1 = [name] := by
    intro e he
    obtain ⟨name, hname, -⟩ := h e.1 (mem_patchData.mp he).1
    exact ⟨name, hname⟩
  rw [getPatch_of_topLevel h, setAll_eq_setEach hsettable hf]
  obtain ⟨v, hmem, hfind⟩ | ⟨hnone, hfind⟩ := find_setEach hsettable hflat hf key
  · obtain ⟨hmask, hget⟩ := mem_patchData.mp hmem
    rw [hfind, if_pos hmask, ← hget, ObjectValue.get, get_singleton]
  · rw [hfind, if_neg]
    intro hmask
    obtain ⟨name, hname, hsome⟩ := h [key] hmask
    obtain rfl : key = name := by simpa using hname
    obtain ⟨v, hv⟩ := Option.isSome_iff_exists.mp hsome
    refine hnone ([key], v) (mem_patchData.mpr ⟨hmask, ?_⟩) rfl
    rw [ObjectValue.get, get_singleton, hv]

end Patches

section Replay

/-- The local mutations of a document in the order they were made, each with its
write time. -/
def replay : List (Mutation × Timestamp) → MutableDocument → Option FieldMask →
    MutableDocument × Option FieldMask
  | [], doc, mask => (doc, mask)
  | m :: ms, doc, mask =>
      replay ms (m.1.applyLocally doc mask m.2).1 (m.1.applyLocally doc mask m.2).2

theorem replay_append (ms ns : List (Mutation × Timestamp)) (doc : MutableDocument)
    (mask : Option FieldMask) :
    replay (ms ++ ns) doc mask = replay ns (replay ms doc mask).1 (replay ms doc mask).2 := by
  induction ms generalizing doc mask with
  | nil => rfl
  | cons m ms ih => exact ih _ _

def MutableDocument.localWrite (doc : MutableDocument) (value : ObjectValue) : MutableDocument :=
  (doc.convertToFoundDocument doc.version value).setHasLocalMutations

def MutableDocument.localDelete (doc : MutableDocument) : MutableDocument :=
  (doc.convertToNoDocument 0).setHasLocalMutations

/-- The document is the base with the masked fields written, or a document that
no longer depends on the base. -/
inductive Tracks (base : MutableDocument) : MutableDocument → Option FieldMask → Prop where
  | untouched : Tracks base base (some [])
  | patched {value : ObjectValue} {mask : FieldMask} (flat : ∀ p ∈ mask, ∃ name, p = [name])
      (agree : ∀ key, if [key] ∈ mask then (find key value.fields).isSome
        else find key value.fields = find key base.value.fields) :
      Tracks base (base.localWrite value) (some mask)
  | written (value : ObjectValue) : Tracks base (base.localWrite value) none
  | deleted : Tracks base base.localDelete none

variable {base doc : MutableDocument} {mask : Option FieldMask}

theorem Tracks.localWrite_eq (h : Tracks base doc mask) (value : ObjectValue) :
    doc.localWrite value = base.localWrite value := by
  cases h <;> rfl

theorem Tracks.localDelete_eq (h : Tracks base doc mask) : doc.localDelete = base.localDelete := by
  cases h <;> rfl

theorem Tracks.agree {m : FieldMask} (h : Tracks base doc (some m)) :
    (∀ p ∈ m, ∃ name, p = [name]) ∧
      ∀ key, if [key] ∈ m then (find key doc.value.fields).isSome
        else find key doc.value.fields = find key base.value.fields := by
  cases h with
  | untouched => exact ⟨by simp, by simp⟩
  | patched flat agree => exact ⟨flat, agree⟩

/-- What a patch of top-level fields makes of the data. -/
theorem agree_patch {value data : ObjectValue} {m mask : FieldMask}
    (hmask : TopLevelMask value mask)
    (agree : ∀ key, if [key] ∈ m then (find key data.fields).isSome
      else find key data.fields = find key base.value.fields) (key : String) :
    if [key] ∈ insertAllPaths mask m then
      (find key (data.setAll _ (sortedData_getPatch mask value)).fields).isSome
    else find key (data.setAll _ (sortedData_getPatch mask value)).fields =
      find key base.value.fields := by
  have hpatch := find_setAll_getPatch hmask data.sorted key
  have hbefore := agree key
  simp only [mem_insertAllPaths, ObjectValue.setAll] at hpatch ⊢
  rw [hpatch]
  by_cases hm : [key] ∈ mask
  · obtain ⟨name, hname, hsome⟩ := hmask [key] hm
    obtain rfl : key = name := by simpa using hname
    rw [if_pos (.inl hm), if_pos hm]
    exact hsome
  · rw [if_neg hm]
    simpa only [hm, false_or] using hbefore

/-- Every mutation keeps track of the base. -/
theorem Tracks.apply (h : Tracks base doc mask) {mutation : Mutation} (hm : mutation.TopLevel)
    (t : Timestamp) :
    Tracks base (mutation.applyLocally doc mask t).1
      (mutation.applyLocally doc mask t).2 := by
  cases mutation with
  | set key value precondition =>
      simp only [Mutation.applyLocally]
      split
      · change Tracks base (doc.localWrite _) none
        rw [h.localWrite_eq]
        exact .written _
      · exact h
  | patch key value m precondition =>
      simp only [Mutation.applyLocally]
      split
      · change Tracks base (doc.localWrite _) _
        rw [h.localWrite_eq]
        cases mask with
        | none => exact .written _
        | some previous =>
            obtain ⟨flat, agree⟩ := h.agree
            refine .patched (fun p hp => ?_) (agree_patch hm agree)
            obtain hp | hp := mem_insertAllPaths.mp hp
            · obtain ⟨name, hname, -⟩ := hm p hp
              exact ⟨name, hname⟩
            · exact flat p hp
      · exact h
  | delete key precondition =>
      simp only [Mutation.applyLocally]
      split
      · change Tracks base doc.localDelete none
        rw [h.localDelete_eq]
        exact .deleted
      · exact h

theorem Tracks.replay (h : Tracks base doc mask) {ms : List (Mutation × Timestamp)}
    (hms : ∀ m ∈ ms, m.1.TopLevel) :
    Tracks base (Core.replay ms doc mask).1 (Core.replay ms doc mask).2 := by
  induction ms generalizing doc mask with
  | nil => exact h
  | cons m ms ih =>
      exact ih (h.apply (hms m List.mem_cons_self) m.2) fun m' hm' =>
        hms m' (List.mem_cons_of_mem m hm')

end Replay

section Calculate

variable {data : ObjectValue} {mask : FieldMask}

theorem overlayStep_singleton {name : String} {v : FieldValue}
    (hv : find name data.fields = some v) {st : MapValue × FieldMask} (hst : Ascending st.1) :
    overlayStep data st [name] =
      if [name] ∈ st.2 then st else (put name v st.1, insertPath [name] st.2) := by
  have hget : data.get [name] = some v := (get_singleton data.fields name).trans hv
  unfold overlayStep
  split
  · rfl
  · simp only [List.length_singleton, lt_irrefl, and_false, if_false, hget]
    rw [setPath_singleton hst name (data.sorted_of_get hget)]

/-- The patch of an overlay holds the masked fields of the document. -/
theorem overlayPatch_spec (flat : ∀ p ∈ mask, ∃ name, p = [name])
    (present : ∀ key, [key] ∈ mask → (find key data.fields).isSome) :
    (∀ p, p ∈ (overlayPatch data mask).2 ↔ p ∈ mask) ∧
      ∀ key, [key] ∈ mask →
        find key (overlayPatch data mask).1 = find key data.fields := by
  have hfold : ∀ st : MapValue × FieldMask, Ascending st.1 →
      (∀ key, [key] ∈ st.2 → find key st.1 = find key data.fields) →
      (∀ p, p ∈ (mask.foldl (overlayStep data) st).2 ↔ p ∈ mask ∨ p ∈ st.2) ∧
        ∀ key, [key] ∈ mask ∨ [key] ∈ st.2 →
          find key (mask.foldl (overlayStep data) st).1 = find key data.fields := by
    induction mask with
    | nil => simp
    | cons p mask ih =>
        intro st hst hheld
        obtain ⟨name, rfl⟩ := flat p List.mem_cons_self
        obtain ⟨v, hv⟩ := Option.isSome_iff_exists.mp (present name List.mem_cons_self)
        have hstep := overlayStep_singleton hv hst
        have hrec := ih (fun q hq => flat q (List.mem_cons_of_mem [name] hq))
          (fun key hk => present key (List.mem_cons_of_mem [name] hk)) (overlayStep data st [name])
        rw [List.foldl_cons]
        by_cases hmem : [name] ∈ st.2
        · rw [if_pos hmem] at hstep
          rw [hstep] at hrec ⊢
          obtain ⟨hmask, hfind⟩ := hrec hst hheld
          refine ⟨fun q => ?_, fun key hk => hfind key ?_⟩
          · rw [hmask, List.mem_cons, or_assoc]
            exact ⟨.inr, fun h => h.elim (fun hq => .inr (hq ▸ hmem)) id⟩
          · rw [List.mem_cons, or_assoc] at hk
            exact hk.elim (fun hq => .inr (hq ▸ hmem)) id
        · rw [if_neg hmem] at hstep
          rw [hstep] at hrec ⊢
          obtain ⟨hmask, hfind⟩ := hrec (ascending_put hst name v) fun key hk => by
            rw [find_put _ _ _ hst]
            split
            · next heq => rw [← heq, hv]
            · next hne =>
                simp only [mem_insertPath, List.cons.injEq, and_true, Ne.symm hne, false_or] at hk
                exact hheld key hk
          refine ⟨fun q => ?_, fun key hk => hfind key ?_⟩
          · rw [hmask, mem_insertPath, List.mem_cons, or_left_comm, or_assoc]
          · rwa [mem_insertPath, or_left_comm, ← or_assoc, ← List.mem_cons]
  obtain ⟨hmask, hfind⟩ := hfold ([], []) List.Pairwise.nil (by simp)
  exact ⟨fun p => (hmask p).trans (by simp), fun key hk => hfind key (.inl hk)⟩

/-- The overlay of a document, applied to its base. -/
def overlaid (overlay : Option Mutation) (base : MutableDocument) (t : Timestamp) :
    Option MutableDocument :=
  match overlay with
  | some mutation => (mutation.applyToLocalView base (some []) t).map Prod.fst
  | none => some base

theorem applyLocally_plain_set (key : DocumentReference) (value : ObjectValue)
    (doc : MutableDocument) (mask : Option FieldMask) (t : Timestamp) :
    (Mutation.set key value .none).applyLocally doc mask t = (doc.localWrite value, none) := rfl

theorem applyLocally_plain_patch (key : DocumentReference) (value : ObjectValue)
    (m : FieldMask) (doc : MutableDocument) (mask : Option FieldMask) (t : Timestamp) :
    (Mutation.patch key value m .none).applyLocally doc mask t =
      (doc.localWrite (doc.value.setAll _ (sortedData_getPatch m value)),
        mask.map (insertAllPaths m)) := rfl

theorem applyLocally_plain_delete (key : DocumentReference) (doc : MutableDocument)
    (mask : Option FieldMask) (t : Timestamp) :
    (Mutation.delete key .none).applyLocally doc mask t = (doc.localDelete, none) := rfl

/-- A write with merge is the deep merge of the two documents, whatever they hold. -/
theorem applyToLocalView_merge (value : ObjectValue) (doc : MutableDocument)
    (mask : Option FieldMask) (t : Timestamp) :
    ((Mutation.patch doc.key value (FieldValue.map value.fields).extractFieldMask
      .none).applyToLocalView doc mask t).map (fun view => view.1.value.fields) =
        some (mergeEntries doc.value.fields value.fields) := by
  rw [Mutation.applyToLocalView_of_key rfl, applyLocally_plain_patch]
  exact congrArg some (setAll_fieldMask value doc.value)

theorem overlaid_of_tracks {base doc : MutableDocument} {mask : Option FieldMask}
    (h : Tracks base doc mask) (hbase : base.hasLocalMutations = false) (t : Timestamp) :
    overlaid (calculateOverlayMutation doc mask) base t = some doc := by
  cases h with
  | untouched => simp [calculateOverlayMutation, hbase, overlaid]
  | @patched value m flat agree =>
      have hpresent : ∀ key, [key] ∈ m → (find key value.fields).isSome := by
        intro key hk
        simpa [hk] using agree key
      obtain ⟨hmask, hfind⟩ := overlayPatch_spec flat hpresent
      have htop : TopLevelMask ⟨_, sorted_overlayPatch value m⟩ (overlayPatch value m).2 := by
        intro p hp
        obtain ⟨name, rfl⟩ := flat p ((hmask p).mp hp)
        refine ⟨name, rfl, ?_⟩
        rw [hfind name ((hmask _).mp hp)]
        exact hpresent name ((hmask _).mp hp)
      have hvalue : base.value.setAll _ (sortedData_getPatch (overlayPatch value m).2
          ⟨_, sorted_overlayPatch value m⟩) = value := by
        refine ObjectValue.ext (SortedEntries.ext (ObjectValue.sorted _).1 value.sorted.1
          fun key => ?_)
        have hkey := agree key
        rw [ObjectValue.setAll, find_setAll_getPatch htop base.value.sorted]
        by_cases hk : [key] ∈ m
        · rw [if_pos ((hmask _).mpr hk), hfind key hk]
        · rw [if_neg hk] at hkey
          rw [if_neg fun h => hk ((hmask _).mp h), hkey]
      have hoverlay : calculateOverlayMutation (base.localWrite value) (some m) =
          some (.patch base.key ⟨_, sorted_overlayPatch value m⟩ (overlayPatch value m).2 .none) :=
        rfl
      rw [hoverlay, overlaid, Mutation.applyToLocalView_of_key rfl, applyLocally_plain_patch,
        hvalue]
      rfl
  | written value =>
      have hoverlay : calculateOverlayMutation (base.localWrite value) none =
          some (.set base.key value .none) := rfl
      rw [hoverlay, overlaid, Mutation.applyToLocalView_of_key rfl, applyLocally_plain_set]
      rfl
  | deleted =>
      have hoverlay : calculateOverlayMutation base.localDelete none =
          some (.delete base.key .none) := rfl
      rw [hoverlay, overlaid, Mutation.applyToLocalView_of_key rfl, applyLocally_plain_delete]
      rfl

/-- The overlay stands for the whole sequence of mutations: applied to the base
document it gives what the mutations give. -/
theorem overlaid_replay {base : MutableDocument} {ms : List (Mutation × Timestamp)}
    (hbase : base.hasLocalMutations = false) (hms : ∀ m ∈ ms, m.1.TopLevel) (t : Timestamp) :
    overlaid (calculateOverlayMutation (replay ms base (some [])).1
      (replay ms base (some [])).2) base t = some (replay ms base (some [])).1 :=
  overlaid_of_tracks (Tracks.untouched.replay hms) hbase t

section Examples

/-- A document of the server. -/
def remoteDocument (id : String) (version : SnapshotVersion) (value : ObjectValue) :
    MutableDocument :=
  (MutableDocument.invalidDocument (profileRef id)).convertToFoundDocument version value

/-- Two patches under preconditions that hold, and a delete under one that fails. -/
def patchedTwice : List (Mutation × Timestamp) :=
  [(.patch (profileRef "u") (oneField "a" 1) [["a"]] (.exists_ true), 1),
    (.delete (profileRef "u") (.exists_ false), 2),
    (.patch (profileRef "u") (oneField "c" 2) [["c"]] (.updateTime 0), 3)]

theorem overlaid_replay_patchedTwice :
    (replay patchedTwice (remoteDocument "u" 5 (oneField "c" 7)) (some [])).1.value.fields =
        [("a", .scalar (.integer 1)), ("c", .scalar (.integer 2))] ∧
      overlaid (calculateOverlayMutation
        (replay patchedTwice (remoteDocument "u" 5 (oneField "c" 7)) (some [])).1
        (replay patchedTwice (remoteDocument "u" 5 (oneField "c" 7)) (some [])).2)
        (remoteDocument "u" 5 (oneField "c" 7)) 4 =
          some (replay patchedTwice (remoteDocument "u" 5 (oneField "c" 7)) (some [])).1 := by
  refine ⟨by rfl, overlaid_replay rfl ?_ 4⟩
  simp [patchedTwice, Mutation.TopLevel, TopLevelMask, oneField, find_cons]

end Examples

end Calculate

end FirebaseLogin.Core
