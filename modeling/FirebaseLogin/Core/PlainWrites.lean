import FirebaseLogin.Core.LocalStore

/-!
Mutations without a precondition whose patches write whole top-level fields, which
are all the app makes. The overlay calculated from one base document stands for
the mutations over every base document: two runs of the same mutations from two
bases write the same fields.
-/

namespace FirebaseLogin.Core

open SortedEntries

def Mutation.Plain : Mutation → Prop
  | .set _ _ precondition => precondition = .none
  | .patch _ value mask precondition => precondition = .none ∧ TopLevelMask value mask
  | .delete _ precondition => precondition = .none

/-- The document does not depend on the mask that is carried along. -/
theorem Mutation.applyLocally_mask (m : Mutation) (doc : MutableDocument)
    (mask mask' : Option FieldMask) (t : Timestamp) :
    (m.applyLocally doc mask t).1 = (m.applyLocally doc mask' t).1 := by
  cases m <;> simp only [Mutation.applyLocally] <;> split <;> rfl

theorem replay_mask (ms : List (Mutation × Timestamp)) (doc : MutableDocument)
    (mask mask' : Option FieldMask) : (replay ms doc mask).1 = (replay ms doc mask').1 := by
  induction ms generalizing doc mask mask' with
  | nil => rfl
  | cons m ms ih =>
      rw [replay, replay, m.1.applyLocally_mask doc mask mask']
      exact ih _ _ _

/-- Two documents to which the same mutations led, each from its own base. -/
inductive Twin (base base' : MutableDocument) :
    MutableDocument → Option FieldMask → MutableDocument → Option FieldMask → Prop where
  | untouched : Twin base base' base (some []) base' (some [])
  | patched {value value' : ObjectValue} {mask mask' : FieldMask}
      (flat : ∀ p ∈ mask, ∃ name, p = [name]) (same : ∀ p, p ∈ mask ↔ p ∈ mask')
      (agree : ∀ key, if [key] ∈ mask then
          (find key value.fields).isSome ∧ find key value'.fields = find key value.fields
        else find key value.fields = find key base.value.fields ∧
          find key value'.fields = find key base'.value.fields) :
      Twin base base' (base.localWrite value) (some mask) (base'.localWrite value') (some mask')
  | written (value : ObjectValue) :
      Twin base base' (base.localWrite value) none (base'.localWrite value) none
  | deleted : Twin base base' base.localDelete none base'.localDelete none

variable {base base' doc doc' : MutableDocument} {mask mask' : Option FieldMask}

theorem Twin.localWrite_eq (h : Twin base base' doc mask doc' mask') (value : ObjectValue) :
    doc.localWrite value = base.localWrite value ∧
      doc'.localWrite value = base'.localWrite value := by
  cases h <;> exact ⟨rfl, rfl⟩

theorem Twin.localDelete_eq (h : Twin base base' doc mask doc' mask') :
    doc.localDelete = base.localDelete ∧ doc'.localDelete = base'.localDelete := by
  cases h <;> exact ⟨rfl, rfl⟩

theorem Twin.masks (h : Twin base base' doc mask doc' mask') :
    (mask = none ∧ mask' = none ∧ doc.value = doc'.value) ∨
      ∃ m m', mask = some m ∧ mask' = some m' ∧ (∀ p ∈ m, ∃ name, p = [name]) ∧
        (∀ p, p ∈ m ↔ p ∈ m') ∧
        ∀ key, if [key] ∈ m then (find key doc.value.fields).isSome ∧
            find key doc'.value.fields = find key doc.value.fields
          else find key doc.value.fields = find key base.value.fields ∧
            find key doc'.value.fields = find key base'.value.fields := by
  cases h with
  | untouched => exact .inr ⟨[], [], rfl, rfl, by simp, by simp, by simp⟩
  | patched flat same agree => exact .inr ⟨_, _, rfl, rfl, flat, same, agree⟩
  | written value => exact .inl ⟨rfl, rfl, rfl⟩
  | deleted => exact .inl ⟨rfl, rfl, rfl⟩

theorem Twin.patch (h : Twin base base' doc mask doc' mask') {value : ObjectValue}
    {m : FieldMask} (hm : TopLevelMask value m) :
    Twin base base' (doc.localWrite (doc.value.setAll _ (sortedData_getPatch m value)))
      (mask.map (insertAllPaths m))
      (doc'.localWrite (doc'.value.setAll _ (sortedData_getPatch m value)))
      (mask'.map (insertAllPaths m)) := by
  rw [(h.localWrite_eq _).1, (h.localWrite_eq _).2]
  obtain ⟨rfl, rfl, hvalue⟩ | ⟨previous, previous', rfl, rfl, flat, same, agree⟩ := h.masks
  · rw [hvalue]
    exact .written _
  · refine .patched (fun p hp => ?_) (fun p => ?_) fun key => ?_
    · obtain hp | hp := mem_insertAllPaths.mp hp
      · obtain ⟨name, hname, -⟩ := hm p hp
        exact ⟨name, hname⟩
      · exact flat p hp
    · rw [mem_insertAllPaths, mem_insertAllPaths, same]
    · have hkey := agree key
      have hfind := find_setAll_getPatch hm doc.value.sorted key
      have hfind' := find_setAll_getPatch hm doc'.value.sorted key
      simp only [mem_insertAllPaths, ObjectValue.setAll, hfind, hfind']
      by_cases hin : [key] ∈ m
      · obtain ⟨name, hname, hsome⟩ := hm [key] hin
        obtain rfl : key = name := by simpa using hname
        rw [if_pos (.inl hin), if_pos hin, if_pos hin]
        exact ⟨hsome, rfl⟩
      · simpa only [hin, false_or, if_false] using hkey

/-- The same mutation keeps the two documents together. -/
theorem Twin.apply (h : Twin base base' doc mask doc' mask') {mutation : Mutation}
    (hm : mutation.Plain) (t : Timestamp) :
    Twin base base' (mutation.applyLocally doc mask t).1
      (mutation.applyLocally doc mask t).2 (mutation.applyLocally doc' mask' t).1
      (mutation.applyLocally doc' mask' t).2 := by
  cases mutation with
  | set key value precondition =>
      obtain rfl := hm
      rw [applyLocally_plain_set, applyLocally_plain_set, (h.localWrite_eq _).1,
        (h.localWrite_eq _).2]
      exact .written value
  | patch key value m precondition =>
      obtain ⟨rfl, hmask⟩ := hm
      rw [applyLocally_plain_patch, applyLocally_plain_patch]
      exact h.patch hmask
  | delete key precondition =>
      obtain rfl := hm
      rw [applyLocally_plain_delete, applyLocally_plain_delete, h.localDelete_eq.1,
        h.localDelete_eq.2]
      exact .deleted

theorem Twin.replay (h : Twin base base' doc mask doc' mask') {ms : List (Mutation × Timestamp)}
    (hms : ∀ m ∈ ms, m.1.Plain) :
    Twin base base' (Core.replay ms doc mask).1 (Core.replay ms doc mask).2
      (Core.replay ms doc' mask').1 (Core.replay ms doc' mask').2 := by
  induction ms generalizing doc mask doc' mask' with
  | nil => exact h
  | cons m ms ih =>
      exact ih (h.apply (hms m List.mem_cons_self) m.2) fun m' hm' =>
        hms m' (List.mem_cons_of_mem m hm')

/-- One plain mutation, with its own mask, is such a pair over any two bases. -/
theorem Twin.of_plain (base base' : MutableDocument) {mutation : Mutation}
    (hm : mutation.Plain) (previous : Option FieldMask) (t : Timestamp) :
    Twin base base' (mutation.applyLocally base previous t).1 mutation.fieldMask
      (mutation.applyLocally base' previous t).1 mutation.fieldMask := by
  cases mutation with
  | set key value precondition =>
      obtain rfl := hm
      rw [applyLocally_plain_set, applyLocally_plain_set]
      exact .written value
  | patch key value m precondition =>
      obtain ⟨rfl, hmask⟩ := hm
      rw [applyLocally_plain_patch, applyLocally_plain_patch]
      refine .patched (fun p hp => ?_) (fun p => Iff.rfl) fun key => ?_
      · obtain ⟨name, hname, -⟩ := hmask p hp
        exact ⟨name, hname⟩
      · simp only [ObjectValue.setAll, find_setAll_getPatch hmask base.value.sorted,
          find_setAll_getPatch hmask base'.value.sorted]
        by_cases hin : [key] ∈ m
        · obtain ⟨name, hname, hsome⟩ := hmask [key] hin
          obtain rfl : key = name := by simpa using hname
          simpa only [hin, if_true, and_true] using hsome
        · simp only [hin, if_false, and_self]
  | delete key precondition =>
      obtain rfl := hm
      rw [applyLocally_plain_delete, applyLocally_plain_delete]
      exact .deleted

/-- The overlay calculated from one of the documents turns the other's base into
the other document. -/
theorem Twin.overlay (h : Twin base base' doc mask doc' mask')
    {mutation : Mutation} (hbase : base.hasLocalMutations = false)
    (hm : calculateOverlayMutation doc mask = some mutation) :
    mutation.Plain ∧ ∀ previous t, (mutation.applyLocally base' previous t).1 = doc' := by
  cases h with
  | untouched =>
      simp [calculateOverlayMutation, hbase] at hm
  | @patched value value' m m' flat same agree =>
      obtain rfl := Option.some.inj hm
      have hpresent : ∀ key, [key] ∈ m → (find key value.fields).isSome := by
        intro key hk
        have hboth := agree key
        rw [if_pos hk] at hboth
        exact hboth.1
      obtain ⟨hmask, hfind⟩ := overlayPatch_spec flat hpresent
      have htop : TopLevelMask ⟨_, sorted_overlayPatch value m⟩ (overlayPatch value m).2 := by
        intro p hp
        obtain ⟨name, rfl⟩ := flat p ((hmask p).mp hp)
        refine ⟨name, rfl, ?_⟩
        rw [hfind name ((hmask _).mp hp)]
        exact hpresent name ((hmask _).mp hp)
      refine ⟨⟨rfl, htop⟩, fun previous t => ?_⟩
      refine (congrArg Prod.fst (applyLocally_plain_patch _ _ _ base' previous t)).trans ?_
      refine congrArg base'.localWrite (ObjectValue.ext (SortedEntries.ext
        (ObjectValue.sorted _).1 value'.sorted.1 fun key => ?_))
      have hboth := agree key
      rw [ObjectValue.setAll]
      refine (find_setAll_getPatch htop base'.value.sorted key).trans ?_
      by_cases hk : [key] ∈ m
      · rw [if_pos hk] at hboth
        rw [if_pos ((hmask _).mpr hk)]
        exact (hfind key hk).trans hboth.2.symm
      · rw [if_neg hk] at hboth
        rw [if_neg fun hin => hk ((hmask _).mp hin), hboth.2]
  | written value =>
      obtain rfl := Option.some.inj hm
      refine ⟨rfl, fun previous t => ?_⟩
      exact congrArg Prod.fst (applyLocally_plain_set _ value base' previous t)
  | deleted =>
      obtain rfl := Option.some.inj hm
      refine ⟨rfl, fun previous t => ?_⟩
      exact congrArg Prod.fst (applyLocally_plain_delete _ base' previous t)

/-- Over bases with the same fields the two documents are the same, unless no
mutation led away from the bases. -/
theorem Twin.eq_or_untouched (h : Twin base base' doc mask doc' mask') (hkey : base.key = base'.key)
    (hvalue : base.value = base'.value) : doc = base ∧ doc' = base' ∨ doc = doc' := by
  have hwrite : ∀ value, base.localWrite value = base'.localWrite value := by
    intro value
    simp [MutableDocument.localWrite, MutableDocument.convertToFoundDocument,
      MutableDocument.setHasLocalMutations, hkey]
  cases h with
  | untouched => exact .inl ⟨rfl, rfl⟩
  | @patched value value' mask mask' flat same agree =>
      right
      have hsame : value = value' := by
        refine ObjectValue.ext_find fun key => ?_
        have hagree := agree key
        split at hagree
        · exact hagree.2.symm
        · rw [hagree.1, hagree.2, hvalue]
      rw [hwrite, hsame]
  | written value => exact .inr (hwrite value)
  | deleted =>
      right
      simp [MutableDocument.localDelete, MutableDocument.convertToNoDocument,
        MutableDocument.setHasLocalMutations, hkey]

/-- Mutations that lead to a document leave it as it is when they are made again. -/
theorem Twin.eq_of_base_eq (h : Twin base base' doc mask doc' mask') (hbase : base' = doc) :
    doc' = doc := by
  cases h with
  | untouched => exact hbase
  | @patched value value' mask mask' flat same agree =>
      subst hbase
      have hsame : value' = value := by
        refine ObjectValue.ext_find fun key => ?_
        have hagree := agree key
        split at hagree
        · exact hagree.2
        · exact hagree.2
      rw [hsame]
      rfl
  | written value =>
      subst hbase
      rfl
  | deleted =>
      subst hbase
      rfl

theorem replay_replay {ms : List (Mutation × Timestamp)} (hms : ∀ m ∈ ms, m.1.Plain)
    (doc : MutableDocument) (mask mask' : Option FieldMask) :
    (replay ms (replay ms doc mask).1 mask').1 = (replay ms doc mask).1 := by
  rw [replay_mask ms _ mask' (some []), replay_mask ms doc mask (some [])]
  exact (Twin.untouched.replay hms).eq_of_base_eq rfl

/-- A plain mutation writes the document or deletes it. -/
theorem Mutation.Plain.written_or_deleted {m : Mutation} (hm : m.Plain) (doc : MutableDocument)
    (mask : Option FieldMask) (t : Timestamp) :
    (∃ value, (m.applyLocally doc mask t).1 = doc.localWrite value) ∨
      (m.applyLocally doc mask t).1 = doc.localDelete := by
  cases m with
  | set key value precondition =>
      obtain rfl := hm
      rw [applyLocally_plain_set]
      exact .inl ⟨value, rfl⟩
  | patch key value m precondition =>
      obtain ⟨rfl, -⟩ := hm
      rw [applyLocally_plain_patch]
      exact .inl ⟨_, rfl⟩
  | delete key precondition =>
      obtain rfl := hm
      rw [applyLocally_plain_delete]
      exact .inr rfl

theorem Mutation.Plain.hasLocalMutations {m : Mutation} (hm : m.Plain) (doc : MutableDocument)
    (mask : Option FieldMask) (t : Timestamp) :
    (m.applyLocally doc mask t).1.hasLocalMutations = true := by
  obtain ⟨value, hwrite⟩ | hdelete := hm.written_or_deleted doc mask t
  · rw [hwrite]
    rfl
  · rw [hdelete]
    rfl

theorem replay_hasLocalMutations {ms : List (Mutation × Timestamp)} (hms : ∀ m ∈ ms, m.1.Plain)
    (hne : ms ≠ []) (doc : MutableDocument) (mask : Option FieldMask) :
    (replay ms doc mask).1.hasLocalMutations = true := by
  obtain ⟨init, last, rfl⟩ := List.eq_nil_or_concat' ms |>.resolve_left hne
  rw [replay_append]
  exact (hms last (by simp)).hasLocalMutations _ _ last.2

theorem replay_isValidDocument {ms : List (Mutation × Timestamp)} (hms : ∀ m ∈ ms, m.1.Plain)
    (hne : ms ≠ []) (doc : MutableDocument) (mask : Option FieldMask) :
    (replay ms doc mask).1.isValidDocument = true := by
  obtain ⟨init, last, rfl⟩ := List.eq_nil_or_concat' ms |>.resolve_left hne
  rw [replay_append]
  obtain ⟨value, hwrite⟩ | hdelete := (hms last (by simp)).written_or_deleted _ _ last.2
  · exact (congrArg MutableDocument.isValidDocument hwrite).trans rfl
  · exact (congrArg MutableDocument.isValidDocument hdelete).trans rfl

theorem calculateOverlayMutation_isSome (h : doc.hasLocalMutations = true)
    (mask : Option FieldMask) :
    ∃ mutation, calculateOverlayMutation doc mask = some mutation := by
  unfold calculateOverlayMutation
  rw [if_pos h]
  cases mask with
  | some m => exact ⟨_, rfl⟩
  | none =>
      by_cases hno : doc.isNoDocument
      · exact ⟨_, if_pos hno⟩
      · exact ⟨_, if_neg hno⟩

theorem calculateOverlayMutation_key {mutation : Mutation}
    (h : calculateOverlayMutation doc mask = some mutation) : mutation.key = doc.key := by
  unfold calculateOverlayMutation at h
  split at h
  · split at h
    · split at h <;> cases h <;> rfl
    · cases h
      rfl
  · cases h

end FirebaseLogin.Core
