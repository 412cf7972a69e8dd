import FirebaseLogin.Core.LocalConsistency

/-!
Each operation of the local store keeps it consistent, and none of them runs into
one of the library's assertions.
-/

namespace FirebaseLogin.Core

open SortedEntries

namespace LocalStore

variable {s s' : LocalStore} {key : DocumentReference} {now : Timestamp}

section Write

variable {batch : MutationBatch} {view : DocumentReference → OverlayedDocument}
  {overlay : DocumentReference → Mutation}

/-- What the loop over the mutations of the batch keeps: a document without an
overlay so far is as it was handed in. -/
structure SetInvariant (batch : MutationBatch) (view : DocumentReference → OverlayedDocument)
    (overlay : DocumentReference → Mutation) (set : LocalDocumentSet) : Prop where
  nodup : (set.overlays.map Prod.fst).Nodup
  present : ∀ key ∈ batch.keys, (set.documents key).isSome
  fresh : ∀ key ∈ batch.keys, key ∉ set.overlays.map Prod.fst → set.documents key = some (view key)
  calculated : ∀ e ∈ set.overlays, e.1 ∈ batch.keys ∧ e.2 = overlay e.1

/-- The overlay the batch calculates for each of its documents. -/
def Calculates (batch : MutationBatch) (view : DocumentReference → OverlayedDocument)
    (overlay : DocumentReference → Mutation) : Prop :=
  ∀ key ∈ batch.keys, calculateOverlayMutation
    (batch.applyToLocalView (view key).1 (view key).2).1
    (batch.applyToLocalView (view key).1 (view key).2).2 = some (overlay key)

theorem SetInvariant.applyMutation_eq {set : LocalDocumentSet}
    (h : SetInvariant batch view overlay set) (hoverlay : Calculates batch view overlay)
    {m : Mutation} (hm : m.key ∈ batch.keys) :
    ∃ document, set.applyMutation batch m = some
      { documents := Function.update set.documents m.key (some document)
        overlays := if m.key ∈ set.overlays.map Prod.fst then set.overlays
          else set.overlays ++ [(m.key, overlay m.key)] } := by
  obtain ⟨⟨doc, mask⟩, hdoc⟩ := Option.isSome_iff_exists.mp (h.present m.key hm)
  set applied := (batch.applyToLocalView doc mask).1
  refine ⟨(if applied.isValidDocument then applied else applied.convertToNoDocument 0, mask), ?_⟩
  rw [LocalDocumentSet.applyMutation, hdoc, Option.map_some]
  by_cases hold : m.key ∈ set.overlays.map Prod.fst
  · simp only [if_pos hold, applied]
  · have hview : view m.key = (doc, mask) :=
      Option.some.inj ((h.fresh m.key hm hold).symm.trans hdoc)
    have hcalc := hoverlay m.key hm
    rw [hview] at hcalc
    simp only [if_neg hold, hcalc, applied]

theorem SetInvariant.applyMutation {set : LocalDocumentSet}
    (h : SetInvariant batch view overlay set) (hoverlay : Calculates batch view overlay)
    {m : Mutation} (hm : m.key ∈ batch.keys) :
    ∃ set', set.applyMutation batch m = some set' ∧ SetInvariant batch view overlay set' ∧
      ∀ key, key ∈ set'.overlays.map Prod.fst ↔ key = m.key ∨ key ∈ set.overlays.map Prod.fst := by
  obtain ⟨document, hset⟩ := h.applyMutation_eq hoverlay hm
  refine ⟨_, hset, ?_⟩
  have hpresent : ∀ key ∈ batch.keys,
      (Function.update set.documents m.key (some document) key).isSome := by
    intro key hkey
    by_cases heq : key = m.key
    · simp [heq]
    · rw [Function.update_of_ne heq]
      exact h.present key hkey
  have hfresh : ∀ key ∈ batch.keys, key ≠ m.key → key ∉ set.overlays.map Prod.fst →
      Function.update set.documents m.key (some document) key = some (view key) := by
    intro key hkey hne hnot
    rw [Function.update_of_ne hne]
    exact h.fresh key hkey hnot
  by_cases hold : m.key ∈ set.overlays.map Prod.fst
  · rw [if_pos hold]
    refine ⟨⟨h.nodup, hpresent, fun key hkey hnot => ?_, h.calculated⟩, fun key => ?_⟩
    · exact hfresh key hkey (fun heq => hnot (heq ▸ hold)) hnot
    · exact ⟨.inr, fun hor => hor.elim (fun heq => heq ▸ hold) id⟩
  · rw [if_neg hold]
    have hkeys : ∀ key, key ∈ (set.overlays ++ [(m.key, overlay m.key)]).map Prod.fst ↔
        key = m.key ∨ key ∈ set.overlays.map Prod.fst := fun key => by simp [or_comm]
    refine ⟨⟨?_, hpresent, fun key hkey hnot => ?_, fun e he => ?_⟩, hkeys⟩
    · rw [List.map_append]
      exact h.nodup.append (List.nodup_singleton _) (by simpa using hold)
    · obtain ⟨hne, hnot⟩ := not_or.mp ((hkeys key).not.mp hnot)
      exact hfresh key hkey hne hnot
    · obtain he | he := List.mem_append.mp he
      · exact h.calculated e he
      · obtain rfl := List.mem_singleton.mp he
        exact ⟨hm, rfl⟩

/-- The overlays of a batch: one for each of its documents. -/
theorem applyToLocalDocumentSet_spec {documents : DocumentReference → Option OverlayedDocument}
    (hview : ∀ key ∈ batch.keys, documents key = some (view key))
    (hoverlay : Calculates batch view overlay) :
    ∃ set, applyToLocalDocumentSet batch documents = some set ∧
      (set.overlays.map Prod.fst).Nodup ∧
      ∀ e, e ∈ set.overlays ↔ e.1 ∈ batch.keys ∧ e.2 = overlay e.1 := by
  have hfold : ∀ (ms : List Mutation) (set : LocalDocumentSet), (∀ m ∈ ms, m.key ∈ batch.keys) →
      SetInvariant batch view overlay set →
      ∃ set', ms.foldlM (LocalDocumentSet.applyMutation batch) set = some set' ∧
        SetInvariant batch view overlay set' ∧
        ∀ key, key ∈ set'.overlays.map Prod.fst ↔
          (∃ m ∈ ms, m.key = key) ∨ key ∈ set.overlays.map Prod.fst := by
    intro ms
    induction ms with
    | nil => exact fun set _ h => ⟨set, rfl, h, by simp⟩
    | cons m ms ih =>
        intro set hms h
        obtain ⟨set₁, hset₁, h₁, hkeys₁⟩ := h.applyMutation hoverlay (hms m List.mem_cons_self)
        obtain ⟨set₂, hset₂, h₂, hkeys₂⟩ := ih set₁
          (fun m' hm' => hms m' (List.mem_cons_of_mem m hm')) h₁
        refine ⟨set₂, ?_, h₂, fun key => ?_⟩
        · rw [List.foldlM_cons, hset₁]
          exact hset₂
        · rw [hkeys₂, hkeys₁]
          simp only [List.mem_cons, exists_eq_or_imp]
          rw [or_left_comm, or_assoc, eq_comm]
  obtain ⟨set, hset, h, hkeys⟩ := hfold batch.mutations { documents }
    (fun m hm => MutationBatch.mem_keys.mpr ⟨m, hm, rfl⟩)
    ⟨List.nodup_nil, fun key hkey => by simp [hview key hkey], fun key hkey _ => hview key hkey,
      by simp⟩
  refine ⟨set, hset, h.nodup, fun e => ⟨h.calculated e, ?_⟩⟩
  rintro ⟨hkey, heq⟩
  have hmem := (hkeys e.1).mpr (.inl (MutationBatch.mem_keys.mp hkey))
  obtain ⟨e', he', hfst⟩ := List.mem_map.mp hmem
  have hsnd := (h.calculated e' he').2
  rw [hfst, ← heq] at hsnd
  rwa [← Prod.ext hfst hsnd]

theorem saveOverlays_spec (s : LocalStore) (batchId : BatchId)
    (overlays : List (DocumentReference × Mutation)) :
    (s.saveOverlays batchId overlays).queue = s.queue ∧
      (s.saveOverlays batchId overlays).remoteDocuments = s.remoteDocuments ∧
      (s.saveOverlays batchId overlays).lastRemoteSnapshotVersion = s.lastRemoteSnapshotVersion ∧
      (∀ userId key, userId ≠ s.queue.userId ∨ key ∉ overlays.map Prod.fst →
        (s.saveOverlays batchId overlays).overlays userId key = s.overlays userId key) ∧
      ((overlays.map Prod.fst).Nodup → ∀ e ∈ overlays,
        (s.saveOverlays batchId overlays).overlays s.queue.userId e.1 = some ⟨batchId, e.2⟩) := by
  induction overlays generalizing s with
  | nil => exact ⟨rfl, rfl, rfl, fun _ _ _ => rfl, by simp⟩
  | cons e overlays ih =>
      obtain ⟨hq, hr, hv, hframe, hsaved⟩ := ih (s.saveOverlay batchId e.1 e.2)
      refine ⟨hq, hr, hv, fun userId key hor => ?_, fun hnodup e' he' => ?_⟩
      · have hrest : userId ≠ s.queue.userId ∨ key ∉ overlays.map Prod.fst :=
          hor.imp_right fun hnot hin => hnot (List.mem_cons_of_mem _ hin)
        have hother : ¬ (userId = s.queue.userId ∧ key = e.1) := by
          rintro ⟨rfl, rfl⟩
          exact hor.elim (fun hne => hne rfl) fun hnot => hnot List.mem_cons_self
        exact (hframe userId key hrest).trans (if_neg hother)
      · obtain ⟨hnot, hnodup⟩ := List.nodup_cons.mp hnodup
        obtain rfl | he' := List.mem_cons.mp he'
        · exact (hframe _ _ (.inr hnot)).trans (if_pos ⟨rfl, rfl⟩)
        · exact hsaved hnodup e' he'

theorem overlaidView_key (s : LocalStore) (doc : MutableDocument) (now : Timestamp) :
    (s.overlaidView doc now).1.key = doc.key := by
  unfold overlaidView
  split
  · exact Mutation.applyLocally_key _ _ _ _
  · rfl

/-- The view of a document from which a batch is written, next to the queued
mutations over any other base. -/
theorem Consistent.twin_overlaidView_of_key (h : s.Consistent) {doc : MutableDocument}
    (hdoc : doc.key = key) (now : Timestamp) (base : MutableDocument) :
    ∃ mask, Twin doc base (s.overlaidView doc now).1 (s.overlaidView doc now).2
      (replay (pending key (s.batchesOf s.queue.userId key)) base (some [])).1 mask := by
  have hcovered := h.covered s.queue.userId key
  rw [overlaidView, getOverlay, hdoc]
  revert hcovered
  generalize s.overlays s.queue.userId key = overlay
  generalize s.batchesOf s.queue.userId key = batches
  rintro (_ | ⟨latest, numbered, keyed, plain, stands⟩)
  · exact ⟨some [], Twin.untouched⟩
  · rw [← stands base none now]
    exact ⟨_, Twin.of_plain _ base plain none now⟩

theorem Consistent.twin_overlaidView (h : s.Consistent) (key : DocumentReference) (now : Timestamp)
    (base : MutableDocument) :
    ∃ mask, Twin (s.getRemote key) base (s.overlaidView (s.getRemote key) now).1
      (s.overlaidView (s.getRemote key) now).2
      (replay (pending key (s.batchesOf s.queue.userId key)) base (some [])).1 mask :=
  h.twin_overlaidView_of_key (h.getRemote key).1 now base

theorem find?_views (f : DocumentReference → OverlayedDocument) (hf : ∀ key, (f key).1.key = key)
    (keys : List DocumentReference) (key : DocumentReference) :
    (keys.map f).find? (fun view => view.1.key = key) =
      if key ∈ keys then some (f key) else none := by
  induction keys with
  | nil => rfl
  | cons other keys ih =>
      rw [List.map_cons, List.find?_cons, hf]
      by_cases heq : other = key
      · simp [heq]
      · simp [heq, ih, Ne.symm heq]

/-- Writing locally succeeds while there is room for a batch id, and adds one batch.
Its documents get the overlays that the batch calculates from their views. -/
theorem writeLocally_eq (h : s.Consistent) (hroom : s.queue.HasRoom) {mutations : List Mutation}
    (nonempty : mutations ≠ []) (hplain : ∀ m ∈ mutations, m.Plain) (now : Timestamp) :
    let batch := (s.queue.enqueue now [] mutations nonempty).1
    let view := fun key => s.overlaidView (s.getRemote key) now
    ∃ overlay s' result, Calculates batch view overlay ∧
      s.writeLocally mutations now = some (s', result) ∧ result.batchId = batch.batchId ∧
      (∃ set, applyToLocalDocumentSet batch (fun key =>
          (batch.keys.map view).find? fun v => v.1.key = key) = some set ∧
        result.changes = batch.keys.filterMap fun key => (set.documents key).map Prod.fst) ∧
      s'.queue = (s.queue.enqueue now [] mutations nonempty).2 ∧
      s'.remoteDocuments = s.remoteDocuments ∧
      ∀ userId key, s'.overlays userId key =
        if userId = s.queue.userId ∧ key ∈ batch.keys then some ⟨batch.batchId, overlay key⟩
        else s.overlays userId key := by
  intro batch view
  have hkey : ∀ key, (view key).1.key = key := fun key =>
    (overlaidView_key s _ now).trans (h.getRemote key).1
  have hmutations : ∀ key ∈ batch.keys,
      (batch.applyToLocalView (view key).1 (view key).2).1.hasLocalMutations = true := by
    intro key hin
    rw [MutationBatch.applyToLocalView_eq_replay, hkey]
    exact replay_hasLocalMutations (plain_mutationsOf _ rfl hplain) (mutationsOf_ne_nil hin) _ _
  set overlay : DocumentReference → Mutation := fun key => (calculateOverlayMutation
    (batch.applyToLocalView (view key).1 (view key).2).1
    (batch.applyToLocalView (view key).1 (view key).2).2).getD (.delete key .none) with hoverlay
  have hcalc : Calculates batch view overlay := by
    intro key hin
    obtain ⟨m, hm⟩ := calculateOverlayMutation_isSome
      (hmutations key hin) (batch.applyToLocalView (view key).1 (view key).2).2
    simp only [hoverlay, hm, Option.getD_some]
  set documents := fun key => (batch.keys.map view).find? fun v => v.1.key = key with hdocuments
  have hdocs : ∀ key ∈ batch.keys, documents key = some (view key) := by
    intro key hin
    simp only [hdocuments, find?_views view hkey, if_pos hin]
  obtain ⟨set, hset, hnodup, hmem⟩ := applyToLocalDocumentSet_spec hdocs hcalc
  obtain ⟨hq, hr, -, hframe, hsaved⟩ := saveOverlays_spec
    { s with queue := (s.queue.enqueue now [] mutations nonempty).2 } batch.batchId
    set.overlays
  refine ⟨overlay, _, { batchId := batch.batchId
                        changes := batch.keys.filterMap fun key =>
                          (set.documents key).map Prod.fst },
    hcalc, ?_, rfl, ⟨set, hset, rfl⟩, hq, hr, fun userId key => ?_⟩
  · have hviews := computeViews_nil h.queue h.overlaysKeyed (batch.keys.map s.getRemote) now
    rw [List.map_map] at hviews
    have hbatch : s.writeLocally mutations now = s.writeBatch mutations nonempty documents now := by
      rw [writeLocally, dif_neg nonempty]
      change (s.computeViews (batch.keys.map s.getRemote) [] now).bind _ = _
      rw [hviews]
      rfl
    rw [hbatch, writeBatch, MutationQueue.addMutationBatch, if_pos hroom, Option.bind_some]
    exact congrArg (Option.map _) hset
  · split
    · next hcond =>
        obtain ⟨rfl, hin⟩ := hcond
        exact hsaved hnodup (key, overlay key) ((hmem _).mpr ⟨hin, rfl⟩)
    · next hcond =>
        refine hframe userId key ?_
        by_contra hboth
        obtain ⟨huser, hin⟩ := not_or.mp hboth
        obtain ⟨e, he, rfl⟩ := List.mem_map.mp (not_not.mp hin)
        exact hcond ⟨not_not.mp huser, ((hmem e).mp he).1⟩

/-- A local write succeeds and keeps the store consistent. -/
theorem Consistent.writeLocally (h : s.Consistent) (hroom : s.queue.HasRoom)
    {mutations : List Mutation} (nonempty : mutations ≠ []) (hplain : ∀ m ∈ mutations, m.Plain) (now : Timestamp) :
    ∃ s' result, s.writeLocally mutations now = some (s', result) ∧ s'.Consistent ∧
      s'.queue = (s.queue.enqueue now [] mutations nonempty).2 ∧
      s'.remoteDocuments = s.remoteDocuments := by
  obtain ⟨overlay, s', result, hcalc, hwrite, -, -, hqueue, hremote, hoverlays⟩ :=
    writeLocally_eq h hroom nonempty hplain now
  set batch := (s.queue.enqueue now [] mutations nonempty).1 with hbatch
  have hbatches := fun userId => MutationQueue.batchesOf_enqueue h.queue hroom now []
    nonempty userId
  refine ⟨s', result, hwrite, ⟨?_, fun userId b hb => ?_, ?_, fun userId key => ?_⟩, hqueue, hremote⟩
  · rw [hqueue]
    exact MutationQueue.consistent_enqueue h.queue hroom _ _ _
  · rw [hqueue, hbatches] at hb
    obtain hb | hb := List.mem_append.mp hb
    · exact h.plain userId b hb
    · split at hb
      · obtain rfl := List.mem_singleton.mp hb
        exact ⟨rfl, hplain⟩
      · cases hb
  · rw [RemoteOnly, hremote]
    exact h.remote
  · rw [hoverlays, LocalStore.batchesOf, hqueue, hbatches, List.filter_append]
    change Covered key (s.batchesOf userId key ++ _) _
    by_cases hcond : userId = s.queue.userId ∧ key ∈ batch.keys
    · obtain ⟨rfl, hin⟩ := hcond
      have hnew : [batch].filter (fun b => decide (key ∈ b.keys)) = [batch] := by simp [hin]
      rw [if_pos rfl, if_pos ⟨rfl, hin⟩, ← hbatch, hnew]
      have hlocal : batch.applyToLocalView (s.overlaidView (s.getRemote key) now).1
          (s.overlaidView (s.getRemote key) now).2 =
          replay (batch.mutationsOf key) (s.overlaidView (s.getRemote key) now).1
            (s.overlaidView (s.getRemote key) now).2 := by
        rw [MutationBatch.applyToLocalView_eq_replay, overlaidView_key, (h.getRemote key).1]
      have hm := hcalc key hin
      rw [hlocal] at hm
      have hkeyed : (overlay key).key = key := (calculateOverlayMutation_key hm).trans
        ((replay_key _ _ _).trans ((overlaidView_key s _ now).trans (h.getRemote key).1))
      have hreplayed := plain_mutationsOf key (hbatch ▸ rfl : batch.baseMutations = []) hplain
      obtain ⟨mask, htwin⟩ := h.twin_overlaidView key now (s.getRemote key)
      refine .overlaid List.getLast?_concat rfl hkeyed
        ((htwin.replay hreplayed).overlay (h.getRemote key).2 hm).1 fun base previous t => ?_
      obtain ⟨mask', htwin'⟩ := h.twin_overlaidView key now base
      rw [((htwin'.replay hreplayed).overlay (h.getRemote key).2 hm).2 previous t, pending_append,
        replay_append, pending_cons, pending_nil, List.append_nil]
      exact replay_mask _ _ _ _
    · rw [if_neg hcond]
      have hempty : (if userId = s.queue.userId then [batch] else []).filter
          (fun b => decide (key ∈ b.keys)) = [] := by
        split
        · next huser => simpa using fun hin => hcond ⟨huser, hin⟩
        · rfl
      rw [hempty, List.append_nil]
      exact h.covered userId key

end Write

section Remove

variable {batch : MutationBatch}

/-- Two queued batches with one id are one batch. -/
theorem Consistent.eq_of_batchId (h : s.Consistent) {userId : String} {b b' : MutationBatch}
    (hb : b ∈ s.queue.batchesOf userId) (hb' : b' ∈ s.queue.batchesOf userId)
    (heq : b.batchId = b'.batchId) : b = b' := by
  have hfind := find_of_mem h.queue.ascending ((MutationQueue.mem_batchesOf h.queue).mp hb)
  have hfind' := find_of_mem h.queue.ascending ((MutationQueue.mem_batchesOf h.queue).mp hb')
  simp only [heq] at hfind hfind'
  exact Option.some.inj (hfind.symm.trans hfind')

/-- A document that the batch does not change keeps its batches and its overlay. -/
theorem Consistent.removed_of_not_mem (h : s.Consistent) {userId : String}
    (hbatch : batch ∈ s.queue.batchesOf userId) (hkey : key ∉ batch.keys) :
    ((s.batchesOf userId key).filter fun b => b.batchId ≠ batch.batchId) =
        s.batchesOf userId key ∧
      ((s.overlays userId key).filter fun o => o.largestBatchId ≠ batch.batchId) =
        s.overlays userId key := by
  have hother : ∀ b ∈ s.batchesOf userId key, b.batchId ≠ batch.batchId := by
    intro b hb heq
    obtain ⟨hmem, hin⟩ := List.mem_filter.mp hb
    obtain rfl := h.eq_of_batchId hmem hbatch heq
    exact hkey (by simpa using hin)
  refine ⟨List.filter_eq_self.mpr fun b hb => by simpa using hother b hb, ?_⟩
  have hcovered := h.covered userId key
  cases hoverlay : s.overlays userId key with
  | none => rfl
  | some overlay =>
      rw [hoverlay] at hcovered
      obtain ⟨last, hlast, hid⟩ := hcovered.exists_last
      have hkept : overlay.largestBatchId ≠ batch.batchId := hid ▸ hother last hlast
      simp [Option.filter, hkept]

/-- A document without any other batch loses its overlay. -/
theorem Consistent.removed_of_eq_nil (h : s.Consistent) {userId : String}
    (hempty : ((s.batchesOf userId key).filter fun b => b.batchId ≠ batch.batchId) = []) :
    ((s.overlays userId key).filter fun o => o.largestBatchId ≠ batch.batchId) = none := by
  have hcovered := h.covered userId key
  cases hoverlay : s.overlays userId key with
  | none => rfl
  | some overlay =>
      rw [hoverlay] at hcovered
      obtain ⟨last, hlast, hid⟩ := hcovered.exists_last
      have hdropped : overlay.largestBatchId = batch.batchId := by
        simpa [hid] using List.filter_eq_nil_iff.mp hempty last hlast
      simp [Option.filter, hdropped]

/-- Once a batch has left the queue, the overlays that it was part of are dropped
and calculated again from the batches that are left. -/
theorem Consistent.afterRemoval (h : s.Consistent) (s' : LocalStore)
    (hbatch : batch ∈ s.queue.allMutationBatches)
    (hqueue : s.queue.removeMutationBatch batch = some s'.queue)
    (hoverlays : s'.overlays = s.overlays)
    (hremote : s'.RemoteOnly) (now : Timestamp) :
    ∃ t docs, s'.afterRemoval batch now = some (t, docs) ∧ t.Consistent ∧ t.queue = s'.queue ∧
      t.remoteDocuments = s'.remoteDocuments ∧
      docs = batch.keys.map fun key => (t.overlaidView (t.getRemote key) now).1 := by
  have hq : s'.queue.Consistent :=
    MutationQueue.consistent_removeMutationBatch h.queue hbatch hqueue
  have huser : s'.queue.userId = s.queue.userId := by
    obtain ⟨-, heq⟩ := MutationQueue.removeMutationBatch_eq_some.mp hqueue
    rw [heq]
  set u := s'.removeOverlaysForBatchId batch.batchId with hu
  set docs : DocumentReference → Option MutableDocument := fun key =>
    if key ∈ batch.keys then some (u.getRemote key) else none with hdocs
  have hget : ∀ key, _ := RemoteOnly.getRemote (s := u) hremote
  have hkeys : ∀ key doc, docs key = some doc → key ∈ batch.keys ∧ doc.key = key := by
    intro key doc hdoc
    simp only [hdocs] at hdoc
    split at hdoc
    · next hin =>
        obtain rfl := Option.some.inj hdoc
        exact ⟨hin, (hget key).1⟩
    · cases hdoc
  obtain ⟨t, r, hrun, hr⟩ := recalculateAndSaveOverlays_spec (s := u) hq _ _ hkeys
  have htq : t.queue = s'.queue := hr.queue
  have hbatches : ∀ userId key, t.batchesOf userId key = (s.batchesOf userId key).filter fun b =>
      userId ≠ s.queue.userId ∨ b.batchId ≠ batch.batchId := by
    intro userId key
    rw [batchesOf, htq, MutationQueue.batchesOf_removeMutationBatch h.queue hbatch hqueue,
      List.filter_comm]
    rfl
  suffices hconsistent : t.Consistent by
    refine ⟨t, _, ?_, hconsistent, htq, hr.remoteDocuments, rfl⟩
    rw [LocalStore.afterRemoval, if_pos (MutationQueue.performConsistencyCheck_eq_true hq)]
    change (u.recalculateAndSaveOverlays batch.keys docs).bind _ = _
    rw [hrun]
    exact getDocuments_eq hconsistent.queue hconsistent.overlaysKeyed batch.keys now
  refine ⟨htq ▸ hq, fun userId b hb => ?_, ?_, fun userId key => ?_⟩
  · rw [htq, MutationQueue.batchesOf_removeMutationBatch h.queue hbatch hqueue] at hb
    exact h.plain userId b (List.mem_filter.mp hb).1
  · rw [RemoteOnly, hr.remoteDocuments]
    exact hremote
  · have hcovered := h.covered userId key
    by_cases hother : userId ≠ s.queue.userId
    · have hsame : t.overlays userId key = s.overlays userId key := by
        rw [hr.frame userId key (.inl (huser.symm ▸ hother)), ← hoverlays]
        exact if_neg (huser.symm ▸ hother)
      rw [hsame, hbatches, List.filter_eq_self.mpr fun b _ => by simp [hother]]
      exact hcovered
    · obtain rfl : userId = s.queue.userId := not_not.mp hother
      have hleft : t.batchesOf s.queue.userId key =
          (s.batchesOf s.queue.userId key).filter fun b => b.batchId ≠ batch.batchId := by
        simpa using hbatches s.queue.userId key
      have hdropped : u.overlays s.queue.userId key =
          (s.overlays s.queue.userId key).filter fun o => o.largestBatchId ≠ batch.batchId := by
        rw [← hoverlays]
        exact if_pos huser.symm
      by_cases hin : key ∈ batch.keys
      · have hown : u.ownBatches key = t.batchesOf s.queue.userId key := by
          rw [batchesOf, htq, ← huser]
          rfl
        have hdoc : docs key = some (u.getRemote key) := if_pos hin
        rw [← hown, ← huser]
        refine hr.covered hdoc (hget key) (fun m hm => ?_) fun hnil => ?_
        · rw [hown, hleft] at hm
          obtain ⟨b, hb, hmem⟩ := List.mem_flatMap.mp hm
          obtain ⟨hbase, hplain⟩ := h.plain s.queue.userId b
            (List.mem_filter.mp (List.mem_filter.mp hb).1).1
          exact plain_mutationsOf _ hbase hplain m hmem
        · rw [hown, hleft] at hnil
          have hnone := h.removed_of_eq_nil hnil
          rw [← hdropped, ← huser] at hnone
          exact hnone
      · obtain ⟨hsame, hkept⟩ := h.removed_of_not_mem hbatch hin
        rw [hleft, hsame, hr.frame _ key (.inr (if_neg hin)), hdropped, hkept]
        exact hcovered

end Remove

end LocalStore

end FirebaseLogin.Core
