import FirebaseLogin.Core.PlainWrites

/-!
What the recalculation of overlays computes. Its loops run over all batches and
all their documents, but each iteration touches only its own document, so the
result is described document by document.
-/

namespace FirebaseLogin.Core

/-- The mutations of the batches that change the document, in order. -/
def pending (key : DocumentReference) (batches : List MutationBatch) :
    List (Mutation × Timestamp) :=
  batches.flatMap fun batch => batch.mutationsOf key

@[simp] theorem pending_nil (key : DocumentReference) : pending key [] = [] := rfl

@[simp] theorem pending_cons (key : DocumentReference) (batch : MutationBatch)
    (batches : List MutationBatch) :
    pending key (batch :: batches) = batch.mutationsOf key ++ pending key batches := rfl

theorem pending_append (key : DocumentReference) (batches batches' : List MutationBatch) :
    pending key (batches ++ batches') = pending key batches ++ pending key batches' :=
  List.flatMap_append

namespace LocalStore

variable {key : DocumentReference}

namespace Recalculation

variable {batch : MutationBatch} {r : Recalculation} {doc : MutableDocument}

/-- A document of its own: nothing the loop does to another one shows. -/
theorem applyBatch_of_ne (r : Recalculation) (batch : MutationBatch) {other : DocumentReference}
    (h : other ≠ key) :
    (r.applyBatch batch other).docs key = r.docs key ∧
      (r.applyBatch batch other).masks key = r.masks key ∧
      (r.applyBatch batch other).documentsByBatchId.filter (fun e => e.2 = key) =
        r.documentsByBatchId.filter fun e => e.2 = key := by
  unfold applyBatch
  split
  · exact ⟨rfl, rfl, rfl⟩
  · refine ⟨Function.update_of_ne (Ne.symm h) _ _, Function.update_of_ne (Ne.symm h) _ _, ?_⟩
    simp [h]

theorem foldl_applyBatch_of_not_mem (r : Recalculation) (batch : MutationBatch)
    {keys : List DocumentReference} (h : key ∉ keys) :
    (keys.foldl (applyBatch batch) r).docs key = r.docs key ∧
      (keys.foldl (applyBatch batch) r).masks key = r.masks key ∧
      (keys.foldl (applyBatch batch) r).documentsByBatchId.filter (fun e => e.2 = key) =
        r.documentsByBatchId.filter fun e => e.2 = key := by
  induction keys generalizing r with
  | nil => exact ⟨rfl, rfl, rfl⟩
  | cons other keys ih =>
      obtain ⟨hother, hkeys⟩ := not_or.mp (List.mem_cons.not.mp h)
      obtain ⟨hd, hm, hl⟩ := applyBatch_of_ne r batch (Ne.symm hother)
      obtain ⟨hd', hm', hl'⟩ := ih (r := r.applyBatch batch other) hkeys
      exact ⟨hd'.trans hd, hm'.trans hm, hl'.trans hl⟩

/-- The inner loop applies the batch to each of its documents once. -/
theorem foldl_applyBatch (batch : MutationBatch) {keys : List DocumentReference} (hnodup : keys.Nodup) (h : key ∈ keys)
    (hdoc : r.docs key = some doc) (hkey : doc.key = key) :
    let view := replay (batch.mutationsOf key) doc ((r.masks key).getD (some []))
    (keys.foldl (applyBatch batch) r).docs key = some view.1 ∧
      (keys.foldl (applyBatch batch) r).masks key = some view.2 ∧
      (keys.foldl (applyBatch batch) r).documentsByBatchId.filter (fun e => e.2 = key) =
        r.documentsByBatchId.filter (fun e => e.2 = key) ++ [(batch.batchId, key)] := by
  induction keys generalizing r with
  | nil => cases h
  | cons other keys ih =>
      obtain ⟨hother, hkeys⟩ := List.nodup_cons.mp hnodup
      obtain rfl | h := List.mem_cons.mp h
      · obtain ⟨hd, hm, hl⟩ := foldl_applyBatch_of_not_mem (r.applyBatch batch key)
          batch hother
        have happly : r.applyBatch batch key =
            { docs := Function.update r.docs key (some (replay (batch.mutationsOf key) doc
                ((r.masks key).getD (some []))).1)
              masks := Function.update r.masks key (some (replay (batch.mutationsOf key) doc
                ((r.masks key).getD (some []))).2)
              documentsByBatchId := r.documentsByBatchId ++ [(batch.batchId, key)] } := by
          simp only [applyBatch, hdoc]
          rw [MutationBatch.applyToLocalView_eq_replay, hkey]
        rw [List.foldl_cons]
        refine ⟨hd.trans ?_, hm.trans ?_, hl.trans ?_⟩ <;> rw [happly]
        · exact Function.update_self key _ _
        · exact Function.update_self key _ _
        · simp
      · have hne : other ≠ key := fun heq => hother (heq ▸ h)
        obtain ⟨hd, hm, hl⟩ := applyBatch_of_ne r batch hne
        have hrec := ih (r := r.applyBatch batch other) hkeys h (hd.trans hdoc)
        rwa [hm, hl] at hrec

def applyBatches (batches : List MutationBatch) (r : Recalculation) : Recalculation :=
  batches.foldl (fun r batch => batch.keys.foldl (applyBatch batch) r) r

/-- The whole loop: the document with all its pending mutations, the mask they
leave, and the batches they came from. -/
theorem applyBatches_spec (batches : List MutationBatch) (hdoc : r.docs key = some doc)
    (hkey : doc.key = key) :
    let own := batches.filter fun b => key ∈ b.keys
    let view := replay (pending key own) doc ((r.masks key).getD (some []))
    (applyBatches batches r).docs key = some view.1 ∧
      (applyBatches batches r).masks key = (if own = [] then r.masks key else some view.2) ∧
      (applyBatches batches r).documentsByBatchId.filter (fun e => e.2 = key) =
        r.documentsByBatchId.filter (fun e => e.2 = key) ++
          own.map fun b => (b.batchId, key) := by
  induction batches generalizing r doc with
  | nil => simp [applyBatches, hdoc, replay]
  | cons batch batches ih =>
      have hunfold : applyBatches (batch :: batches) r =
          applyBatches batches (batch.keys.foldl (applyBatch batch) r) := rfl
      by_cases hin : key ∈ batch.keys
      · obtain ⟨hd, hm, hl⟩ := foldl_applyBatch batch (List.nodup_dedup _) hin hdoc hkey
        obtain ⟨hd', hm', hl'⟩ := ih hd ((replay_key _ _ _).trans hkey)
        have hcons : (batch :: batches).filter (fun b => decide (key ∈ b.keys)) =
            batch :: batches.filter fun b => decide (key ∈ b.keys) :=
          List.filter_cons_of_pos (decide_eq_true hin)
        simp only [hunfold, hcons, pending_cons, replay_append]
        rw [hm] at hd' hm'
        refine ⟨hd', hm'.trans ?_, hl'.trans ?_⟩
        · rw [if_neg (List.cons_ne_nil _ _)]
          split
          · next hown =>
              rw [hown]
              rfl
          · rfl
        · rw [hl, List.append_assoc]
          rfl
      · obtain ⟨hd, hm, hl⟩ := foldl_applyBatch_of_not_mem r batch hin
        have hrec := ih (hd.trans hdoc) hkey
        have hcons : (batch :: batches).filter (fun b => decide (key ∈ b.keys)) =
            batches.filter fun b => decide (key ∈ b.keys) :=
          List.filter_cons_of_neg (by simpa using hin)
        rw [hm, hl] at hrec
        rw [hunfold, hcons]
        exact hrec

theorem applyBatches_of_none (batches : List MutationBatch) (hdoc : r.docs key = none) :
    (applyBatches batches r).docs key = none ∧
      (applyBatches batches r).documentsByBatchId.filter (fun e => e.2 = key) =
        r.documentsByBatchId.filter fun e => e.2 = key := by
  have hkeys : ∀ (batch : MutationBatch) (keys : List DocumentReference) (r : Recalculation),
      r.docs key = none → (keys.foldl (applyBatch batch) r).docs key = none ∧
        (keys.foldl (applyBatch batch) r).documentsByBatchId.filter (fun e => e.2 = key) =
          r.documentsByBatchId.filter fun e => e.2 = key := by
    intro batch keys
    induction keys with
    | nil => exact fun r h => ⟨h, rfl⟩
    | cons other keys ih =>
        intro r h
        by_cases hne : other = key
        · subst hne
          have hsame : r.applyBatch batch other = r := by simp only [applyBatch, h]
          rw [List.foldl_cons, hsame]
          exact ih r h
        · obtain ⟨hd, -, hl⟩ := applyBatch_of_ne r batch hne
          obtain ⟨hd', hl'⟩ := ih (r.applyBatch batch other) (hd.trans h)
          exact ⟨hd', hl'.trans hl⟩
  induction batches generalizing r with
  | nil => exact ⟨hdoc, rfl⟩
  | cons batch batches ih =>
      obtain ⟨hd, hl⟩ := hkeys batch batch.keys r hdoc
      obtain ⟨hd', hl'⟩ := ih hd
      exact ⟨hd', hl'.trans hl⟩

/-- The overlay that the recalculation leaves for a document. -/
def overlayOf (r : Recalculation) (key : DocumentReference) (old : Option Overlay)
    (batchId : BatchId) : Option Overlay :=
  (((r.docs key).bind fun doc => calculateOverlayMutation doc ((r.masks key).getD none)).map
    (Overlay.mk batchId)).or old

theorem save_frame (st : LocalStore × List DocumentReference) (e : BatchId × DocumentReference) :
    (r.save st e).1.queue = st.1.queue ∧
      (r.save st e).1.remoteDocuments = st.1.remoteDocuments ∧
      (r.save st e).1.lastRemoteSnapshotVersion = st.1.lastRemoteSnapshotVersion := by
  unfold save
  split
  · exact ⟨rfl, rfl, rfl⟩
  · split <;> exact ⟨rfl, rfl, rfl⟩

theorem foldl_save_frame (l : List (BatchId × DocumentReference))
    (st : LocalStore × List DocumentReference) :
    (l.foldl r.save st).1.queue = st.1.queue ∧
      (l.foldl r.save st).1.remoteDocuments = st.1.remoteDocuments ∧
      (l.foldl r.save st).1.lastRemoteSnapshotVersion = st.1.lastRemoteSnapshotVersion := by
  induction l generalizing st with
  | nil => exact ⟨rfl, rfl, rfl⟩
  | cons e l ih =>
      obtain ⟨hq, hr, hv⟩ := save_frame (r := r) st e
      obtain ⟨hq', hr', hv'⟩ := ih (r.save st e)
      exact ⟨hq'.trans hq, hr'.trans hr, hv'.trans hv⟩

theorem save_of_not_mem {st : LocalStore × List DocumentReference}
    {e : BatchId × DocumentReference} (h : e.2 ∉ st.2) :
    (r.save st e).2 = e.2 :: st.2 ∧ ∀ userId key, (r.save st e).1.overlays userId key =
      if userId = st.1.queue.userId ∧ key = e.2 then
        r.overlayOf key (st.1.overlays userId key) e.1
      else st.1.overlays userId key := by
  unfold save
  rw [if_neg h]
  cases hcalc : (r.docs e.2).bind fun doc =>
      calculateOverlayMutation doc ((r.masks e.2).getD none) with
  | some mutation =>
      refine ⟨rfl, fun userId key => ?_⟩
      simp only [saveOverlay]
      by_cases hcond : userId = st.1.queue.userId ∧ key = e.2
      · rw [if_pos hcond, if_pos hcond, hcond.2]
        simp [overlayOf, hcalc]
      · rw [if_neg hcond, if_neg hcond]
  | none =>
      refine ⟨rfl, fun userId key => ?_⟩
      by_cases hcond : userId = st.1.queue.userId ∧ key = e.2
      · rw [if_pos hcond, hcond.2]
        simp [overlayOf, hcalc]
      · rw [if_neg hcond]

/-- The loop over the batches saves a document once, at the first batch it meets. -/
theorem foldl_save_overlays (r : Recalculation) (key : DocumentReference)
    (l : List (BatchId × DocumentReference))
    (st : LocalStore × List DocumentReference) (userId : String) :
    (l.foldl r.save st).1.overlays userId key =
      if userId = st.1.queue.userId ∧ key ∉ st.2 then
        ((l.filter fun e => e.2 = key).head?).elim (st.1.overlays userId key)
          fun e => r.overlayOf key (st.1.overlays userId key) e.1
      else st.1.overlays userId key := by
  induction l generalizing st with
  | nil => simp
  | cons e l ih =>
      rw [List.foldl_cons, ih, (save_frame st e).1]
      by_cases hmem : e.2 ∈ st.2
      · have hsave : r.save st e = st := by simp only [save, hmem, if_true]
        rw [hsave]
        by_cases hcond : userId = st.1.queue.userId ∧ key ∉ st.2
        · have hne : e.2 ≠ key := fun heq => hcond.2 (heq ▸ hmem)
          rw [if_pos hcond, if_pos hcond, List.filter_cons_of_neg (by simpa using hne)]
        · rw [if_neg hcond, if_neg hcond]
      · obtain ⟨hprocessed, hoverlays⟩ := save_of_not_mem (r := r) hmem
        rw [hprocessed, hoverlays]
        by_cases heq : key = e.2
        · rw [if_neg (by simp [heq]), List.filter_cons_of_pos (by simp [heq])]
          simp only [heq, hmem, and_true, not_false_eq_true, List.head?_cons, Option.elim_some]
        · rw [List.filter_cons_of_neg (by simpa using Ne.symm heq)]
          simp only [List.mem_cons, heq, false_or, and_false, if_false]

end Recalculation

variable {s : LocalStore} {docs : DocumentReference → Option MutableDocument}

/-- The queued batches of the current user that change the document. -/
def ownBatches (s : LocalStore) (key : DocumentReference) : List MutationBatch :=
  s.queue.allMutationBatches.filter fun b => key ∈ b.keys

/-- What a recalculation does to the store: only overlays of the current user and
of the given documents change, and each is calculated from all queued mutations
of its document. -/
structure Recalculated (s : LocalStore) (docs : DocumentReference → Option MutableDocument)
    (s' : LocalStore) (r : Recalculation) : Prop where
  queue : s'.queue = s.queue
  remoteDocuments : s'.remoteDocuments = s.remoteDocuments
  lastRemoteSnapshotVersion : s'.lastRemoteSnapshotVersion = s.lastRemoteSnapshotVersion
  frame : ∀ userId key, userId ≠ s.queue.userId ∨ docs key = none →
    s'.overlays userId key = s.overlays userId key
  overlay : ∀ key doc, docs key = some doc → s'.overlays s.queue.userId key =
    (s.ownBatches key).getLast?.elim (s.getOverlay key) fun last =>
      ((calculateOverlayMutation (replay (pending key (s.ownBatches key)) doc (some [])).1
        (replay (pending key (s.ownBatches key)) doc (some [])).2).map
          (Overlay.mk last.batchId)).or (s.getOverlay key)
  docs : ∀ key doc, docs key = some doc →
    r.docs key = some (replay (pending key (s.ownBatches key)) doc (some [])).1

theorem recalculateAndSaveOverlays_spec (h : s.queue.Consistent) (keys : List DocumentReference)
    (docs : DocumentReference → Option MutableDocument)
    (hkeys : ∀ key doc, docs key = some doc → key ∈ keys ∧ doc.key = key) :
    ∃ s' r, s.recalculateAndSaveOverlays keys docs = some (s', r) ∧ Recalculated s docs s' r := by
  set batches := s.queue.allMutationBatches.filter fun b => keys.any fun key => key ∈ b.keys
    with hbatches
  set r := Recalculation.applyBatches batches
    { docs, masks := fun _ => none, documentsByBatchId := [] } with hr
  refine ⟨(r.documentsByBatchId.reverse.foldl r.save (s, [])).1, r, ?_, ?_⟩
  · rw [recalculateAndSaveOverlays, MutationQueue.allMutationBatchesAffectingDocumentKeys_eq h]
    rfl
  have hframe := Recalculation.foldl_save_frame (r := r) r.documentsByBatchId.reverse (s, [])
  have hsaved := fun userId key => r.foldl_save_overlays key r.documentsByBatchId.reverse
    (s, []) userId
  have hown : ∀ key doc, docs key = some doc →
      (batches.filter fun b => decide (key ∈ b.keys)) = s.ownBatches key := by
    intro key doc hdoc
    rw [hbatches, List.filter_filter, ownBatches]
    refine List.filter_congr fun b _ => ?_
    by_cases hin : key ∈ b.keys
    · simp only [hin, decide_true, Bool.true_and, List.any_eq_true, decide_eq_true_eq]
      exact ⟨key, (hkeys key doc hdoc).1, hin⟩
    · simp [hin]
  refine ⟨hframe.1, hframe.2.1, hframe.2.2, fun userId key hor => ?_, fun key doc hdoc => ?_,
    fun key doc hdoc => ?_⟩
  · rw [hsaved]
    obtain hne | hnone := hor
    · rw [if_neg (by simp [hne])]
    · have hempty := (Recalculation.applyBatches_of_none batches
        (r := { docs, masks := fun _ => none, documentsByBatchId := [] }) hnone).2
      rw [List.filter_reverse, hempty]
      simp
  · obtain ⟨hd, hm, hl⟩ := Recalculation.applyBatches_spec batches
      (r := { docs, masks := fun _ => none, documentsByBatchId := [] }) hdoc (hkeys key doc hdoc).2
    rw [hown key doc hdoc] at hd hm hl
    rw [hsaved, if_pos ⟨rfl, List.not_mem_nil⟩, List.filter_reverse, hl]
    rw [List.filter_nil, List.nil_append, List.head?_reverse, List.getLast?_map]
    cases hlast : (s.ownBatches key).getLast? with
    | none => rfl
    | some last =>
        have hne : s.ownBatches key ≠ [] := by
          intro hnil
          rw [hnil] at hlast
          cases hlast
        rw [if_neg hne] at hm
        simp only [Option.map_some, Option.elim_some, Recalculation.overlayOf, hr, hd, hm]
        rfl
  · obtain ⟨hd, -, -⟩ := Recalculation.applyBatches_spec batches
      (r := { docs, masks := fun _ => none, documentsByBatchId := [] }) hdoc (hkeys key doc hdoc).2
    rw [hown key doc hdoc] at hd
    exact hd

end LocalStore

end FirebaseLogin.Core
