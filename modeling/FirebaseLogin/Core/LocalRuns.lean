import FirebaseLogin.Library.Execution
import FirebaseLogin.Core.LocalSteps

/-!
Runs of the local store: writes of the app, acknowledgements and rejections from
the server, remote events and changes of the user in any order. In every state
that is reached the store is consistent.
-/

namespace FirebaseLogin.Core

open SortedEntries

section RemoteDocuments

variable {doc doc' : MutableDocument}

/-- What the server's result makes of a document: the contents of the set or of the
patch, no document, or one of which only the version is known. -/
theorem Mutation.applyToRemoteDocument_cases {m : Mutation} {result : MutationResult}
    (h : m.applyToRemoteDocument doc result = some doc') :
    (∃ key value precondition, m = .set key value precondition ∧
      doc' = (doc.convertToFoundDocument result.version value).setHasCommittedMutations) ∨
    (∃ key value mask precondition, m = .patch key value mask precondition ∧
      doc' = (doc.convertToFoundDocument result.version
        (doc.value.setAll _ (sortedData_getPatch mask value))).setHasCommittedMutations) ∨
    (∃ key value mask precondition, m = .patch key value mask precondition ∧
      precondition.isValidFor doc = false ∧ doc' = doc.convertToUnknownDocument result.version) ∨
    ∃ key precondition, m = .delete key precondition ∧
      doc' = (doc.convertToNoDocument result.version).setHasCommittedMutations := by
  unfold Mutation.applyToRemoteDocument at h
  split at h
  · cases m with
    | set key value precondition =>
        simp only [Option.ite_none_right_eq_some] at h
        exact .inl ⟨_, _, _, rfl, (Option.some.inj h.2).symm⟩
    | patch key value mask precondition =>
        simp only at h
        split at h
        · obtain ⟨-, h⟩ := Option.ite_none_right_eq_some.mp h
          exact .inr (.inl ⟨_, _, _, _, rfl, (Option.some.inj h).symm⟩)
        · next hinvalid =>
            exact .inr (.inr (.inl ⟨_, _, _, _, rfl, by simpa using hinvalid,
              (Option.some.inj h).symm⟩))
    | delete key precondition =>
        simp only [Option.ite_none_right_eq_some] at h
        exact .inr (.inr (.inr ⟨_, _, rfl, (Option.some.inj h.2).symm⟩))
  · cases h

/-- The server's version is taken over, and the document waits for the watch
stream. -/
theorem Mutation.applyToRemoteDocument_spec {m : Mutation} {result : MutationResult}
    (h : m.applyToRemoteDocument doc result = some doc') :
    doc'.key = doc.key ∧ doc'.documentState = .hasCommittedMutations ∧
      doc'.version = result.version := by
  obtain ⟨-, -, -, -, rfl⟩ | ⟨-, -, -, -, -, rfl⟩ | ⟨-, -, -, -, -, -, rfl⟩ | ⟨-, -, -, rfl⟩ :=
    Mutation.applyToRemoteDocument_cases h <;> exact ⟨rfl, rfl, rfl⟩

theorem MutationBatch.foldlM_applyResult_spec {l : List (Mutation × MutationResult)}
    (h : l.foldlM applyResult doc = some doc') :
    doc'.key = doc.key ∧ (doc.hasLocalMutations = false → doc'.hasLocalMutations = false) := by
  induction l generalizing doc with
  | nil =>
      obtain rfl := Option.some.inj h
      exact ⟨rfl, id⟩
  | cons e l ih =>
      rw [List.foldlM_cons] at h
      obtain ⟨doc₁, h₁, hrest⟩ := Option.bind_eq_some_iff.mp h
      obtain ⟨hkey, hlocal⟩ := ih hrest
      unfold applyResult at h₁
      split at h₁
      · obtain ⟨hkey₁, hstate, -⟩ := Mutation.applyToRemoteDocument_spec h₁
        refine ⟨hkey.trans hkey₁, fun _ => hlocal ?_⟩
        rw [MutableDocument.hasLocalMutations, hstate]
        rfl
      · obtain rfl := Option.some.inj h₁
        exact ⟨hkey, hlocal⟩

theorem MutationBatch.applyToRemoteDocument_spec {batch : MutationBatch}
    {results : List MutationResult} (hdoc : doc.hasLocalMutations = false)
    (h : batch.applyToRemoteDocument doc results = some doc') :
    doc'.key = doc.key ∧ doc'.hasLocalMutations = false := by
  unfold MutationBatch.applyToRemoteDocument at h
  split at h
  · obtain ⟨hkey, hlocal⟩ := foldlM_applyResult_spec h
    exact ⟨hkey, hlocal hdoc⟩
  · cases h

end RemoteDocuments

namespace LocalStore

variable {s s' : LocalStore} {key : DocumentReference} {now : Timestamp}

theorem RemoteOnly.setRemote (h : s.RemoteOnly) {doc : Option MutableDocument}
    (hdoc : ∀ d, doc = some d → d.key = key ∧ d.hasLocalMutations = false) :
    (s.setRemote key doc).RemoteOnly := by
  intro other doc' hother
  change Function.update s.remoteDocuments key doc other = some doc' at hother
  by_cases heq : other = key
  · subst heq
    rw [Function.update_self] at hother
    exact hdoc doc' hother
  · rw [Function.update_of_ne heq] at hother
    exact h other doc' hother

section Acknowledge

variable {result : MutationBatchResult}

/-- What ApplyBatchResult does to one document. -/
theorem applyBatchResultTo_spec (hremote : s.RemoteOnly)
    (h : applyBatchResultTo result s key = some s') :
    s'.queue = s.queue ∧ s'.overlays = s.overlays ∧ s'.RemoteOnly ∧
      ∀ other, other ≠ key → s'.remoteDocuments other = s.remoteDocuments other := by
  obtain ⟨hkey, hlocal⟩ := hremote.getRemote key
  obtain ⟨ackVersion, -, h⟩ := Option.bind_eq_some_iff.mp h
  split at h
  · obtain ⟨doc, hdoc, h⟩ := Option.bind_eq_some_iff.mp h
    obtain ⟨hkey', hlocal'⟩ := MutationBatch.applyToRemoteDocument_spec hlocal hdoc
    split at h
    · obtain rfl := Option.some.inj h
      refine ⟨rfl, rfl, hremote.setRemote ?_, fun other hne => Function.update_of_ne hne _ _⟩
      intro d hd
      obtain rfl := Option.some.inj hd
      exact ⟨hkey'.trans hkey, hlocal'⟩
    · obtain rfl := Option.some.inj h
      exact ⟨rfl, rfl, hremote, fun _ _ => rfl⟩
  · obtain rfl := Option.some.inj h
    exact ⟨rfl, rfl, hremote, fun _ _ => rfl⟩

theorem foldlM_applyBatchResultTo_spec {keys : List DocumentReference} (hremote : s.RemoteOnly)
    (h : keys.foldlM (applyBatchResultTo result) s = some s') :
    s'.queue = s.queue ∧ s'.overlays = s.overlays ∧ s'.RemoteOnly ∧
      ∀ other, other ∉ keys → s'.remoteDocuments other = s.remoteDocuments other := by
  induction keys generalizing s with
  | nil =>
      obtain rfl := Option.some.inj h
      exact ⟨rfl, rfl, hremote, fun _ _ => rfl⟩
  | cons key keys ih =>
      rw [List.foldlM_cons] at h
      obtain ⟨s₁, h₁, hrest⟩ := Option.bind_eq_some_iff.mp h
      obtain ⟨hq₁, ho₁, hr₁, hframe₁⟩ := applyBatchResultTo_spec hremote h₁
      obtain ⟨hq, ho, hr, hframe⟩ := ih hr₁ hrest
      refine ⟨hq.trans hq₁, ho.trans ho₁, hr, fun other hnot => ?_⟩
      obtain ⟨hne, hnot⟩ := not_or.mp (List.mem_cons.not.mp hnot)
      exact (hframe other hnot).trans (hframe₁ other hne)

theorem applyBatchResult_spec (hremote : s.RemoteOnly)
    (h : s.applyBatchResult result = some s') :
    s.queue.removeMutationBatch result.batch = some s'.queue ∧ s'.overlays = s.overlays ∧
      s'.RemoteOnly ∧
      ∀ other, other ∉ result.batch.keys →
        s'.remoteDocuments other = s.remoteDocuments other := by
  obtain ⟨s₁, h₁, h⟩ := Option.bind_eq_some_iff.mp h
  obtain ⟨queue, hqueue, h⟩ := Option.bind_eq_some_iff.mp h
  obtain ⟨hq, ho, hr, hframe⟩ := foldlM_applyBatchResultTo_spec hremote h₁
  obtain rfl := Option.some.inj h
  rw [hq] at hqueue
  exact ⟨hqueue, ho, hr, hframe⟩

theorem Consistent.acknowledgeBatch (h : s.Consistent)
    (hbatch : result.batch ∈ s.queue.allMutationBatches) {docs : List MutableDocument}
    (hack : s.acknowledgeBatch result now = some (s', docs)) :
    s'.Consistent ∧ (∃ s₁, s.applyBatchResult result = some s₁ ∧ s'.queue = s₁.queue ∧
      s'.remoteDocuments = s₁.remoteDocuments) ∧
      docs = result.batch.keys.map fun key => (s'.overlaidView (s'.getRemote key) now).1 := by
  obtain ⟨s₁, h₁, hrest⟩ := Option.bind_eq_some_iff.mp hack
  obtain ⟨hqueue, hoverlays, hremote, -⟩ := applyBatchResult_spec h.remote h₁
  obtain ⟨t, docs', ht, hconsistent, hq, hr, hdocs⟩ := h.afterRemoval _ hbatch hqueue hoverlays
    hremote now
  obtain ⟨rfl, rfl⟩ := Prod.mk.inj (Option.some.inj (ht.symm.trans hrest))
  exact ⟨hconsistent, ⟨s₁, h₁, hq, hr⟩, hdocs⟩

theorem Consistent.rejectBatch (h : s.Consistent) {batchId : BatchId}
    {docs : List MutableDocument} (hreject : s.rejectBatch batchId now = some (s', docs)) :
    s'.Consistent ∧ s'.remoteDocuments = s.remoteDocuments ∧
      ∃ batch, s.queue.lookupMutationBatch batchId = some batch ∧
        s.queue.removeMutationBatch batch = some s'.queue ∧
        docs = batch.keys.map fun key => (s'.overlaidView (s'.getRemote key) now).1 := by
  obtain ⟨batch, hlookup, hreject⟩ := Option.bind_eq_some_iff.mp hreject
  obtain ⟨queue, hqueue, hrest⟩ := Option.bind_eq_some_iff.mp hreject
  obtain ⟨hbatch, -⟩ := (MutationQueue.lookupMutationBatch_eq_some h.queue).mp hlookup
  obtain ⟨t, docs', ht, hconsistent, hq, hr, hdocs⟩ := h.afterRemoval { s with queue } hbatch
    hqueue rfl h.remote now
  obtain ⟨rfl, rfl⟩ := Prod.mk.inj (Option.some.inj (ht.symm.trans hrest))
  exact ⟨hconsistent, hr, batch, hlookup, hq ▸ hqueue, hdocs⟩

end Acknowledge

section RemoteEvents

variable {globalVersion : SnapshotVersion}

/-- One document of a remote event. -/
theorem populateDocumentChange_spec {st st' : LocalStore × DocumentChangeResult}
    {doc : MutableDocument} (hremote : st.1.RemoteOnly) (hdoc : doc.hasLocalMutations = false)
    (h : populateDocumentChange globalVersion st doc = some st') :
    st'.1.queue = st.1.queue ∧ st'.1.overlays = st.1.overlays ∧ st'.1.RemoteOnly ∧
      ∀ d ∈ st'.2.changedDocs, d ∈ st.2.changedDocs ∨ d = doc := by
  have happend : ∀ d ∈ st.2.changedDocs ++ [doc], d ∈ st.2.changedDocs ∨ d = doc := by simp
  simp only [populateDocumentChange] at h
  split at h
  · obtain rfl := Option.some.inj h
    exact ⟨rfl, rfl, hremote.setRemote (by simp), happend⟩
  · split at h
    · split at h
      · cases h
      · obtain rfl := Option.some.inj h
        refine ⟨rfl, rfl, hremote.setRemote ?_, happend⟩
        intro d hd
        obtain rfl := Option.some.inj hd
        exact ⟨rfl, hdoc⟩
    · obtain rfl := Option.some.inj h
      exact ⟨rfl, rfl, hremote, fun d hd => .inl hd⟩

theorem populateDocumentChanges_spec {documents : List MutableDocument}
    (st : LocalStore × DocumentChangeResult) {st' : LocalStore × DocumentChangeResult}
    (hremote : st.1.RemoteOnly)
    (hdocs : ∀ doc ∈ documents, doc.hasLocalMutations = false)
    (h : documents.foldlM (populateDocumentChange globalVersion) st = some st') :
    st'.1.queue = st.1.queue ∧ st'.1.overlays = st.1.overlays ∧ st'.1.RemoteOnly ∧
      ∀ d ∈ st'.2.changedDocs, d ∈ st.2.changedDocs ∨ d ∈ documents := by
  induction documents generalizing st with
  | nil =>
      obtain rfl := Option.some.inj h
      exact ⟨rfl, rfl, hremote, fun d hd => .inl hd⟩
  | cons doc documents ih =>
      rw [List.foldlM_cons] at h
      obtain ⟨st₁, h₁, hrest⟩ := Option.bind_eq_some_iff.mp h
      obtain ⟨hq₁, ho₁, hr₁, hc₁⟩ := populateDocumentChange_spec hremote
        (hdocs doc List.mem_cons_self) h₁
      obtain ⟨hq, ho, hr, hc⟩ := ih _ hr₁ (fun d hd => hdocs d (List.mem_cons_of_mem doc hd)) hrest
      refine ⟨hq.trans hq₁, ho.trans ho₁, hr, fun d hd => ?_⟩
      obtain hd | hd := hc d hd
      · obtain hd | rfl := hc₁ d hd
        · exact .inl hd
        · exact .inr List.mem_cons_self
      · exact .inr (List.mem_cons_of_mem doc hd)

theorem advanceSnapshotVersion_spec {snapshotVersion : SnapshotVersion}
    (h : s.advanceSnapshotVersion snapshotVersion = some s') :
    s'.queue = s.queue ∧ s'.overlays = s.overlays ∧ s'.remoteDocuments = s.remoteDocuments := by
  unfold advanceSnapshotVersion at h
  split at h
  · obtain rfl := Option.some.inj h
    exact ⟨rfl, rfl, rfl⟩
  · split at h
    · obtain rfl := Option.some.inj h
      exact ⟨rfl, rfl, rfl⟩
    · cases h

/-- The remote documents may change under a consistent store: the overlays do
not depend on them. -/
theorem Consistent.of_remote (h : s.Consistent) (hqueue : s'.queue = s.queue)
    (hoverlays : s'.overlays = s.overlays) (hremote : s'.RemoteOnly) : s'.Consistent where
  queue := hqueue ▸ h.queue
  plain := by
    rw [hqueue]
    exact h.plain
  remote := hremote
  covered userId key := by
    rw [batchesOf, hqueue, hoverlays]
    exact h.covered userId key

/-- The local view of a document: what the queued mutations make of any other base
they make of this one. -/
def Views (s : LocalStore) (doc out : MutableDocument) : Prop :=
  doc.key = out.key ∧ ∀ base, ∃ mask mask', Twin doc base out mask
    (replay (pending doc.key (s.batchesOf s.queue.userId doc.key)) base (some [])).1 mask'

theorem Consistent.applyRemoteEvent (h : s.Consistent) {updates docs : List MutableDocument}
    {snapshotVersion : SnapshotVersion} (hupdates : ∀ doc ∈ updates, doc.hasLocalMutations = false)
    (hevent : s.applyRemoteEvent updates snapshotVersion now = some (s', docs)) :
    s'.Consistent ∧ s'.queue = s.queue ∧
      ∃ changes, s.populateDocumentChanges updates snapshotVersion = some changes ∧
        s'.remoteDocuments = changes.1.remoteDocuments ∧
        docs.map MutableDocument.key = changes.2.changedDocs.map MutableDocument.key ∧
        ∀ out ∈ docs, ∃ doc ∈ changes.2.changedDocs, s'.Views doc out := by
  obtain ⟨⟨s₁, result⟩, h₁, hevent⟩ := Option.bind_eq_some_iff.mp hevent
  obtain ⟨hq, ho, hr, hc⟩ := populateDocumentChanges_spec (s, {}) h.remote hupdates h₁
  obtain ⟨s₂, h₂, hview⟩ := Option.bind_eq_some_iff.mp hevent
  have hsame := advanceSnapshotVersion_spec h₂
  have hs₂ : s₂.Consistent := by
    refine h.of_remote (hsame.1.trans hq) (hsame.2.1.trans ho) ?_
    unfold RemoteOnly
    rw [hsame.2.2]
    exact hr
  obtain ⟨s₃, r, hviews, hrecalculated⟩ := computeViews_spec hs₂.queue hs₂.overlaysKeyed
    result.changedDocs result.existenceChangedKeys now
  rw [getLocalViewOfDocuments, hviews] at hview
  obtain ⟨rfl, rfl⟩ := Prod.mk.inj (Option.some.inj hview)
  have hbatches : ∀ key, s₃.batchesOf s₃.queue.userId key = s₂.batchesOf s₂.queue.userId key := by
    intro key
    rw [batchesOf, hrecalculated.queue, batchesOf]
  -- A recalculated document is found under its key, so it may be another one of the list.
  have hout : ∀ doc ∈ result.changedDocs, ∀ out, out =
      (if s₂.needsRecalculation result.existenceChangedKeys doc.key then
        ((r.docs doc.key).getD doc, (r.masks doc.key).getD none)
      else s₂.overlaidView doc now).1 →
      out.key = doc.key ∧ ∃ found ∈ result.changedDocs, s₃.Views found out := by
    intro doc hdoc out hout
    split at hout
    · next hneeds =>
        have hsome : (s₂.recalculatedDocs result.changedDocs result.existenceChangedKeys
            doc.key).isSome :=
          List.find?_isSome.mpr ⟨doc, List.mem_filter.mpr ⟨hdoc, hneeds⟩, decide_eq_true rfl⟩
        obtain ⟨found, hfound⟩ := Option.isSome_iff_exists.mp hsome
        have hkey : found.key = doc.key := by simpa using List.find?_some hfound
        have hmem := (List.mem_filter.mp (List.mem_of_find?_eq_some hfound)).1
        simp only [hrecalculated.docs doc.key found hfound, Option.getD_some] at hout
        subst hout
        refine ⟨(replay_key _ _ _).trans hkey, found, hmem, (replay_key _ _ _).symm, fun base => ?_⟩
        rw [hbatches, hkey]
        exact ⟨_, _, Twin.untouched.replay (hs₂.plain_pending _ _)⟩
    · subst hout
      refine ⟨overlaidView_key s₂ doc now, doc, hdoc, (overlaidView_key s₂ doc now).symm, fun base => ?_⟩
      rw [hbatches]
      obtain ⟨mask, htwin⟩ := hs₂.twin_overlaidView_of_key rfl now base
      exact ⟨_, mask, htwin⟩
  refine ⟨hrecalculated.consistent hs₂ fun key doc hdoc => ?_,
    hrecalculated.queue.trans (hsame.1.trans hq), (s₁, result), h₁,
    hrecalculated.remoteDocuments.trans hsame.2.2, ?_, fun out hmem => ?_⟩
  · have hmem := (List.mem_filter.mp (List.mem_of_find?_eq_some hdoc)).1
    have hkey : doc.key = key := by simpa using List.find?_some hdoc
    exact ⟨hkey, hupdates doc ((hc doc hmem).resolve_left (by simp))⟩
  · simp only [List.map_map]
    exact List.map_congr_left fun doc hdoc => (hout doc hdoc _ rfl).1
  · simp only [List.map_map] at hmem
    obtain ⟨doc, hdoc, rfl⟩ := List.mem_map.mp hmem
    exact (hout doc hdoc _ rfl).2

end RemoteEvents

theorem Consistent.handleUserChange (h : s.Consistent) {userId : String}
    {docs : List MutableDocument} (hchange : s.handleUserChange userId now = some (s', docs)) :
    s'.Consistent ∧ s' = { s with queue := s.queue.start userId } ∧
      docs = ((s.queue.allMutationBatches ++
        (s.queue.start userId).allMutationBatches).flatMap MutationBatch.keys).dedup.map
          fun key => (s'.overlaidView (s'.getRemote key) now).1 := by
  have hstart : Consistent { s with queue := s.queue.start userId } :=
    ⟨MutationQueue.consistent_start h.queue userId, h.plain, h.remote, h.covered⟩
  rw [LocalStore.handleUserChange, getDocuments_eq hstart.queue hstart.overlaysKeyed] at hchange
  obtain ⟨rfl, rfl⟩ := Prod.mk.inj (Option.some.inj hchange)
  exact ⟨hstart, rfl, rfl⟩

section Runs

/-- A store whose tables are empty. -/
def empty (userId : String) : LocalStore where
  queue := { userId, nextBatchId := 1, mutations := [], documentMutations := ∅ }
  overlays _ _ := none
  remoteDocuments _ := none
  lastRemoteSnapshotVersion := 0

theorem consistent_empty (userId : String) : (empty userId).Consistent where
  queue := ⟨by simp [empty], List.Pairwise.nil, by simp [empty], by simp [empty], by simp [empty]⟩
  plain := by simp [empty, MutationQueue.batchesOf]
  remote := by simp [empty, RemoteOnly]
  covered _ _ := .empty

inductive Event where
  | write (mutations : List { m : Mutation // m.Plain })
  | acknowledge (batchId : BatchId) (commitVersion : SnapshotVersion)
      (mutationResults : List MutationResult)
  | reject (batchId : BatchId)
  | remote (documentUpdates : List { doc : MutableDocument // doc.hasLocalMutations = false })
      (snapshotVersion : SnapshotVersion)
  | userChange (userId : String)

/-- The batch of an acknowledgement is the queued one; a result for each of its
mutations has to be there. -/
def acknowledge (s : LocalStore) (batchId : BatchId) (commitVersion : SnapshotVersion)
    (mutationResults : List MutationResult) (now : Timestamp) :
    Option (LocalStore × List MutableDocument) :=
  (s.queue.lookupMutationBatch batchId).bind fun batch =>
    if length : batch.mutations.length = mutationResults.length then
      s.acknowledgeBatch { batch, commitVersion, mutationResults, length } now
    else none

/-- One event, at the time it happens. -/
def step (s : LocalStore) (e : Event × Timestamp) : Option LocalStore :=
  match e.1 with
  | .write mutations => (s.writeLocally (mutations.map Subtype.val) e.2).map Prod.fst
  | .acknowledge batchId commitVersion mutationResults =>
      (s.acknowledge batchId commitVersion mutationResults e.2).map Prod.fst
  | .reject batchId => (s.rejectBatch batchId e.2).map Prod.fst
  | .remote documentUpdates snapshotVersion =>
      (s.applyRemoteEvent (documentUpdates.map Subtype.val) snapshotVersion e.2).map Prod.fst
  | .userChange userId => (s.handleUserChange userId e.2).map Prod.fst

theorem plain_of_subtype (mutations : List { m : Mutation // m.Plain }) :
    ∀ m ∈ mutations.map Subtype.val, m.Plain := by
  intro m hm
  obtain ⟨m, -, rfl⟩ := List.mem_map.mp hm
  exact m.2

/-- A write that is not refused has mutations and finds room for its batch. -/
theorem Consistent.of_writeLocally (h : s.Consistent) {mutations : List Mutation}
    {t : LocalStore × LocalWriteResult} (hwrite : s.writeLocally mutations now = some t) :
    mutations ≠ [] ∧ s.queue.HasRoom := by
  have hne : mutations ≠ [] := by
    intro hnil
    rw [LocalStore.writeLocally, dif_pos hnil] at hwrite
    cases hwrite
  refine ⟨hne, ?_⟩
  rw [LocalStore.writeLocally, dif_neg hne] at hwrite
  obtain ⟨views, hviews, hwrite⟩ := Option.bind_eq_some_iff.mp hwrite
  rw [computeViews_nil h.queue h.overlaysKeyed] at hviews
  obtain rfl := Option.some.inj hviews
  obtain ⟨added, hadded, -⟩ := Option.bind_eq_some_iff.mp hwrite
  unfold MutationQueue.addMutationBatch at hadded
  split at hadded
  · assumption
  · cases hadded

theorem Consistent.step (h : s.Consistent) {e : Event × Timestamp} (hs : s.step e = some s') :
    s'.Consistent := by
  obtain ⟨event, now⟩ := e
  cases event with
  | write mutations =>
      obtain ⟨⟨t, result⟩, hwrite, rfl⟩ := Option.map_eq_some_iff.mp hs
      obtain ⟨hne, hroom⟩ := h.of_writeLocally hwrite
      obtain ⟨t', result', hwrite', hconsistent, -⟩ := h.writeLocally hroom hne
        (plain_of_subtype mutations) now
      obtain ⟨rfl, rfl⟩ := Prod.mk.inj (Option.some.inj (hwrite'.symm.trans hwrite))
      exact hconsistent
  | acknowledge batchId commitVersion mutationResults =>
      obtain ⟨⟨t, docs⟩, hack, rfl⟩ := Option.map_eq_some_iff.mp hs
      obtain ⟨batch, hlookup, hack⟩ := Option.bind_eq_some_iff.mp hack
      split at hack
      · exact (h.acknowledgeBatch
          ((MutationQueue.lookupMutationBatch_eq_some h.queue).mp hlookup).1 hack).1
      · cases hack
  | reject batchId =>
      obtain ⟨⟨t, docs⟩, hreject, rfl⟩ := Option.map_eq_some_iff.mp hs
      exact (h.rejectBatch hreject).1
  | remote documentUpdates snapshotVersion =>
      obtain ⟨⟨t, docs⟩, hevent, rfl⟩ := Option.map_eq_some_iff.mp hs
      refine (h.applyRemoteEvent (fun doc hdoc => ?_) hevent).1
      obtain ⟨doc, -, rfl⟩ := List.mem_map.mp hdoc
      exact doc.2
  | userChange userId =>
      obtain ⟨⟨t, docs⟩, hchange, rfl⟩ := Option.map_eq_some_iff.mp hs
      exact (h.handleUserChange hchange).1

theorem consistent_of_run {userId : String} {events : List (Event × Timestamp)}
    (hrun : Execution.run step (empty userId) events = some s) : s.Consistent :=
  Execution.run_preserves (fun _ _ _ hs h => Consistent.step h hs) (consistent_empty userId) hrun

/-- Reading through the overlays agrees with replaying the queue, in every state
a run reaches. -/
theorem readDocument_eq_getDocument {userId : String} {events : List (Event × Timestamp)}
    (hrun : Execution.run step (empty userId) events = some s) (key : DocumentReference)
    (now : Timestamp) :
    s.readDocument key now = some (s.getDocument key s.queue.allMutationBatches) := by
  have h := consistent_of_run hrun
  rw [h.readDocument_eq_some, h.overlaidDocument_eq]

section Examples

/-- The server sends two documents; a user patches the first and deletes a third
one, another user deletes that one too, and the first user comes back. -/
def editedRun : List (Event × Timestamp) :=
  [(.remote [⟨remoteDocument "u" 1 (oneField "name" 1), rfl⟩,
      ⟨remoteDocument "w" 1 (oneField "name" 3), rfl⟩] 1, 1),
    (.write [⟨.patch (profileRef "u") (oneField "phone" 2) [["phone"]] .none,
        by simp [Mutation.Plain, TopLevelMask, oneField, find_cons]⟩,
      ⟨.delete (profileRef "v") .none, rfl⟩], 2),
    (.userChange "b", 3),
    (.write [⟨.delete (profileRef "v") .none, rfl⟩], 4),
    (.userChange "a", 5)]

/-- The integer fields that are read of a document. -/
def readIntegers (s : LocalStore) (id : String) : Option (List (String × Int)) :=
  (s.readDocument (profileRef id) 10).map fun doc =>
    doc.value.fields.filterMap fun field =>
      match field.2 with
      | .scalar (.integer i) => some (field.1, i)
      | _ => none

theorem readDocument_eq_getDocument_edited :
    ∃ s, Execution.run step (empty "a") editedRun = some s ∧
      s.readIntegers "u" = some [("name", 1), ("phone", 2)] ∧
      s.readDocument (profileRef "u") 10 =
        some (s.getDocument (profileRef "u") s.queue.allMutationBatches) := by
  obtain ⟨s, hs, hread⟩ := Option.bind_eq_some_iff.mp
    (show (Execution.run step (empty "a") editedRun).bind (readIntegers · "u") =
      some [("name", 1), ("phone", 2)] by decide +kernel)
  exact ⟨s, hs, hread, readDocument_eq_getDocument hs _ _⟩

end Examples

/-- The check that follows every answer of the server passes in every state a run
reaches, and a restart gives no new batch the id of one that is still queued,
whoever queued it. The id it gives is an int32_t. -/
theorem queue_restartable {userId : String} {events : List (Event × Timestamp)}
    (hrun : Execution.run step (empty userId) events = some s) :
    s.queue.performConsistencyCheck = true ∧
      MutationQueue.loadNextBatchId s.queue.mutations < 2 ^ 31 ∧
      ∀ userId, ∀ batch ∈ s.queue.batchesOf userId,
        batch.batchId < MutationQueue.loadNextBatchId s.queue.mutations := by
  have hqueue := (consistent_of_run hrun).queue
  refine ⟨MutationQueue.performConsistencyCheck_eq_true hqueue,
    MutationQueue.loadNextBatchId_lt hqueue, fun userId batch hbatch => ?_⟩
  exact MutationQueue.lt_loadNextBatchId hqueue.ascending
    ((MutationQueue.mem_batchesOf hqueue).mp hbatch)

theorem queue_restartable_two_users :
    ∃ s, Execution.run step (empty "a") editedRun = some s ∧
      s.queue.performConsistencyCheck = true ∧
      MutationQueue.loadNextBatchId s.queue.mutations < 2 ^ 31 ∧
      ∀ userId, ∀ batch ∈ s.queue.batchesOf userId,
        batch.batchId < MutationQueue.loadNextBatchId s.queue.mutations := by
  obtain ⟨s, hs⟩ := Option.isSome_iff_exists.mp
    (show (Execution.run step (empty "a") editedRun).isSome by decide +kernel)
  exact ⟨s, hs, queue_restartable hs⟩

end Runs

end LocalStore

end FirebaseLogin.Core
