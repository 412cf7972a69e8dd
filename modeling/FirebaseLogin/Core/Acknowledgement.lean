import FirebaseLogin.Core.LocalRuns

/-!
What the server's answers do to the documents that are read. An acknowledged
batch moves from the queue into the remote documents, and what is read stays as
it was. The events that the library can receive never run into its assertions.
-/

namespace FirebaseLogin.Core

open SortedEntries

section SameData

/-- Two documents with the same contents; version and state may differ. -/
structure SameData (doc doc' : MutableDocument) : Prop where
  key : doc.key = doc'.key
  documentType : doc.documentType = doc'.documentType
  value : doc.value = doc'.value

variable {doc doc' doc'' : MutableDocument}

/-- A plain mutation reads nothing but the contents. -/
theorem SameData.applyLocally (h : SameData doc doc') {m : Mutation} (hm : m.Plain)
    (mask mask' : Option FieldMask) (t t' : Timestamp) :
    SameData (m.applyLocally doc mask t).1 (m.applyLocally doc' mask' t').1 := by
  cases m with
  | set key value precondition =>
      obtain rfl := hm
      rw [applyLocally_plain_set, applyLocally_plain_set]
      exact ⟨h.key, rfl, rfl⟩
  | patch key value m precondition =>
      obtain ⟨rfl, -⟩ := hm
      rw [applyLocally_plain_patch, applyLocally_plain_patch, h.value]
      exact ⟨h.key, rfl, rfl⟩
  | delete key precondition =>
      obtain rfl := hm
      rw [applyLocally_plain_delete, applyLocally_plain_delete]
      exact ⟨h.key, rfl, rfl⟩

theorem SameData.replay (h : SameData doc doc') {ms : List (Mutation × Timestamp)}
    (hms : ∀ m ∈ ms, m.1.Plain) (mask mask' : Option FieldMask) :
    SameData (Core.replay ms doc mask).1 (Core.replay ms doc' mask').1 := by
  induction ms generalizing doc doc' mask mask' with
  | nil => exact h
  | cons m ms ih =>
      exact ih (h.applyLocally (hms m List.mem_cons_self) mask mask' m.2 m.2)
        (fun m' hm' => hms m' (List.mem_cons_of_mem m hm')) _ _

/-- The server's result of a plain mutation has the contents of the local one. -/
theorem SameData.applyToRemoteDocument (h : SameData doc doc') {m : Mutation} (hm : m.Plain)
    {result : MutationResult} (hr : m.applyToRemoteDocument doc' result = some doc'')
    (mask : Option FieldMask) (t : Timestamp) :
    SameData (m.applyLocally doc mask t).1 doc'' := by
  obtain ⟨_, _, _, rfl, rfl⟩ | ⟨_, _, _, _, rfl, rfl⟩ | ⟨_, _, _, _, rfl, hinvalid, -⟩ |
    ⟨_, _, rfl, rfl⟩ := Mutation.applyToRemoteDocument_cases hr
  · obtain rfl := hm
    rw [applyLocally_plain_set]
    exact ⟨h.key, rfl, rfl⟩
  · obtain ⟨rfl, -⟩ := hm
    rw [applyLocally_plain_patch, h.value]
    exact ⟨h.key, rfl, rfl⟩
  · obtain ⟨rfl, -⟩ := hm
    cases hinvalid
  · obtain rfl := hm
    rw [applyLocally_plain_delete]
    exact ⟨h.key, rfl, rfl⟩

/-- The same for all mutations of a batch. -/
theorem MutationBatch.sameData_applyToRemoteDocument {batch : MutationBatch}
    (hbase : batch.baseMutations = []) (hplain : ∀ m ∈ batch.mutations, m.Plain)
    {results : List MutationResult} (hr : batch.applyToRemoteDocument doc results = some doc') :
    SameData (replay (batch.mutationsOf doc.key) doc (some [])).1 doc' := by
  have hfold : ∀ (l : List (Mutation × MutationResult)) (local_ doc : MutableDocument)
      (mask : Option FieldMask), (∀ e ∈ l, e.1.Plain) → SameData local_ doc →
      l.foldlM applyResult doc = some doc' →
      SameData (replay (((l.map Prod.fst).filter fun m => m.key = local_.key).map fun m =>
        (m, batch.localWriteTime)) local_ mask).1 doc' := by
    intro l
    induction l with
    | nil =>
        intro local_ doc mask _ hsame h
        obtain rfl := Option.some.inj h
        exact hsame
    | cons e l ih =>
        intro local_ doc mask hl hsame h
        rw [List.foldlM_cons] at h
        obtain ⟨doc₁, h₁, hrest⟩ := Option.bind_eq_some_iff.mp h
        have hl' : ∀ e' ∈ l, e'.1.Plain := fun e' he' => hl e' (List.mem_cons_of_mem e he')
        rw [List.map_cons]
        by_cases hkey : e.1.key = local_.key
        · rw [applyResult, if_pos (hkey.trans hsame.key)] at h₁
          rw [List.filter_cons_of_pos (by simpa using hkey), List.map_cons, replay]
          have hstep := hsame.applyToRemoteDocument (hl e List.mem_cons_self) h₁ mask
            batch.localWriteTime
          have hrec := ih _ doc₁ (e.1.applyLocally local_ mask batch.localWriteTime).2 hl' hstep
            hrest
          rwa [Mutation.applyLocally_key] at hrec
        · rw [applyResult, if_neg fun heq => hkey (heq.trans hsame.key.symm)] at h₁
          obtain rfl := Option.some.inj h₁
          rw [List.filter_cons_of_neg (by simpa using hkey)]
          exact ih local_ doc mask hl' hsame hrest
  unfold MutationBatch.applyToRemoteDocument at hr
  split at hr
  · next hlen =>
      have hzip : (batch.mutations.zip results).map Prod.fst = batch.mutations :=
        List.map_fst_zip hlen.ge
      have hsame := hfold (batch.mutations.zip results) doc doc (some [])
        (fun e he => hplain e.1 (List.of_mem_zip he).1) ⟨rfl, rfl, rfl⟩ hr
      rw [hzip] at hsame
      rw [MutationBatch.mutationsOf, hbase, List.nil_append]
      exact hsame
  · cases hr

end SameData

section Committed

variable {doc doc' : MutableDocument}

/-- The last mutation of the document decides its version. -/
theorem MutationBatch.committed_foldlM_applyResult {version : SnapshotVersion}
    (l : List (Mutation × MutationResult))
    (hversion : ((l.filter fun e => e.1.key = doc.key).map fun e => e.2.version).getLast? =
      some version)
    (h : l.foldlM MutationBatch.applyResult doc = some doc') :
    doc'.version = version ∧ doc'.hasPendingWrites = true := by
  induction l using List.reverseRecOn generalizing doc' with
  | nil => cases hversion
  | append_singleton l e ih =>
      rw [List.foldlM_append] at h
      obtain ⟨doc₁, h₁, hlast⟩ := Option.bind_eq_some_iff.mp h
      rw [List.foldlM_cons] at hlast
      obtain ⟨doc₂, h₂, hnil⟩ := Option.bind_eq_some_iff.mp hlast
      obtain rfl := Option.some.inj hnil
      have hkey := (MutationBatch.foldlM_applyResult_spec h₁).1
      rw [List.filter_append, List.map_append] at hversion
      by_cases heq : e.1.key = doc.key
      · rw [List.filter_cons_of_pos (by simpa using heq), List.filter_nil, List.map_singleton,
          List.getLast?_concat] at hversion
        obtain rfl := Option.some.inj hversion
        rw [MutationBatch.applyResult, if_pos (heq.trans hkey.symm)] at h₂
        obtain ⟨-, hstate, hversion⟩ := Mutation.applyToRemoteDocument_spec h₂
        exact ⟨hversion, by simp [MutableDocument.hasPendingWrites,
          MutableDocument.hasCommittedMutations, hstate]⟩
      · rw [List.filter_cons_of_neg (by simpa using heq), List.filter_nil, List.map_nil,
          List.append_nil] at hversion
        rw [MutationBatch.applyResult, if_neg fun h => heq (h.trans hkey)] at h₂
        obtain rfl := Option.some.inj h₂
        exact ih hversion h₁

end Committed

namespace LocalStore

variable {s s' : LocalStore} {key : DocumentReference} {now : Timestamp}
  {result : MutationBatchResult}

section Acknowledge

/-- Each document of the batch is visited once. -/
theorem foldlM_applyBatchResultTo_at {keys : List DocumentReference} (hnodup : keys.Nodup)
    (hkey : key ∈ keys) (hremote : s.RemoteOnly)
    (h : keys.foldlM (applyBatchResultTo result) s = some s') :
    ∃ t t', applyBatchResultTo result t key = some t' ∧ t.RemoteOnly ∧
      t.remoteDocuments key = s.remoteDocuments key ∧
      s'.remoteDocuments key = t'.remoteDocuments key := by
  induction keys generalizing s with
  | nil => cases hkey
  | cons other keys ih =>
      obtain ⟨hother, hnodup⟩ := List.nodup_cons.mp hnodup
      rw [List.foldlM_cons] at h
      obtain ⟨s₁, h₁, hrest⟩ := Option.bind_eq_some_iff.mp h
      obtain ⟨-, -, hr₁, hframe₁⟩ := applyBatchResultTo_spec hremote h₁
      obtain rfl | hkey := List.mem_cons.mp hkey
      · obtain ⟨-, -, -, hframe⟩ := foldlM_applyBatchResultTo_spec hr₁ hrest
        exact ⟨s, s₁, h₁, hremote, rfl, hframe key hother⟩
      · obtain ⟨t, t', ht, htr, hbefore, hafter⟩ := ih hnodup hkey hr₁ hrest
        have hne : key ≠ other := fun heq => hother (heq ▸ hkey)
        exact ⟨t, t', ht, htr, hbefore.trans (hframe₁ key hne), hafter⟩

/-- What an acknowledgement makes of a cached document. -/
inductive Acknowledged (result : MutationBatchResult) (key : DocumentReference)
    (before after : MutableDocument) : Prop where
  | untouched (outside : key ∉ result.batch.keys) (same : after = before)
  | outdated {version : SnapshotVersion} (acknowledged : result.docVersion key = some version)
      (newer : version ≤ before.version) (same : after = before)
  | committed {version : SnapshotVersion} (acknowledged : result.docVersion key = some version)
      (older : before.version < version)
      (contents : SameData (replay (result.batch.mutationsOf key) before (some [])).1 after)
      (valid : after.isValidDocument = true) (taken : after.version = version)
      (waits : after.hasPendingWrites = true)

/-- The remote document after an acknowledgement: as it was, if it was not older,
or with the contents of the local one. -/
theorem acknowledged_applyBatchResult (h : s.Consistent)
    (hbatch : result.batch ∈ s.queue.allMutationBatches)
    (happly : s.applyBatchResult result = some s') (key : DocumentReference) :
    Acknowledged result key (s.getRemote key) (s'.getRemote key) := by
  obtain ⟨hbase, hplain⟩ := h.plain s.queue.userId result.batch hbatch
  obtain ⟨-, -, -, hframe⟩ := applyBatchResult_spec h.remote happly
  by_cases hkey : key ∈ result.batch.keys
  swap
  · refine .untouched hkey ?_
    rw [LocalStore.getRemote, hframe key hkey]
    rfl
  obtain ⟨s₁, hfold, happly⟩ := Option.bind_eq_some_iff.mp happly
  obtain ⟨queue, -, happly⟩ := Option.bind_eq_some_iff.mp happly
  obtain rfl := Option.some.inj happly
  obtain ⟨t, t', ht, htr, hbefore, hafter⟩ := foldlM_applyBatchResultTo_at
    (List.nodup_dedup _) hkey h.remote hfold
  have hget : LocalStore.getRemote { s₁ with queue } key = t'.getRemote key := by
    rw [LocalStore.getRemote, LocalStore.getRemote, ← hafter]
  have hremote : t.getRemote key = s.getRemote key := by
    rw [LocalStore.getRemote, hbefore]
    rfl
  obtain ⟨ackVersion, hack, ht⟩ := Option.bind_eq_some_iff.mp ht
  rw [hget]
  rw [hremote] at ht
  split at ht
  · next holder =>
      obtain ⟨doc, hdoc, ht⟩ := Option.bind_eq_some_iff.mp ht
      have hsame := MutationBatch.sameData_applyToRemoteDocument hbase hplain hdoc
      rw [(h.getRemote key).1] at hsame
      have hcommitted : doc.version = ackVersion ∧ doc.hasPendingWrites = true := by
        rw [MutationBatch.applyToRemoteDocument, if_pos result.length.symm] at hdoc
        refine MutationBatch.committed_foldlM_applyResult _ ?_ hdoc
        rw [(h.getRemote key).1]
        exact hack
      have hvalid : doc.isValidDocument = true := by
        have hlocal := replay_isValidDocument (plain_mutationsOf key hbase hplain)
          (mutationsOf_ne_nil hkey) (s.getRemote key) (some [])
        rwa [MutableDocument.isValidDocument, hsame.documentType] at hlocal
      rw [if_pos hvalid] at ht
      obtain rfl := Option.some.inj ht
      have hstored : (t.setRemote key (some doc)).getRemote key = doc := by
        simp [LocalStore.getRemote, LocalStore.setRemote]
      rw [hstored]
      exact .committed hack holder hsame hvalid hcommitted.1 hcommitted.2
  · next hnewer =>
      obtain rfl := Option.some.inj ht
      exact .outdated hack (not_lt.mp hnewer) hremote

/-- The acknowledgement of the oldest batch does not change what is read, unless
the cached document is at least as new as the acknowledged one. -/
theorem Consistent.overlaidDocument_acknowledgeBatch (h : s.Consistent) {rest : List MutationBatch}
    (hqueue : s.queue.allMutationBatches = result.batch :: rest) {docs : List MutableDocument}
    (hversion : ∀ version, result.docVersion key = some version →
      (s.getRemote key).version < version)
    (hack : s.acknowledgeBatch result now = some (s', docs)) (t t' : Timestamp) :
    SameData (s.overlaidDocument key t) (s'.overlaidDocument key t') := by
  have hbatch : result.batch ∈ s.queue.allMutationBatches := hqueue ▸ List.mem_cons_self
  obtain ⟨hs', ⟨s₁, happly, hq, hr⟩, -⟩ := h.acknowledgeBatch hbatch hack
  obtain ⟨hremoved, -⟩ := applyBatchResult_spec h.remote happly
  have huser : s'.queue.userId = s.queue.userId := by
    obtain ⟨-, heq⟩ := MutationQueue.removeMutationBatch_eq_some.mp hremoved
    rw [hq, heq]
  have hleft : s'.queue.allMutationBatches = rest := by
    have hascending := MutationQueue.ascending_batchesOf h.queue s.queue.userId
    rw [MutationQueue.allMutationBatches] at hqueue
    rw [hqueue] at hascending
    rw [MutationQueue.allMutationBatches, huser, hq,
      MutationQueue.batchesOf_removeMutationBatch h.queue hbatch hremoved, hqueue]
    rw [List.filter_cons_of_neg (by simp), List.filter_eq_self.mpr]
    intro b hb
    have hlt := (List.pairwise_cons.mp hascending).1 b hb
    simpa using hlt.ne'
  have hbase : SameData (replay (result.batch.mutationsOf key) (s.getRemote key) (some [])).1
      (s'.getRemote key) := by
    have hget : s'.getRemote key = s₁.getRemote key := by
      rw [LocalStore.getRemote, hr]
      rfl
    rw [hget]
    cases acknowledged_applyBatchResult h hbatch happly key with
    | untouched outside same =>
        rw [same, mutationsOf_eq_nil (h.plain s.queue.userId result.batch hbatch).1 outside]
        exact ⟨rfl, rfl, rfl⟩
    | outdated acknowledged newer =>
        exact absurd (hversion _ acknowledged) (not_lt.mpr newer)
    | committed acknowledged older contents => exact contents
  have hplain : ∀ m ∈ pending key rest, m.1.Plain := by
    intro m hm
    obtain ⟨b, hb, hmem⟩ := List.mem_flatMap.mp hm
    obtain ⟨hb₁, hb₂⟩ := h.plain s.queue.userId b (by
      rw [← MutationQueue.allMutationBatches, hqueue]
      exact List.mem_cons_of_mem _ hb)
    exact plain_mutationsOf key hb₁ hb₂ m hmem
  rw [h.overlaidDocument_eq, hs'.overlaidDocument_eq, getDocument_eq_replay h,
    getDocument_eq_replay hs', hqueue, hleft, pending_cons, replay_append]
  exact hbase.replay hplain _ _

end Acknowledge

section Progress

theorem foldlM_isSome {σ α : Type} {f : σ → α → Option σ} {I : σ → Prop} {l : List α}
    (hf : ∀ s, I s → ∀ a ∈ l, ∃ s', f s a = some s' ∧ I s') {s : σ} (hs : I s) :
    ∃ s', l.foldlM f s = some s' ∧ I s' := by
  induction l generalizing s with
  | nil => exact ⟨s, rfl, hs⟩
  | cons a l ih =>
      obtain ⟨s₁, h₁, hs₁⟩ := hf s hs a List.mem_cons_self
      obtain ⟨s₂, h₂, hs₂⟩ := ih (fun t ht b hb => hf t ht b (List.mem_cons_of_mem a hb)) hs₁
      exact ⟨s₂, by rw [List.foldlM_cons, h₁]; exact h₂, hs₂⟩

theorem applyToRemoteDocument_isSome {m : Mutation} {r : MutationResult} {doc : MutableDocument}
    (h : r.transformResults = []) (hkey : m.key = doc.key) :
    ∃ doc', m.applyToRemoteDocument doc r = some doc' := by
  unfold Mutation.applyToRemoteDocument
  rw [if_pos (by simpa [Mutation.verifyKeyMatches] using hkey.symm)]
  cases m with
  | set key value precondition => exact ⟨_, if_pos h⟩
  | patch key value mask precondition =>
      simp only [if_pos h]
      split <;> exact ⟨_, rfl⟩
  | delete key precondition => exact ⟨_, if_pos h⟩

/-- Without transforms the server returns no transform results. -/
def MutationBatchResult.Matches (result : MutationBatchResult) : Prop :=
  ∀ r ∈ result.mutationResults, r.transformResults = []

theorem applyBatchResultTo_isSome (hmatches : result.Matches) (hkey : key ∈ result.batch.keys)
    (s : LocalStore) : ∃ s', applyBatchResultTo result s key = some s' := by
  have hversion : ∃ version, result.docVersion key = some version := by
    obtain ⟨m, hm, rfl⟩ := MutationBatch.mem_keys.mp hkey
    obtain ⟨i, hi, rfl⟩ := List.getElem_of_mem hm
    have hi' : i < result.mutationResults.length := result.length ▸ hi
    refine Option.isSome_iff_exists.mp ?_
    rw [MutationBatchResult.docVersion, List.getLast?_isSome, Ne, List.map_eq_nil_iff,
      List.filter_eq_nil_iff]
    intro hnone
    refine hnone (result.batch.mutations[i], result.mutationResults[i]) ?_ (by simp)
    exact List.mem_iff_getElem.mpr ⟨i, by simp [hi, hi'], by simp⟩
  have happly : ∃ doc, result.batch.applyToRemoteDocument (s.getRemote key)
      result.mutationResults = some doc := by
    rw [MutationBatch.applyToRemoteDocument, if_pos result.length.symm]
    have hstep : ∀ doc, True → ∀ e ∈ result.batch.mutations.zip result.mutationResults,
        ∃ doc', MutationBatch.applyResult doc e = some doc' ∧ True := by
      intro doc _ e he
      by_cases heq : e.1.key = doc.key
      · obtain ⟨doc', hdoc'⟩ := applyToRemoteDocument_isSome
          (hmatches e.2 (List.of_mem_zip he).2) heq
        exact ⟨doc', by rw [MutationBatch.applyResult, if_pos heq, hdoc'], trivial⟩
      · exact ⟨doc, if_neg heq, trivial⟩
    obtain ⟨doc, hdoc, -⟩ := foldlM_isSome hstep (s := s.getRemote key) trivial
    exact ⟨doc, hdoc⟩
  obtain ⟨version, hversion⟩ := hversion
  obtain ⟨doc, happly⟩ := happly
  have heq : applyBatchResultTo result s key =
      if (s.getRemote key).version < version then
        if doc.isValidDocument then some (s.setRemote key (some doc)) else some s
      else some s := by
    simp only [applyBatchResultTo, hversion, happly, Option.bind_eq_bind, Option.bind_some]
  rw [heq]
  split
  · split <;> exact ⟨_, rfl⟩
  · exact ⟨_, rfl⟩

theorem Consistent.acknowledgeBatch_isSome (h : s.Consistent) (result : MutationBatchResult)
    (hbatch : result.batch ∈ s.queue.allMutationBatches) (hmatches : result.Matches)
    (now : Timestamp) : ∃ s' docs, s.acknowledgeBatch result now = some (s', docs) := by
  obtain ⟨s₁, hfold, -⟩ := foldlM_isSome (I := fun _ => True) (f := applyBatchResultTo result)
    (fun t _ key hkey => (applyBatchResultTo_isSome hmatches hkey t).imp fun _ ht => ⟨ht, trivial⟩)
    (s := s) trivial
  have hq := (foldlM_applyBatchResultTo_spec h.remote hfold).1
  have hlookup := (MutationQueue.lookupMutationBatch_eq_some h.queue).mpr ⟨hbatch, rfl⟩
  have hremoved : ∃ queue, s₁.queue.removeMutationBatch result.batch = some queue := by
    rw [hq, MutationQueue.removeMutationBatch, if_pos (by rw [hlookup]; rfl)]
    exact ⟨_, rfl⟩
  obtain ⟨queue, hqueue⟩ := hremoved
  have happly : s.applyBatchResult result = some { s₁ with queue } := by
    simp only [applyBatchResult, hfold, hqueue, Option.bind_eq_bind, Option.bind_some]
  obtain ⟨hremoved', hoverlays, hremote, -⟩ := applyBatchResult_spec h.remote happly
  obtain ⟨t, docs, ht, -⟩ := h.afterRemoval _ hbatch hremoved' hoverlays hremote now
  exact ⟨t, docs, by rw [LocalStore.acknowledgeBatch, happly]; exact ht⟩

/-- A document that stands for one to which access was lost. -/
def Fabricated (doc : MutableDocument) : Prop := doc.isNoDocument ∧ doc.version = 0

theorem applyRemoteEvent_isSome (h : s.Consistent) {updates : List MutableDocument}
    {snapshotVersion : SnapshotVersion} (hupdates : ∀ doc ∈ updates, doc.hasLocalMutations = false)
    (hfabricated : snapshotVersion = 0 → ∀ doc ∈ updates, Fabricated doc)
    (hversion : s.lastRemoteSnapshotVersion ≤ snapshotVersion ∨ snapshotVersion = 0)
    (now : Timestamp) : ∃ s' docs, s.applyRemoteEvent updates snapshotVersion now =
      some (s', docs) := by
  have hstep : ∀ st : LocalStore × DocumentChangeResult,
      st.1.lastRemoteSnapshotVersion = s.lastRemoteSnapshotVersion → ∀ doc ∈ updates,
      ∃ st', populateDocumentChange snapshotVersion st doc = some st' ∧
        st'.1.lastRemoteSnapshotVersion = s.lastRemoteSnapshotVersion := by
    intro st hst doc hdoc
    simp only [populateDocumentChange]
    by_cases hfab : doc.isNoDocument ∧ doc.version = 0
    · exact ⟨_, if_pos hfab, hst⟩
    · rw [if_neg hfab]
      have hne : snapshotVersion ≠ 0 := fun hzero => hfab (hfabricated hzero doc hdoc)
      rw [if_neg hne]
      split <;> exact ⟨_, rfl, hst⟩
  obtain ⟨⟨s₁, result⟩, h₁, hlast⟩ := foldlM_isSome hstep (s := (s, {})) rfl
  obtain ⟨hq, ho, hr, -⟩ := populateDocumentChanges_spec (s, {}) h.remote hupdates h₁
  have hadvance : ∃ s₂, s₁.advanceSnapshotVersion snapshotVersion = some s₂ := by
    unfold advanceSnapshotVersion
    split
    · exact ⟨s₁, rfl⟩
    · next hne =>
        rw [if_pos (hlast ▸ hversion.resolve_right hne)]
        exact ⟨_, rfl⟩
  obtain ⟨s₂, h₂⟩ := hadvance
  obtain ⟨hq₂, ho₂, hr₂⟩ := advanceSnapshotVersion_spec h₂
  have hconsistent : s₂.Consistent := by
    refine h.of_remote (hq₂.trans hq) (ho₂.trans ho) ?_
    rw [RemoteOnly, hr₂]
    exact hr
  obtain ⟨s₃, r, hviews, -⟩ := computeViews_spec hconsistent.queue hconsistent.overlaysKeyed
    result.changedDocs result.existenceChangedKeys now
  have hevent : s.applyRemoteEvent updates snapshotVersion now =
      s₂.getLocalViewOfDocuments result.changedDocs result.existenceChangedKeys now := by
    rw [LocalStore.applyRemoteEvent, populateDocumentChanges, h₁, Option.bind_some, h₂,
      Option.bind_some]
  rw [hevent, getLocalViewOfDocuments, hviews]
  exact ⟨_, _, rfl⟩

/-- What the app, the server and the auth component hand to the store: batches
that are not empty while there are ids left, answers for queued batches, events in
the order of their versions. -/
def Event.Expected (s : LocalStore) : Event → Prop
  | .write mutations => mutations ≠ [] ∧ s.queue.HasRoom
  | .acknowledge batchId _ mutationResults =>
      ∃ batch, s.queue.lookupMutationBatch batchId = some batch ∧
        batch.mutations.length = mutationResults.length ∧
        ∀ r ∈ mutationResults, r.transformResults = []
  | .reject batchId => (s.queue.lookupMutationBatch batchId).isSome
  | .remote documentUpdates snapshotVersion =>
      (snapshotVersion = 0 → ∀ doc ∈ documentUpdates, Fabricated doc.1) ∧
        (s.lastRemoteSnapshotVersion ≤ snapshotVersion ∨ snapshotVersion = 0)
  | .userChange _ => True

theorem Consistent.step_isSome (h : s.Consistent) {e : Event × Timestamp}
    (he : e.1.Expected s) : (s.step e).isSome := by
  obtain ⟨event, now⟩ := e
  refine Option.isSome_iff_exists.mpr ?_
  cases event with
  | write mutations =>
      have hne : mutations.map Subtype.val ≠ [] := fun hnil => he.1 (List.map_eq_nil_iff.mp hnil)
      obtain ⟨s', result, hwrite, -⟩ := h.writeLocally he.2 hne (plain_of_subtype mutations) now
      exact ⟨s', congrArg (Option.map Prod.fst) hwrite⟩
  | acknowledge batchId commitVersion mutationResults =>
      obtain ⟨batch, hlookup, hlength, hmatches⟩ := he
      obtain ⟨hbatch, -⟩ := (MutationQueue.lookupMutationBatch_eq_some h.queue).mp hlookup
      obtain ⟨s', docs, hack⟩ := h.acknowledgeBatch_isSome
        { batch, commitVersion, mutationResults, length := hlength } hbatch hmatches now
      have hevent : s.acknowledge batchId commitVersion mutationResults now = some (s', docs) := by
        rw [acknowledge, hlookup, Option.bind_some, dif_pos hlength, hack]
      exact ⟨s', congrArg (Option.map Prod.fst) hevent⟩
  | reject batchId =>
      obtain ⟨batch, hlookup⟩ := Option.isSome_iff_exists.mp he
      obtain ⟨hbatch, hid⟩ := (MutationQueue.lookupMutationBatch_eq_some h.queue).mp hlookup
      have hremoved : ∃ queue, s.queue.removeMutationBatch batch = some queue := by
        rw [MutationQueue.removeMutationBatch, if_pos (by rw [hid, hlookup]; rfl)]
        exact ⟨_, rfl⟩
      obtain ⟨queue, hqueue⟩ := hremoved
      obtain ⟨s', docs, hrest, -⟩ := h.afterRemoval { s with queue } hbatch hqueue rfl
        h.remote now
      have hevent : s.rejectBatch batchId now = some (s', docs) := by
        simp only [LocalStore.rejectBatch, hlookup, hqueue, Option.bind_eq_bind, Option.bind_some]
        exact hrest
      exact ⟨s', congrArg (Option.map Prod.fst) hevent⟩
  | remote documentUpdates snapshotVersion =>
      have hupdates : ∀ doc ∈ documentUpdates.map Subtype.val, doc.hasLocalMutations = false := by
        intro doc hdoc
        obtain ⟨doc, -, rfl⟩ := List.mem_map.mp hdoc
        exact doc.2
      have hfabricated : snapshotVersion = 0 → ∀ doc ∈ documentUpdates.map Subtype.val,
          Fabricated doc := by
        intro hzero doc hdoc
        obtain ⟨doc, hmem, rfl⟩ := List.mem_map.mp hdoc
        exact he.1 hzero doc hmem
      obtain ⟨s', docs, hevent⟩ := applyRemoteEvent_isSome h hupdates hfabricated he.2 now
      exact ⟨s', congrArg (Option.map Prod.fst) hevent⟩
  | userChange userId =>
      have hq := MutationQueue.consistent_start h.queue userId
      have hkeyed : OverlaysKeyed { s with queue := s.queue.start userId } := h.overlaysKeyed
      exact ⟨_, congrArg (Option.map Prod.fst) (getDocuments_eq hq hkeyed _ now)⟩

end Progress

section Runs

variable {userId : String} {events : List (Event × Timestamp)}

/-- No event the store can expect makes it fail, whatever happened before. -/
theorem run_never_fails (hrun : Execution.run step (empty userId) events = some s)
    {e : Event × Timestamp} (he : e.1.Expected s) : (s.step e).isSome :=
  (consistent_of_run hrun).step_isSome he

theorem run_never_fails_acknowledge :
    ∃ s, Execution.run step (empty "a") editedRun = some s ∧
      (s.step (.acknowledge 1 5 [⟨5, []⟩, ⟨5, []⟩], 6)).isSome := by
  obtain ⟨s, hs, hqueued⟩ := Option.map_eq_some_iff.mp
    (show (Execution.run step (empty "a") editedRun).map (fun s =>
        (s.queue.lookupMutationBatch 1).map fun batch => batch.mutations.length) =
      some (some 2) by decide +kernel)
  obtain ⟨batch, hbatch, hlength⟩ := Option.map_eq_some_iff.mp hqueued
  exact ⟨s, hs, run_never_fails hs ⟨batch, hbatch, hlength, by simp⟩⟩

/-- After any run, the acknowledgement of the oldest batch does not change what is
read of a document whose cached version is older. -/
theorem readDocument_acknowledged (hrun : Execution.run step (empty userId) events = some s)
    {rest : List MutationBatch} (hqueue : s.queue.allMutationBatches = result.batch :: rest)
    {docs : List MutableDocument} (hversion : ∀ version, result.docVersion key = some version →
      (s.getRemote key).version < version)
    (hack : s.acknowledgeBatch result now = some (s', docs)) (t t' : Timestamp) :
    ∃ doc doc', s.readDocument key t = some doc ∧ s'.readDocument key t' = some doc' ∧
      SameData doc doc' := by
  have h := consistent_of_run hrun
  have hs' := (h.acknowledgeBatch (hqueue ▸ List.mem_cons_self) hack).1
  exact ⟨_, _, h.readDocument_eq_some key t, hs'.readDocument_eq_some key t',
    h.overlaidDocument_acknowledgeBatch hqueue hversion hack t t'⟩

theorem readDocument_acknowledged_edited :
    ∃ s s' result docs, Execution.run step (empty "a") editedRun = some s ∧
      s.queue.allMutationBatches = [result.batch] ∧
      s.acknowledgeBatch result 6 = some (s', docs) ∧
      s.readIntegers "u" = some [("name", 1), ("phone", 2)] ∧
      ∃ doc doc', s.readDocument (profileRef "u") 7 = some doc ∧
        s'.readDocument (profileRef "u") 8 = some doc' ∧ SameData doc doc' := by
  obtain ⟨s, hs, hstate⟩ := Option.map_eq_some_iff.mp
    (show (Execution.run step (empty "a") editedRun).map (fun s =>
        (s.queue.allMutationBatches.map fun batch => batch.mutations.length,
          (s.getRemote (profileRef "u")).version, s.readIntegers "u")) =
      some ([2], 1, some [("name", 1), ("phone", 2)]) by decide +kernel)
  obtain ⟨hqueued, hstate⟩ := Prod.mk.inj hstate
  obtain ⟨hcached, hread⟩ := Prod.mk.inj hstate
  obtain ⟨batch, hbatch, hlength⟩ := List.map_eq_singleton_iff.mp hqueued
  let result : MutationBatchResult :=
    { batch, commitVersion := 5, mutationResults := [⟨5, []⟩, ⟨5, []⟩], length := hlength }
  have hversion : ∀ version, result.docVersion (profileRef "u") = some version →
      (s.getRemote (profileRef "u")).version < version := by
    intro version hdoc
    obtain ⟨e, he, rfl⟩ := List.mem_map.mp (List.mem_of_getLast? hdoc)
    have hresult : e.2 ∈ [(⟨5, []⟩ : MutationResult), ⟨5, []⟩] :=
      (List.of_mem_zip (List.mem_filter.mp he).1).2
    obtain heq : e.2 = ⟨5, []⟩ := by simpa using hresult
    rw [hcached, heq]
    decide
  obtain ⟨s', docs, hack⟩ := (consistent_of_run hs).acknowledgeBatch_isSome result
    (hbatch ▸ List.mem_singleton_self _) (by simp [MutationBatchResult.Matches, result]) 6
  exact ⟨s, s', result, docs, hs, hbatch, hack, hread,
    readDocument_acknowledged hs hbatch hversion hack 7 8⟩

end Runs

end LocalStore

end FirebaseLogin.Core
