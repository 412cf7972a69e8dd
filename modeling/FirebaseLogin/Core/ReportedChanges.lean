import FirebaseLogin.Core.LocalRuns

/-!
What the local store reports. Every operation returns the documents it changed;
the views of queries are brought up to date from these alone, so a document that
is not among them has to read as before, and one that is has to be what is read.
-/

namespace FirebaseLogin.Core

/-- The same for every query: the same document, or none. -/
def SameResult (doc doc' : MutableDocument) : Prop :=
  doc = doc' ∨ doc.isFoundDocument = false ∧ doc'.isFoundDocument = false

namespace LocalStore

variable {s s' : LocalStore} {key : DocumentReference} {docs : List MutableDocument}

/-- One event with the documents it returns. -/
def outcome (s : LocalStore) (e : Event × Timestamp) : Option (LocalStore × List MutableDocument) :=
  match e.1 with
  | .write mutations =>
      (s.writeLocally (mutations.map Subtype.val) e.2).map fun out => (out.1, out.2.changes)
  | .acknowledge batchId commitVersion mutationResults =>
      s.acknowledge batchId commitVersion mutationResults e.2
  | .reject batchId => s.rejectBatch batchId e.2
  | .remote documentUpdates snapshotVersion =>
      s.applyRemoteEvent (documentUpdates.map Subtype.val) snapshotVersion e.2
  | .userChange userId => s.handleUserChange userId e.2

theorem step_eq_outcome (s : LocalStore) (e : Event × Timestamp) :
    s.step e = (s.outcome e).map Prod.fst := by
  obtain ⟨event, now⟩ := e
  cases event with
  | write mutations =>
      rw [outcome, Option.map_map]
      rfl
  | acknowledge | reject | remote | userChange => rfl

/-- Nothing that the document is read from differs. -/
structure Untouched (s s' : LocalStore) (key : DocumentReference) : Prop where
  remote : s'.remoteDocuments key = s.remoteDocuments key
  batches : s'.batchesOf s'.queue.userId key = s.batchesOf s.queue.userId key

theorem Untouched.overlaidDocument (hu : Untouched s s' key) (h : s.Consistent) (h' : s'.Consistent)
    (t t' : Timestamp) : s'.overlaidDocument key t' = s.overlaidDocument key t := by
  rw [h'.overlaidDocument_eq_replay, h.overlaidDocument_eq_replay, hu.batches, getRemote, hu.remote]
  rfl

/-- A document through its overlay is the document that is read. -/
theorem Consistent.overlaidView_eq_overlaidDocument (h : s.Consistent) (key : DocumentReference)
    (now t : Timestamp) : (s.overlaidView (s.getRemote key) now).1 = s.overlaidDocument key t := by
  obtain ⟨mask, htwin⟩ := h.twin_overlaidView key now (s.getRemote key)
  rw [h.overlaidDocument_eq_replay]
  obtain ⟨hdoc, hremote⟩ | heq := htwin.eq_or_untouched rfl rfl
  · rw [hdoc, hremote]
  · exact heq

theorem Consistent.overlaidDocument_key (h : s.Consistent) (key : DocumentReference) (t : Timestamp) :
    (s.overlaidDocument key t).key = key := by
  rw [← h.overlaidView_eq_overlaidDocument key t t, overlaidView_key]
  exact (h.remote.getRemote key).1

theorem keys_of_views {keys : List DocumentReference} {view : DocumentReference → MutableDocument}
    (h : ∀ key, (view key).key = key) : (keys.map view).map MutableDocument.key = keys := by
  rw [List.map_map]
  exact List.map_id'' h keys

theorem Consistent.keys_of_overlaidViews (h : s.Consistent) (keys : List DocumentReference)
    (now : Timestamp) : (keys.map fun key => (s.overlaidView (s.getRemote key) now).1).map
      MutableDocument.key = keys :=
  keys_of_views fun key => (overlaidView_key s _ now).trans (h.remote.getRemote key).1

section Write

variable {batch : MutationBatch} {set set' : LocalDocumentSet} {m : Mutation}

theorem applyMutation_documents (h : set.applyMutation batch m = some set')
    (key : DocumentReference) :
    (m.key ≠ key → set'.documents key = set.documents key) ∧
      (m.key = key → ∃ doc mask, set.documents key = some (doc, mask) ∧
        set'.documents key = some (if (batch.applyToLocalView doc mask).1.isValidDocument then
          (batch.applyToLocalView doc mask).1
          else (batch.applyToLocalView doc mask).1.convertToNoDocument 0, mask)) := by
  obtain ⟨⟨doc, mask⟩, hdoc, rfl⟩ := Option.map_eq_some_iff.mp h
  refine ⟨fun hne => Function.update_of_ne (Ne.symm hne) _ _, fun heq => ?_⟩
  subst heq
  exact ⟨doc, mask, hdoc, Function.update_self _ _ _⟩

/-- Each mutation applies the whole batch again; that is the same as once. -/
theorem applyToLocalDocumentSet_documents (hbase : batch.baseMutations = [])
    (hplain : ∀ m ∈ batch.mutations, m.Plain)
    {documents : DocumentReference → Option OverlayedDocument} {view : OverlayedDocument}
    (hview : documents key = some view) (hkey : view.1.key = key) (hin : key ∈ batch.keys)
    (hset : applyToLocalDocumentSet batch documents = some set) :
    ∃ mask, set.documents key = some ((replay (batch.mutationsOf key) view.1 view.2).1, mask) := by
  have hms := plain_mutationsOf key hbase hplain
  set final := (replay (batch.mutationsOf key) view.1 view.2).1 with hfinal
  have hvalid : final.isValidDocument = true :=
    replay_isValidDocument hms (mutationsOf_ne_nil hin) _ _
  have happly : ∀ doc mask, doc = view.1 ∨ doc = final →
      (batch.applyToLocalView doc mask).1 = final := by
    rintro doc mask (rfl | rfl)
    · rw [MutationBatch.applyToLocalView_eq_replay, hkey]
      exact replay_mask _ _ _ _
    · rw [MutationBatch.applyToLocalView_eq_replay, hfinal, replay_key, hkey]
      exact replay_replay hms _ _ _
  have hown : ∀ {set set' : LocalDocumentSet} {m : Mutation},
      set.applyMutation batch m = some set' → m.key = key →
      (∃ doc mask, set.documents key = some (doc, mask) ∧ (doc = view.1 ∨ doc = final)) →
      ∃ mask, set'.documents key = some (final, mask) := by
    rintro set set' m h heq ⟨doc, mask, hdoc, hor⟩
    obtain ⟨doc', mask', hdoc', hset'⟩ := (applyMutation_documents h key).2 heq
    obtain ⟨rfl, rfl⟩ := Prod.mk.inj (Option.some.inj (hdoc.symm.trans hdoc'))
    rw [happly doc mask hor, if_pos hvalid] at hset'
    exact ⟨mask, hset'⟩
  obtain ⟨m, hm, hmkey⟩ := MutationBatch.mem_keys.mp hin
  obtain ⟨before, after, hsplit⟩ := List.append_of_mem hm
  rw [applyToLocalDocumentSet, Execution.foldlM_eq_run, hsplit] at hset
  obtain ⟨set₁, hbefore, hrest⟩ := Execution.run_append.mp hset
  obtain ⟨set₂, hstep, hafter⟩ := Execution.run_cons.mp hrest
  have h₁ := Execution.run_preserves
    (I := fun set : LocalDocumentSet => ∃ doc mask, set.documents key = some (doc, mask) ∧
      (doc = view.1 ∨ doc = final))
    (fun set m' set' h hI => by
      by_cases heq : m'.key = key
      · obtain ⟨mask, hmask⟩ := hown h heq hI
        exact ⟨final, mask, hmask, .inr rfl⟩
      · rw [(applyMutation_documents h key).1 heq]
        exact hI)
    ⟨view.1, view.2, hview, .inl rfl⟩ hbefore
  refine Execution.run_preserves
    (I := fun set : LocalDocumentSet => ∃ mask, set.documents key = some (final, mask))
    (fun set m' set' h hI => ?_) (hown hstep hmkey h₁) hafter
  by_cases heq : m'.key = key
  · obtain ⟨mask, hmask⟩ := hI
    exact hown h heq ⟨final, mask, hmask, .inr rfl⟩
  · rw [(applyMutation_documents h key).1 heq]
    exact hI

/-- A write reports the documents of its batch, as they are read afterwards. -/
theorem Consistent.changes_of_writeLocally (h : s.Consistent) {mutations : List Mutation}
    (hplain : ∀ m ∈ mutations, m.Plain) {now : Timestamp} {result : LocalWriteResult}
    (hwrite : s.writeLocally mutations now = some (s', result)) (t : Timestamp) :
    result.changes = (mutations.map Mutation.key).dedup.map fun key => s'.overlaidDocument key t := by
  obtain ⟨hne, hroom⟩ := h.of_writeLocally hwrite
  obtain ⟨overlay, t₁, result₁, -, hwrite₁, -, ⟨set, hset, hchanges⟩, hqueue, hremote, -⟩ :=
    writeLocally_eq h hroom hne hplain now
  obtain ⟨rfl, rfl⟩ := Prod.mk.inj (Option.some.inj (hwrite₁.symm.trans hwrite))
  obtain ⟨t₂, result₂, hwrite₂, hconsistent, -⟩ := h.writeLocally hroom hne hplain now
  obtain ⟨rfl, rfl⟩ := Prod.mk.inj (Option.some.inj (hwrite₂.symm.trans hwrite))
  set batch := (s.queue.enqueue now [] mutations hne).1 with hbatch
  have hdocuments : ∀ key ∈ batch.keys,
      (set.documents key).map Prod.fst = some (t₂.overlaidDocument key t) := by
    intro key hin
    have hviewKey : ∀ key, (s.overlaidView (s.getRemote key) now).1.key = key := fun key =>
      (overlaidView_key s _ now).trans (h.remote.getRemote key).1
    obtain ⟨mask, hfinal⟩ := applyToLocalDocumentSet_documents (by rw [hbatch]; rfl)
      (by rw [hbatch]; exact hplain)
      ((find?_views (fun key => s.overlaidView (s.getRemote key) now) hviewKey batch.keys key).trans
        (if_pos hin))
      (hviewKey key) hin hset
    have huser : t₂.queue.userId = s.queue.userId := by rw [hqueue]; rfl
    have hbatches : t₂.batchesOf t₂.queue.userId key =
        s.batchesOf s.queue.userId key ++ [batch] := by
      rw [huser, batchesOf, hqueue, MutationQueue.batchesOf_enqueue h.queue hroom, if_pos rfl,
        List.filter_append, List.filter_singleton]
      simp [batchesOf, ← hbatch, hin]
    have hgetRemote : t₂.getRemote key = s.getRemote key := by
      rw [LocalStore.getRemote, hremote, LocalStore.getRemote]
    rw [hfinal, hconsistent.overlaidDocument_eq_replay, hbatches, hgetRemote, pending_append,
      replay_append, ← h.overlaidDocument_eq_replay key now, ← h.overlaidView_eq_overlaidDocument key now now,
      pending_cons]
    simp only [Option.map_some, pending, List.flatMap_nil, List.append_nil, Option.some.injEq]
    exact replay_mask _ _ _ _
  rw [hchanges]
  calc batch.keys.filterMap (fun key => (set.documents key).map Prod.fst)
      = batch.keys.filterMap fun key => some (t₂.overlaidDocument key t) :=
        List.filterMap_congr hdocuments
    _ = batch.keys.map fun key => t₂.overlaidDocument key t :=
        congrFun List.filterMap_eq_map batch.keys

end Write

section Untouched

variable {now : Timestamp}

theorem Consistent.untouched_of_writeLocally (h : s.Consistent) {mutations : List Mutation}
    (hplain : ∀ m ∈ mutations, m.Plain) {result : LocalWriteResult}
    (hwrite : s.writeLocally mutations now = some (s', result))
    (hkey : key ∉ result.changes.map MutableDocument.key) : Untouched s s' key := by
  obtain ⟨hne, hroom⟩ := h.of_writeLocally hwrite
  obtain ⟨t, result', hwrite', hconsistent, hqueue, hremote⟩ := h.writeLocally hroom hne hplain now
  obtain ⟨rfl, rfl⟩ := Prod.mk.inj (Option.some.inj (hwrite'.symm.trans hwrite))
  have hbatch : key ∉ (s.queue.enqueue now [] mutations hne).1.keys := by
    rwa [h.changes_of_writeLocally hplain hwrite now,
      keys_of_views fun key => hconsistent.overlaidDocument_key key now] at hkey
  have huser : t.queue.userId = s.queue.userId := by rw [hqueue]; rfl
  refine ⟨by rw [hremote], ?_⟩
  rw [huser, batchesOf, hqueue, MutationQueue.batchesOf_enqueue h.queue hroom, if_pos rfl,
    List.filter_append, List.filter_singleton]
  simp [hbatch, batchesOf]

theorem Consistent.batchesOf_of_removed (h : s.Consistent) {batch : MutationBatch}
    (hbatch : batch ∈ s.queue.allMutationBatches)
    (hqueue : s.queue.removeMutationBatch batch = some s'.queue) (hkey : key ∉ batch.keys) :
    s'.batchesOf s'.queue.userId key = s.batchesOf s.queue.userId key := by
  have huser : s'.queue.userId = s.queue.userId := by
    obtain ⟨-, heq⟩ := MutationQueue.removeMutationBatch_eq_some.mp hqueue
    rw [heq]
  rw [huser, batchesOf, MutationQueue.batchesOf_removeMutationBatch h.queue hbatch hqueue,
    List.filter_comm]
  simpa [batchesOf] using (h.removed_of_not_mem hbatch hkey).1

theorem populateDocumentChanges_frame {documents : List MutableDocument}
    {globalVersion : SnapshotVersion} {changes : LocalStore × DocumentChangeResult}
    (hchanges : s.populateDocumentChanges documents globalVersion = some changes)
    (hkey : key ∉ changes.2.changedDocs.map MutableDocument.key) :
    changes.1.remoteDocuments key = s.remoteDocuments key := by
  rw [populateDocumentChanges, Execution.foldlM_eq_run] at hchanges
  refine Execution.run_preserves (I := fun st : LocalStore × DocumentChangeResult =>
    key ∉ st.2.changedDocs.map MutableDocument.key →
      st.1.remoteDocuments key = s.remoteDocuments key) ?_ (fun _ => rfl) hchanges hkey
  intro st doc st' hst hI hnot
  -- A document that is stored is also reported.
  have hset : ∀ stored, key ∉ (st.2.changedDocs ++ [doc]).map MutableDocument.key →
      (st.1.setRemote doc.key stored).remoteDocuments key = s.remoteDocuments key := by
    intro stored hnew
    rw [List.map_append, List.mem_append, not_or] at hnew
    have hne : key ≠ doc.key := by simpa using hnew.2
    exact (Function.update_of_ne hne _ _).trans (hI hnew.1)
  simp only [populateDocumentChange] at hst
  split at hst
  · obtain rfl := Option.some.inj hst
    exact hset _ hnot
  · split at hst
    · split at hst
      · cases hst
      · obtain rfl := Option.some.inj hst
        exact hset _ hnot
    · obtain rfl := Option.some.inj hst
      exact hI hnot

/-- A document that is not reported is untouched. -/
theorem Consistent.untouched (h : s.Consistent) {e : Event × Timestamp}
    (hs : s.outcome e = some (s', docs)) (hkey : key ∉ docs.map MutableDocument.key) :
    Untouched s s' key := by
  obtain ⟨event, now⟩ := e
  cases event with
  | write mutations =>
      obtain ⟨⟨t, result⟩, hwrite, heq⟩ := Option.map_eq_some_iff.mp hs
      obtain ⟨rfl, rfl⟩ := Prod.mk.inj heq
      exact h.untouched_of_writeLocally (plain_of_subtype mutations) hwrite hkey
  | acknowledge batchId commitVersion mutationResults =>
      obtain ⟨batch, hlookup, hack⟩ := Option.bind_eq_some_iff.mp hs
      split at hack
      · have hbatch := ((MutationQueue.lookupMutationBatch_eq_some h.queue).mp hlookup).1
        obtain ⟨h', ⟨s₁, happly, hq, hr⟩, rfl⟩ := h.acknowledgeBatch hbatch hack
        obtain ⟨hqueue, -, -, hframe⟩ := applyBatchResult_spec h.remote happly
        rw [h'.keys_of_overlaidViews] at hkey
        refine ⟨by rw [hr]; exact hframe key hkey, ?_⟩
        exact h.batchesOf_of_removed hbatch (hq ▸ hqueue) hkey
      · cases hack
  | reject batchId =>
      obtain ⟨h', hremote, batch, hlookup, hqueue, rfl⟩ := h.rejectBatch hs
      have hbatch := ((MutationQueue.lookupMutationBatch_eq_some h.queue).mp hlookup).1
      rw [h'.keys_of_overlaidViews] at hkey
      exact ⟨by rw [hremote], h.batchesOf_of_removed hbatch hqueue hkey⟩
  | remote documentUpdates snapshotVersion =>
      obtain ⟨-, hqueue, changes, hchanges, hremote, hkeys, -⟩ := h.applyRemoteEvent
        (fun doc hdoc => by
          obtain ⟨doc, -, rfl⟩ := List.mem_map.mp hdoc
          exact doc.2) hs
      rw [hkeys] at hkey
      refine ⟨by rw [hremote, populateDocumentChanges_frame hchanges hkey], ?_⟩
      rw [batchesOf, hqueue, batchesOf]
  | userChange userId =>
      obtain ⟨h', rfl, rfl⟩ := h.handleUserChange hs
      rw [h'.keys_of_overlaidViews, List.mem_dedup, List.flatMap_append, List.mem_append, not_or] at hkey
      have hnone : ∀ batches : List MutationBatch, key ∉ batches.flatMap MutationBatch.keys →
          (batches.filter fun b => key ∈ b.keys) = [] := by
        intro batches hnot
        refine List.filter_eq_nil_iff.mpr fun b hb hin => hnot ?_
        exact List.mem_flatMap.mpr ⟨b, hb, by simpa using hin⟩
      exact ⟨rfl, (hnone _ hkey.2).trans (hnone _ hkey.1).symm⟩

/-- How a reported document of a remote event is cached: as it is, or, when access
to it was lost, not at all. -/
def Stored (s : LocalStore) (doc : MutableDocument) : Prop :=
  s.remoteDocuments doc.key = some doc ∨
    s.remoteDocuments doc.key = none ∧ doc.isFoundDocument = false

theorem stored_of_populateDocumentChanges {documents : List MutableDocument}
    {globalVersion : SnapshotVersion} {changes : LocalStore × DocumentChangeResult}
    (hchanges : s.populateDocumentChanges documents globalVersion = some changes)
    (hnodup : (changes.2.changedDocs.map MutableDocument.key).Nodup) :
    ∀ doc ∈ changes.2.changedDocs, changes.1.Stored doc := by
  rw [populateDocumentChanges, Execution.foldlM_eq_run] at hchanges
  refine Execution.run_preserves (I := fun st : LocalStore × DocumentChangeResult =>
    (st.2.changedDocs.map MutableDocument.key).Nodup → ∀ doc ∈ st.2.changedDocs, st.1.Stored doc)
    ?_ (fun _ doc hdoc => by cases hdoc) hchanges hnodup
  intro st doc st' hst hI hnodup
  have hset : ∀ stored, (st.1.setRemote doc.key stored).Stored doc →
      ((st.2.changedDocs ++ [doc]).map MutableDocument.key).Nodup →
      ∀ d ∈ st.2.changedDocs ++ [doc], (st.1.setRemote doc.key stored).Stored d := by
    intro stored hstored hnodup d hd
    rw [List.map_append, List.nodup_append] at hnodup
    obtain hd | hd := List.mem_append.mp hd
    · have hne : d.key ≠ doc.key :=
        hnodup.2.2 d.key (List.mem_map_of_mem hd) doc.key (by simp)
      have hold := hI hnodup.1 d hd
      rw [Stored, setRemote]
      simp only [Function.update_of_ne hne]
      exact hold
    · obtain rfl := List.mem_singleton.mp hd
      exact hstored
  simp only [populateDocumentChange] at hst
  split at hst
  · next hfabricated =>
      obtain rfl := Option.some.inj hst
      refine hset none (.inr ⟨Function.update_self _ _ _, ?_⟩) hnodup
      have hno : doc.documentType = .noDocument := by
        simpa [MutableDocument.isNoDocument] using hfabricated.1
      simp [MutableDocument.isFoundDocument, hno]
  · split at hst
    · split at hst
      · cases hst
      · obtain rfl := Option.some.inj hst
        exact hset (some doc) (.inl (Function.update_self _ _ _)) hnodup
    · obtain rfl := Option.some.inj hst
      exact hI hnodup

/-- A document that is not found has no fields. -/
def Event.Formed : Event → Prop
  | .remote documentUpdates _ =>
      ∀ doc ∈ documentUpdates, doc.1.isFoundDocument = false → doc.1.value = .empty
  | _ => True

/-- A reported document is what is read of it. -/
theorem Consistent.reported (h : s.Consistent) {e : Event × Timestamp} (he : e.1.Formed)
    (hs : s.outcome e = some (s', docs)) (hnodup : (docs.map MutableDocument.key).Nodup)
    {doc : MutableDocument} (hdoc : doc ∈ docs) (t : Timestamp) :
    SameResult doc (s'.overlaidDocument doc.key t) := by
  obtain ⟨event, now⟩ := e
  have hview : ∀ {s' : LocalStore}, s'.Consistent → ∀ {keys : List DocumentReference},
      doc ∈ keys.map (fun key => (s'.overlaidView (s'.getRemote key) now).1) →
      SameResult doc (s'.overlaidDocument doc.key t) := by
    intro s' h' keys hmem
    obtain ⟨key, -, rfl⟩ := List.mem_map.mp hmem
    rw [h'.overlaidView_eq_overlaidDocument key now t, h'.overlaidDocument_key]
    exact .inl rfl
  cases event with
  | write mutations =>
      obtain ⟨⟨s₁, result⟩, hwrite, heq⟩ := Option.map_eq_some_iff.mp hs
      obtain ⟨rfl, rfl⟩ := Prod.mk.inj heq
      have h' : s₁.Consistent := h.step (e := (.write mutations, now)) (by
        rw [step_eq_outcome, hs]; rfl)
      rw [h.changes_of_writeLocally (plain_of_subtype mutations) hwrite t] at hdoc
      obtain ⟨key, -, rfl⟩ := List.mem_map.mp hdoc
      rw [h'.overlaidDocument_key]
      exact .inl rfl
  | acknowledge batchId commitVersion mutationResults =>
      obtain ⟨batch, hlookup, hack⟩ := Option.bind_eq_some_iff.mp hs
      split at hack
      · have hbatch := ((MutationQueue.lookupMutationBatch_eq_some h.queue).mp hlookup).1
        obtain ⟨h', -, rfl⟩ := h.acknowledgeBatch hbatch hack
        exact hview h' hdoc
      · cases hack
  | reject batchId =>
      obtain ⟨h', -, batch, -, -, rfl⟩ := h.rejectBatch hs
      exact hview h' hdoc
  | remote documentUpdates snapshotVersion =>
      have hupdates : ∀ doc ∈ documentUpdates.map Subtype.val, doc.hasLocalMutations = false := by
        intro doc hmem
        obtain ⟨doc, -, rfl⟩ := List.mem_map.mp hmem
        exact doc.2
      obtain ⟨h', -, changes, hchanges, hremote, hkeys, hviews⟩ := h.applyRemoteEvent hupdates hs
      obtain ⟨changed, hmem, hkey, htwin⟩ := hviews doc hdoc
      have hstored := stored_of_populateDocumentChanges hchanges (hkeys ▸ hnodup) changed hmem
      have hbase : changed.value = (s'.getRemote changed.key).value ∧
          SameResult changed (s'.getRemote changed.key) := by
        rw [Stored, ← hremote] at hstored
        obtain hcached | ⟨hnone, hlost⟩ := hstored
        · rw [LocalStore.getRemote, hcached]
          exact ⟨rfl, .inl rfl⟩
        · obtain ⟨-, -, -, hsource⟩ :=
            populateDocumentChanges_spec (s, {}) h.remote hupdates hchanges
          obtain ⟨update, hupdate, rfl⟩ :=
            List.mem_map.mp ((hsource changed hmem).resolve_left (by simp))
          rw [LocalStore.getRemote, hnone]
          exact ⟨he update hupdate hlost, .inr ⟨hlost, rfl⟩⟩
      obtain ⟨mask, mask', hpair⟩ := htwin (s'.getRemote changed.key)
      rw [h'.overlaidDocument_eq_replay, ← hkey]
      obtain ⟨hout, hread⟩ | heq := hpair.eq_or_untouched
        (h'.remote.getRemote changed.key).1.symm hbase.1
      · rw [hout, hread]
        exact hbase.2
      · exact .inl heq
  | userChange userId =>
      obtain ⟨h', rfl, rfl⟩ := h.handleUserChange hs
      exact hview h' hdoc

end Untouched

/-- After any run, an event reports every document that reads differently after
it. -/
theorem readDocument_of_not_reported {userId : String} {events : List (Event × Timestamp)}
    (hrun : Execution.run step (empty userId) events = some s) {e : Event × Timestamp}
    (hs : s.outcome e = some (s', docs)) (hkey : key ∉ docs.map MutableDocument.key)
    (t t' : Timestamp) :
    ∃ doc, s.readDocument key t = some doc ∧ s'.readDocument key t' = some doc := by
  have h := consistent_of_run hrun
  have h' := h.step (show s.step e = some s' by rw [step_eq_outcome, hs]; rfl)
  refine ⟨_, h.readDocument_eq_some key t, ?_⟩
  rw [h'.readDocument_eq_some, (h.untouched hs hkey).overlaidDocument h h' t t']

theorem readDocument_of_not_reported_acknowledged :
    ∃ s s' docs, Execution.run step (empty "a") editedRun = some s ∧
      s.outcome (.acknowledge 1 5 [⟨5, []⟩, ⟨5, []⟩], 6) = some (s', docs) ∧
      s.readIntegers "w" = some [("name", 3)] ∧
      ∃ doc, s.readDocument (profileRef "w") 7 = some doc ∧
        s'.readDocument (profileRef "w") 8 = some doc := by
  obtain ⟨s, hs, hstate⟩ := Option.map_eq_some_iff.mp
    (show (Execution.run step (empty "a") editedRun).map (fun s =>
        (s.readIntegers "w", (s.outcome (.acknowledge 1 5 [⟨5, []⟩, ⟨5, []⟩], 6)).map fun out =>
          out.2.map fun doc => doc.key.path)) =
      some (some [("name", 3)], some [["users", "u"], ["users", "v"]]) by decide +kernel)
  obtain ⟨hread, hreported⟩ := Prod.mk.inj hstate
  obtain ⟨⟨s', docs⟩, houtcome, hpaths⟩ := Option.map_eq_some_iff.mp hreported
  have hkey : profileRef "w" ∉ docs.map MutableDocument.key := by
    intro hmem
    obtain ⟨doc, hdoc, heq⟩ := List.mem_map.mp hmem
    have hpath := List.mem_map_of_mem (f := fun doc : MutableDocument => doc.key.path) hdoc
    rw [hpaths, heq] at hpath
    simp [profileRef] at hpath
  exact ⟨s, s', docs, hs, houtcome, hread, readDocument_of_not_reported hs houtcome hkey 7 8⟩

end LocalStore

end FirebaseLogin.Core
