import FirebaseLogin.Core.View
import FirebaseLogin.Library.Execution

/-!
What a snapshot says: its changes are the exact difference between its old and
its new documents, and a snapshot that is not from the cache holds no document in
limbo.
-/

namespace FirebaseLogin.Core

open SortedEntries

variable {q : Query}

def changeOf (changes : List (DocumentViewChange q)) (key : DocumentReference) :
    Option (DocumentViewChange q) :=
  changes.find? fun c => c.document.key = key

structure ViewSnapshot.Exact (s : ViewSnapshot q) : Prop where
  distinct : (s.documentChanges.map fun c => c.document.key).Nodup
  documents : ∀ key, KeyDiff (s.oldDocuments.getDocument key) (s.documents.getDocument key)
    (changeOf s.documentChanges key)

section Sorted

variable {start after : DocumentSet q} {changes : ChangeMap q}

theorem Diff.nodup (h : Diff start after changes) :
    ((getChanges changes).map fun c => c.document.key).Nodup := by
  have hpaths : ((getChanges changes).map fun c => c.document.key.path) =
      changes.map Prod.fst := by
    rw [getChanges, List.map_map]
    exact List.map_congr_left fun e he => (h.keyed e he).symm
  refine List.Nodup.of_map DocumentReference.path ?_
  rw [List.map_map]
  change ((getChanges changes).map fun c => c.document.key.path).Nodup
  rw [hpaths]
  exact (List.pairwise_map.mpr h.ascending).imp fun hlt => hlt.ne

theorem Diff.changeOf_eq (h : Diff start after changes) (key : DocumentReference) :
    changeOf ((getChanges changes).insertionSort DocumentViewChange.sortsBefore) key =
      find key.path changes := by
  have hperm := List.perm_insertionSort DocumentViewChange.sortsBefore (getChanges changes)
  refine Option.ext fun c => ?_
  rw [changeOf, find?_key_eq_some ((hperm.map _).nodup_iff.mpr h.nodup), hperm.mem_iff,
    find_eq_some_iff h.ascending, getChanges, List.mem_map]
  constructor
  · rintro ⟨⟨e, he, rfl⟩, rfl⟩
    rwa [← h.keyed e he]
  · intro he
    exact ⟨⟨_, he, rfl⟩, (path_injective (h.keyed _ he)).symm⟩

end Sorted

namespace View

/-- What every reachable view keeps: the mutated keys are those of the documents
with local mutations, and a synced view has no document in limbo. -/
structure Consistent (view : View q) : Prop where
  mutated : ∀ key, key ∈ view.mutatedKeys ↔
    ∃ doc, view.documentSet.getDocument key = some doc ∧ doc.hasLocalMutations = true
  synced : view.syncState = .synced → view.current = true ∧
    ∀ doc ∈ view.documentSet.documents,
      doc.key ∈ view.syncedDocuments ∨ doc.hasLocalMutations = true

theorem consistent_create (q : Query) (remoteDocuments : Finset DocumentReference) :
    (create q remoteDocuments).Consistent where
  mutated key := by simp [create]
  synced h := by cases h

variable {view view' : View q} {r : ViewDocumentChanges q}

theorem Consistent.tracks (h : view.Consistent) :
    Recorded view.documentSet view.unchanged :=
  ⟨.refl _, h.mutated⟩

theorem computeDocumentChanges_none (view : View q) (docChanges : List MutableDocument) :
    view.computeDocumentChanges docChanges none =
      (docChanges.foldlM (computeChange view.unchanged.documentSet view.mutatedKeys
        (limitEdges view.unchanged.documentSet)) view.unchanged).bind applyLimit := by
  simp only [computeDocumentChanges, Option.map_none, Option.getD_none, Option.isSome_none,
    Bool.false_eq_true, and_false, if_false, Option.bind_fun_some]

/-- The first computation never fails. -/
theorem computeDocumentChanges_spec (h : view.Consistent) {docChanges : List MutableDocument}
    (hnodup : (docChanges.map MutableDocument.key).Nodup) :
    ∃ r, view.computeDocumentChanges docChanges none = some r ∧ Recorded view.documentSet r ∧
      r.documentSet.WithinLimit := by
  obtain ⟨r₁, h₁, htracks₁, -⟩ := foldlM_computeChange_spec view.mutatedKeys
    (limitEdges view.unchanged.documentSet) hnodup h.tracks fun _ _ => rfl
  obtain ⟨r, hr, htracks, hlimit, -⟩ := applyLimit_spec htracks₁
  refine ⟨r, ?_, htracks, hlimit⟩
  rw [computeDocumentChanges_none, h₁, Option.bind_some, hr]

/-- Without a limit the documents follow the changed ones, and nothing else. -/
theorem computeDocumentChanges_follows (h : view.Consistent) (hlimit : q.limitType = .none)
    {docChanges : List MutableDocument} (hnodup : (docChanges.map MutableDocument.key).Nodup)
    (hr : view.computeDocumentChanges docChanges none = some r) :
    r.needsRefill = false ∧
      (∀ key, key ∉ docChanges.map MutableDocument.key →
        r.documentSet.getDocument key = view.documentSet.getDocument key) ∧
      ∀ doc ∈ docChanges, Follows (view.documentSet.getDocument doc.key) doc
        (r.documentSet.getDocument doc.key) := by
  obtain ⟨r₁, h₁, -, hframe, hfollows⟩ := foldlM_computeChange_spec view.mutatedKeys
    (limitEdges view.unchanged.documentSet) hnodup h.tracks fun _ _ => rfl
  have hfull : (limitEdges view.unchanged.documentSet).full = false := by
    simp [limitEdges, LimitEdges.full, hlimit]
  rw [computeDocumentChanges_none, h₁, Option.bind_some, applyLimit, if_pos hlimit] at hr
  obtain rfl := Option.some.inj hr
  refine ⟨?_, hframe, hfollows⟩
  rw [Execution.foldlM_eq_run] at h₁
  refine Execution.run_preserves (I := fun r => r.needsRefill = false)
    (fun r doc r' hr' hneeds => ?_) rfl h₁
  rw [computeChange_needsRefill hfull hr', hneeds]

/-- A refill starts from the previous changes. -/
theorem refill_spec {previous : ViewDocumentChanges q} (h : Recorded view.documentSet previous)
    {docChanges : List MutableDocument} (hnodup : (docChanges.map MutableDocument.key).Nodup)
    (hr : view.computeDocumentChanges docChanges (some previous) = some r) :
    Recorded view.documentSet r ∧ r.documentSet.WithinLimit := by
  have hstart : Recorded view.documentSet { previous with needsRefill := false } :=
    ⟨h.diff, h.mutated⟩
  obtain ⟨r₁, h₁, htracks₁, -⟩ := foldlM_computeChange_spec view.mutatedKeys
    (limitEdges previous.documentSet) hnodup hstart fun _ _ => rfl
  obtain ⟨r₂, hr₂, htracks₂, hlimit, -⟩ := applyLimit_spec htracks₁
  simp only [computeDocumentChanges, Option.map_some, Option.getD_some] at hr
  rw [h₁, Option.bind_some, hr₂, Option.bind_some] at hr
  split at hr
  · cases hr
  · obtain rfl := Option.some.inj hr
    exact ⟨htracks₂, hlimit⟩

section Apply

variable {updated : View q} {targetChange : Option TargetChange}

theorem applyTargetChange_frame (h : view.applyTargetChange targetChange = some updated) :
    updated.documentSet = view.documentSet ∧ updated.mutatedKeys = view.mutatedKeys ∧
      updated.syncState = view.syncState := by
  cases targetChange with
  | none =>
      obtain rfl := Option.some.inj h
      exact ⟨rfl, rfl, rfl⟩
  | some change =>
      simp only [applyTargetChange] at h
      split at h
      · obtain rfl := Option.some.inj h
        exact ⟨rfl, rfl, rfl⟩
      · cases h

theorem shouldBeInLimbo_eq_false {doc : q.Result} (hdoc : doc ∈ view.documentSet.documents)
    (h : view.shouldBeInLimbo doc.key = false) :
    doc.key ∈ view.syncedDocuments ∨ doc.hasLocalMutations = true := by
  have hget : view.documentSet.getDocument doc.key = some doc :=
    DocumentSet.getDocument_eq_some.mpr ⟨hdoc, rfl⟩
  by_cases hsynced : doc.key ∈ view.syncedDocuments
  · exact .inl hsynced
  · right
    simpa [shouldBeInLimbo, hsynced, hget] using h

theorem updateLimboDocuments_frame (view : View q) :
    view.updateLimboDocuments.1 =
      { view with limboDocuments := view.updateLimboDocuments.1.limboDocuments } := by
  unfold updateLimboDocuments
  split <;> rfl

theorem synced_or_mutated_of_no_limbo (hcurrent : view.current = true)
    (hlimbo : view.updateLimboDocuments.1.limboDocuments = []) :
    ∀ doc ∈ view.documentSet.documents,
      doc.key ∈ view.syncedDocuments ∨ doc.hasLocalMutations = true := by
  intro doc hdoc
  refine shouldBeInLimbo_eq_false hdoc (Bool.eq_false_iff.mpr fun hin => ?_)
  rw [updateLimboDocuments, if_pos hcurrent] at hlimbo
  have hmem : doc.key ∈ sortKeys ((view.documentSet.documents.map Query.Result.key).filter
      view.shouldBeInLimbo) := by
    rw [sortKeys, List.mem_insertionSort, List.mem_filter]
    exact ⟨List.mem_map_of_mem hdoc, hin⟩
  rw [show sortKeys _ = [] from hlimbo] at hmem
  cases hmem

/-- What ApplyChanges does: the view takes over the documents, a snapshot is their
exact difference, and there is none only if nothing changed. -/
structure Applied (view : View q) (r : ViewDocumentChanges q) (view' : View q)
    (snapshot : Option (ViewSnapshot q)) : Prop where
  documents : view'.documentSet = r.documentSet
  consistent : view'.Consistent
  emitted : ∀ s ∈ snapshot, s.Exact ∧ s.oldDocuments = view.documentSet ∧
    s.documents = view'.documentSet ∧ (s.fromCache = false ↔ view'.syncState = .synced)
  silent : snapshot = none → view'.syncState = view.syncState ∧
    ∀ key, view'.documentSet.getDocument key = view.documentSet.getDocument key

theorem emit_applied (hr : Recorded view.documentSet r) (hdocuments : updated.documentSet = r.documentSet)
    (hmutated : updated.mutatedKeys = r.mutatedKeys) (hstate : updated.syncState = view.syncState)
    {pending : Bool} (hsynced : updated.limboDocuments = [] → updated.current = true →
      pending = false → ∀ doc ∈ updated.documentSet.documents,
        doc.key ∈ updated.syncedDocuments ∨ doc.hasLocalMutations = true)
    (limboChanges : List LimboDocumentChange) (hasCachedResults : Bool) :
    Applied view r (updated.emit r view.documentSet limboChanges hasCachedResults pending).1
      (updated.emit r view.documentSet limboChanges hasCachedResults pending).2.snapshot where
  documents := hdocuments
  consistent :=
    { mutated := by
        intro key
        change key ∈ updated.mutatedKeys ↔ ∃ doc, updated.documentSet.getDocument key = some doc ∧ _
        rw [hmutated, hdocuments]
        exact hr.mutated key
      synced := by
        intro h
        change (if _ then _ else _) = SyncState.synced at h
        split at h
        · next hall =>
            simp only [Bool.and_eq_true, List.isEmpty_iff, Bool.not_eq_true'] at hall
            exact ⟨hall.1.2, hsynced hall.1.1 hall.1.2 hall.2⟩
        · cases h }
  emitted := by
    intro s hs
    obtain ⟨-, hs⟩ := Option.ite_none_left_eq_some.mp hs
    obtain rfl := Option.some.inj hs
    refine ⟨⟨?_, fun key => ?_⟩, rfl, hdocuments.symm, ?_⟩
    · exact ((List.perm_insertionSort _ _).map _).nodup_iff.mpr hr.diff.nodup
    · change KeyDiff _ _ (changeOf (List.insertionSort _ (getChanges r.changeSet)) key)
      rw [hr.diff.changeOf_eq]
      exact hr.diff.documents key
    · change ((if _ then _ else _) == SyncState.localOnly) = false ↔ (if _ then _ else _) = _
      split <;> simp
  silent := by
    intro h
    have hnone := not_imp_comm.mp (ite_eq_left_iff.mp h) (Option.some_ne_none _)
    obtain ⟨hempty, hsame⟩ := Bool.and_eq_true_iff.mp hnone
    have hlength := List.length_insertionSort DocumentViewChange.sortsBefore
      (getChanges r.changeSet)
    rw [List.isEmpty_iff.mp hempty] at hlength
    have hnil : r.changeSet = [] := List.map_eq_nil_iff.mp (List.length_eq_zero_iff.mp hlength.symm)
    refine ⟨?_, fun key => ?_⟩
    · rw [← hstate]
      simpa [emit] using hsame
    · have hdiff := hr.diff.documents key
      rw [hnil] at hdiff
      exact (congrArg (DocumentSet.getDocument · key) hdocuments).trans hdiff.eq_of_none.symm

/-- ApplyChanges of changes that were computed for the view. -/
theorem applyChanges_applied (hr : Recorded view.documentSet r) {pending : Bool}
    {change : ViewChange q}
    (h : view.applyChanges r targetChange pending = some (view', change)) :
    Applied view r view' change.snapshot := by
  rw [applyChanges] at h
  split at h
  · cases h
  · obtain ⟨updated, htarget, hemit⟩ := Option.map_eq_some_iff.mp h
    obtain ⟨hdocuments, hmutated, hstate⟩ := applyTargetChange_frame htarget
    obtain ⟨rfl, rfl⟩ := Prod.mk.inj hemit
    cases pending with
    | true => exact emit_applied hr hdocuments hmutated hstate (fun _ _ h => by cases h) _ _
    | false =>
        have hframe := updateLimboDocuments_frame updated
        refine emit_applied hr ?_ ?_ ?_ (fun hlimbo hcurrent _ => ?_) _ _
        · exact (congrArg View.documentSet hframe).trans hdocuments
        · exact (congrArg View.mutatedKeys hframe).trans hmutated
        · exact (congrArg View.syncState hframe).trans hstate
        · have hnow : updated.current = true := (congrArg View.current hframe).symm.trans hcurrent
          have hall := synced_or_mutated_of_no_limbo hnow hlimbo
          intro doc hdoc
          exact (hall doc (congrArg View.documentSet hframe ▸ hdoc)).imp_left fun hkey =>
            (congrArg View.syncedDocuments hframe).symm ▸ hkey

end Apply

end View

end FirebaseLogin.Core
