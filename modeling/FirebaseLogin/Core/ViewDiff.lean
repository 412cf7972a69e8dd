import FirebaseLogin.Core.ViewChanges

/-!
The change set of a view is exact: it names a document if and only if the
document set differs there, and no combination of changes is refused. Each step
moves one document; a move is merged with what is recorded of the document.
-/

namespace FirebaseLogin.Core

open SortedEntries

variable {q : Query}

/-- Equal for a listener that is not told of metadata. -/
def SameContents (doc doc' : q.Result) : Prop := doc.value.contents = doc'.value.contents

/-- One document before and after, and the change that is recorded of it. A
removed document may be recorded with newer data. -/
inductive KeyDiff : Option q.Result → Option q.Result → Option (DocumentViewChange q) → Prop where
  | same (doc : Option q.Result) : KeyDiff doc doc none
  | added (doc : q.Result) : KeyDiff none (some doc) (some ⟨doc, .added⟩)
  | removed (old doc : q.Result) : KeyDiff (some old) none (some ⟨doc, .removed⟩)
  | modified (old doc : q.Result) : KeyDiff (some old) (some doc) (some ⟨doc, .modified⟩)
  | metadata {old doc : q.Result} (contents : SameContents old doc) :
      KeyDiff (some old) (some doc) (some ⟨doc, .metadata⟩)

/-- What one change does to a document. -/
inductive Move : Option q.Result → Option q.Result → DocumentViewChange q → Prop where
  | added (doc : q.Result) : Move none (some doc) ⟨doc, .added⟩
  | removed (old : q.Result) : Move (some old) none ⟨old, .removed⟩
  | modified (old doc : q.Result) : Move (some old) (some doc) ⟨doc, .modified⟩
  | metadata {old doc : q.Result} (contents : SameContents old doc) :
      Move (some old) (some doc) ⟨doc, .metadata⟩

theorem KeyDiff.eq_of_none {old new : Option q.Result} (h : KeyDiff old new none) : old = new := by
  cases h with
  | same => rfl

theorem Move.keyDiff {old new : Option q.Result} {change : DocumentViewChange q}
    (m : Move old new change) : KeyDiff old new (some change) := by
  cases m with
  | added doc => exact .added doc
  | removed old => exact .removed old old
  | modified old doc => exact .modified old doc
  | metadata contents => exact .metadata contents

/-- No combination that occurs is refused. -/
theorem KeyDiff.merge {start old new : Option q.Result} {recorded change : DocumentViewChange q}
    (h : KeyDiff start old (some recorded)) (m : Move old new change) :
    ∃ merged, recorded.merge change = some merged ∧ KeyDiff start new merged := by
  cases h with
  | added doc =>
      cases m with
      | removed => exact ⟨none, rfl, .same none⟩
      | modified _ doc' => exact ⟨_, rfl, .added doc'⟩
      | @metadata _ doc' contents => exact ⟨_, rfl, .added doc'⟩
  | removed first doc =>
      cases m with
      | added doc' => exact ⟨_, rfl, .modified first doc'⟩
  | modified first doc =>
      cases m with
      | removed => exact ⟨_, rfl, .removed first doc⟩
      | modified _ doc' => exact ⟨_, rfl, .modified first doc'⟩
      | @metadata _ doc' contents => exact ⟨_, rfl, .modified first doc'⟩
  | @metadata first doc contents =>
      cases m with
      | removed => exact ⟨_, rfl, .removed first doc⟩
      | modified _ doc' => exact ⟨_, rfl, .modified first doc'⟩
      | metadata contents' => exact ⟨_, rfl, .metadata (contents.trans contents')⟩

theorem DocumentViewChange.merge_key {old change merged : DocumentViewChange q}
    (hkey : old.document.key = change.document.key)
    (h : old.merge change = some (some merged)) : merged.document.key = change.document.key := by
  unfold DocumentViewChange.merge at h
  split_ifs at h <;> cases h <;> first | rfl | exact hkey

/-- The changes are exactly the difference of two document sets. -/
structure Diff (start after : DocumentSet q) (changes : ChangeMap q) : Prop where
  ascending : Ascending changes
  keyed : ∀ e ∈ changes, e.1 = e.2.document.key.path
  documents : ∀ key : DocumentReference,
    KeyDiff (start.getDocument key) (after.getDocument key) (find key.path changes)

theorem Diff.refl (documents : DocumentSet q) : Diff documents documents [] where
  ascending := List.Pairwise.nil
  keyed _ he := by cases he
  documents key := .same _

theorem path_injective {key other : DocumentReference} (h : key.path = other.path) : key = other :=
  DocumentReference.ext h

section AddChange

variable {start old : DocumentSet q} {changes : ChangeMap q}

/-- A move of one document is recorded. -/
theorem Diff.addChange (h : Diff start old changes) (new : DocumentSet q)
    (change : DocumentViewChange q)
    (m : Move (old.getDocument change.document.key) (new.getDocument change.document.key) change)
    (hothers : ∀ key, key ≠ change.document.key → new.getDocument key = old.getDocument key) :
    ∃ changes', addChange changes change = some changes' ∧ Diff start new changes' := by
  have hdiff := h.documents change.document.key
  have hput : ∀ c : DocumentViewChange q, c.document.key = change.document.key →
      KeyDiff (start.getDocument change.document.key) (new.getDocument change.document.key)
        (some c) → Diff start new (put change.document.key.path c changes) := by
    intro c hc hkey
    refine ⟨ascending_put h.ascending _ _, fun e he => ?_, fun key => ?_⟩
    · obtain rfl | he := mem_put he
      · exact congrArg DocumentReference.path hc.symm
      · exact h.keyed e he
    · rw [find_put _ _ _ h.ascending]
      split
      · next heq =>
          obtain rfl := path_injective heq
          exact hkey
      · next hne =>
          rw [hothers key fun heq => hne (congrArg DocumentReference.path heq.symm)]
          exact h.documents key
  unfold Core.addChange
  split
  · next hnone =>
      rw [hnone] at hdiff
      exact ⟨_, rfl, hput change rfl (hdiff.eq_of_none ▸ m.keyDiff)⟩
  · next recorded hsome =>
      rw [hsome] at hdiff
      obtain ⟨merged, hmerge, hkey⟩ := hdiff.merge m
      have hrecorded : recorded.document.key = change.document.key :=
        (path_injective (h.keyed _ (mem_of_find hsome))).symm
      rw [hmerge]
      cases merged with
      | some c =>
          exact ⟨_, rfl, hput c (DocumentViewChange.merge_key hrecorded hmerge) hkey⟩
      | none =>
          refine ⟨changes.filter fun e => e.1 ≠ change.document.key.path, rfl,
            ⟨h.ascending.filter _, fun e he => ?_, fun key => ?_⟩⟩
          · exact h.keyed e (List.mem_filter.mp he).1
          · rw [find_filter_key (fun p => decide (p ≠ change.document.key.path))]
            by_cases heq : key = change.document.key
            · subst heq
              simpa using hkey
            · have hne : key.path ≠ change.document.key.path := fun hp => heq (path_injective hp)
              rw [if_pos (by simpa using hne), hothers key heq]
              exact h.documents key

end AddChange

section ComputeChange

/-- What holds of the changes computed so far. -/
structure Recorded (start : DocumentSet q) (r : ViewDocumentChanges q) : Prop where
  diff : Diff start r.documentSet r.changeSet
  mutated : ∀ key, key ∈ r.mutatedKeys ↔
    ∃ doc, r.documentSet.getDocument key = some doc ∧ doc.hasLocalMutations = true

variable {start : DocumentSet q} {r : ViewDocumentChanges q} {doc : q.Result}

theorem Recorded.keep (h : Recorded start r) {type : ChangeType}
    (m : Move (r.documentSet.getDocument doc.key) (some doc) ⟨doc, type⟩) :
    ∃ r', r.add ⟨doc, type⟩ = some r' ∧ r'.documentSet = r.documentSet ∧
      Recorded start (r'.keep doc) := by
  have hnew := r.documentSet.getDocument_insert doc
  obtain ⟨changeSet, hadd, hdiff⟩ := h.diff.addChange (r.documentSet.insert doc) ⟨doc, type⟩
    (by rw [hnew, if_pos rfl]; exact m)
    fun key hne => by rw [hnew, if_neg hne]
  refine ⟨{ r with changeSet }, by rw [ViewDocumentChanges.add, hadd]; rfl, rfl, hdiff, fun key => ?_⟩
  simp only [ViewDocumentChanges.keep, hnew]
  by_cases heq : key = doc.key
  · subst heq
    rw [if_pos rfl]
    split
    · next hlocal => exact iff_of_true (Finset.mem_insert_self _ _) ⟨doc, rfl, hlocal⟩
    · next hlocal =>
        refine iff_of_false (Finset.notMem_erase _ _) ?_
        rintro ⟨d, hd, hd'⟩
        obtain rfl := Option.some.inj hd
        exact hlocal hd'
  · rw [if_neg heq, ← h.mutated key]
    split
    · exact Finset.mem_insert.trans (or_iff_right heq)
    · exact Finset.mem_erase.trans (and_iff_right heq)

theorem Recorded.drop (h : Recorded start r) (hdoc : r.documentSet.getDocument doc.key = some doc) :
    ∃ r', r.add ⟨doc, .removed⟩ = some r' ∧ r'.documentSet = r.documentSet ∧
      Recorded start (r'.drop doc.key) := by
  have hnew := r.documentSet.getDocument_erase doc.key
  obtain ⟨changeSet, hadd, hdiff⟩ := h.diff.addChange (r.documentSet.erase doc.key)
    ⟨doc, .removed⟩ (by rw [hnew, if_pos rfl, hdoc]; exact .removed doc)
    fun key hne => by rw [hnew, if_neg hne]
  refine ⟨{ r with changeSet }, by rw [ViewDocumentChanges.add, hadd]; rfl, rfl, hdiff, fun key => ?_⟩
  simp only [ViewDocumentChanges.drop, hnew, Finset.mem_erase]
  by_cases heq : key = doc.key
  · simp [heq]
  · rw [if_neg heq, ← h.mutated key]
    exact and_iff_right heq

theorem Query.result_eq_some {doc : MutableDocument} {result : q.Result}
    (h : q.result doc = some result) : result.1 = doc := by
  unfold Query.result at h
  split at h
  · obtain rfl := Option.some.inj h
    rfl
  · cases h

/-- What is shown of a document follows the store's: it is the document itself,
or the one before if the contents are the same or the synced one is awaited. -/
def Follows (old : Option q.Result) (doc : MutableDocument) (shown : Option q.Result) : Prop :=
  shown = q.result doc ∨ ∃ oldDoc newDoc, old = some oldDoc ∧ q.result doc = some newDoc ∧
    shown = some oldDoc ∧
      (SameContents oldDoc newDoc ∨ shouldWaitForSyncedDocument newDoc oldDoc = true)

theorem Recorded.keep_result {doc : MutableDocument} {newDoc : q.Result} {type : ChangeType}
    (h : Recorded start r) (hn : q.result doc = some newDoc)
    (m : Move (r.documentSet.getDocument doc.key) (some newDoc) ⟨newDoc, type⟩) :
    ∃ r', r.add ⟨newDoc, type⟩ = some r' ∧ Recorded start (r'.keep newDoc) ∧
      (∀ key, key ≠ doc.key →
        (r'.keep newDoc).documentSet.getDocument key = r.documentSet.getDocument key) ∧
      (r'.keep newDoc).documentSet.getDocument doc.key = q.result doc := by
  have hkey : newDoc.key = doc.key := congrArg MutableDocument.key (Query.result_eq_some hn)
  obtain ⟨r', hadd, hset, htracks⟩ := h.keep (by rwa [hkey])
  have hget := r'.documentSet.getDocument_insert newDoc
  refine ⟨r', hadd, htracks, fun key hne => ?_, ?_⟩
  · rw [ViewDocumentChanges.keep, hget, if_neg (by rwa [hkey]), hset]
  · rw [ViewDocumentChanges.keep, hget, if_pos hkey.symm, hn]

theorem Recorded.refillIf (h : Recorded start r) (needed : Bool) : Recorded start (r.refillIf needed) :=
  ⟨h.diff, h.mutated⟩

theorem View.computeChange_spec {oldSet : DocumentSet q} (oldMutatedKeys : Finset DocumentReference)
    (edges : View.LimitEdges q) {doc : MutableDocument} (h : Recorded start r)
    (hold : r.documentSet.getDocument doc.key = oldSet.getDocument doc.key) :
    ∃ r', View.computeChange oldSet oldMutatedKeys edges r doc = some r' ∧ Recorded start r' ∧
      (∀ key, key ≠ doc.key → r'.documentSet.getDocument key = r.documentSet.getDocument key) ∧
      Follows (r.documentSet.getDocument doc.key) doc (r'.documentSet.getDocument doc.key) := by
  unfold View.computeChange
  rw [← hold]
  cases ho : r.documentSet.getDocument doc.key with
  | none =>
      cases hn : q.result doc with
      | none => exact ⟨r, rfl, h, fun _ _ => rfl, .inl (by rw [ho, hn])⟩
      | some newDoc =>
          obtain ⟨r', hadd, htracks, hframe, hshown⟩ := h.keep_result hn (ho ▸ Move.added newDoc)
          exact ⟨_, congrArg (Option.map _) hadd, htracks, hframe, .inl hshown⟩
  | some oldDoc =>
      cases hn : q.result doc with
      | none =>
          have hkey : oldDoc.key = doc.key := (DocumentSet.getDocument_eq_some.mp ho).2
          obtain ⟨r', hadd, hset, htracks⟩ := h.drop (hkey.symm ▸ ho)
          have hget := r'.documentSet.getDocument_erase oldDoc.key
          rw [hkey] at htracks hget
          refine ⟨_, congrArg (Option.map _) hadd, htracks.refillIf _, fun key hne => ?_, .inl ?_⟩
          · exact (hget key).trans (by rw [if_neg hne, hset])
          · exact (hget doc.key).trans (by rw [if_pos rfl, hn])
      | some newDoc =>
          have hstay : SameContents oldDoc newDoc ∨
              shouldWaitForSyncedDocument newDoc oldDoc = true →
              Follows (some oldDoc) doc (r.documentSet.getDocument doc.key) := fun hwhy =>
            .inr ⟨oldDoc, newDoc, rfl, hn, ho, hwhy⟩
          simp only
          split
          · split
            · next hwait => exact ⟨r, rfl, h, fun _ _ => rfl, hstay (.inr hwait)⟩
            · obtain ⟨r', hadd, htracks, hframe, hshown⟩ :=
                h.keep_result hn (ho ▸ Move.modified oldDoc newDoc)
              exact ⟨_, congrArg (Option.map _) hadd, htracks.refillIf _, hframe, .inl hshown⟩
          · next hequal =>
              have hcontents : SameContents oldDoc newDoc :=
                ObjectValue.equals_iff.mp (by simpa using hequal)
              split
              · obtain ⟨r', hadd, htracks, hframe, hshown⟩ :=
                  h.keep_result hn (ho ▸ Move.metadata hcontents)
                exact ⟨_, congrArg (Option.map _) hadd, htracks, hframe, .inl hshown⟩
              · exact ⟨r, rfl, h, fun _ _ => rfl, hstay (.inl hcontents)⟩

theorem View.foldlM_computeChange_spec {oldSet : DocumentSet q}
    (oldMutatedKeys : Finset DocumentReference) (edges : View.LimitEdges q)
    {docChanges : List MutableDocument} (hnodup : (docChanges.map MutableDocument.key).Nodup)
    (h : Recorded start r) (hold : ∀ doc ∈ docChanges,
      r.documentSet.getDocument doc.key = oldSet.getDocument doc.key) :
    ∃ r', docChanges.foldlM (View.computeChange oldSet oldMutatedKeys edges) r = some r' ∧
      Recorded start r' ∧
      (∀ key, key ∉ docChanges.map MutableDocument.key →
        r'.documentSet.getDocument key = r.documentSet.getDocument key) ∧
      ∀ doc ∈ docChanges,
        Follows (r.documentSet.getDocument doc.key) doc (r'.documentSet.getDocument doc.key) := by
  induction docChanges generalizing r with
  | nil => exact ⟨r, rfl, h, fun _ _ => rfl, fun _ hdoc => by cases hdoc⟩
  | cons doc docChanges ih =>
      obtain ⟨hfresh, hnodup⟩ := List.nodup_cons.mp hnodup
      have hne : ∀ other ∈ docChanges, other.key ≠ doc.key := fun other hother heq =>
        hfresh (heq ▸ List.mem_map_of_mem hother)
      obtain ⟨r₁, h₁, htracks₁, hframe₁, hfollows₁⟩ := computeChange_spec oldMutatedKeys edges
        h (hold doc List.mem_cons_self)
      obtain ⟨r', hr', htracks, hframe, hfollows⟩ := ih hnodup htracks₁ fun other hother => by
        rw [hframe₁ other.key (hne other hother)]
        exact hold other (List.mem_cons_of_mem doc hother)
      refine ⟨r', by rw [List.foldlM_cons, h₁]; exact hr', htracks, fun key hkey => ?_,
        fun other hother => ?_⟩
      · obtain ⟨hdoc, hrest⟩ := not_or.mp (List.mem_cons.not.mp hkey)
        rw [hframe key hrest, hframe₁ key hdoc]
      · obtain rfl | hother := List.mem_cons.mp hother
        · rw [hframe other.key hfresh]
          exact hfollows₁
        · rw [← hframe₁ other.key (hne other hother)]
          exact hfollows other hother

theorem ViewDocumentChanges.add_frame {r' : ViewDocumentChanges q} {change : DocumentViewChange q}
    (h : r.add change = some r') :
    r'.documentSet = r.documentSet ∧ r'.mutatedKeys = r.mutatedKeys ∧
      r'.needsRefill = r.needsRefill := by
  obtain ⟨changeSet, -, rfl⟩ := Option.map_eq_some_iff.mp h
  exact ⟨rfl, rfl, rfl⟩

/-- Only a full limit makes a refill necessary. -/
theorem View.computeChange_needsRefill {oldSet : DocumentSet q}
    {oldMutatedKeys : Finset DocumentReference} {edges : View.LimitEdges q}
    {doc : MutableDocument} {r' : ViewDocumentChanges q} (hfull : edges.full = false)
    (h : View.computeChange oldSet oldMutatedKeys edges r doc = some r') :
    r'.needsRefill = r.needsRefill := by
  have houtside : ∀ newDoc, edges.outside newDoc = false := by
    intro newDoc
    obtain ⟨hlast, hfirst⟩ : edges.lastDocInLimit = none ∧ edges.firstDocInLimit = none := by
      simpa [View.LimitEdges.full] using hfull
    simp [View.LimitEdges.outside, hlast, hfirst]
  unfold View.computeChange at h
  simp only at h
  split at h
  · split at h
    · split at h
      · obtain rfl := Option.some.inj h
        rfl
      · obtain ⟨r₁, hadd, rfl⟩ := Option.map_eq_some_iff.mp h
        simp [ViewDocumentChanges.refillIf, ViewDocumentChanges.keep, houtside,
          (ViewDocumentChanges.add_frame hadd).2.2]
    · split at h
      · obtain ⟨r₁, hadd, rfl⟩ := Option.map_eq_some_iff.mp h
        exact (ViewDocumentChanges.add_frame hadd).2.2
      · obtain rfl := Option.some.inj h
        rfl
  · obtain ⟨r₁, hadd, rfl⟩ := Option.map_eq_some_iff.mp h
    exact (ViewDocumentChanges.add_frame hadd).2.2
  · obtain ⟨r₁, hadd, rfl⟩ := Option.map_eq_some_iff.mp h
    simp [ViewDocumentChanges.refillIf, ViewDocumentChanges.drop, hfull,
      (ViewDocumentChanges.add_frame hadd).2.2]
  · obtain rfl := Option.some.inj h
    rfl

end ComputeChange

section Limit

variable {start : DocumentSet q} {r : ViewDocumentChanges q}

/-- No more documents than the query asks for. -/
def DocumentSet.WithinLimit (s : DocumentSet q) : Prop := q.limitType ≠ .none → s.size ≤ q.limit

theorem DocumentSet.size_erase {s : DocumentSet q} {doc : q.Result} (hdoc : doc ∈ s.documents) :
    (s.erase doc.key).size + 1 = s.size := by
  have hcount := List.length_eq_countP_add_countP (l := s.documents)
    fun d : q.Result => decide (d.key ≠ doc.key)
  have hone : s.documents.countP (fun d => d.key = doc.key) = 1 := by
    have hcount := List.count_eq_one_of_mem s.distinct (List.mem_map_of_mem hdoc)
    rwa [List.count, List.countP_map] at hcount
  have hfilter : (s.erase doc.key).size = s.documents.countP fun d => d.key ≠ doc.key :=
    List.countP_eq_length_filter.symm
  have hnot : s.documents.countP (fun d => ¬ (decide (d.key ≠ doc.key) = true)) =
      s.documents.countP fun d => d.key = doc.key := by
    congr 1
    funext d
    simp
  rw [hfilter, DocumentSet.size, hcount]
  omega

theorem View.dropOne_spec (h : Recorded start r) (hsize : 0 < r.documentSet.size) :
    ∃ r', View.dropOne r = some r' ∧ Recorded start r' ∧
      r'.documentSet.size + 1 = r.documentSet.size ∧ r'.needsRefill = r.needsRefill := by
  have hne : r.documentSet.documents ≠ [] := List.ne_nil_of_length_pos hsize
  have hedge : ∃ doc, (if q.limitType = .first then r.documentSet.getLastDocument
      else r.documentSet.getFirstDocument) = some doc ∧ doc ∈ r.documentSet.documents := by
    split
    · exact ⟨_, List.getLast?_eq_some_getLast hne, List.getLast_mem hne⟩
    · exact ⟨_, List.head?_eq_some_head hne, List.head_mem hne⟩
  obtain ⟨doc, hdoc, hmem⟩ := hedge
  obtain ⟨r', hadd, hset, htracks⟩ := h.drop (DocumentSet.getDocument_eq_some.mpr ⟨hmem, rfl⟩)
  obtain ⟨changeSet, hchange, hr'⟩ := Option.map_eq_some_iff.mp hadd
  refine ⟨r'.drop doc.key, ?_, htracks, ?_, ?_⟩
  · rw [View.dropOne, hdoc, Option.bind_some, ViewDocumentChanges.add]
    exact (congrArg (Option.map _) hchange).trans (by rw [← hr']; rfl)
  · rw [ViewDocumentChanges.drop, hset]
    exact DocumentSet.size_erase hmem
  · exact (ViewDocumentChanges.add_frame hadd).2.2

theorem View.dropMany_spec (i : Nat) (h : Recorded start r) (hsize : i ≤ r.documentSet.size) :
    ∃ r', View.dropMany i r = some r' ∧ Recorded start r' ∧
      r'.documentSet.size + i = r.documentSet.size ∧ r'.needsRefill = r.needsRefill := by
  induction i generalizing r with
  | zero => exact ⟨r, rfl, h, rfl, rfl⟩
  | succ i ih =>
      obtain ⟨r₁, h₁, htracks₁, hsize₁, hrefill₁⟩ := dropOne_spec h (by omega)
      obtain ⟨r', hr', htracks, hsize', hrefill⟩ := ih htracks₁ (by omega)
      refine ⟨r', ?_, htracks, by omega, hrefill.trans hrefill₁⟩
      rw [View.dropMany, h₁]
      exact hr'

theorem View.applyLimit_spec (h : Recorded start r) :
    ∃ r', View.applyLimit r = some r' ∧ Recorded start r' ∧
      r'.documentSet.WithinLimit ∧ r'.needsRefill = r.needsRefill := by
  unfold View.applyLimit
  split
  · next hnone => exact ⟨r, rfl, h, fun hlimit => absurd hnone hlimit, rfl⟩
  · obtain ⟨r', hr', hrecorded, hsize, hrefill⟩ := dropMany_spec _ h (Nat.sub_le _ q.limit)
    exact ⟨r', hr', hrecorded, fun _ => by omega, hrefill⟩

end Limit

end FirebaseLogin.Core
