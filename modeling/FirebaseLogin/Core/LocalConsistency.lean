import FirebaseLogin.Core.Recalculation

/-!
The consistency of the local store: the overlay of every document, for every
user, stands for the queued batches of that user that change it. What is read
through the overlay is then what the batches make of the remote document.
-/

namespace FirebaseLogin.Core

open SortedEntries

/-- Whether the overlay of a document stands for the batches. -/
inductive Covered (key : DocumentReference) : List MutationBatch → Option Overlay → Prop where
  | empty : Covered key [] none
  | overlaid {batches : List MutationBatch} {last : MutationBatch} {overlay : Overlay}
      (latest : batches.getLast? = some last) (numbered : overlay.largestBatchId = last.batchId)
      (keyed : overlay.mutation.key = key) (plain : overlay.mutation.Plain)
      (stands : ∀ base previous t, (overlay.mutation.applyLocally base previous t).1 =
        (replay (pending key batches) base (some [])).1) : Covered key batches (some overlay)

theorem Covered.exists_last {key : DocumentReference} {batches : List MutationBatch}
    {overlay : Overlay} (h : Covered key batches (some overlay)) :
    ∃ last ∈ batches, overlay.largestBatchId = last.batchId := by
  cases h with
  | overlaid latest numbered => exact ⟨_, List.mem_of_getLast? latest, numbered⟩

namespace LocalStore

def batchesOf (s : LocalStore) (userId : String) (key : DocumentReference) : List MutationBatch :=
  (s.queue.batchesOf userId).filter fun b => key ∈ b.keys

/-- The documents of the remote cache: each under its key, none with local
mutations. -/
def RemoteOnly (s : LocalStore) : Prop :=
  ∀ key doc, s.remoteDocuments key = some doc → doc.key = key ∧ doc.hasLocalMutations = false

structure Consistent (s : LocalStore) : Prop where
  queue : s.queue.Consistent
  plain : ∀ userId, ∀ batch ∈ s.queue.batchesOf userId,
    batch.baseMutations = [] ∧ ∀ m ∈ batch.mutations, m.Plain
  remote : s.RemoteOnly
  covered : ∀ userId key, Covered key (s.batchesOf userId key) (s.overlays userId key)

variable {s s' : LocalStore} {key : DocumentReference}

theorem RemoteOnly.getRemote (h : s.RemoteOnly) (key : DocumentReference) :
    (s.getRemote key).key = key ∧ (s.getRemote key).hasLocalMutations = false := by
  unfold LocalStore.getRemote
  cases hdoc : s.remoteDocuments key with
  | none => exact ⟨rfl, rfl⟩
  | some doc => exact h key doc hdoc

theorem Consistent.getRemote (h : s.Consistent) (key : DocumentReference) :
    (s.getRemote key).key = key ∧ (s.getRemote key).hasLocalMutations = false :=
  h.remote.getRemote key

theorem mutationsOf_eq_nil {batch : MutationBatch} (hbase : batch.baseMutations = [])
    (hkey : key ∉ batch.keys) : batch.mutationsOf key = [] := by
  rw [MutationBatch.mutationsOf, hbase, List.nil_append, List.map_eq_nil_iff,
    List.filter_eq_nil_iff]
  intro m hm heq
  exact hkey (MutationBatch.mem_keys.mpr ⟨m, hm, by simpa using heq⟩)

theorem mutationsOf_ne_nil {batch : MutationBatch} (hkey : key ∈ batch.keys) :
    batch.mutationsOf key ≠ [] := by
  obtain ⟨m, hm, rfl⟩ := MutationBatch.mem_keys.mp hkey
  rw [MutationBatch.mutationsOf, Ne, List.map_eq_nil_iff, List.filter_eq_nil_iff]
  intro h
  exact h m (List.mem_append_right _ hm) (by simp)

theorem plain_mutationsOf {batch : MutationBatch} (key : DocumentReference)
    (hbase : batch.baseMutations = [])
    (hplain : ∀ m ∈ batch.mutations, m.Plain) : ∀ m ∈ batch.mutationsOf key, m.1.Plain := by
  rw [MutationBatch.mutationsOf, hbase, List.nil_append]
  intro e he
  obtain ⟨m, hm, rfl⟩ := List.mem_map.mp he
  exact hplain m (List.mem_filter.mp hm).1

theorem Consistent.plain_pending (h : s.Consistent) (userId : String) (key : DocumentReference) :
    ∀ m ∈ pending key (s.batchesOf userId key), m.1.Plain := by
  intro m hm
  obtain ⟨batch, hbatch, hmem⟩ := List.mem_flatMap.mp hm
  obtain ⟨hbase, hplain⟩ := h.plain userId batch (List.mem_filter.mp hbatch).1
  exact plain_mutationsOf key hbase hplain m hmem

theorem pending_ne_nil {batches : List MutationBatch} (hne : batches ≠ [])
    (hkey : ∀ b ∈ batches, key ∈ b.keys) : pending key batches ≠ [] := by
  obtain ⟨batch, rest, rfl⟩ := List.exists_cons_of_ne_nil hne
  rw [pending_cons]
  intro h
  exact mutationsOf_ne_nil (hkey batch List.mem_cons_self) (List.append_eq_nil_iff.mp h).1

/-- Batches that do not change the document add nothing to its mutations. -/
theorem pending_filter {batches : List MutationBatch}
    (hbase : ∀ b ∈ batches, b.baseMutations = []) :
    pending key (batches.filter fun b => key ∈ b.keys) = pending key batches := by
  induction batches with
  | nil => rfl
  | cons batch batches ih =>
      have hrec := ih fun b hb => hbase b (List.mem_cons_of_mem batch hb)
      by_cases hin : key ∈ batch.keys
      · rw [List.filter_cons_of_pos (by simpa using hin), pending_cons, pending_cons, hrec]
      · rw [List.filter_cons_of_neg (by simpa using hin), pending_cons, hrec,
          mutationsOf_eq_nil (hbase batch List.mem_cons_self) hin, List.nil_append]

/-- Replaying the batches one by one, as GetDocument does. -/
theorem getDocument_eq_replay (h : s.Consistent) (key : DocumentReference)
    (batches : List MutationBatch) :
    s.getDocument key batches = (replay (pending key batches) (s.getRemote key) (some [])).1 := by
  have hfold : ∀ doc : MutableDocument, doc.key = key →
      batches.foldl (fun doc batch => (batch.applyToLocalView doc (some [])).1) doc =
        (replay (pending key batches) doc (some [])).1 := by
    induction batches with
    | nil => exact fun _ _ => rfl
    | cons batch batches ih =>
        intro doc hdoc
        rw [List.foldl_cons, MutationBatch.applyToLocalView_eq_replay,
          ih _ ((replay_key _ _ _).trans hdoc), pending_cons, replay_append, hdoc]
        exact replay_mask _ _ _ _
  exact hfold (s.getRemote key) (h.getRemote key).1

/-- An overlay that is no patch makes the same of every base document. -/
theorem applyLocally_of_not_patch {m : Mutation} (hm : m.Plain) (hpatch : m.isPatch = false)
    {base base' : MutableDocument} (hkey : base.key = base'.key) (mask : Option FieldMask)
    (t : Timestamp) : (m.applyLocally base mask t).1 = (m.applyLocally base' mask t).1 := by
  cases m with
  | set key value precondition =>
      obtain rfl := hm
      rw [applyLocally_plain_set, applyLocally_plain_set]
      simp only [MutableDocument.localWrite, MutableDocument.convertToFoundDocument,
        MutableDocument.setHasLocalMutations, hkey]
  | patch key value mask precondition => cases hpatch
  | delete key precondition =>
      obtain rfl := hm
      rw [applyLocally_plain_delete, applyLocally_plain_delete]
      simp only [MutableDocument.localDelete, MutableDocument.convertToNoDocument,
        MutableDocument.setHasLocalMutations, hkey]

/-- Every overlay is stored under the key of its mutation. -/
def OverlaysKeyed (s : LocalStore) : Prop :=
  ∀ userId key overlay, s.overlays userId key = some overlay → overlay.mutation.key = key

theorem Consistent.overlaysKeyed (h : s.Consistent) : s.OverlaysKeyed := by
  intro userId key overlay hoverlay
  have hcovered := h.covered userId key
  rw [hoverlay] at hcovered
  revert hcovered
  generalize s.batchesOf userId key = batches
  rintro ⟨⟩
  assumption

/-- The document that is read where the overlay has its key. -/
def overlaidDocument (s : LocalStore) (key : DocumentReference) (now : Timestamp) :
    MutableDocument :=
  match s.getOverlay key with
  | some overlay =>
      (overlay.mutation.applyLocally (s.getBaseDocument key (some overlay)) (some []) now).1
  | none => s.getBaseDocument key none

/-- The assertion on the keys holds when a document is read. -/
theorem Consistent.readDocument_eq_some (h : s.Consistent) (key : DocumentReference)
    (now : Timestamp) : s.readDocument key now = some (s.overlaidDocument key now) := by
  simp only [readDocument, overlaidDocument]
  cases hoverlay : s.getOverlay key with
  | none => rfl
  | some overlay =>
      have hkey : (s.getBaseDocument key (some overlay)).key = overlay.mutation.key := by
        rw [h.overlaysKeyed s.queue.userId key overlay hoverlay, getBaseDocument]
        split
        · exact (h.getRemote key).1
        · rfl
      simp only [Mutation.applyToLocalView_of_key hkey, Option.map_some]

/-- The document read through the cached overlay is the remote document with all
queued batches applied. -/
theorem Consistent.overlaidDocument_eq_replay (h : s.Consistent) (key : DocumentReference)
    (now : Timestamp) : s.overlaidDocument key now =
      (replay (pending key (s.batchesOf s.queue.userId key)) (s.getRemote key) (some [])).1 := by
  have hcovered := h.covered s.queue.userId key
  rw [overlaidDocument, getOverlay]
  revert hcovered
  generalize hoverlay : s.overlays s.queue.userId key = overlay
  generalize s.batchesOf s.queue.userId key = batches
  rintro (_ | ⟨latest, numbered, keyed, plain, stands⟩)
  · rfl
  · next overlay =>
    rw [← stands (s.getRemote key) (some []) now]
    simp only [getBaseDocument, Option.all_some]
    split
    · rfl
    · next hpatch =>
      exact applyLocally_of_not_patch plain (by simpa using hpatch) (h.getRemote key).1.symm _ _

theorem Consistent.overlaidDocument_eq (h : s.Consistent) (key : DocumentReference)
    (now : Timestamp) :
    s.overlaidDocument key now = s.getDocument key s.queue.allMutationBatches := by
  have hpending : pending key (s.batchesOf s.queue.userId key) =
      pending key s.queue.allMutationBatches :=
    pending_filter fun b hb => (h.plain s.queue.userId b hb).1
  rw [h.overlaidDocument_eq_replay, getDocument_eq_replay h, hpending]

section Recalculate

variable {docs : DocumentReference → Option MutableDocument} {r : Recalculation}

theorem covered_of_calculate {batches : List MutationBatch} {last : MutationBatch}
    {base : MutableDocument} {mutation : Mutation} (hlast : batches.getLast? = some last)
    (hplain : ∀ m ∈ pending key batches, m.1.Plain) (hkey : base.key = key)
    (hbase : base.hasLocalMutations = false)
    (hm : calculateOverlayMutation (replay (pending key batches) base (some [])).1
      (replay (pending key batches) base (some [])).2 = some mutation) :
    Covered key batches (some ⟨last.batchId, mutation⟩) := by
  have htwin : ∀ base', Twin base base' (replay (pending key batches) base (some [])).1
      (replay (pending key batches) base (some [])).2
      (replay (pending key batches) base' (some [])).1
      (replay (pending key batches) base' (some [])).2 :=
    fun base' => Twin.untouched.replay hplain
  exact .overlaid hlast rfl
    ((calculateOverlayMutation_key hm).trans ((replay_key _ _ _).trans hkey))
    ((htwin base).overlay hbase hm).1
    fun base' previous t => ((htwin base').overlay hbase hm).2 previous t

/-- After a recalculation a document is covered, whatever overlay it had, unless
it had one without any batch left. -/
theorem Recalculated.covered (hr : Recalculated s docs s' r) {doc : MutableDocument}
    (hdoc : docs key = some doc) (hremote : doc.key = key ∧ doc.hasLocalMutations = false)
    (hplain : ∀ m ∈ pending key (s.ownBatches key), m.1.Plain)
    (hnone : s.ownBatches key = [] → s.getOverlay key = none) :
    Covered key (s.ownBatches key) (s'.overlays s.queue.userId key) := by
  rw [hr.overlay key doc hdoc]
  cases hlast : (s.ownBatches key).getLast? with
  | none =>
      have hnil : s.ownBatches key = [] := by simpa using hlast
      rw [Option.elim_none, hnone hnil, hnil]
      exact .empty
  | some last =>
      have hne : s.ownBatches key ≠ [] := by
        intro hnil
        rw [hnil] at hlast
        cases hlast
      have hpending : pending key (s.ownBatches key) ≠ [] :=
        pending_ne_nil hne fun b hb => by simpa using (List.mem_filter.mp hb).2
      obtain ⟨mutation, hm⟩ := calculateOverlayMutation_isSome
        (replay_hasLocalMutations hplain hpending doc (some []))
        (replay (pending key (s.ownBatches key)) doc (some [])).2
      rw [Option.elim_some, hm, Option.map_some, Option.some_or]
      exact covered_of_calculate hlast hplain hremote.1 hremote.2 hm

/-- Recalculating overlays in a consistent store keeps it consistent. -/
theorem Recalculated.consistent (hr : Recalculated s docs s' r) (h : s.Consistent)
    (hdocs : ∀ key doc, docs key = some doc → doc.key = key ∧ doc.hasLocalMutations = false) :
    s'.Consistent where
  queue := hr.queue ▸ h.queue
  plain := by
    rw [hr.queue]
    exact h.plain
  remote := by
    rw [RemoteOnly, hr.remoteDocuments]
    exact h.remote
  covered userId key := by
    have hcovered := h.covered userId key
    rw [batchesOf, hr.queue, ← batchesOf]
    by_cases hframe : userId ≠ s.queue.userId ∨ docs key = none
    · rw [hr.frame userId key hframe]
      exact hcovered
    · obtain ⟨huser, hsome⟩ := not_or.mp hframe
      obtain rfl : userId = s.queue.userId := not_not.mp huser
      obtain ⟨doc, hdoc⟩ := Option.ne_none_iff_exists'.mp hsome
      refine hr.covered hdoc (hdocs key doc hdoc) (h.plain_pending _ _) fun hnil => ?_
      have hown : s.batchesOf s.queue.userId key = [] := hnil
      rw [hown] at hcovered
      cases hoverlay : s.overlays s.queue.userId key with
      | none => exact hoverlay
      | some overlay =>
          rw [hoverlay] at hcovered
          cases hcovered with
          | overlaid latest => cases latest

theorem Recalculated.eq_self (hr : Recalculated s docs s' r) (hdocs : ∀ key, docs key = none) :
    s' = s := by
  have hoverlays : s'.overlays = s.overlays :=
    funext fun userId => funext fun key => hr.frame userId key (.inr (hdocs key))
  obtain ⟨queue, overlays, remote, version⟩ := s'
  obtain ⟨queue', overlays', remote', version'⟩ := s
  obtain rfl := hr.queue
  obtain rfl := hr.remoteDocuments
  obtain rfl := hr.lastRemoteSnapshotVersion
  obtain rfl := hoverlays
  rfl

end Recalculate

section Views

variable {docs : List MutableDocument} {existenceStateChanged : List DocumentReference}
  {now : Timestamp}

/-- The documents that ComputeViews recalculates. -/
def recalculatedDocs (s : LocalStore) (docs : List MutableDocument)
    (existenceStateChanged : List DocumentReference) (key : DocumentReference) :
    Option MutableDocument :=
  (docs.filter fun doc => s.needsRecalculation existenceStateChanged doc.key).find? fun doc =>
    doc.key = key

/-- A document seen through its overlay where the overlay has its key. -/
def overlaidView (s : LocalStore) (doc : MutableDocument) (now : Timestamp) : OverlayedDocument :=
  match s.getOverlay doc.key with
  | some overlay => ((overlay.mutation.applyLocally doc none now).1, overlay.mutation.fieldMask)
  | none => (doc, some [])

theorem localView_eq_some (h : s.OverlaysKeyed) (doc : MutableDocument) (now : Timestamp) :
    s.localView doc now = some (s.overlaidView doc now) := by
  rw [localView, overlaidView]
  cases hoverlay : s.getOverlay doc.key with
  | none => rfl
  | some overlay =>
      have hkey : doc.key = overlay.mutation.key := (h _ _ overlay hoverlay).symm
      simp only [Mutation.applyToLocalView_of_key hkey, Option.map_some]

theorem computeViews_spec (h : s.queue.Consistent) (hkeyed : s.OverlaysKeyed)
    (docs : List MutableDocument) (existenceStateChanged : List DocumentReference)
    (now : Timestamp) :
    ∃ s' r, s.computeViews docs existenceStateChanged now = some (s', docs.map fun doc =>
        if s.needsRecalculation existenceStateChanged doc.key then
          ((r.docs doc.key).getD doc, (r.masks doc.key).getD none)
        else s.overlaidView doc now) ∧
      Recalculated s (s.recalculatedDocs docs existenceStateChanged) s' r := by
  have hkeys : ∀ key doc, s.recalculatedDocs docs existenceStateChanged key = some doc →
      key ∈ (docs.filter fun doc =>
        s.needsRecalculation existenceStateChanged doc.key).map MutableDocument.key ∧
      doc.key = key := by
    intro key doc hdoc
    have hkey : doc.key = key := by simpa using List.find?_some hdoc
    exact ⟨List.mem_map.mpr ⟨doc, List.mem_of_find?_eq_some hdoc, hkey⟩, hkey⟩
  obtain ⟨s', r, hrun, hr⟩ := recalculateAndSaveOverlays_spec h _ _ hkeys
  refine ⟨s', r, ?_, hr⟩
  have hviews : (docs.mapM fun doc =>
      if s.needsRecalculation existenceStateChanged doc.key then
        some ((r.docs doc.key).getD doc, (r.masks doc.key).getD none)
      else s.localView doc now) = some (docs.map fun doc =>
        if s.needsRecalculation existenceStateChanged doc.key then
          ((r.docs doc.key).getD doc, (r.masks doc.key).getD none)
        else s.overlaidView doc now) := by
    simp only [localView_eq_some hkeyed, ← apply_ite some]
    exact List.mapM_pure
  rw [computeViews]
  refine (congrArg (Option.bind · _) hrun).trans ?_
  exact congrArg (Option.map _) hviews

/-- Without a change of existence nothing is recalculated, and each document is
seen through its overlay. -/
theorem computeViews_nil (h : s.queue.Consistent) (hkeyed : s.OverlaysKeyed)
    (docs : List MutableDocument) (now : Timestamp) :
    s.computeViews docs [] now = some (s, docs.map fun doc => s.overlaidView doc now) := by
  have hneeds : ∀ key, s.needsRecalculation [] key = false := fun key => by
    simp [needsRecalculation]
  obtain ⟨s', r, hviews, hr⟩ := computeViews_spec h hkeyed docs [] now
  obtain rfl := hr.eq_self fun key => by simp [recalculatedDocs, hneeds]
  simpa [hneeds] using hviews

theorem getDocuments_eq (h : s.queue.Consistent) (hkeyed : s.OverlaysKeyed)
    (keys : List DocumentReference) (now : Timestamp) :
    s.getDocuments keys now =
      some (s, keys.map fun key => (s.overlaidView (s.getRemote key) now).1) := by
  rw [getDocuments, getLocalViewOfDocuments, computeViews_nil h hkeyed]
  simp

end Views

end LocalStore

end FirebaseLogin.Core
