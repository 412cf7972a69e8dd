import FirebaseLogin.Core.Acknowledgement

/-!
The local store implements what the model of the app assumes of the client
library: a document is seen through the client's own writes that the server has
not applied yet. The app's operations become mutations as ParsedSetData and
DocumentReference make them.
-/

namespace FirebaseLogin.Core

open SortedEntries DocumentStore

section Operations

/-- The dictionary that the app hands over, as an object value. -/
def scalarEntries (fields : Document) : MapValue :=
  putAll [] (fields.entries.map fun e => (e.1, .scalar e.2))

theorem sorted_scalarEntries (fields : Document) :
    (FieldValue.map (scalarEntries fields)).Sorted := by
  refine ⟨ascending_putAll List.Pairwise.nil _, sortedValues_iff.mpr fun e he => ?_⟩
  obtain he | he := mem_putAll he
  · cases he
  · obtain ⟨e, -, rfl⟩ := List.mem_map.mp he
    trivial

def objectValue (fields : Document) : ObjectValue :=
  ⟨scalarEntries fields, sorted_scalarEntries fields⟩

/-- The mutation of one operation. Without a field list the mask of a merge names
every field that it writes. -/
def toMutation (key : DocumentReference) : FirebaseLogin.Mutation → Mutation
  | .set fields => .set key (objectValue fields) .none
  | .merge fields =>
      .patch key (objectValue fields) (FieldValue.map (scalarEntries fields)).extractFieldMask .none
  | .delete => .delete key .none

@[simp] theorem toMutation_key (key : DocumentReference) (op : FirebaseLogin.Mutation) :
    (toMutation key op).key = key := by
  cases op <;> rfl

theorem find_scalarEntries (fields : Document) (name : String) :
    find name (scalarEntries fields) = (fields.lookup name).map FieldValue.scalar := by
  have hkeys : ((fields.entries.map fun e => (e.1, FieldValue.scalar e.2)).map Prod.fst).Nodup := by
    rw [List.map_map]
    exact fields.nodupKeys
  rw [scalarEntries, find_putAll_nodup List.Pairwise.nil hkeys, find_nil, Option.or_none,
    AList.lookup]
  induction fields.entries with
  | nil => rfl
  | cons e entries ih =>
      rw [List.map_cons, find_cons, ih]
      by_cases heq : e.1 = name
      · subst heq
        rw [if_pos rfl, List.dlookup_cons_eq]
        rfl
      · rw [if_neg heq, List.dlookup_cons_ne _ _ (Ne.symm heq)]

theorem fieldMask_scalarEntries (fields : Document) :
    (FieldValue.map (scalarEntries fields)).extractFieldMask =
      (scalarEntries fields).map fun e => [e.1] := by
  have hscalar : ∀ e ∈ scalarEntries fields, ∃ v, e.2 = .scalar v := by
    intro e he
    obtain he | he := mem_putAll he
    · cases he
    · obtain ⟨e, -, rfl⟩ := List.mem_map.mp he
      exact ⟨e.2, rfl⟩
  rw [FieldValue.extractFieldMask]
  generalize scalarEntries fields = entries at hscalar ⊢
  induction entries with
  | nil => rfl
  | cons e entries ih =>
      obtain ⟨v, hv⟩ := hscalar e List.mem_cons_self
      obtain ⟨name, value⟩ := e
      obtain rfl : value = .scalar v := hv
      rw [fieldMaskOfEntries, ih fun e' he' => hscalar e' (List.mem_cons_of_mem _ he')]
      rfl

theorem mem_fieldMask_scalarEntries {fields : Document} {name : String} :
    [name] ∈ (FieldValue.map (scalarEntries fields)).extractFieldMask ↔
      (fields.lookup name).isSome := by
  rw [fieldMask_scalarEntries]
  have hkeys : name ∈ (scalarEntries fields).map Prod.fst ↔
      (find name (scalarEntries fields)).isSome := mem_keys_iff
  rw [find_scalarEntries, Option.isSome_map] at hkeys
  rw [← hkeys]
  simp

/-- Every operation of the app becomes a plain mutation. -/
theorem plain_toMutation (key : DocumentReference) (op : FirebaseLogin.Mutation) :
    (toMutation key op).Plain := by
  cases op with
  | set fields => rfl
  | merge fields =>
      refine ⟨rfl, fun p hp => ?_⟩
      rw [fieldMask_scalarEntries] at hp
      obtain ⟨e, he, rfl⟩ := List.mem_map.mp hp
      exact ⟨e.1, rfl, mem_keys_iff.mp (List.mem_map_of_mem he)⟩
  | delete => rfl

end Operations

section Represents

/-- The document of the library stands for the document of the app's model. -/
structure Represents (d : Option Document) (doc : MutableDocument) : Prop where
  found : doc.isFoundDocument = d.isSome
  fields : ∀ name, find name doc.value.fields = (field d name).map FieldValue.scalar

variable {d : Option Document} {doc : MutableDocument} {key : DocumentReference}

/-- Applying the mutation of an operation is applying the operation. -/
theorem Represents.apply (h : Represents d doc) (key : DocumentReference)
    (op : FirebaseLogin.Mutation) (mask : Option FieldMask) (t : Timestamp) :
    Represents (op.apply d) ((toMutation key op).applyLocally doc mask t).1 := by
  cases op with
  | set fields =>
      rw [toMutation, applyLocally_plain_set]
      exact ⟨rfl, find_scalarEntries fields⟩
  | merge fields =>
      obtain ⟨-, hmask⟩ := plain_toMutation key (.merge fields)
      rw [toMutation, applyLocally_plain_patch]
      refine ⟨(apply_merge_isSome fields d).symm, fun name => ?_⟩
      refine (find_setAll_getPatch hmask doc.value.sorted name).trans ?_
      rw [field_apply_merge, if_congr mem_fieldMask_scalarEntries rfl rfl]
      cases hlookup : fields.lookup name with
      | none => simpa using h.fields name
      | some v =>
          have hfind := find_scalarEntries fields name
          rw [hlookup] at hfind
          simpa [objectValue] using hfind
  | delete =>
      rw [toMutation, applyLocally_plain_delete]
      exact ⟨rfl, fun _ => rfl⟩

/-- The queued mutations of a document, as the app issued them. -/
theorem Represents.overlay (h : Represents d doc)
    (ops : List (DocumentReference × FirebaseLogin.Mutation)) {ms : List (Mutation × Timestamp)}
    (hms : ms.map Prod.fst = (ops.map fun op => toMutation op.1 op.2).filter fun m => m.key = key)
    (mask : Option FieldMask) :
    Represents (DocumentStore.overlay key ops d) (replay ms doc mask).1 := by
  induction ops generalizing d doc ms mask with
  | nil =>
      obtain rfl : ms = [] := by simpa using hms
      exact h
  | cons op ops ih =>
      rw [List.map_cons] at hms
      rw [DocumentStore.overlay]
      by_cases hkey : op.1 = key
      · rw [List.filter_cons_of_pos (by simpa using hkey)] at hms
        obtain ⟨m, ms, rfl⟩ := List.exists_cons_of_ne_nil (l := ms) (by
          rintro rfl
          cases hms)
        obtain ⟨hm, hms⟩ := List.cons.inj hms
        rw [if_pos hkey, replay, hm]
        exact ih (h.apply op.1 op.2 mask m.2) hms _
      · rw [List.filter_cons_of_neg (by simpa using hkey)] at hms
        rw [if_neg hkey]
        exact ih h hms mask

theorem Represents.of_sameData (h : Represents d doc) {doc' : MutableDocument}
    (hsame : SameData doc doc') : Represents d doc' where
  found := by
    rw [← h.found, MutableDocument.isFoundDocument, MutableDocument.isFoundDocument,
      hsame.documentType]
  fields name := by
    rw [← hsame.value]
    exact h.fields name

end Represents

section Cache

abbrev Writes := List (DocumentReference × FirebaseLogin.Mutation)

def toMutations (writes : Writes) : List Mutation := writes.map fun w => toMutation w.1 w.2

/-- What is known of a document: its contents, if it exists, and the version they
are from. It is pending once an answer of the server has told of it and the watch
stream has not yet. -/
structure Known where
  document : Option Document
  version : SnapshotVersion
  pending : Bool

/-- What the client library is for: it knows documents of the server and keeps
each user's writes until the server has answered them. -/
structure Cache where
  userId : String
  batches : String → List (BatchId × Writes)
  known : DocumentReference → Option Known

/-- A document as the signed-in user sees it. -/
def Cache.observe (c : Cache) (key : DocumentReference) : Option Document :=
  DocumentStore.overlay key ((c.batches c.userId).flatMap Prod.snd)
    ((c.known key).bind Known.document)

/-- A document of the watch stream, which is there or not at a version. -/
structure ServerDocument where
  key : DocumentReference
  document : Option Document
  version : SnapshotVersion

/-- A missing document without a version is one to which access was lost: nothing is
known of it any more. Otherwise what is newer replaces what is known, and so does
the same version if it was awaited. -/
def ServerDocument.received (update : ServerDocument) (known : Option Known) : Option Known :=
  if update.document.isNone ∧ update.version = 0 then none
  else if known.all fun k => k.version < update.version ∨
      (update.version = k.version ∧ k.pending) then
    some ⟨update.document, update.version, false⟩
  else known

/-- The version at which the server applied the last write of the batch to the
document. -/
def ackVersion (key : DocumentReference) (writes : Writes) (versions : List SnapshotVersion) :
    Option SnapshotVersion :=
  (((writes.zip versions).filter fun e => e.1.1 = key).map Prod.snd).getLast?

/-- An acknowledged batch becomes part of what is known, unless that is as new. -/
def acknowledged (key : DocumentReference) (writes : Writes) (versions : List SnapshotVersion)
    (known : Option Known) : Option Known :=
  match ackVersion key writes versions with
  | none => known
  | some version =>
      if (known.map Known.version).getD 0 < version then
        some ⟨DocumentStore.overlay key writes (known.bind Known.document), version, true⟩
      else known

inductive AppEvent where
  | write (writes : Writes)
  | acknowledge (batchId : BatchId) (commitVersion : SnapshotVersion)
      (versions : List SnapshotVersion)
  | reject (batchId : BatchId)
  | remote (updates : List ServerDocument) (snapshotVersion : SnapshotVersion)
  | userChange (userId : String)

def Cache.setBatches (c : Cache) (batches : List (BatchId × Writes)) : Cache :=
  { c with batches := Function.update c.batches c.userId batches }

@[simp] theorem Cache.setBatches_self (c : Cache) (batches : List (BatchId × Writes)) :
    (c.setBatches batches).batches c.userId = batches := Function.update_self _ _ _

theorem Cache.setBatches_of_ne (c : Cache) (batches : List (BatchId × Writes)) {userId : String}
    (h : userId ≠ c.userId) : (c.setBatches batches).batches userId = c.batches userId :=
  Function.update_of_ne h _ _

/-- One document of the watch stream. -/
def Cache.receive (known : DocumentReference → Option Known) (update : ServerDocument) :
    DocumentReference → Option Known :=
  Function.update known update.key (update.received (known update.key))

/-- A batch is queued under an id that no queued batch has, and leaves the queue when
it is answered. Only the choice of the id is left open. -/
inductive Cache.Step (c : Cache) : AppEvent → Cache → Prop where
  | write {batchId : BatchId} (writes : Writes)
      (fresh : ∀ userId, ∀ b ∈ c.batches userId, b.1 < batchId) :
      Step c (.write writes) (c.setBatches (c.batches c.userId ++ [(batchId, writes)]))
  | acknowledge {batchId : BatchId} {commitVersion : SnapshotVersion}
      {versions : List SnapshotVersion} {writes : Writes}
      (queued : (batchId, writes) ∈ c.batches c.userId)
      (answered : writes.length = versions.length) :
      Step c (.acknowledge batchId commitVersion versions)
        { c.setBatches ((c.batches c.userId).filter fun b => b.1 ≠ batchId) with
          known := fun key => acknowledged key writes versions (c.known key) }
  | reject {batchId : BatchId} {writes : Writes}
      (queued : (batchId, writes) ∈ c.batches c.userId) :
      Step c (.reject batchId)
        (c.setBatches ((c.batches c.userId).filter fun b => b.1 ≠ batchId))
  | remote (updates : List ServerDocument) (snapshotVersion : SnapshotVersion) :
      Step c (.remote updates snapshotVersion)
        { c with known := updates.foldl Cache.receive c.known }
  | userChange (userId : String) : Step c (.userChange userId) { c with userId }

def ServerDocument.toDocument (update : ServerDocument) : MutableDocument :=
  match update.document with
  | some fields =>
      (MutableDocument.invalidDocument update.key).convertToFoundDocument update.version
        (objectValue fields)
  | none => (MutableDocument.invalidDocument update.key).convertToNoDocument update.version

theorem ServerDocument.synced_toDocument (update : ServerDocument) :
    update.toDocument.hasLocalMutations = false := by
  unfold toDocument
  split <;> rfl

def AppEvent.toEvent : AppEvent → LocalStore.Event
  | .write writes => .write (writes.map fun w => ⟨toMutation w.1 w.2, plain_toMutation w.1 w.2⟩)
  | .acknowledge batchId commitVersion versions =>
      .acknowledge batchId commitVersion (versions.map fun version => ⟨version, []⟩)
  | .reject batchId => .reject batchId
  | .remote updates snapshotVersion =>
      .remote (updates.map fun u => ⟨u.toDocument, u.synced_toDocument⟩) snapshotVersion
  | .userChange userId => .userChange userId

/-- The document of the remote document cache stands for what is known. -/
structure Cached (known : Option Known) (doc : MutableDocument) : Prop where
  valid : doc.isValidDocument = known.isSome
  version : doc.version = (known.map Known.version).getD 0
  pending : doc.hasPendingWrites = known.any Known.pending
  contents : Represents (known.bind Known.document) doc

/-- The store implements the cache: the queued batches are the users' writes and
the remote documents are the known ones. -/
structure Implements (s : LocalStore) (c : Cache) : Prop where
  consistent : s.Consistent
  userId : s.queue.userId = c.userId
  batches : ∀ userId, (s.queue.batchesOf userId).map (fun b => (b.batchId, b.mutations)) =
    (c.batches userId).map fun b => (b.1, toMutations b.2)
  known : ∀ key, Cached (c.known key) (s.getRemote key)

variable {s s' : LocalStore} {c : Cache} {key : DocumentReference} {now : Timestamp}

theorem map_fst_pending (key : DocumentReference) (batches : List MutationBatch)
    (hbase : ∀ b ∈ batches, b.baseMutations = []) :
    (pending key batches).map Prod.fst =
      (batches.flatMap MutationBatch.mutations).filter fun m => m.key = key := by
  induction batches with
  | nil => rfl
  | cons batch batches ih =>
      rw [pending_cons, List.map_append, ih fun b hb => hbase b (List.mem_cons_of_mem batch hb),
        List.flatMap_cons, List.filter_append, MutationBatch.mutationsOf,
        hbase batch List.mem_cons_self, List.nil_append, List.map_map]
      exact congrArg (· ++ _) (List.map_id _)

theorem Implements.flatMap_mutations (h : Implements s c) :
    s.queue.allMutationBatches.flatMap MutationBatch.mutations =
      toMutations ((c.batches c.userId).flatMap Prod.snd) := by
  have hbatches := congrArg (List.flatMap Prod.snd) (h.batches c.userId)
  rw [List.flatMap_map, List.flatMap_map] at hbatches
  rw [MutationQueue.allMutationBatches, h.userId, toMutations, List.map_flatMap]
  exact hbatches

/-- A read through the store is the observation of the cache. -/
theorem Implements.readDocument (h : Implements s c) (key : DocumentReference) (now : Timestamp) :
    ∃ doc, s.readDocument key now = some doc ∧ Represents (c.observe key) doc := by
  have hmutations := map_fst_pending key s.queue.allMutationBatches
    fun b hb => (h.consistent.plain s.queue.userId b hb).1
  rw [h.flatMap_mutations] at hmutations
  refine ⟨_, h.consistent.readDocument_eq_some key now, ?_⟩
  rw [h.consistent.overlaidDocument_eq, LocalStore.getDocument_eq_replay h.consistent]
  exact (h.known key).contents.overlay _ hmutations _

/-- Removing a batch from the queue. -/
theorem Implements.filter_batches (h : Implements s c) {batch : MutationBatch}
    (hbatch : batch ∈ s.queue.allMutationBatches)
    (hremove : s.queue.removeMutationBatch batch = some s'.queue) (userId : String) :
    (s'.queue.batchesOf userId).map (fun b => (b.batchId, b.mutations)) =
      ((c.setBatches ((c.batches c.userId).filter fun b => b.1 ≠ batch.batchId)).batches userId).map
        fun b => (b.1, toMutations b.2) := by
  rw [MutationQueue.batchesOf_removeMutationBatch h.consistent.queue hbatch hremove, h.userId]
  by_cases huser : userId = c.userId
  · subst huser
    have hbatches := congrArg (List.filter fun b => b.1 ≠ batch.batchId) (h.batches c.userId)
    rw [List.filter_map, List.filter_map] at hbatches
    simpa [Function.comp_def] using hbatches
  · rw [List.filter_eq_self.mpr fun b _ => by simp [huser], c.setBatches_of_ne _ huser]
    exact h.batches userId

theorem Implements.exists_writes (h : Implements s c) {batch : MutationBatch}
    (hbatch : batch ∈ s.queue.allMutationBatches) :
    ∃ writes, (batch.batchId, writes) ∈ c.batches c.userId ∧ batch.mutations = toMutations writes := by
  have hmem : (batch.batchId, batch.mutations) ∈
      (s.queue.batchesOf c.userId).map fun b => (b.batchId, b.mutations) := by
    rw [← h.userId]
    exact List.mem_map_of_mem hbatch
  rw [h.batches] at hmem
  obtain ⟨⟨batchId, writes⟩, hwrites, heq⟩ := List.mem_map.mp hmem
  obtain ⟨rfl, hmutations⟩ := Prod.mk.inj heq
  exact ⟨writes, hwrites, hmutations.symm⟩

/-- The next id of the queue is above the ids of all queued batches. -/
theorem Implements.fresh (h : Implements s c) (userId : String) :
    ∀ b ∈ c.batches userId, b.1 < s.queue.nextBatchId := by
  intro b hb
  have hmem : (b.1, toMutations b.2) ∈
      (s.queue.batchesOf userId).map fun b => (b.batchId, b.mutations) := by
    rw [h.batches]
    exact List.mem_map_of_mem hb
  obtain ⟨batch, hbatch, heq⟩ := List.mem_map.mp hmem
  obtain ⟨hid, -⟩ := Prod.mk.inj heq
  rw [← hid]
  exact h.consistent.queue.fresh _ ((MutationQueue.mem_batchesOf h.consistent.queue).mp hbatch)

theorem Implements.write (h : Implements s c) {writes : Writes}
    (hs : s.step ((AppEvent.write writes).toEvent, now) = some s') :
    ∃ c', c.Step (.write writes) c' ∧ Implements s' c' := by
  obtain ⟨⟨t, result⟩, hwrite, rfl⟩ := Option.map_eq_some_iff.mp hs
  have hmap : (writes.map fun w => (⟨toMutation w.1 w.2, plain_toMutation w.1 w.2⟩ :
      { m : Mutation // m.Plain })).map Subtype.val = toMutations writes := by
    rw [List.map_map]
    rfl
  rw [hmap] at hwrite
  obtain ⟨hne, hroom⟩ := h.consistent.of_writeLocally hwrite
  have hplain : ∀ m ∈ toMutations writes, m.Plain := by
    intro m hm
    obtain ⟨w, -, rfl⟩ := List.mem_map.mp hm
    exact plain_toMutation w.1 w.2
  obtain ⟨t', result', hwrite', hconsistent, hqueue, hremote⟩ :=
    h.consistent.writeLocally hroom hne hplain now
  obtain ⟨rfl, rfl⟩ := Prod.mk.inj (Option.some.inj (hwrite'.symm.trans hwrite))
  refine ⟨_, .write writes h.fresh, hconsistent, ?_, fun userId => ?_, fun key => ?_⟩
  · rw [hqueue]
    exact h.userId
  · rw [hqueue, MutationQueue.batchesOf_enqueue h.consistent.queue hroom, List.map_append,
      h.batches, h.userId]
    by_cases huser : userId = c.userId
    · subst huser
      simp [MutationQueue.enqueue]
    · simp [huser, c.setBatches_of_ne _ huser]
  · rw [LocalStore.getRemote, hremote]
    exact h.known key

theorem docVersion_eq_ackVersion {result : LocalStore.MutationBatchResult} {writes : Writes}
    {versions : List SnapshotVersion} (hwrites : result.batch.mutations = toMutations writes)
    (hversions : result.mutationResults = versions.map fun version => ⟨version, []⟩)
    (key : DocumentReference) : result.docVersion key = ackVersion key writes versions := by
  rw [LocalStore.MutationBatchResult.docVersion, hwrites, hversions, toMutations, List.zip_map,
    List.filter_map, List.map_map, ackVersion]
  simp only [Function.comp_def, Prod.map_fst, Prod.map_snd, toMutation_key]

/-- An acknowledgement does to the cached document what it does to what is known. -/
theorem Cached.acknowledged {result : LocalStore.MutationBatchResult} {writes : Writes}
    {versions : List SnapshotVersion} {known : Option Known} {before after : MutableDocument}
    (h : Cached known before) (hbase : result.batch.baseMutations = [])
    (hwrites : result.batch.mutations = toMutations writes)
    (hversion : result.docVersion key = ackVersion key writes versions)
    (hack : LocalStore.Acknowledged result key before after) :
    Cached (acknowledged key writes versions known) after := by
  rw [Core.acknowledged, ← hversion]
  cases hack with
  | untouched outside same =>
      have hnone : result.docVersion key = none := by
        rw [LocalStore.MutationBatchResult.docVersion, List.getLast?_eq_none_iff,
          List.map_eq_nil_iff, List.filter_eq_nil_iff]
        intro e he heq
        exact outside (MutationBatch.mem_keys.mpr
          ⟨e.1, (List.of_mem_zip he).1, by simpa using heq⟩)
      rw [hnone, same]
      exact h
  | outdated acknowledged newer same =>
      rw [acknowledged, same]
      simp only [← h.version, if_neg (not_lt.mpr newer)]
      exact h
  | committed acknowledged older contents valid taken waits =>
      rw [acknowledged]
      simp only [← h.version, if_pos older]
      have hmutations := map_fst_pending key [result.batch] fun b hb => by
        obtain rfl := List.mem_singleton.mp hb
        exact hbase
      simp only [pending_cons, pending_nil, List.append_nil, List.flatMap_cons, List.flatMap_nil,
        hwrites] at hmutations
      exact ⟨valid, taken, waits,
        (h.contents.overlay writes hmutations (some [])).of_sameData contents⟩

theorem Implements.acknowledge (h : Implements s c) {batchId : BatchId}
    {commitVersion : SnapshotVersion} {versions : List SnapshotVersion}
    (hs : s.step ((AppEvent.acknowledge batchId commitVersion versions).toEvent, now) = some s') :
    ∃ c', c.Step (.acknowledge batchId commitVersion versions) c' ∧ Implements s' c' := by
  obtain ⟨⟨t, docs⟩, hack, rfl⟩ := Option.map_eq_some_iff.mp hs
  obtain ⟨batch, hlookup, hack⟩ := Option.bind_eq_some_iff.mp hack
  split at hack
  swap
  · cases hack
  next hlength =>
  obtain ⟨hbatch, rfl⟩ := (MutationQueue.lookupMutationBatch_eq_some h.consistent.queue).mp hlookup
  obtain ⟨hconsistent, ⟨s₁, happly, hqueue, hremote⟩, -⟩ := h.consistent.acknowledgeBatch hbatch hack
  obtain ⟨hremoved, -⟩ := LocalStore.applyBatchResult_spec h.consistent.remote happly
  rw [← hqueue] at hremoved
  obtain ⟨writes, hqueued, hwrites⟩ := h.exists_writes hbatch
  have hanswered : writes.length = versions.length := by
    simpa [hwrites, toMutations] using hlength
  refine ⟨_, .acknowledge hqueued hanswered, hconsistent, ?_, h.filter_batches hbatch hremoved,
    fun key => ?_⟩
  · obtain ⟨-, heq⟩ := MutationQueue.removeMutationBatch_eq_some.mp hremoved
    rw [heq]
    exact h.userId
  · have hget : t.getRemote key = s₁.getRemote key := by
      rw [LocalStore.getRemote, hremote]
      rfl
    rw [hget]
    exact (h.known key).acknowledged (h.consistent.plain s.queue.userId batch hbatch).1 hwrites
      (docVersion_eq_ackVersion hwrites rfl key)
      (LocalStore.acknowledged_applyBatchResult h.consistent hbatch happly key)

theorem Implements.reject (h : Implements s c) {batchId : BatchId}
    (hs : s.step ((AppEvent.reject batchId).toEvent, now) = some s') :
    ∃ c', c.Step (.reject batchId) c' ∧ Implements s' c' := by
  obtain ⟨⟨t, docs⟩, hreject, rfl⟩ := Option.map_eq_some_iff.mp hs
  obtain ⟨hconsistent, hremote, batch, hlookup, hremoved, -⟩ := h.consistent.rejectBatch hreject
  obtain ⟨hbatch, rfl⟩ := (MutationQueue.lookupMutationBatch_eq_some h.consistent.queue).mp hlookup
  obtain ⟨writes, hqueued, -⟩ := h.exists_writes hbatch
  refine ⟨_, .reject hqueued, hconsistent, ?_, h.filter_batches hbatch hremoved, fun key => ?_⟩
  · obtain ⟨-, heq⟩ := MutationQueue.removeMutationBatch_eq_some.mp hremoved
    rw [heq]
    exact h.userId
  · rw [LocalStore.getRemote, hremote]
    exact h.known key

theorem getRemote_setRemote (s : LocalStore) (key other : DocumentReference)
    (doc : Option MutableDocument) :
    (s.setRemote key doc).getRemote other =
      if other = key then doc.getD (.invalidDocument key) else s.getRemote other := by
  by_cases heq : other = key
  · subst heq
    simp [LocalStore.getRemote, LocalStore.setRemote]
  · simp [LocalStore.getRemote, LocalStore.setRemote, heq]

theorem ServerDocument.toDocument_key (update : ServerDocument) :
    update.toDocument.key = update.key := by
  unfold toDocument
  split <;> rfl

theorem ServerDocument.toDocument_version (update : ServerDocument) :
    update.toDocument.version = update.version := by
  unfold toDocument
  split <;> rfl

theorem ServerDocument.isNoDocument_toDocument (update : ServerDocument) :
    update.toDocument.isNoDocument = update.document.isNone := by
  unfold toDocument
  split
  · next h => rw [h]; rfl
  · next h => rw [h]; rfl

theorem ServerDocument.cached_toDocument (update : ServerDocument) :
    Cached (some ⟨update.document, update.version, false⟩) update.toDocument := by
  unfold toDocument
  split
  · next fields h =>
      refine ⟨rfl, rfl, rfl, ?_⟩
      rw [Option.bind_some, h]
      exact ⟨rfl, find_scalarEntries fields⟩
  · next h =>
      refine ⟨rfl, rfl, rfl, ?_⟩
      rw [Option.bind_some, h]
      exact ⟨rfl, fun _ => rfl⟩

/-- The library replaces the cached document when the cache does. -/
theorem Cached.replaces_eq {known : Option Known} {existing : MutableDocument}
    (h : Cached known existing) (update : ServerDocument) :
    LocalStore.replaces update.toDocument existing = known.all fun k =>
      k.version < update.version ∨ (update.version = k.version ∧ k.pending) := by
  rw [LocalStore.replaces, h.valid, h.version, h.pending, update.toDocument_version]
  cases known with
  | none => rfl
  | some k => simp [Bool.beq_eq_decide_eq]

/-- One document of a remote event: ignored, stored, or removed from the cache. -/
theorem cached_populateDocumentChange {update : ServerDocument} {globalVersion : SnapshotVersion}
    {st st' : LocalStore × LocalStore.DocumentChangeResult}
    {known : DocumentReference → Option Known}
    (h : LocalStore.populateDocumentChange globalVersion st update.toDocument = some st')
    (hknown : ∀ key, Cached (known key) (st.1.getRemote key)) (key : DocumentReference) :
    Cached (Cache.receive known update key) (st'.1.getRemote key) := by
  have hset : ∀ (doc : Option MutableDocument) (k : Option Known),
      Cached k (doc.getD (.invalidDocument update.key)) →
      Cached (Function.update known update.key k key)
        ((st.1.setRemote update.key doc).getRemote key) := by
    intro doc k hk
    rw [getRemote_setRemote]
    by_cases heq : key = update.key
    · subst heq
      rwa [Function.update_self, if_pos rfl]
    · rw [Function.update_of_ne heq, if_neg heq]
      exact hknown key
  simp only [LocalStore.populateDocumentChange, update.isNoDocument_toDocument,
    update.toDocument_version, update.toDocument_key] at h
  rw [(hknown update.key).replaces_eq] at h
  rw [Cache.receive, ServerDocument.received]
  split at h
  · next hfabricated =>
      obtain rfl := Option.some.inj h
      rw [if_pos hfabricated]
      exact hset none none ⟨rfl, rfl, rfl, rfl, fun _ => rfl⟩
  · next hfabricated =>
      rw [if_neg hfabricated]
      split at h
      · next hreplaces =>
          split at h
          · cases h
          · obtain rfl := Option.some.inj h
            rw [if_pos hreplaces]
            exact hset _ _ update.cached_toDocument
      · next hreplaces =>
          obtain rfl := Option.some.inj h
          rw [if_neg hreplaces, Function.update_eq_self]
          exact hknown key

theorem cached_populateDocumentChanges {updates : List ServerDocument}
    {globalVersion : SnapshotVersion} (st : LocalStore × LocalStore.DocumentChangeResult)
    {st' : LocalStore × LocalStore.DocumentChangeResult}
    {known : DocumentReference → Option Known}
    (h : (updates.map ServerDocument.toDocument).foldlM
      (LocalStore.populateDocumentChange globalVersion) st = some st')
    (hknown : ∀ key, Cached (known key) (st.1.getRemote key)) (key : DocumentReference) :
    Cached (updates.foldl Cache.receive known key) (st'.1.getRemote key) := by
  induction updates generalizing st known with
  | nil =>
      obtain rfl := Option.some.inj h
      exact hknown key
  | cons update updates ih =>
      rw [List.map_cons, List.foldlM_cons] at h
      obtain ⟨st₁, h₁, hrest⟩ := Option.bind_eq_some_iff.mp h
      exact ih st₁ hrest (cached_populateDocumentChange h₁ hknown)

theorem Implements.remote (h : Implements s c) {updates : List ServerDocument}
    {snapshotVersion : SnapshotVersion}
    (hs : s.step ((AppEvent.remote updates snapshotVersion).toEvent, now) = some s') :
    ∃ c', c.Step (.remote updates snapshotVersion) c' ∧ Implements s' c' := by
  obtain ⟨⟨t, docs⟩, hevent, rfl⟩ := Option.map_eq_some_iff.mp hs
  have hmap : (updates.map fun u => (⟨u.toDocument, u.synced_toDocument⟩ :
      { doc : MutableDocument // doc.hasLocalMutations = false })).map Subtype.val =
        updates.map ServerDocument.toDocument := by
    rw [List.map_map]
    rfl
  rw [hmap] at hevent
  have hupdates : ∀ doc ∈ updates.map ServerDocument.toDocument,
      doc.hasLocalMutations = false := by
    intro doc hdoc
    obtain ⟨update, -, rfl⟩ := List.mem_map.mp hdoc
    exact update.synced_toDocument
  obtain ⟨hconsistent, hqueue, changes, hchanges, hremote, -⟩ :=
    h.consistent.applyRemoteEvent hupdates hevent
  refine ⟨_, .remote updates snapshotVersion, hconsistent, ?_, fun userId => ?_, fun key => ?_⟩
  · rw [hqueue]
    exact h.userId
  · rw [hqueue]
    exact h.batches userId
  · rw [LocalStore.getRemote, hremote]
    exact cached_populateDocumentChanges (s, {}) hchanges h.known key

/-- Every step of the store is a step of the cache. -/
theorem Implements.step (h : Implements s c) {e : AppEvent}
    (hs : s.step (e.toEvent, now) = some s') : ∃ c', c.Step e c' ∧ Implements s' c' := by
  cases e with
  | write writes => exact h.write hs
  | acknowledge batchId commitVersion mutationResults => exact h.acknowledge hs
  | reject batchId => exact h.reject hs
  | remote updates snapshotVersion => exact h.remote hs
  | userChange userId =>
      obtain ⟨⟨t, docs⟩, hchange, rfl⟩ := Option.map_eq_some_iff.mp hs
      obtain ⟨hconsistent, rfl, -⟩ := h.consistent.handleUserChange hchange
      exact ⟨_, .userChange userId, hconsistent, rfl, h.batches, h.known⟩

/-- The cache after a list of events, one step for each. -/
inductive Cache.Trace : Cache → List AppEvent → Cache → Prop where
  | nil (c : Cache) : Trace c [] c
  | cons {c c' c'' : Cache} {e : AppEvent} {es : List AppEvent} (step : c.Step e c')
      (rest : Trace c' es c'') : Trace c (e :: es) c''

def Cache.empty (userId : String) : Cache where
  userId
  batches _ := []
  known _ := none

theorem implements_empty (userId : String) :
    Implements (LocalStore.empty userId) (Cache.empty userId) where
  consistent := LocalStore.consistent_empty userId
  userId := rfl
  batches _ := rfl
  known _ := ⟨rfl, rfl, rfl, rfl, fun _ => rfl⟩

theorem Implements.run (h : Implements s c) {events : List (AppEvent × Timestamp)}
    (hrun : Execution.run LocalStore.step s (events.map fun e => (e.1.toEvent, e.2)) = some s') :
    ∃ c', c.Trace (events.map Prod.fst) c' ∧ Implements s' c' := by
  induction events generalizing s c with
  | nil =>
      obtain rfl : s = s' := by simpa using hrun
      exact ⟨c, .nil c, h⟩
  | cons e events ih =>
      obtain ⟨s₁, hs₁, hrest⟩ := Execution.run_cons.mp hrun
      obtain ⟨c₁, hstep, h₁⟩ := h.step hs₁
      obtain ⟨c', htrace, h'⟩ := ih h₁ hrest
      exact ⟨c', .cons hstep htrace, h'⟩

/-- In every run of the store, what is read is what the cache shows after the
same events: the known document with the user's own unanswered writes applied. -/
theorem readDocument_represents_observe {userId : String} {events : List (AppEvent × Timestamp)}
    (hrun : Execution.run LocalStore.step (LocalStore.empty userId)
      (events.map fun e => (e.1.toEvent, e.2)) = some s) :
    ∃ c, (Cache.empty userId).Trace (events.map Prod.fst) c ∧
      ∀ key now, ∃ doc, s.readDocument key now = some doc ∧ Represents (c.observe key) doc := by
  obtain ⟨c, htrace, h⟩ := (implements_empty userId).run hrun
  exact ⟨c, htrace, h.readDocument⟩

/-- The server sends a document and an older state of it, the user merges a field
into it, and the server answers. -/
def mergedRun : List (AppEvent × Timestamp) :=
  [(.remote [⟨profileRef "u", some (AList.singleton "name" (.integer 1)), 4⟩] 4, 1),
    (.remote [⟨profileRef "u", none, 3⟩] 5, 2),
    (.write [(profileRef "u", .merge (AList.singleton "phone" (.integer 2)))], 3),
    (.acknowledge 1 6 [6], 4)]

theorem readDocument_represents_observe_merged :
    ∃ s, Execution.run LocalStore.step (LocalStore.empty "a")
        (mergedRun.map fun e => (e.1.toEvent, e.2)) = some s ∧
      s.readIntegers "u" = some [("name", 1), ("phone", 2)] ∧
      ∃ c, (Cache.empty "a").Trace (mergedRun.map Prod.fst) c ∧
        ∀ key now, ∃ doc, s.readDocument key now = some doc ∧ Represents (c.observe key) doc := by
  obtain ⟨s, hs, hread⟩ := Option.bind_eq_some_iff.mp
    (show (Execution.run LocalStore.step (LocalStore.empty "a")
        (mergedRun.map fun e => (e.1.toEvent, e.2))).bind (LocalStore.readIntegers · "u") =
      some [("name", 1), ("phone", 2)] by decide +kernel)
  exact ⟨s, hs, hread, readDocument_represents_observe hs⟩

end Cache

end FirebaseLogin.Core
