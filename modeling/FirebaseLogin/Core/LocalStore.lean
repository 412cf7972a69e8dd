import FirebaseLogin.Core.MutationQueue

/-!
The local store: local_store.cc, local_documents_view.cc and the overlay and
remote document caches. A document is read through its overlay. Overlays are
computed when a batch is written and computed again when one leaves the queue or
when a remote event makes a document come into being or disappear. A failed
assertion of the library is a refused step.
-/

namespace FirebaseLogin.Core

structure Overlay where
  largestBatchId : BatchId
  mutation : Mutation

structure LocalStore where
  queue : MutationQueue
  overlays : String → DocumentReference → Option Overlay
  remoteDocuments : DocumentReference → Option MutableDocument
  lastRemoteSnapshotVersion : SnapshotVersion

namespace LocalStore

/-- Get of the remote document cache. -/
def getRemote (s : LocalStore) (key : DocumentReference) : MutableDocument :=
  (s.remoteDocuments key).getD (.invalidDocument key)

/-- Add and Remove of the remote document cache. -/
def setRemote (s : LocalStore) (key : DocumentReference) (doc : Option MutableDocument) :
    LocalStore :=
  { s with remoteDocuments := Function.update s.remoteDocuments key doc }

section OverlayCache

def getOverlay (s : LocalStore) (key : DocumentReference) : Option Overlay :=
  s.overlays s.queue.userId key

def saveOverlay (s : LocalStore) (largestBatchId : BatchId) (key : DocumentReference)
    (mutation : Mutation) : LocalStore :=
  { s with overlays := fun userId other =>
      if userId = s.queue.userId ∧ other = key then some ⟨largestBatchId, mutation⟩
      else s.overlays userId other }

def saveOverlays (s : LocalStore) (largestBatchId : BatchId)
    (overlays : List (DocumentReference × Mutation)) : LocalStore :=
  overlays.foldl (fun s e => s.saveOverlay largestBatchId e.1 e.2) s

def removeOverlaysForBatchId (s : LocalStore) (batchId : BatchId) : LocalStore :=
  { s with overlays := fun userId key =>
      if userId = s.queue.userId then
        (s.overlays userId key).filter fun overlay => overlay.largestBatchId ≠ batchId
      else s.overlays userId key }

end OverlayCache

section LocalDocumentsView

def getBaseDocument (s : LocalStore) (key : DocumentReference) (overlay : Option Overlay) :
    MutableDocument :=
  if overlay.all fun o => o.mutation.isPatch then s.getRemote key else .invalidDocument key

/-- GetDocument, which ReadDocument calls. -/
def readDocument (s : LocalStore) (key : DocumentReference) (now : Timestamp) :
    Option MutableDocument :=
  let overlay := s.getOverlay key
  let doc := s.getBaseDocument key overlay
  match overlay with
  | some overlay => (overlay.mutation.applyToLocalView doc (some []) now).map Prod.fst
  | none => some doc

/-- GetDocument with the batches to apply. -/
def getDocument (s : LocalStore) (key : DocumentReference) (batches : List MutationBatch) :
    MutableDocument :=
  batches.foldl (fun doc batch => (batch.applyToLocalView doc (some [])).1) (s.getRemote key)

/-- The maps that the recalculation fills. The reverse lookup from batch ids to
documents is kept as the list of its pairs. -/
structure Recalculation where
  docs : DocumentReference → Option MutableDocument
  masks : DocumentReference → Option (Option FieldMask)
  documentsByBatchId : List (BatchId × DocumentReference)

def Recalculation.applyBatch (batch : MutationBatch) (r : Recalculation)
    (key : DocumentReference) : Recalculation :=
  match r.docs key with
  | none => r
  | some doc =>
      let view := batch.applyToLocalView doc ((r.masks key).getD (some []))
      { docs := Function.update r.docs key (some view.1)
        masks := Function.update r.masks key (some view.2)
        documentsByBatchId := r.documentsByBatchId ++ [(batch.batchId, key)] }

/-- The overlays are saved in descending order of the batch ids; a document is
processed once. -/
def Recalculation.save (r : Recalculation) (st : LocalStore × List DocumentReference)
    (e : BatchId × DocumentReference) : LocalStore × List DocumentReference :=
  if e.2 ∈ st.2 then st
  else
    match (r.docs e.2).bind fun doc => calculateOverlayMutation doc ((r.masks e.2).getD none) with
    | some mutation => (st.1.saveOverlay e.1 e.2 mutation, e.2 :: st.2)
    | none => (st.1, e.2 :: st.2)

def recalculateAndSaveOverlays (s : LocalStore) (keys : List DocumentReference)
    (docs : DocumentReference → Option MutableDocument) : Option (LocalStore × Recalculation) :=
  (s.queue.allMutationBatchesAffectingDocumentKeys keys).map fun batches =>
    let r := batches.foldl (fun r batch => batch.keys.foldl (Recalculation.applyBatch batch) r)
      { docs, masks := fun _ => none, documentsByBatchId := [] }
    ((r.documentsByBatchId.reverse.foldl r.save (s, [])).1, r)

abbrev OverlayedDocument := MutableDocument × Option FieldMask

/-- Whether the overlay of a document has to be calculated again: its existence
changed, and a patch may now apply or no longer apply. -/
def needsRecalculation (s : LocalStore) (existenceStateChanged : List DocumentReference)
    (key : DocumentReference) : Bool :=
  key ∈ existenceStateChanged && (s.getOverlay key).all fun o => o.mutation.isPatch

/-- A document seen through its overlay; the empty mask is for no overlay. -/
def localView (s : LocalStore) (doc : MutableDocument) (now : Timestamp) :
    Option OverlayedDocument :=
  match s.getOverlay doc.key with
  | some overlay =>
      (overlay.mutation.applyToLocalView doc none now).map fun view =>
        (view.1, overlay.mutation.fieldMask)
  | none => some (doc, some [])

def computeViews (s : LocalStore) (docs : List MutableDocument)
    (existenceStateChanged : List DocumentReference) (now : Timestamp) :
    Option (LocalStore × List OverlayedDocument) :=
  let recalculated := docs.filter fun doc => s.needsRecalculation existenceStateChanged doc.key
  let find key := recalculated.find? fun doc => doc.key = key
  (s.recalculateAndSaveOverlays (recalculated.map MutableDocument.key) find).bind fun (s', r) =>
    (docs.mapM fun doc =>
      if s.needsRecalculation existenceStateChanged doc.key then
        some ((r.docs doc.key).getD doc, (r.masks doc.key).getD none)
      else s.localView doc now).map fun views => (s', views)

/-- GetLocalViewOfDocuments. -/
def getLocalViewOfDocuments (s : LocalStore) (docs : List MutableDocument)
    (existenceStateChanged : List DocumentReference) (now : Timestamp) :
    Option (LocalStore × List MutableDocument) :=
  (s.computeViews docs existenceStateChanged now).map fun (s', views) => (s', views.map Prod.fst)

def getDocuments (s : LocalStore) (keys : List DocumentReference) (now : Timestamp) :
    Option (LocalStore × List MutableDocument) :=
  s.getLocalViewOfDocuments (keys.map s.getRemote) [] now

end LocalDocumentsView

section WriteLocally

/-- The overlays and documents of ApplyToLocalDocumentSet. Each mutation applies
the whole batch to its document again; the first overlay of a document is kept,
and so is the mask the document came with. -/
structure LocalDocumentSet where
  documents : DocumentReference → Option OverlayedDocument
  overlays : List (DocumentReference × Mutation) := []

def LocalDocumentSet.applyMutation (batch : MutationBatch) (set : LocalDocumentSet)
    (mutation : Mutation) : Option LocalDocumentSet :=
  (set.documents mutation.key).map fun (doc, mask) =>
    let view := batch.applyToLocalView doc mask
    let doc' := if view.1.isValidDocument then view.1 else view.1.convertToNoDocument 0
    { documents := Function.update set.documents mutation.key (some (doc', mask))
      overlays :=
        if mutation.key ∈ set.overlays.map Prod.fst then set.overlays
        else
          match calculateOverlayMutation view.1 view.2 with
          | some overlay => set.overlays ++ [(mutation.key, overlay)]
          | none => set.overlays }

def applyToLocalDocumentSet (batch : MutationBatch)
    (documents : DocumentReference → Option OverlayedDocument) : Option LocalDocumentSet :=
  batch.mutations.foldlM (LocalDocumentSet.applyMutation batch) { documents }

structure LocalWriteResult where
  batchId : BatchId
  changes : List MutableDocument

/-- The batch is queued, applied to the views of its documents, and its overlays
are saved. Base mutations are recorded for transforms only. -/
def writeBatch (s : LocalStore) (mutations : List Mutation) (nonempty : mutations ≠ [])
    (documents : DocumentReference → Option OverlayedDocument) (now : Timestamp) :
    Option (LocalStore × LocalWriteResult) :=
  (s.queue.addMutationBatch now [] mutations nonempty).bind fun added =>
    (applyToLocalDocumentSet added.1 documents).map fun set =>
      ({ s with queue := added.2 }.saveOverlays added.1.batchId set.overlays,
        { batchId := added.1.batchId
          changes := added.1.keys.filterMap fun key => (set.documents key).map Prod.fst })

def writeLocally (s : LocalStore) (mutations : List Mutation) (now : Timestamp) :
    Option (LocalStore × LocalWriteResult) :=
  if nonempty : mutations = [] then none
  else
    let keys := (mutations.map Mutation.key).dedup
    (s.computeViews (keys.map s.getRemote) [] now).bind fun (s, views) =>
      s.writeBatch mutations nonempty (fun key => views.find? fun view => view.1.key = key) now

end WriteLocally

section BatchResults

structure MutationBatchResult where
  batch : MutationBatch
  commitVersion : SnapshotVersion
  mutationResults : List MutationResult
  length : batch.mutations.length = mutationResults.length

/-- The version of the last mutation of the document. -/
def MutationBatchResult.docVersion (result : MutationBatchResult) (key : DocumentReference) :
    Option SnapshotVersion :=
  (((result.batch.mutations.zip result.mutationResults).filter fun e => e.1.key = key).map
    fun e => e.2.version).getLast?

/-- One document of ApplyBatchResult. -/
def applyBatchResultTo (result : MutationBatchResult) (s : LocalStore) (key : DocumentReference) :
    Option LocalStore := do
  let doc := s.getRemote key
  let ackVersion ← result.docVersion key
  if doc.version < ackVersion then
    let doc ← result.batch.applyToRemoteDocument doc result.mutationResults
    if doc.isValidDocument then some (s.setRemote key (some doc)) else some s
  else some s

def applyBatchResult (s : LocalStore) (result : MutationBatchResult) : Option LocalStore := do
  let s ← result.batch.keys.foldlM (applyBatchResultTo result) s
  let queue ← s.queue.removeMutationBatch result.batch
  some { s with queue }

/-- What follows once a batch has left the queue, whether it was acknowledged or
rejected. -/
def afterRemoval (s : LocalStore) (batch : MutationBatch) (now : Timestamp) :
    Option (LocalStore × List MutableDocument) :=
  if s.queue.performConsistencyCheck then do
    let s := s.removeOverlaysForBatchId batch.batchId
    let (s, _) ← s.recalculateAndSaveOverlays batch.keys fun key =>
      if key ∈ batch.keys then some (s.getRemote key) else none
    s.getDocuments batch.keys now
  else none

/-- AcknowledgeBatch. The keys with transform results are all keys of the batch:
the size that is tested is that of the field's descriptor, which is zero. -/
def acknowledgeBatch (s : LocalStore) (result : MutationBatchResult) (now : Timestamp) :
    Option (LocalStore × List MutableDocument) :=
  (s.applyBatchResult result).bind fun s => s.afterRemoval result.batch now

def rejectBatch (s : LocalStore) (batchId : BatchId) (now : Timestamp) :
    Option (LocalStore × List MutableDocument) := do
  let batch ← s.queue.lookupMutationBatch batchId
  let queue ← s.queue.removeMutationBatch batch
  { s with queue }.afterRemoval batch now

end BatchResults

section RemoteEvents

structure DocumentChangeResult where
  changedDocs : List MutableDocument := []
  existenceChangedKeys : List DocumentReference := []

/-- Whether a document of a remote event replaces the cached one. -/
def replaces (doc existing : MutableDocument) : Bool :=
  !existing.isValidDocument || existing.version < doc.version ||
    (doc.version == existing.version && existing.hasPendingWrites)

/-- One document of PopulateDocumentChanges. -/
def populateDocumentChange (globalVersion : SnapshotVersion)
    (st : LocalStore × DocumentChangeResult) (doc : MutableDocument) :
    Option (LocalStore × DocumentChangeResult) :=
  let existing := st.1.getRemote doc.key
  let existenceChangedKeys :=
    if doc.isFoundDocument = existing.isFoundDocument then st.2.existenceChangedKeys
    else doc.key :: st.2.existenceChangedKeys
  if doc.isNoDocument ∧ doc.version = 0 then
    -- A fabricated document: access to the real one was lost.
    some (st.1.setRemote doc.key none,
      { changedDocs := st.2.changedDocs ++ [doc], existenceChangedKeys })
  else if replaces doc existing then
    if globalVersion = 0 then none
    else some (st.1.setRemote doc.key (some doc),
      { changedDocs := st.2.changedDocs ++ [doc], existenceChangedKeys })
  else some (st.1, { st.2 with existenceChangedKeys })

def populateDocumentChanges (s : LocalStore) (documents : List MutableDocument)
    (globalVersion : SnapshotVersion) : Option (LocalStore × DocumentChangeResult) :=
  documents.foldlM (populateDocumentChange globalVersion) (s, {})

/-- The version of the watch stream never goes back; an event without a version
is fabricated. -/
def advanceSnapshotVersion (s : LocalStore) (snapshotVersion : SnapshotVersion) :
    Option LocalStore :=
  if snapshotVersion = 0 then some s
  else if s.lastRemoteSnapshotVersion ≤ snapshotVersion then
    some { s with lastRemoteSnapshotVersion := snapshotVersion }
  else none

def applyRemoteEvent (s : LocalStore) (documentUpdates : List MutableDocument)
    (snapshotVersion : SnapshotVersion) (now : Timestamp) :
    Option (LocalStore × List MutableDocument) :=
  (s.populateDocumentChanges documentUpdates snapshotVersion).bind fun changes =>
    (changes.1.advanceSnapshotVersion snapshotVersion).bind fun s =>
      s.getLocalViewOfDocuments changes.2.changedDocs changes.2.existenceChangedKeys now

end RemoteEvents

def handleUserChange (s : LocalStore) (userId : String) (now : Timestamp) :
    Option (LocalStore × List MutableDocument) :=
  let s' : LocalStore := { s with queue := s.queue.start userId }
  s'.getDocuments
    ((s.queue.allMutationBatches ++ s'.queue.allMutationBatches).flatMap MutationBatch.keys).dedup now

end LocalStore

end FirebaseLogin.Core
