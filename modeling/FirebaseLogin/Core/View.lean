import FirebaseLogin.Core.ViewDiff

/-!
ApplyChanges and ApplyOnlineStateChange of view.cc: the view takes over the
computed changes, follows the target's synced documents and its limbo documents,
and emits a snapshot when documents or the sync state changed.
-/

namespace FirebaseLogin.Core

open SortedEntries

variable {q : Query}

/-- Of the resume token only its presence is used. -/
structure TargetChange where
  hasResumeToken : Bool
  current : Bool
  addedDocuments : List DocumentReference
  modifiedDocuments : List DocumentReference
  removedDocuments : List DocumentReference

inductive LimboDocumentChange where
  | added (key : DocumentReference)
  | removed (key : DocumentReference)
  deriving DecidableEq

inductive OnlineState where
  | unknown
  | online
  | offline
  deriving DecidableEq

structure ViewSnapshot (q : Query) where
  documents : DocumentSet q
  oldDocuments : DocumentSet q
  documentChanges : List (DocumentViewChange q)
  mutatedKeys : Finset DocumentReference
  fromCache : Bool
  syncStateChanged : Bool
  excludesMetadataChanges : Bool
  hasCachedResults : Bool

structure ViewChange (q : Query) where
  snapshot : Option (ViewSnapshot q)
  limboChanges : List LimboDocumentChange

/-- GetDocumentViewChangeTypePosition; metadata changes become modifications for
the app. -/
def ChangeType.position : ChangeType → Nat
  | .removed => 0
  | .added => 1
  | .modified | .metadata => 2

def DocumentViewChange.sortsBefore (lhs rhs : DocumentViewChange q) : Prop :=
  lhs.type.position < rhs.type.position ∨ lhs.type.position = rhs.type.position ∧
    q.comparator lhs.document rhs.document ≠ .gt

instance (lhs rhs : DocumentViewChange q) : Decidable (lhs.sortsBefore rhs) :=
  inferInstanceAs (Decidable (_ ∨ _))

def getChanges (changes : ChangeMap q) : List (DocumentViewChange q) := changes.map Prod.snd

/-- A set of keys, in the order of the keys. -/
def sortKeys (keys : List DocumentReference) : List DocumentReference :=
  keys.insertionSort fun key other => key.path ≤ other.path

namespace View

/-- The view of a query before its first documents. -/
def create (q : Query) (remoteDocuments : Finset DocumentReference) : View q where
  documentSet := .empty
  mutatedKeys := ∅
  syncedDocuments := remoteDocuments
  limboDocuments := []
  current := false
  syncState := .none

def applyTargetChange (view : View q) : Option TargetChange → Option (View q)
  | none => some view
  | some change =>
      let synced := view.syncedDocuments ∪ change.addedDocuments.toFinset
      if ∀ key ∈ change.modifiedDocuments, key ∈ synced then
        some { view with
          syncedDocuments := synced.filter (· ∉ change.removedDocuments)
          current := change.current }
      else none

def shouldBeInLimbo (view : View q) (key : DocumentReference) : Bool :=
  key ∉ view.syncedDocuments &&
    (view.documentSet.getDocument key).any fun doc => !doc.hasLocalMutations

def updateLimboDocuments (view : View q) : View q × List LimboDocumentChange :=
  if view.current then
    let limboDocuments := sortKeys
      ((view.documentSet.documents.map Query.Result.key).filter view.shouldBeInLimbo)
    ({ view with limboDocuments },
      ((view.limboDocuments.filter (· ∉ limboDocuments)).map .removed) ++
        (limboDocuments.filter (· ∉ view.limboDocuments)).map .added)
  else (view, [])

/-- The sync state after a change, and what is emitted. -/
def emit (view : View q) (docChanges : ViewDocumentChanges q) (oldDocuments : DocumentSet q)
    (limboChanges : List LimboDocumentChange) (hasCachedResults targetIsPendingReset : Bool) :
    View q × ViewChange q :=
  let changes := (getChanges docChanges.changeSet).insertionSort DocumentViewChange.sortsBefore
  let synced := view.limboDocuments.isEmpty && view.current && !targetIsPendingReset
  let newSyncState := if synced then SyncState.synced else .localOnly
  let syncStateChanged := newSyncState != view.syncState
  ({ view with syncState := newSyncState },
    { snapshot :=
        if changes.isEmpty && !syncStateChanged then none
        else some
          { documents := docChanges.documentSet
            oldDocuments
            documentChanges := changes
            mutatedKeys := docChanges.mutatedKeys
            fromCache := newSyncState == .localOnly
            syncStateChanged
            excludesMetadataChanges := false
            hasCachedResults }
      limboChanges })

def applyChanges (view : View q) (docChanges : ViewDocumentChanges q)
    (targetChange : Option TargetChange) (targetIsPendingReset : Bool) :
    Option (View q × ViewChange q) :=
  if docChanges.needsRefill then none
  else
    ({ view with
        documentSet := docChanges.documentSet
        mutatedKeys := docChanges.mutatedKeys } : View q).applyTargetChange targetChange |>.map
      fun updated =>
        let limbo := if targetIsPendingReset then (updated, []) else updated.updateLimboDocuments
        limbo.1.emit docChanges view.documentSet limbo.2
          (targetChange.any TargetChange.hasResumeToken) targetIsPendingReset

def applyOnlineStateChange (view : View q) (onlineState : OnlineState) :
    Option (View q × ViewChange q) :=
  if view.current && onlineState == .offline then
    { view with current := false }.applyChanges view.unchanged none false
  else some (view, { snapshot := none, limboChanges := [] })

end View

end FirebaseLogin.Core
