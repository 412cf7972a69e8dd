import FirebaseLogin.Core.DocumentSet
import Mathlib.Data.Finset.Insert

/-!
ComputeDocumentChanges of view.cc and the change set of view_snapshot.cc. A view
turns the documents that the store reports as changed into changes of its own
document set; changes of one document are merged, and a combination that makes no
sense is a failed assertion.
-/

namespace FirebaseLogin.Core

open SortedEntries

variable {q : Query}

inductive ChangeType where
  | removed
  | added
  | modified
  | metadata
  deriving DecidableEq

structure DocumentViewChange (q : Query) where
  document : q.Result
  type : ChangeType

/-- The change map, in the order of the keys. -/
abbrev ChangeMap (q : Query) := List (ResourcePath × DocumentViewChange q)

/-- The merge of a change with an earlier one: nothing stays of a document that
was added and removed. -/
def DocumentViewChange.merge (old change : DocumentViewChange q) :
    Option (Option (DocumentViewChange q)) :=
  if change.type ≠ .added ∧ old.type = .metadata then some (some change)
  else if change.type = .metadata ∧ old.type ≠ .removed then
    some (some { document := change.document, type := old.type })
  else if change.type = .modified ∧ old.type = .modified then
    some (some { document := change.document, type := .modified })
  else if change.type = .modified ∧ old.type = .added then
    some (some { document := change.document, type := .added })
  else if change.type = .removed ∧ old.type = .added then some none
  else if change.type = .removed ∧ old.type = .modified then
    some (some { document := old.document, type := .removed })
  else if change.type = .added ∧ old.type = .removed then
    some (some { document := change.document, type := .modified })
  else none

def addChange (changes : ChangeMap q) (change : DocumentViewChange q) : Option (ChangeMap q) :=
  match find change.document.key.path changes with
  | none => some (put change.document.key.path change changes)
  | some old => (old.merge change).map fun merged =>
      merged.elim (changes.filter fun e => e.1 ≠ change.document.key.path)
        fun c => put change.document.key.path c changes

structure ViewDocumentChanges (q : Query) where
  documentSet : DocumentSet q
  changeSet : ChangeMap q
  mutatedKeys : Finset DocumentReference
  needsRefill : Bool

inductive SyncState where
  | none
  | localOnly
  | synced
  deriving DecidableEq

structure View (q : Query) where
  documentSet : DocumentSet q
  mutatedKeys : Finset DocumentReference
  syncedDocuments : Finset DocumentReference
  limboDocuments : List DocumentReference
  current : Bool
  syncState : SyncState

def shouldWaitForSyncedDocument (newDoc oldDoc : q.Result) : Bool :=
  oldDoc.hasLocalMutations && newDoc.hasCommittedMutations && !newDoc.hasLocalMutations

def Query.result (q : Query) (doc : MutableDocument) : Option q.Result :=
  if h : q.matchesDocument doc = true then some ⟨doc, h⟩ else none

namespace ViewDocumentChanges

def add (r : ViewDocumentChanges q) (change : DocumentViewChange q) :
    Option (ViewDocumentChanges q) :=
  (addChange r.changeSet change).map fun changeSet => { r with changeSet }

/-- The change was applied and the document stays. -/
def keep (r : ViewDocumentChanges q) (doc : q.Result) : ViewDocumentChanges q :=
  { r with
    documentSet := r.documentSet.insert doc
    mutatedKeys := if doc.hasLocalMutations then insert doc.key r.mutatedKeys
      else r.mutatedKeys.erase doc.key }

def drop (r : ViewDocumentChanges q) (key : DocumentReference) : ViewDocumentChanges q :=
  { r with
    documentSet := r.documentSet.erase key
    mutatedKeys := r.mutatedKeys.erase key }

def refillIf (r : ViewDocumentChanges q) (needed : Bool) : ViewDocumentChanges q :=
  { r with needsRefill := r.needsRefill || needed }

end ViewDocumentChanges

namespace View

/-- The last document of a full limit, or the first of a full limit to last. -/
structure LimitEdges (q : Query) where
  lastDocInLimit : Option q.Result
  firstDocInLimit : Option q.Result

def limitEdges (documents : DocumentSet q) : LimitEdges q where
  lastDocInLimit :=
    if q.limitType = .first ∧ documents.size = q.limit then documents.getLastDocument else none
  firstDocInLimit :=
    if q.limitType = .last ∧ documents.size = q.limit then documents.getFirstDocument else none

def LimitEdges.outside (edges : LimitEdges q) (doc : q.Result) : Bool :=
  (edges.lastDocInLimit.any fun last => q.comparator doc last == .gt) ||
    edges.firstDocInLimit.any fun first => q.comparator doc first == .lt

def LimitEdges.full (edges : LimitEdges q) : Bool :=
  edges.lastDocInLimit.isSome || edges.firstDocInLimit.isSome

/-- The loop body for one changed document. -/
def computeChange (oldDocumentSet : DocumentSet q) (oldMutatedKeys : Finset DocumentReference)
    (edges : LimitEdges q) (r : ViewDocumentChanges q) (doc : MutableDocument) :
    Option (ViewDocumentChanges q) :=
  let oldDoc := oldDocumentSet.getDocument doc.key
  let newDoc := q.result doc
  let oldDocHadPendingMutations := oldDoc.isSome && doc.key ∈ oldMutatedKeys
  let newDocHasPendingMutations := newDoc.any fun newDoc => newDoc.hasLocalMutations ||
    (doc.key ∈ oldMutatedKeys && newDoc.hasCommittedMutations)
  match oldDoc, newDoc with
  | some oldDoc, some newDoc =>
      if !oldDoc.value.equals newDoc.value then
        if shouldWaitForSyncedDocument newDoc oldDoc then some r
        else (r.add { document := newDoc, type := .modified }).map fun r =>
          (r.keep newDoc).refillIf (edges.outside newDoc)
      else if oldDocHadPendingMutations != newDocHasPendingMutations then
        (r.add { document := newDoc, type := .metadata }).map fun r => r.keep newDoc
      else some r
  | none, some newDoc =>
      (r.add { document := newDoc, type := .added }).map fun r => r.keep newDoc
  | some oldDoc, none =>
      (r.add { document := oldDoc, type := .removed }).map fun r =>
        (r.drop doc.key).refillIf edges.full
  | none, none => some r

def dropOne (r : ViewDocumentChanges q) : Option (ViewDocumentChanges q) :=
  (if q.limitType = .first then r.documentSet.getLastDocument
    else r.documentSet.getFirstDocument).bind fun oldDoc =>
      (r.drop oldDoc.key).add { document := oldDoc, type := .removed }

def dropMany : Nat → ViewDocumentChanges q → Option (ViewDocumentChanges q)
  | 0, r => some r
  | i + 1, r => (dropOne r).bind (dropMany i)

def applyLimit (r : ViewDocumentChanges q) : Option (ViewDocumentChanges q) :=
  if q.limitType = .none then some r else dropMany (r.documentSet.size - q.limit) r

/-- No changes yet. -/
def unchanged (view : View q) : ViewDocumentChanges q where
  documentSet := view.documentSet
  changeSet := []
  mutatedKeys := view.mutatedKeys
  needsRefill := false

/-- The changes start from the view's documents, or from previous changes when the
view is refilled from the cache. -/
def computeDocumentChanges (view : View q) (docChanges : List MutableDocument)
    (previousChanges : Option (ViewDocumentChanges q)) : Option (ViewDocumentChanges q) :=
  let start : ViewDocumentChanges q := (previousChanges.map fun previous =>
    { previous with needsRefill := false }).getD view.unchanged
  let edges := limitEdges start.documentSet
  (docChanges.foldlM (computeChange start.documentSet view.mutatedKeys edges) start).bind
    fun r => (applyLimit r).bind fun r =>
      if r.needsRefill ∧ previousChanges.isSome then none else some r

end View

end FirebaseLogin.Core
