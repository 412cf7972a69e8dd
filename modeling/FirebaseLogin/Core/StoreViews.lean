import FirebaseLogin.Core.ReportedChanges
import FirebaseLogin.Core.ViewRuns

/-!
The local store and the view of a query together: the sync engine hands the
documents that the store reports to the view, and what the app was shown of a
document agrees with what the store reads of it.
-/

namespace FirebaseLogin.Core

variable {q : Query}

/-- The sync engine with one listened query, and the snapshots it has emitted. -/
structure SyncEngine (q : Query) where
  store : LocalStore
  view : View q
  snapshots : List (ViewSnapshot q)

/-- An event of the store with what else reaches the view at that moment, or the
state of the connection. -/
inductive EngineEvent where
  | store (event : { e : LocalStore.Event // e.Formed }) (now : Timestamp)
      (queryResult : DocumentMap) (targetChange : Option TargetChange) (targetIsPendingReset : Bool)
  | onlineState (onlineState : OnlineState)

namespace SyncEngine

def start (q : Query) (userId : String) : SyncEngine q where
  store := .empty userId
  view := .create q ∅
  snapshots := []

/-- The documents of the store arrive as a map, so no key is there twice. -/
def step (s : SyncEngine q) : EngineEvent → Option (SyncEngine q)
  | .store event now queryResult targetChange targetIsPendingReset =>
      (s.store.outcome (event.1, now)).bind fun out =>
        if distinct : (out.2.map MutableDocument.key).Nodup then
          (View.step (s.view, s.snapshots)
            (.changes ⟨out.2, distinct⟩ queryResult targetChange targetIsPendingReset)).map
              fun shown => { store := out.1, view := shown.1, snapshots := shown.2 }
        else none
  | .onlineState onlineState =>
      (View.step (s.view, s.snapshots) (.onlineState onlineState)).map
        fun shown => { s with view := shown.1, snapshots := shown.2 }

end SyncEngine

/-- What is shown of a document that the store reads as `doc`: the document, if it
is a result at all. A document with the same contents may stand for it, and one
with local mutations while the server's version of these is awaited. -/
def Agrees (shown : Option q.Result) (doc : MutableDocument) : Prop :=
  shown = q.result doc ∨ ∃ shownDoc newDoc, shown = some shownDoc ∧ q.result doc = some newDoc ∧
    (SameContents shownDoc newDoc ∨
      shownDoc.hasLocalMutations = true ∧ newDoc.hasCommittedMutations = true)

theorem Query.result_eq_none {doc : MutableDocument} (h : doc.isFoundDocument = false) :
    q.result doc = none := by
  refine dif_neg ?_
  simp [Query.matchesDocument, h]

theorem SameResult.result_eq {doc doc' : MutableDocument} (h : SameResult doc doc') :
    q.result doc = q.result doc' := by
  obtain rfl | ⟨hdoc, hdoc'⟩ := h
  · rfl
  · rw [Query.result_eq_none hdoc, Query.result_eq_none hdoc']

theorem Follows.agrees {old shown : Option q.Result} {doc doc' : MutableDocument}
    (h : Follows old doc shown) (hsame : SameResult doc doc') : Agrees shown doc' := by
  rw [Agrees, ← hsame.result_eq]
  obtain heq | ⟨oldDoc, newDoc, -, hnew, hshown, hor⟩ := h
  · exact .inl heq
  · refine .inr ⟨oldDoc, newDoc, hshown, hnew, hor.imp_right fun hwait => ?_⟩
    simp only [shouldWaitForSyncedDocument, Bool.and_eq_true] at hwait
    exact hwait.1

namespace SyncEngine

structure Agreement (s : SyncEngine q) : Prop where
  store : s.store.Consistent
  delivered : View.Delivered (s.view, s.snapshots)
  agrees : ∀ key t, Agrees (shown s.snapshots key) (s.store.overlaidDocument key t)

theorem agreement_start (q : Query) (userId : String) : (start q userId).Agreement where
  store := LocalStore.consistent_empty userId
  delivered := View.delivered_create q ∅
  agrees _ _ := .inl (Query.result_eq_none rfl).symm

variable {s s' : SyncEngine q}

theorem Agreement.step (h : s.Agreement) (hlimit : q.limitType = .none) {e : EngineEvent}
    (hs : s.step e = some s') : s'.Agreement := by
  cases e with
  | store event now queryResult targetChange pending =>
      obtain ⟨⟨store, docs⟩, hout, hrest⟩ := Option.bind_eq_some_iff.mp hs
      split at hrest
      · next distinct =>
          obtain ⟨⟨view, snapshots⟩, hview, rfl⟩ := Option.map_eq_some_iff.mp hrest
          have hstore : store.Consistent := by
            refine h.store.step (e := (event.1, now)) ?_
            rw [LocalStore.step_eq_outcome, hout]
            rfl
          obtain ⟨hfollows, hframe⟩ := h.delivered.follows hlimit hview
          refine ⟨hstore, h.delivered.step hview, fun key t => ?_⟩
          by_cases hkey : key ∈ docs.map MutableDocument.key
          · obtain ⟨doc, hdoc, rfl⟩ := List.mem_map.mp hkey
            exact (hfollows doc hdoc).agrees (h.store.reported event.2 hout distinct hdoc t)
          · rw [hframe key hkey, (h.store.untouched hout hkey).overlaidDocument h.store hstore t t]
            exact h.agrees key t
      · cases hrest
  | onlineState onlineState =>
      obtain ⟨⟨view, snapshots⟩, hview, rfl⟩ := Option.map_eq_some_iff.mp hs
      refine ⟨h.store, h.delivered.step hview, fun key t => ?_⟩
      rw [h.delivered.shown_of_onlineState hview]
      exact h.agrees key t

/-- Whatever is written, acknowledged, rejected or received, and whoever signs in:
what a listener without a limit was shown agrees with what the store reads. -/
theorem shown_agrees_with_store {userId : String} {events : List EngineEvent}
    (hlimit : q.limitType = .none)
    (hrun : Execution.run step (start q userId) events = some s) (key : DocumentReference)
    (t : Timestamp) :
    ∃ doc, s.store.readDocument key t = some doc ∧ Agrees (shown s.snapshots key) doc := by
  have h : s.Agreement := Execution.run_preserves
    (fun _ _ _ hs h => Agreement.step h hlimit hs) (agreement_start q userId) hrun
  exact ⟨_, h.store.readDocument_eq_some key t, h.agrees key t⟩

theorem shown_agrees_with_store_set :
    ∃ s, Execution.run step (start (View.collectionQuery ["users"] none) "u")
        [.store ⟨.write [⟨.set (profileRef "u") .empty .none, rfl⟩], trivial⟩ 1
          ⟨[], List.nodup_nil⟩ none false, .onlineState .offline] = some s ∧
      ∀ key t, ∃ doc, s.store.readDocument key t = some doc ∧
        Agrees (shown s.snapshots key) doc := by
  obtain ⟨s, hs⟩ := Option.isSome_iff_exists.mp
    (show (Execution.run step (start (View.collectionQuery ["users"] none) "u")
      [.store ⟨.write [⟨.set (profileRef "u") .empty .none, rfl⟩], trivial⟩ 1
        ⟨[], List.nodup_nil⟩ none false, .onlineState .offline]).isSome by decide +kernel)
  exact ⟨s, hs, shown_agrees_with_store rfl hs⟩

end SyncEngine

end FirebaseLogin.Core
