import FirebaseLogin.Core.ViewSnapshots

/-!
Runs of a view as sync_engine.cc drives it. The app sees only the snapshots; from
the changes they carry it can rebuild the documents of the view, and it may trust
a snapshot that is not from the cache.
-/

namespace FirebaseLogin.Core

variable {q : Query}

/-- Documents by key. -/
structure DocumentMap where
  documents : List MutableDocument
  distinct : (documents.map MutableDocument.key).Nodup

/-- What reaches one view: changed documents of the local store, with the query's
result in case of a refill, or the state of the connection. -/
inductive ViewEvent where
  | changes (changes queryResult : DocumentMap) (targetChange : Option TargetChange)
      (targetIsPendingReset : Bool)
  | onlineState (onlineState : OnlineState)

namespace View

/-- The part of EmitNewSnapshotsAndNotifyLocalStore that is about one view. -/
def emitNewSnapshot (view : View q) (changes queryResult : DocumentMap)
    (targetChange : Option TargetChange) (targetIsPendingReset : Bool) :
    Option (View q × ViewChange q) :=
  (view.computeDocumentChanges changes.documents none).bind fun docChanges =>
    (if docChanges.needsRefill then
      view.computeDocumentChanges queryResult.documents (some docChanges)
    else some docChanges).bind fun docChanges =>
      view.applyChanges docChanges targetChange targetIsPendingReset

def handle (view : View q) : ViewEvent → Option (View q × ViewChange q)
  | .changes changes queryResult targetChange targetIsPendingReset =>
      view.emitNewSnapshot changes queryResult targetChange targetIsPendingReset
  | .onlineState onlineState => view.applyOnlineStateChange onlineState

/-- The view with the snapshots emitted so far. -/
def step (s : View q × List (ViewSnapshot q)) (e : ViewEvent) :
    Option (View q × List (ViewSnapshot q)) :=
  (s.1.handle e).map fun out => (out.1, s.2 ++ out.2.snapshot.toList)

end View

section Copy

/-- What an app holds that follows the changes only. -/
def applyChange (copy : DocumentReference → Option q.Result) (change : DocumentViewChange q) :
    DocumentReference → Option q.Result :=
  Function.update copy change.document.key
    (if change.type = .removed then none else some change.document)

def shown (snapshots : List (ViewSnapshot q)) : DocumentReference → Option q.Result :=
  snapshots.foldl (fun copy s => s.documentChanges.foldl applyChange copy) fun _ => none

theorem changeOf_cons (change : DocumentViewChange q) (changes : List (DocumentViewChange q))
    (key : DocumentReference) : changeOf (change :: changes) key =
      if change.document.key = key then some change else changeOf changes key := by
  rw [changeOf, List.find?_cons]
  by_cases h : change.document.key = key
  · simp [h]
  · simp [h, changeOf]

theorem changeOf_eq_none {changes : List (DocumentViewChange q)} {key : DocumentReference}
    (h : key ∉ changes.map fun c => c.document.key) : changeOf changes key = none := by
  refine List.find?_eq_none.mpr fun c hc hkey => h ?_
  exact List.mem_map.mpr ⟨c, hc, by simpa using hkey⟩

theorem KeyDiff.applied {old new : Option q.Result} {change : Option (DocumentViewChange q)}
    (h : KeyDiff old new change) :
    (change.elim old fun c => if c.type = .removed then none else some c.document) = new := by
  cases h with
  | same | added | removed | modified | metadata => rfl

theorem foldl_applyChange {changes : List (DocumentViewChange q)}
    (distinct : (changes.map fun c => c.document.key).Nodup)
    (copy : DocumentReference → Option q.Result) (key : DocumentReference) :
    changes.foldl applyChange copy key = (changeOf changes key).elim (copy key)
      fun c => if c.type = .removed then none else some c.document := by
  induction changes generalizing copy with
  | nil => rfl
  | cons change changes ih =>
      obtain ⟨hfresh, hrest⟩ := List.nodup_cons.mp distinct
      rw [List.foldl_cons, ih hrest, changeOf_cons]
      by_cases hkey : change.document.key = key
      · subst hkey
        rw [changeOf_eq_none hfresh, if_pos rfl]
        exact Function.update_self _ _ _
      · rw [if_neg hkey, applyChange, Function.update_of_ne (Ne.symm hkey)]

theorem ViewSnapshot.Exact.applied {s : ViewSnapshot q} (h : s.Exact)
    {copy : DocumentReference → Option q.Result}
    (hcopy : ∀ key, copy key = s.oldDocuments.getDocument key) (key : DocumentReference) :
    s.documentChanges.foldl applyChange copy key = s.documents.getDocument key := by
  rw [foldl_applyChange h.distinct, hcopy]
  exact (h.documents key).applied

end Copy

namespace View

/-- What the app may rely on after any run. -/
structure Delivered (s : View q × List (ViewSnapshot q)) : Prop where
  consistent : s.1.Consistent
  limited : s.1.documentSet.WithinLimit
  shown : ∀ key, shown s.2 key = s.1.documentSet.getDocument key
  told : ∀ last ∈ s.2.getLast?, last.fromCache = false ↔ s.1.syncState = .synced

variable {view view' : View q} {snapshots : List (ViewSnapshot q)} {r : ViewDocumentChanges q}

theorem delivered_create (q : Query) (remoteDocuments : Finset DocumentReference) :
    Delivered (create q remoteDocuments, []) where
  consistent := consistent_create q remoteDocuments
  limited _ := Nat.zero_le _
  shown _ := rfl
  told _ hlast := by cases hlast

theorem Delivered.applied (h : Delivered (view, snapshots)) {snapshot : Option (ViewSnapshot q)}
    (ha : Applied view r view' snapshot) (hlimit : r.documentSet.WithinLimit) :
    Delivered (view', snapshots ++ snapshot.toList) := by
  refine ⟨ha.consistent, ha.documents.symm ▸ hlimit, fun key => ?_, fun last hlast => ?_⟩
  · cases snapshot with
    | none =>
        rw [Option.toList_none, List.append_nil, h.shown, (ha.silent rfl).2]
    | some s =>
        obtain ⟨hexact, hold, hnew, -⟩ := ha.emitted s rfl
        rw [Option.toList_some, Core.shown, List.foldl_append]
        have hcopy : ∀ key, Core.shown snapshots key = s.oldDocuments.getDocument key := by
          intro key
          rw [h.shown, hold]
        exact (hexact.applied hcopy key).trans (by rw [hnew])
  · cases snapshot with
    | none =>
        rw [Option.toList_none, List.append_nil] at hlast
        rw [h.told last hlast, (ha.silent rfl).1]
    | some s =>
        rw [Option.toList_some, List.getLast?_concat] at hlast
        obtain rfl := Option.some.inj hlast
        exact (ha.emitted s rfl).2.2.2

theorem emitNewSnapshot_applied (h : view.Consistent) {changes queryResult : DocumentMap}
    {targetChange : Option TargetChange} {pending : Bool} {change : ViewChange q}
    (he : view.emitNewSnapshot changes queryResult targetChange pending = some (view', change)) :
    ∃ r, Applied view r view' change.snapshot ∧ r.documentSet.WithinLimit := by
  obtain ⟨r₁, hr₁, hrest⟩ := Option.bind_eq_some_iff.mp he
  obtain ⟨r, hr, happly⟩ := Option.bind_eq_some_iff.mp hrest
  obtain ⟨r₁', hr₁', hrecorded₁, hlimit₁⟩ := computeDocumentChanges_spec h changes.distinct
  obtain rfl : r₁' = r₁ := Option.some.inj (hr₁'.symm.trans hr₁)
  split at hr
  · obtain ⟨hrecorded, hlimit⟩ := refill_spec hrecorded₁ queryResult.distinct hr
    exact ⟨r, applyChanges_applied hrecorded happly, hlimit⟩
  · obtain rfl := Option.some.inj hr
    exact ⟨r₁', applyChanges_applied hrecorded₁ happly, hlimit₁⟩

theorem Delivered.step (h : Delivered (view, snapshots)) {e : ViewEvent}
    {t : View q × List (ViewSnapshot q)} (hs : View.step (view, snapshots) e = some t) :
    Delivered t := by
  obtain ⟨⟨view', change⟩, hout, rfl⟩ := Option.map_eq_some_iff.mp hs
  cases e with
  | changes changes queryResult targetChange pending =>
      obtain ⟨r, ha, hlimit⟩ := emitNewSnapshot_applied h.consistent hout
      exact h.applied ha hlimit
  | onlineState onlineState =>
      rw [show View.handle _ _ = applyOnlineStateChange _ _ from rfl, applyOnlineStateChange] at hout
      split at hout
      · -- Only the flag differs from the view before.
        have hrecorded : Recorded ({ view with current := false } : View q).documentSet
            view.unchanged := h.consistent.tracks
        have ha := applyChanges_applied hrecorded hout
        exact h.applied ⟨ha.documents, ha.consistent, ha.emitted, ha.silent⟩ h.limited
      · obtain ⟨rfl, rfl⟩ := Prod.mk.inj (Option.some.inj hout)
        simpa using h

/-- A modified document is one the server has listed before; nothing else is asked
of what reaches a view. -/
def Expects (view : View q) : ViewEvent → Prop
  | .changes _ _ targetChange _ => ∀ change ∈ targetChange, ∀ key ∈ change.modifiedDocuments,
      key ∈ view.syncedDocuments ∨ key ∈ change.addedDocuments
  | .onlineState _ => True

theorem applyTargetChange_isSome {targetChange : Option TargetChange}
    (h : ∀ change ∈ targetChange, ∀ key ∈ change.modifiedDocuments,
      key ∈ view.syncedDocuments ∨ key ∈ change.addedDocuments) :
    ∃ updated, view.applyTargetChange targetChange = some updated := by
  cases targetChange with
  | none => exact ⟨view, rfl⟩
  | some change =>
      refine ⟨_, if_pos fun key hkey => ?_⟩
      rw [Finset.mem_union, List.mem_toFinset]
      exact h change rfl key hkey

theorem applyChanges_isSome {targetChange : Option TargetChange} (hrefill : r.needsRefill = false)
    (h : ∀ change ∈ targetChange, ∀ key ∈ change.modifiedDocuments,
      key ∈ view.syncedDocuments ∨ key ∈ change.addedDocuments) (pending : Bool) :
    ∃ view' change, view.applyChanges r targetChange pending = some (view', change) := by
  have htarget : ∃ updated, ({ view with
      documentSet := r.documentSet
      mutatedKeys := r.mutatedKeys } : View q).applyTargetChange targetChange = some updated :=
    applyTargetChange_isSome h
  obtain ⟨updated, hupdated⟩ := htarget
  rw [applyChanges, hrefill, hupdated]
  exact ⟨_, _, rfl⟩

/-- Without a limit there is no refill. -/
theorem emitNewSnapshot_eq (h : view.Consistent) (hlimit : q.limitType = .none)
    (changes queryResult : DocumentMap) (targetChange : Option TargetChange) (pending : Bool) :
    ∃ r, view.computeDocumentChanges changes.documents none = some r ∧ r.needsRefill = false ∧
      view.emitNewSnapshot changes queryResult targetChange pending =
        view.applyChanges r targetChange pending := by
  obtain ⟨r, hr, -⟩ := computeDocumentChanges_spec h changes.distinct
  have hrefill := (computeDocumentChanges_follows h hlimit changes.distinct hr).1
  refine ⟨r, hr, hrefill, ?_⟩
  rw [emitNewSnapshot, hr, Option.bind_some, hrefill]
  rfl

theorem handle_isSome (h : view.Consistent) (hlimit : q.limitType = .none) {e : ViewEvent}
    (he : view.Expects e) : ∃ view' change, view.handle e = some (view', change) := by
  cases e with
  | changes changes queryResult targetChange pending =>
      obtain ⟨r, -, hrefill, hemit⟩ :=
        emitNewSnapshot_eq h hlimit changes queryResult targetChange pending
      rw [handle, hemit]
      exact applyChanges_isSome hrefill he pending
  | onlineState onlineState =>
      rw [handle, applyOnlineStateChange]
      split
      · exact applyChanges_isSome rfl (fun _ hchange => by cases hchange) false
      · exact ⟨_, _, rfl⟩

theorem Delivered.follows (h : Delivered (view, snapshots)) (hlimit : q.limitType = .none)
    {changes queryResult : DocumentMap} {targetChange : Option TargetChange} {pending : Bool}
    {snapshots' : List (ViewSnapshot q)}
    (hs : View.step (view, snapshots) (.changes changes queryResult targetChange pending) =
      some (view', snapshots')) :
    (∀ doc ∈ changes.documents,
      Follows (Core.shown snapshots doc.key) doc (Core.shown snapshots' doc.key)) ∧
      ∀ key, key ∉ changes.documents.map MutableDocument.key →
        Core.shown snapshots' key = Core.shown snapshots key := by
  have h' := h.step hs
  obtain ⟨⟨next, change⟩, hout, heq⟩ := Option.map_eq_some_iff.mp hs
  obtain ⟨rfl, -⟩ := Prod.mk.inj heq
  obtain ⟨r, hr, -, hemit⟩ :=
    emitNewSnapshot_eq h.consistent hlimit changes queryResult targetChange pending
  obtain ⟨r', hr', hrecorded, -⟩ := computeDocumentChanges_spec h.consistent changes.distinct
  obtain rfl : r' = r := Option.some.inj (hr'.symm.trans hr)
  have ha := applyChanges_applied hrecorded (hemit.symm.trans hout)
  obtain ⟨-, hframe, hfollows⟩ :=
    computeDocumentChanges_follows h.consistent hlimit changes.distinct hr
  refine ⟨fun doc hdoc => ?_, fun key hkey => ?_⟩
  · rw [h.shown, h'.shown]
    exact ha.documents.symm ▸ hfollows doc hdoc
  · rw [h.shown, h'.shown]
    exact ha.documents.symm ▸ hframe key hkey

/-- The state of the connection changes no document. -/
theorem Delivered.shown_of_onlineState (h : Delivered (view, snapshots)) {onlineState : OnlineState}
    {snapshots' : List (ViewSnapshot q)}
    (hs : View.step (view, snapshots) (.onlineState onlineState) = some (view', snapshots'))
    (key : DocumentReference) : Core.shown snapshots' key = Core.shown snapshots key := by
  have h' := h.step hs
  rw [h.shown, h'.shown]
  obtain ⟨⟨next, change⟩, hout, heq⟩ := Option.map_eq_some_iff.mp hs
  obtain ⟨rfl, -⟩ := Prod.mk.inj heq
  rw [handle, applyOnlineStateChange] at hout
  split at hout
  · have hrecorded : Recorded ({ view with current := false } : View q).documentSet
        view.unchanged := h.consistent.tracks
    have ha := applyChanges_applied hrecorded hout
    exact congrArg (DocumentSet.getDocument · key) ha.documents
  · obtain ⟨rfl, -⟩ := Prod.mk.inj (Option.some.inj hout)
    rfl

/-- The documents of a collection, all of them or the first few. -/
def collectionQuery (path : ResourcePath) (limit : Option Nat) : Query where
  path := path
  collectionGroup := none
  filters := []
  explicitOrderBys := []
  limitType := if limit.isSome then .first else .none
  limit := limit.getD 0

/-- The server lists two users. -/
def usersListed : ViewEvent :=
  .changes
    ⟨[⟨profileRef "u", .foundDocument, 1, .empty, .synced⟩,
      ⟨profileRef "v", .foundDocument, 1, .empty, .synced⟩], by decide⟩
    ⟨[], List.nodup_nil⟩
    (some ⟨true, true, [profileRef "u", profileRef "v"], [], []⟩) false

/-- Then one of them changes and the other one is gone. -/
def usersChanged : DocumentMap :=
  ⟨[⟨profileRef "v", .foundDocument, 2, oneField "name" 1, .synced⟩,
    ⟨profileRef "u", .noDocument, 2, .empty, .synced⟩], by decide⟩

def usersTarget : TargetChange := ⟨true, true, [], [profileRef "v"], [profileRef "u"]⟩

section Runs

variable {remoteDocuments : Finset DocumentReference} {events : List ViewEvent}

theorem delivered_of_run
    (hrun : Execution.run View.step (create q remoteDocuments, []) events =
      some (view, snapshots)) : Delivered (view, snapshots) :=
  Execution.run_preserves (fun _ _ _ hs h => Delivered.step h hs)
    (delivered_create q remoteDocuments) hrun

/-- An app that starts with nothing and follows the changes of each snapshot holds
the documents of the view, after every run. -/
theorem shown_eq_getDocument
    (hrun : Execution.run View.step (create q remoteDocuments, []) events =
      some (view, snapshots)) (key : DocumentReference) :
    shown snapshots key = view.documentSet.getDocument key :=
  (delivered_of_run hrun).shown key

theorem shown_eq_getDocument_listed :
    ∃ s, Execution.run View.step (create (collectionQuery ["users"] none) ∅, []) [usersListed] =
        some s ∧
      ∀ key, shown s.2 key = s.1.documentSet.getDocument key := by
  obtain ⟨s, hs⟩ := Option.isSome_iff_exists.mp
    (show (Execution.run View.step (create (collectionQuery ["users"] none) ∅, [])
      [usersListed]).isSome by decide +kernel)
  exact ⟨s, hs, shown_eq_getDocument hs⟩

/-- While the last snapshot is not from the cache, the view is current with the
server and each of its documents is one the server listed or one with local
mutations. -/
theorem synced_of_last_snapshot
    (hrun : Execution.run View.step (create q remoteDocuments, []) events =
      some (view, snapshots)) {last : ViewSnapshot q} (hlast : snapshots.getLast? = some last)
    (hcache : last.fromCache = false) :
    view.current = true ∧ ∀ doc ∈ view.documentSet.documents,
      doc.key ∈ view.syncedDocuments ∨ doc.hasLocalMutations = true := by
  have h := delivered_of_run hrun
  exact h.consistent.synced ((h.told last hlast).mp hcache)

theorem synced_of_last_snapshot_listed :
    ∃ s last, Execution.run View.step (create (collectionQuery ["users"] none) ∅, [])
        [usersListed] = some s ∧ s.2.getLast? = some last ∧ last.fromCache = false ∧
      s.1.current = true ∧ ∀ doc ∈ s.1.documentSet.documents,
        doc.key ∈ s.1.syncedDocuments ∨ doc.hasLocalMutations = true := by
  obtain ⟨s, hs, htold⟩ := (Option.any_eq_true _ _).mp
    (show ((Execution.run View.step (create (collectionQuery ["users"] none) ∅, [])
      [usersListed]).any fun s => s.2.getLast?.any fun last => !last.fromCache) = true
      by decide +kernel)
  obtain ⟨last, hlast, hcache⟩ := (Option.any_eq_true _ _).mp htold
  have hcache : last.fromCache = false := by simpa using hcache
  exact ⟨s, last, hs, hlast, hcache, synced_of_last_snapshot hs hlast hcache⟩

theorem within_limit
    (hrun : Execution.run View.step (create q remoteDocuments, []) events =
      some (view, snapshots)) : view.documentSet.WithinLimit :=
  (delivered_of_run hrun).limited

theorem within_limit_one :
    ∃ s, Execution.run View.step (create (collectionQuery ["users"] (some 1)) ∅, [])
        [usersListed] = some s ∧ s.1.documentSet.size ≤ 1 := by
  obtain ⟨s, hs⟩ := Option.isSome_iff_exists.mp
    (show (Execution.run View.step (create (collectionQuery ["users"] (some 1)) ∅, [])
      [usersListed]).isSome by decide +kernel)
  exact ⟨s, hs, within_limit hs (by decide)⟩

/-- Without a limit no expected event fails, after any run. -/
theorem unlimited_never_fails
    (hrun : Execution.run View.step (create q remoteDocuments, []) events =
      some (view, snapshots)) (hlimit : q.limitType = .none) {e : ViewEvent}
    (he : view.Expects e) : (View.step (view, snapshots) e).isSome := by
  obtain ⟨view', change, hout⟩ := handle_isSome (delivered_of_run hrun).consistent hlimit he
  rw [View.step, hout]
  rfl

theorem unlimited_never_fails_changed :
    ∃ s, Execution.run View.step (create (collectionQuery ["users"] none) ∅, [])
        [usersListed, .onlineState .offline] = some s ∧
      (View.step s (.changes usersChanged ⟨[], List.nodup_nil⟩ (some usersTarget) false)).isSome := by
  obtain ⟨s, hs, hsynced⟩ := (Option.any_eq_true _ _).mp
    (show ((Execution.run View.step (create (collectionQuery ["users"] none) ∅, [])
      [usersListed, .onlineState .offline]).any fun s =>
        decide (profileRef "v" ∈ s.1.syncedDocuments)) = true by decide +kernel)
  refine ⟨s, hs, unlimited_never_fails hs rfl fun change hchange key hkey => ?_⟩
  obtain rfl := Option.some.inj hchange
  obtain rfl := List.mem_singleton.mp hkey
  exact .inl (of_decide_eq_true hsynced)

/-- Without a limit, what the app holds follows the local store: a changed document
is taken over and every other one stays. -/
theorem shown_follows
    (hrun : Execution.run View.step (create q remoteDocuments, []) events =
      some (view, snapshots)) (hlimit : q.limitType = .none)
    {changes queryResult : DocumentMap} {targetChange : Option TargetChange} {pending : Bool}
    {snapshots' : List (ViewSnapshot q)}
    (hs : View.step (view, snapshots) (.changes changes queryResult targetChange pending) =
      some (view', snapshots')) :
    (∀ doc ∈ changes.documents,
      Follows (shown snapshots doc.key) doc (shown snapshots' doc.key)) ∧
      ∀ key, key ∉ changes.documents.map MutableDocument.key →
        shown snapshots' key = shown snapshots key :=
  (delivered_of_run hrun).follows hlimit hs

theorem shown_follows_changed :
    ∃ s s', Execution.run View.step (create (collectionQuery ["users"] none) ∅, [])
        [usersListed, .onlineState .offline] = some s ∧
      View.step s (.changes usersChanged ⟨[], List.nodup_nil⟩ (some usersTarget) false) =
        some s' ∧
      (shown s'.2 (profileRef "v")).map (fun doc => doc.1.version) = some 2 ∧
      (shown s'.2 (profileRef "u")).isNone ∧
      (∀ doc ∈ usersChanged.documents,
        Follows (shown s.2 doc.key) doc (shown s'.2 doc.key)) ∧
      ∀ key, key ∉ usersChanged.documents.map MutableDocument.key →
        shown s'.2 key = shown s.2 key := by
  obtain ⟨s, hs, hstep⟩ := Option.bind_eq_some_iff.mp
    (show ((Execution.run View.step (create (collectionQuery ["users"] none) ∅, [])
      [usersListed, .onlineState .offline]).bind fun s =>
        (View.step s (.changes usersChanged ⟨[], List.nodup_nil⟩ (some usersTarget) false)).map
          fun s' => ((shown s'.2 (profileRef "v")).map fun doc => doc.1.version,
            (shown s'.2 (profileRef "u")).isNone)) = some (some 2, true) by decide +kernel)
  obtain ⟨s', hs', hshown⟩ := Option.map_eq_some_iff.mp hstep
  obtain ⟨hversion, hgone⟩ := Prod.mk.inj hshown
  exact ⟨s, s', hs, hs', hversion, hgone, shown_follows hs rfl hs'⟩

end Runs

end View

end FirebaseLogin.Core
