import FirebaseLogin.Profile.Writers
import Mathlib.Data.Fintype.Basic

/-!
Concurrent invocations of createOrUpdateUserInFirestore. Each reads the profile
and, if it is missing, replaces it later. Between the two an invocation is in its
window: its read has found nothing and its write has not been applied. When
nothing takes effect on the profile inside the window of another invocation, no
creation ever meets an existing profile, whatever the clients and their order.
-/

namespace FirebaseLogin

open DocumentStore Execution

/-- The user of an invocation whose read has found no document. -/
def PendingRead.foundMissing : PendingRead → Option Uid
  | ⟨_, .createOrUpdateUser user, some ⟨.ok none, _⟩⟩ => some user.uid
  | _ => none

def Write.Creates (u : Uid) (w : Write) : Prop := w.target = userDoc u ∧ w.completion = .createUser

instance (u : Uid) (w : Write) : Decidable (w.Creates u) := inferInstanceAs (Decidable (_ ∧ _))

def Event.isFailRead {ι : Type} : Event ι → Bool
  | .failRead _ _ _ => true
  | _ => false

theorem foundMissing_eq_some {r : PendingRead} {u : Uid} :
    r.foundMissing = some u ↔ ∃ user a, r.continuation = .createOrUpdateUser user ∧
      user.uid = u ∧ r.answer = some a ∧ a.result = .ok none := by
  constructor
  · intro h
    unfold PendingRead.foundMissing at h
    split at h
    · next reference user revision =>
        exact ⟨user, _, rfl, Option.some.inj h, rfl, rfl⟩
    · cases h
  · rintro ⟨user, a, hcontinuation, rfl, hanswer, hresult⟩
    obtain ⟨reference, continuation, answer⟩ := r
    obtain ⟨result, revision⟩ := a
    cases hcontinuation
    cases hanswer
    cases hresult
    rfl

namespace System

variable {ι : Type} {s s' : System ι} {e : Event ι} {i j : ι} {u : Uid}

def renames (u : Uid) (s : System ι) (e : Event ι) : Bool :=
  (s.accepted e).any fun w => w.completion.isUpdateUserInfo && w.target = userDoc u

/-- An existing profile keeps its createdAt, and its name unless the step applies
an updateUserInfo to it. -/
def ProfileKept (u : Uid) (s : System ι) (e : Event ι) (s' : System ι) : Prop :=
  (s.server.lookup (userDoc u)).isSome →
    (s'.server.lookup (userDoc u)).isSome ∧
    field (s'.server.lookup (userDoc u)) "createdAt" =
      field (s.server.lookup (userDoc u)) "createdAt" ∧
    (s.renames u e ∨ nameOf s'.server (userDoc u) = nameOf s.server (userDoc u))

/-- No write takes effect on the profile inside the window of another invocation. -/
def OutsideWindows [DecidableEq ι] (u : Uid) (s : System ι) (e : Event ι) (_ : System ι) : Prop :=
  match e with
  | .acceptWrite i =>
      ∀ w ∈ (s.clients i).writes.head?, w.target = userDoc u →
        ∀ j, (∀ r ∈ (s.clients j).reads, r.foundMissing ≠ some u) ∧
          ∀ w' ∈ s.pendingAfter i j, ¬ w'.Creates u
  | _ => True

/-- While the profile exists no invocation is in its window. -/
structure WindowInvariant (u : Uid) (s : System ι) : Prop where
  shaped : s.Shaped
  succeeded : ∀ j, ∀ r ∈ (s.clients j).reads, ∀ a, r.answer = some a → ∃ d, a.result = .ok d
  reads : ∀ j, ∀ r ∈ (s.clients j).reads, r.foundMissing = some u →
    s.server.lookup (userDoc u) = none
  writes : ∀ j, ∀ w ∈ (s.clients j).writes, w.Creates u → s.server.lookup (userDoc u) = none

theorem windowInvariant_launch (server : Server) (devices : ι → UIDevice)
    (users : ι → Option User) (u : Uid) : (launch server devices users).WindowInvariant u :=
  ⟨shaped_launch server devices users, nofun, nofun, nofun⟩

/-- Nothing pending deletes a profile, so one seen as missing is missing on the
server. -/
theorem lookup_of_snapshot (h : s.Shaped)
    (hmissing : (s.clients j).snapshot s.server (userDoc u) = none) :
    s.server.lookup (userDoc u) = none := by
  refine eq_none_of_overlay_eq_none (fun m hm hkey => ?_) hmissing
  obtain ⟨w, hw, rfl⟩ := List.mem_map.mp hm
  obtain ⟨_, _, _, _, rfl⟩ | ⟨_, _, _, rfl⟩ := ((h j).writes w hw).of_target hkey <;> simp

theorem lookup_of_issued_creates (h : s.WindowInvariant u) {event : AppEvent} {w : Write}
    (hw : (s.clients j).IssuedBy event w) (hcreates : w.Creates u) :
    s.server.lookup (userDoc u) = none := by
  cases hw with
  | @createUser index now reference user answer hread hmissing =>
      have hmem := List.mem_of_getElem? hread
      obtain ⟨d, hd⟩ := h.succeeded j _ hmem answer rfl
      apply h.reads j _ hmem
      apply foundMissing_eq_some.mpr
      refine ⟨user, answer, rfl, userDoc_inj.mp hcreates.1, rfl, ?_⟩
      cases d with
      | none => exact hd
      | some d => exact absurd hd (hmissing d)
  | updateUserInfo | updateDeviceName | registerDevice | deleteDevice | saveLocation =>
      cases hcreates.2

variable [DecidableEq ι]

theorem windowInvariant_succeeded (hstep : s.step e = some s') (hread : e.isFailRead = false)
    (h : s.WindowInvariant u) :
    ∀ j, ∀ r ∈ (s'.clients j).reads, ∀ a, r.answer = some a → ∃ d, a.result = .ok d := by
  intro j r hr a ha
  obtain hr | ⟨index, -, ⟨-, rfl⟩ | ⟨error, rfl, -⟩⟩ := answered_of_step hstep hr ha
  · exact h.succeeded j r hr a ha
  · exact ⟨_, rfl⟩
  · cases hread

/-- A read that has found the profile missing by the end of a step shows that it
was missing at its start. -/
theorem lookup_of_foundMissing (hstep : s.step e = some s') (h : s.WindowInvariant u)
    {r : PendingRead} (hr : r ∈ (s'.clients j).reads) (hmissing : r.foundMissing = some u) :
    s.server.lookup (userDoc u) = none := by
  obtain ⟨user, a, hcontinuation, hu, ha, hresult⟩ := foundMissing_eq_some.mp hmissing
  obtain hr | ⟨index, hmem, ⟨-, rfl⟩ | ⟨error, -, rfl⟩⟩ := answered_of_step hstep hr ha
  · exact h.reads j r hr hmissing
  · have hreference : r.reference = userDoc u := by
      rw [← hu]
      exact ((h.shaped j).reads _ hmem user hcontinuation).1
    apply lookup_of_snapshot (j := j) h.shaped
    simpa [answer, hreference] using hresult
  · cases hresult

/-- After a write has taken effect on the profile nobody is left in a window. -/
theorem no_window_of_accepted (hstep : s.step e = some s') (hwindow : s.OutsideWindows u e s')
    {w : Write} (hw : s.accepted e = some w) (htarget : w.target = userDoc u) (j : ι) :
    (∀ r ∈ (s'.clients j).reads, r.foundMissing ≠ some u) ∧
      ∀ w' ∈ (s'.clients j).writes, ¬ w'.Creates u := by
  obtain ⟨i, rfl, hhead⟩ := accepted_eq_some.mp hw
  obtain ⟨hreads, hwrites⟩ := clients_of_accept hstep j
  rw [hreads, hwrites]
  exact hwindow w hhead htarget j

theorem windowInvariant_step (hstep : s.step e = some s') (hread : e.isFailRead = false)
    (hwindow : s.OutsideWindows u e s') (h : s.WindowInvariant u) : s'.WindowInvariant u := by
  have hsucceeded := windowInvariant_succeeded hstep hread h
  refine ⟨shaped_step hstep h.shaped, hsucceeded, fun j r hr hmissing => ?_,
    fun j w hw hcreates => ?_⟩
  · obtain hsame | ⟨w', hw', htarget, -⟩ := lookup_of_step hstep (userDoc u)
    · rw [hsame]
      exact lookup_of_foundMissing hstep h hr hmissing
    · exact absurd hmissing ((no_window_of_accepted hstep hwindow hw' htarget j).1 r hr)
  · obtain hsame | ⟨w', hw', htarget, -⟩ := lookup_of_step hstep (userDoc u)
    · rw [hsame]
      obtain hw | ⟨event, -, hissued⟩ := mem_writes_of_step hstep hw
      · exact h.writes j w hw hcreates
      · exact lookup_of_issued_creates h hissued hcreates
    · exact absurd hcreates ((no_window_of_accepted hstep hwindow hw' htarget j).2 w hw)

/-- A creation that takes effect finds no profile, so only a name is ever merged
into an existing one. -/
theorem profileKept_of_step (hstep : s.step e = some s') (h : s.WindowInvariant u) :
    s.ProfileKept u e s' := by
  intro hexists
  obtain hsame | ⟨user, now, -, -, haccepted, -⟩ | ⟨screen, name, history, haccepted, hmerge⟩ :=
    profile_of_step hstep h.shaped u
  · rw [nameOf, hsame]
    exact ⟨hexists, rfl, .inr rfl⟩
  · obtain ⟨i, hmem⟩ := mem_writes_of_accepted haccepted
    simp [h.writes i _ hmem ⟨rfl, rfl⟩] at hexists
  · rw [hmerge]
    refine ⟨apply_merge_isSome _ _, by simp, .inl ?_⟩
    simp [renames, haccepted, Completion.isUpdateUserInfo]

/-- With every read successful, along every run in which no write takes effect on
the profile inside the window of another invocation, an existing profile keeps
its createdAt and changes its name by updateUserInfo alone. -/
theorem profileKept_of_outsideWindows (server : Server) (devices : ι → UIDevice)
    (users : ι → Option User) (u : Uid) (es : List (Event ι))
    (hreads : ∀ e ∈ es, e.isFailRead = false)
    (hwindows : Along step (OutsideWindows u) (launch server devices users) es) :
    Along step (ProfileKept u) (launch server devices users) es := by
  apply along_of_invariant (I := WindowInvariant u) _ _
    (windowInvariant_launch server devices users u)
    (along_and.mpr ⟨along_of_events hreads, hwindows⟩)
  · intro s e s' hstep hc h
    exact windowInvariant_step hstep hc.1 hc.2 h
  · intro s e s' hstep _ h
    exact profileKept_of_step hstep h

section Examples

instance [Fintype ι] (u : Uid) (s : System ι) (e : Event ι) (s' : System ι) :
    Decidable (s.OutsideWindows u e s') :=
  match e with
  | .acceptWrite i => inferInstanceAs (Decidable (∀ w ∈ (s.clients i).writes.head?, _))
  | .app _ _ | .answerRead _ _ | .failRead _ _ _ | .rejectWrite _ _ => isTrue trivial

instance (u : Uid) (s : System ι) (e : Event ι) (s' : System ι) :
    Decidable (s.ProfileKept u e s') := inferInstanceAs (Decidable (_ → _))

/-- Two devices signed in as the same user. -/
def twoDevices : System Bool := launch ∅ (fun _ => phone) fun _ => some Session.userA

/-- A launched device asks for the profile. -/
def profileAsked (i : Bool) : List (Event Bool) :=
  [.app i (.auth .listenToAuthState), .app i (.auth .runMain), .answerRead i 0]

/-- The first device opens its form, enters a name and saves it. -/
def nameSaved : List (Event Bool) :=
  [.app true .openProfile, .app true (.profileAppeared 0), .answerRead true 0,
    .app true (.readCallback 0 6), .app true (.editName 0 "Name"), .app true (.updateUserInfo 0),
    .acceptWrite true]

/-- The second device asks once the first has created the profile. -/
def inTurnRun : List (Event Bool) :=
  profileAsked true ++ [.app true (.readCallback 0 5), .acceptWrite true] ++ profileAsked false ++
    [.app false (.readCallback 0 5)] ++ nameSaved

theorem profileKept_inTurn :
    (∃ t, run step twoDevices inTurnRun = some t ∧
      nameOf t.server (userDoc Session.userA.uid) = some (.string "Name")) ∧
    Along step (ProfileKept Session.userA.uid) twoDevices inTurnRun :=
  ⟨⟨_, rfl, by decide⟩,
    profileKept_of_outsideWindows ∅ _ _ Session.userA.uid inTurnRun (by decide) (by decide)⟩

/-- Both devices have found the profile missing. The name is saved before the
second device's callback runs. -/
def lostNameRun : List (Event Bool) :=
  profileAsked true ++ profileAsked false ++ [.app true (.readCallback 0 5), .acceptWrite true] ++
    nameSaved ++ [.app false (.readCallback 0 7), .acceptWrite false]

/-- Every read succeeds and the saved name is lost. -/
theorem saved_name_lost :
    (∀ e ∈ lostNameRun, e.isFailRead = false) ∧
    (¬ Along step (ProfileKept Session.userA.uid) twoDevices lostNameRun) ∧
    ∃ t, run step twoDevices lostNameRun = some t ∧
      nameOf t.server (userDoc Session.userA.uid) = some (.string "") :=
  ⟨by decide, by decide, _, rfl, by decide⟩

end Examples

end System

end FirebaseLogin
