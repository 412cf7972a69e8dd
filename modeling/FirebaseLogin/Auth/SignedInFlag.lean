import FirebaseLogin.Auth.Session

/-!
The published flag against the session. signIn's completion posts a block that
raises the flag without looking at currentUser again, so a sign-out that falls
between the two is overwritten. The invariant below says what keeps the flag
right: while nobody is signed in no such block is on its way, and while somebody
is, the flag is up or something still pending will raise it.
-/

namespace FirebaseLogin

open Execution

/-- The request is a sign-in that has set currentUser and whose completion is
still to be queued. -/
def Request.RaisesFlag (r : Request) : Prop := r.call = .signIn ∧ r.stage ≠ .sent

instance (r : Request) : Decidable r.RaisesFlag := inferInstanceAs (Decidable (_ ∧ _))

/-- The task sets the flag, or queues the block that does. -/
def MainTask.RaisesFlag : MainTask → Prop
  | .completion .signIn _ none | .setSignedIn => True
  | _ => False

instance : (t : MainTask) → Decidable t.RaisesFlag
  | .completion .signIn _ none | .setSignedIn => isTrue trivial
  | .completion .signIn _ (some _) | .completion .signUp _ _ | .notification | .listener _ =>
      isFalse id

namespace Session

def SignInSettling (s : Session) : Prop :=
  (∃ r ∈ s.requests, r.RaisesFlag) ∨ ∃ t ∈ s.mainQueue, t.RaisesFlag

instance (s : Session) : Decidable s.SignInSettling := inferInstanceAs (Decidable (_ ∨ _))

def NotificationPending (s : Session) (index : Nat) : Prop :=
  (∃ r ∈ s.requests, ∃ user, r.stage = .userUpdated user) ∨
    .notification ∈ s.mainQueue ∨ .listener index ∈ s.mainQueue

/-- A listener with a run ahead of it did not see this user at its last one. -/
def ListenerWillCall (s : Session) (uid : Uid) : Prop :=
  ∃ index l, s.listeners[index]? = some l ∧
    (l.firstInvocation = true ∨ l.previousUserID ≠ some uid) ∧ s.NotificationPending index

structure FlagInvariant (s : Session) : Prop where
  signedOut : s.currentUser = none → s.signedIn = false ∧ ¬ s.SignInSettling
  signedIn : ∀ user, s.currentUser = some user →
    s.signedIn = true ∨ s.SignInSettling ∨ s.listeners = [] ∨ s.ListenerWillCall user.uid

/-- The condition on a step: no sign-out clears the session while a sign-in that
has already set currentUser still has its completion, or the block it re-posts,
to run; and a sign-up brings a user no listener saw at its last run. -/
def FlagSafe (s : Session) : AuthEvent → Session → Prop
  | .signOut none, _ => s.currentUser ≠ none → ¬ s.SignInSettling
  | .currentUserUpdated index user, _ =>
      s.requests[index]?.map Request.call = some .signUp →
        ∀ l ∈ s.listeners, l.previousUserID ≠ some user.uid
  | _, _ => True

instance (s : Session) (e : AuthEvent) (t : Session) : Decidable (FlagSafe s e t) := by
  unfold FlagSafe
  split <;> infer_instance

/-- The flag is what isSignedIn computes, at every moment at rest. -/
def FlagAgrees (_ : Session) (_ : AuthEvent) (s : Session) : Prop :=
  s.Quiescent → s.listeners ≠ [] → s.signedIn = s.isSignedIn

instance (s : Session) (e : AuthEvent) (t : Session) : Decidable (FlagAgrees s e t) :=
  inferInstanceAs (Decidable (_ → _))

theorem flagInvariant_launch (user : Option User) : FlagInvariant (launch user) where
  signedOut _ := ⟨rfl, by simp [SignInSettling, launch]⟩
  signedIn _ _ := .inr (.inr (.inl rfl))

theorem FlagInvariant.agrees {s : Session} (h : s.FlagInvariant) (hq : s.Quiescent)
    (hl : s.listeners ≠ []) : s.signedIn = s.isSignedIn := by
  have hsettled : ¬ s.SignInSettling := by simp [SignInSettling, hq.1, hq.2]
  cases hu : s.currentUser with
  | none => simpa [isSignedIn, hu] using (h.signedOut hu).1
  | some user =>
      have hcall : ¬ s.ListenerWillCall user.uid := by
        simp [ListenerWillCall, NotificationPending, hq.1, hq.2]
      obtain hf | hf | hf | hf := h.signedIn user hu
      · simpa [isSignedIn, hu] using hf
      · exact absurd hf hsettled
      · exact absurd hf hl
      · exact absurd hf hcall

/-- Steps that touch neither the user, the flag nor the listeners. -/
theorem FlagInvariant.frame {s t : Session} (h : s.FlagInvariant)
    (huser : t.currentUser = s.currentUser) (hflag : t.signedIn = s.signedIn)
    (hlisteners : t.listeners = s.listeners)
    (hsettling : t.SignInSettling ↔ s.SignInSettling)
    (hpending : ∀ index < s.listeners.length,
      s.NotificationPending index → t.NotificationPending index) : t.FlagInvariant where
  signedOut ht := by
    rw [hflag, hsettling]
    exact h.signedOut (huser ▸ ht)
  signedIn user ht := by
    rw [hflag, hsettling, hlisteners]
    refine (h.signedIn user (huser ▸ ht)).imp_right (.imp_right (.imp_right ?_))
    rintro ⟨index, l, hl, hnew, hp⟩
    exact ⟨index, l, hlisteners ▸ hl, hnew,
      hpending index (List.getElem?_eq_some_iff.mp hl).1 hp⟩

/-- A flag that is up, or that a settling sign-in will raise, needs no listener. -/
theorem FlagInvariant.of_raised {s : Session} (user : User) (hu : s.currentUser = some user)
    (h : s.signedIn = true ∨ s.SignInSettling) : s.FlagInvariant where
  signedOut hn := by simp [hu] at hn
  signedIn _ _ := h.imp_right .inl

theorem FlagInvariant.of_lowered {s : Session} (hu : s.currentUser = none)
    (hf : s.signedIn = false) (hs : ¬ s.SignInSettling) : s.FlagInvariant where
  signedOut _ := ⟨hf, hs⟩
  signedIn user h := by simp [hu] at h

section Requests

variable {l : List Request} {i : Nat} {r r' : Request}

private theorem exists_eraseIdx {p : Request → Prop} (hi : l[i]? = some r) (hr : ¬ p r) :
    (∃ x ∈ l.eraseIdx i, p x) ↔ ∃ x ∈ l, p x := by
  constructor
  · rintro ⟨x, hx, hp⟩
    exact ⟨x, List.mem_of_mem_eraseIdx hx, hp⟩
  · rintro ⟨x, hx, hp⟩
    obtain ⟨j, hj⟩ := List.getElem?_of_mem hx
    refine ⟨x, List.mem_eraseIdx_iff_getElem?.mpr ⟨j, ?_, hj⟩, hp⟩
    rintro rfl
    exact hr (by rwa [Option.some.inj (hi.symm.trans hj)])

private theorem exists_set_of_exists {p : Request → Prop} (hi : l[i]? = some r)
    (hr : p r → p r') (h : ∃ x ∈ l, p x) : ∃ x ∈ l.set i r', p x := by
  obtain ⟨x, hx, hp⟩ := h
  obtain ⟨j, hj⟩ := List.getElem?_of_mem hx
  have hlt := (List.getElem?_eq_some_iff.mp hi).1
  by_cases hij : i = j
  · subst hij
    obtain rfl : r = x := Option.some.inj (hi.symm.trans hj)
    exact ⟨r', List.mem_set hlt r', hr hp⟩
  · exact ⟨x, List.mem_of_getElem? (by rwa [List.getElem?_set_ne hij]), hp⟩

private theorem exists_of_exists_set {p : Request → Prop} (hi : l[i]? = some r)
    (hr : p r' → p r) (h : ∃ x ∈ l.set i r', p x) : ∃ x ∈ l, p x := by
  obtain ⟨x, hx, hp⟩ := h
  rcases List.mem_or_eq_of_mem_set hx with hx | rfl
  · exact ⟨x, hx, hp⟩
  · exact ⟨r, List.mem_of_getElem? hi, hr hp⟩

end Requests

theorem settling_enqueue {s : Session} (task : MainTask) (h : ¬ task.RaisesFlag) :
    (s.enqueue task).SignInSettling ↔ s.SignInSettling := by
  simp [SignInSettling, enqueue, h, or_and_right, exists_or]

theorem flagInvariant_listenToAuthState {s : Session} (h : s.FlagInvariant) :
    s.listenToAuthState.FlagInvariant where
  signedOut hu := by
    obtain ⟨hf, hs⟩ := h.signedOut hu
    refine ⟨hf, ?_⟩
    have hq := settling_enqueue (s := s) (.listener s.listeners.length)
      (by simp [MainTask.RaisesFlag])
    exact fun hset => hs (hq.mp hset)
  signedIn user _ := by
    refine .inr (.inr (.inr ⟨s.listeners.length, ⟨true, none⟩, ?_, .inl rfl, ?_⟩))
    · simp [listenToAuthState]
    · exact .inr (.inr (by simp [listenToAuthState]))

theorem flagInvariant_send {s : Session} (call : AuthCall) (h : s.FlagInvariant) :
    FlagInvariant { s with requests := s.requests ++ [⟨call, .sent⟩] } := by
  refine h.frame rfl rfl rfl ?_ ?_
  · simp [SignInSettling, Request.RaisesFlag, or_and_right, exists_or]
  · rintro index - (⟨r, hr, huser⟩ | hq)
    · exact .inl ⟨r, List.mem_append_left _ hr, huser⟩
    · exact .inr hq

theorem flagInvariant_signOut {s : Session} {error : Option String} (h : s.FlagInvariant)
    (hsafe : error = none → s.currentUser ≠ none → ¬ s.SignInSettling) :
    (s.signOut error).FlagInvariant := by
  unfold signOut
  split
  · next hu =>
      exact .of_lowered hu rfl fun hs => (h.signedOut hu).2 hs
  · next user hu =>
      have hs := hsafe rfl (by simp [hu])
      apply FlagInvariant.of_lowered rfl rfl
      intro hset
      exact hs ((settling_enqueue .notification (by simp [MainTask.RaisesFlag])).mp hset)
  · exact h

private theorem pending_finishRequest {s : Session} {index i : Nat} {r : Request}
    {task : MainTask} (hr : s.requests[index]? = some r)
    (hstage : ¬ ∃ user, r.stage = .userUpdated user) (h : s.NotificationPending i) :
    (s.finishRequest index task).NotificationPending i := by
  obtain hp | hq | hq := h
  · exact .inl ((exists_eraseIdx hr hstage).mpr hp)
  · exact .inr (.inl (List.mem_append_left _ hq))
  · exact .inr (.inr (List.mem_append_left _ hq))

theorem flagInvariant_finishRequest {s : Session} {index : Nat} {r : Request}
    {task : MainTask} (hr : s.requests[index]? = some r)
    (hstage : ¬ ∃ user, r.stage = .userUpdated user) (htask : r.RaisesFlag ↔ task.RaisesFlag)
    (h : s.FlagInvariant) : (s.finishRequest index task).FlagInvariant := by
  refine h.frame rfl rfl rfl ?_ fun i _ => pending_finishRequest hr hstage
  by_cases hflag : r.RaisesFlag
  · -- the settling sign-in moves from the request to the queue
    refine iff_of_true (.inr ⟨task, ?_, htask.mp hflag⟩) (.inl ⟨r, List.mem_of_getElem? hr, hflag⟩)
    exact List.mem_append_right _ (List.mem_singleton_self task)
  · have hkeep := exists_eraseIdx (p := Request.RaisesFlag) hr hflag
    simp [SignInSettling, finishRequest, hkeep, htask.not.mp hflag, or_and_right, exists_or]

/-- The step that changes the user. A sign-in will raise the flag itself; for a
sign-up some listener has to, and the condition says that it will. -/
theorem flagInvariant_currentUserUpdated {s : Session} {index : Nat} {call : AuthCall}
    {user : User} (hr : s.requests[index]? = some ⟨call, .sent⟩)
    (hsafe : call = .signUp → ∀ l ∈ s.listeners, l.previousUserID ≠ some user.uid) :
    FlagInvariant { s with
      currentUser := some user
      requests := s.requests.set index ⟨call, .userUpdated user⟩ } := by
  have hlt := (List.getElem?_eq_some_iff.mp hr).1
  have hmem : (⟨call, .userUpdated user⟩ : Request) ∈
      s.requests.set index ⟨call, .userUpdated user⟩ := List.mem_set hlt _
  cases call with
  | signIn =>
      apply FlagInvariant.of_raised _ rfl
      exact .inr (.inl ⟨_, hmem, rfl, by simp⟩)
  | signUp =>
      refine ⟨fun hn => by simp at hn, ?_⟩
      intro other hother
      obtain rfl : user = other := Option.some.inj hother
      refine .inr (.inr ?_)
      cases hl : s.listeners with
      | nil => exact .inl rfl
      | cons l ls =>
          have hnew := hsafe rfl l (by simp [hl])
          exact .inr ⟨0, l, by simp, .inr hnew, .inl ⟨_, hmem, user, rfl⟩⟩

theorem flagInvariant_notificationPosted {s : Session} {index : Nat} {call : AuthCall}
    {user : User} (hr : s.requests[index]? = some ⟨call, .userUpdated user⟩)
    (h : s.FlagInvariant) :
    FlagInvariant { s with
      requests := s.requests.set index ⟨call, .notified user⟩
      mainQueue := s.mainQueue ++ [.notification] } := by
  have hkeep : (∃ r ∈ s.requests.set index ⟨call, .notified user⟩, r.RaisesFlag) ↔
      ∃ r ∈ s.requests, r.RaisesFlag :=
    ⟨exists_of_exists_set hr (by simp [Request.RaisesFlag]),
      exists_set_of_exists hr (by simp [Request.RaisesFlag])⟩
  refine h.frame rfl rfl rfl ?_ ?_
  · simp [SignInSettling, hkeep, MainTask.RaisesFlag, or_and_right, exists_or]
  · intro i _ _
    exact .inr (.inl (by simp))

/-- The head of the queue as popped by the main thread. -/
private theorem settling_cons {s : Session} {task : MainTask} {rest : List MainTask}
    (hq : s.mainQueue = task :: rest) :
    s.SignInSettling ↔ task.RaisesFlag ∨ SignInSettling { s with mainQueue := rest } := by
  simp only [SignInSettling, hq, List.mem_cons, or_and_right, exists_or, exists_eq_left]
  exact or_left_comm

theorem flagInvariant_notification {s : Session} {rest : List MainTask}
    (hq : s.mainQueue = .notification :: rest) (h : s.FlagInvariant) :
    (runTask { s with mainQueue := rest } .notification).1.FlagInvariant := by
  refine h.frame rfl rfl rfl ?_ ?_
  · rw [settling_cons hq]
    simp [SignInSettling, runTask, MainTask.RaisesFlag, or_and_right, exists_or]
  · rintro i hi -
    exact .inr (.inr (List.mem_append_left _ (List.mem_map.mpr ⟨i, List.mem_range.mpr hi, rfl⟩)))

/-- Running a listener either settles the flag on what it reads, or it read the
uid of its previous run and the listener that will call is another one. -/
theorem flagInvariant_listener {s : Session} {rest : List MainTask} {index : Nat}
    (hq : s.mainQueue = .listener index :: rest) (h : s.FlagInvariant) :
    (runTask { s with mainQueue := rest } (.listener index)).1.FlagInvariant := by
  have hsettling : s.SignInSettling ↔ SignInSettling { s with mainQueue := rest } := by
    simp [settling_cons hq, MainTask.RaisesFlag]
  have hpending : ∀ i, i ≠ index → s.NotificationPending i →
      NotificationPending { s with mainQueue := rest } i := by
    rintro i hi (hp | hp | hp)
    · exact .inl hp
    · exact .inr (.inl (by simpa [hq] using hp))
    · exact .inr (.inr (by simpa [hq, hi] using hp))
  change (runListener { s with mainQueue := rest } index).1.FlagInvariant
  cases hl : s.listeners[index]? with
  | none =>
      have hrun : runListener { s with mainQueue := rest } index =
          ({ s with mainQueue := rest }, []) := by simp [runListener, hl]
      rw [hrun]
      refine h.frame rfl rfl rfl hsettling.symm fun i hi => hpending i ?_
      rintro rfl
      simp at hl
      omega
  | some l =>
      obtain ⟨user, hu, hrun⟩ | ⟨hu, hrun⟩ | ⟨hfirst, hprev, hrun⟩ :=
        runListener_cases (s := { s with mainQueue := rest }) hl
      · rw [hrun]
        exact .of_raised user hu (.inl rfl)
      · rw [hrun]
        exact .of_lowered hu rfl fun hset => (h.signedOut hu).2 (hsettling.mpr hset)
      · rw [hrun]
        refine ⟨fun hu => ⟨(h.signedOut hu).1, fun hset => ?_⟩, ?_⟩
        · exact (h.signedOut hu).2 (hsettling.mpr hset)
        intro user hu
        obtain hf | hf | hf | ⟨j, l', hj, hnew, hp⟩ := h.signedIn user hu
        · exact .inl hf
        · exact .inr (.inl (hsettling.mp hf))
        · simp [hf] at hl
        · have hij : index ≠ j := by
            rintro rfl
            obtain rfl : l = l' := Option.some.inj (hl.symm.trans hj)
            have huid : l.previousUserID = some user.uid := by
              rw [hprev]
              exact congrArg (Option.map User.uid) hu
            simp [hfirst, huid] at hnew
          refine .inr (.inr (.inr ⟨j, l', ?_, hnew, hpending j hij.symm hp⟩))
          simpa [hear, List.getElem?_set_ne hij] using hj

theorem flagInvariant_pop {s : Session} {task : MainTask} {rest : List MainTask}
    (hq : s.mainQueue = task :: rest) (hraise : ¬ task.RaisesFlag)
    (hnotify : task ≠ .notification) (hlistener : ∀ index, task ≠ .listener index)
    (h : s.FlagInvariant) : FlagInvariant { s with mainQueue := rest } := by
  refine h.frame rfl rfl rfl (by simp [settling_cons hq, hraise]) ?_
  rintro i - (hp | hp | hp)
  · exact .inl hp
  · exact .inr (.inl (by simpa [hq, hnotify.symm] using hp))
  · exact .inr (.inr (by simpa [hq, (hlistener i).symm] using hp))

/-- A task that raises the flag finds somebody signed in. -/
theorem FlagInvariant.user_of_raising {s : Session} {task : MainTask} {rest : List MainTask}
    (h : s.FlagInvariant) (hq : s.mainQueue = task :: rest) (hraise : task.RaisesFlag) :
    ∃ user, s.currentUser = some user := by
  cases hu : s.currentUser with
  | none => exact absurd ((settling_cons hq).mpr (.inl hraise)) (h.signedOut hu).2
  | some user => exact ⟨user, rfl⟩

theorem flagInvariant_completion {s : Session} {rest : List MainTask} {call : AuthCall}
    {result : Option User} {error : Option String}
    (hq : s.mainQueue = .completion call result error :: rest) (h : s.FlagInvariant) :
    (runTask { s with mainQueue := rest } (.completion call result error)).1.FlagInvariant := by
  have hpop : ¬ (MainTask.completion call result error).RaisesFlag →
      FlagInvariant { s with mainQueue := rest } :=
    fun hraise => flagInvariant_pop hq hraise (by simp) (by simp) h
  cases call with
  | signIn =>
      cases error with
      | some e => exact hpop (by simp [MainTask.RaisesFlag])
      | none =>
          obtain ⟨user, hu⟩ := h.user_of_raising hq trivial
          refine .of_raised user hu (.inr (.inr ⟨.setSignedIn, ?_, trivial⟩))
          exact List.mem_append_right _ (List.mem_singleton_self _)
  | signUp =>
      have hpopped := hpop (by simp [MainTask.RaisesFlag])
      cases error <;> cases result <;>
        exact hpopped.frame rfl rfl rfl Iff.rfl fun _ _ hp => hp

theorem flagInvariant_setSignedIn {s : Session} {rest : List MainTask}
    (hq : s.mainQueue = .setSignedIn :: rest) (h : s.FlagInvariant) :
    (runTask { s with mainQueue := rest } .setSignedIn).1.FlagInvariant := by
  obtain ⟨user, hu⟩ := h.user_of_raising hq trivial
  exact .of_raised user hu (.inl rfl)

theorem flagInvariant_runMain {s t : Session} (hstep : s.next .runMain = some t)
    (h : s.FlagInvariant) : t.FlagInvariant := by
  cases hq : s.mainQueue with
  | nil => simp [next, step, hq] at hstep
  | cons task rest =>
      obtain rfl : (runTask { s with mainQueue := rest } task).1 = t := by
        simpa [next, step, hq] using hstep
      cases task with
      | notification => exact flagInvariant_notification hq h
      | listener index => exact flagInvariant_listener hq h
      | completion call result error => exact flagInvariant_completion hq h
      | setSignedIn => exact flagInvariant_setSignedIn hq h

theorem flagInvariant_step {s t : Session} {e : AuthEvent} (hstep : s.next e = some t)
    (hsafe : FlagSafe s e t) (h : s.FlagInvariant) : t.FlagInvariant := by
  cases e with
  | listenToAuthState =>
      obtain rfl : s.listenToAuthState = t := Option.some.inj hstep
      exact flagInvariant_listenToAuthState h
  | signIn =>
      obtain rfl := Option.some.inj hstep
      exact flagInvariant_send .signIn h
  | signUp =>
      obtain rfl := Option.some.inj hstep
      exact flagInvariant_send .signUp h
  | signOut error =>
      obtain rfl : s.signOut error = t := Option.some.inj hstep
      apply flagInvariant_signOut h
      rintro rfl
      exact hsafe
  | requestFailed index error =>
      simp only [next, step] at hstep
      split at hstep
      · next call hr =>
          obtain rfl := Option.some.inj hstep
          exact flagInvariant_finishRequest hr (by simp)
            (by simp [Request.RaisesFlag, MainTask.RaisesFlag]) h
      · cases hstep
  | currentUserUpdated index user =>
      simp only [next, step] at hstep
      split at hstep
      · next call hr =>
          obtain rfl := Option.some.inj hstep
          apply flagInvariant_currentUserUpdated hr
          rintro rfl
          exact hsafe (by simp [hr])
      · cases hstep
  | notificationPosted index =>
      simp only [next, step] at hstep
      split at hstep
      · next call user hr =>
          obtain rfl := Option.some.inj hstep
          exact flagInvariant_notificationPosted hr h
      · cases hstep
  | completionQueued index =>
      simp only [next, step] at hstep
      split at hstep
      · next call user hr =>
          obtain rfl := Option.some.inj hstep
          apply flagInvariant_finishRequest hr (by simp) _ h
          cases call <;> simp [Request.RaisesFlag, MainTask.RaisesFlag]
      · cases hstep
  | runMain => exact flagInvariant_runMain hstep h

/-- Along every run of sign-ins, sign-ups and sign-outs whose steps all meet the
condition, the flag agrees with the session whenever the client is at rest. -/
theorem flagAgrees_of_flagSafe (user : Option User) (es : List AuthEvent)
    (hsafe : Along next FlagSafe (launch user) es) : Along next FlagAgrees (launch user) es := by
  apply along_of_invariant (I := FlagInvariant) _ _ (flagInvariant_launch user) hsafe
  · intro s e t hstep hs h
    exact flagInvariant_step hstep hs h
  · intro s e t hstep hs h
    exact (flagInvariant_step hstep hs h).agrees

/-- A sign-in, a sign-out at rest and a sign-up, each run to its end. -/
def orderlyRun : List AuthEvent :=
  [.listenToAuthState, .runMain,
    .signIn, .currentUserUpdated 0 userA, .notificationPosted 0, .completionQueued 0,
    .runMain, .runMain, .runMain, .runMain,
    .signOut none, .runMain, .runMain,
    .signUp, .currentUserUpdated 0 userB, .notificationPosted 0, .completionQueued 0,
    .runMain, .runMain, .runMain]

theorem flagAgrees_orderlyRun :
    (∃ s, run next (launch none) orderlyRun = some s ∧ s.Quiescent ∧ s.listeners ≠ []) ∧
      Along next FlagAgrees (launch none) orderlyRun :=
  ⟨⟨_, rfl, by decide⟩, flagAgrees_of_flagSafe none orderlyRun (by decide)⟩

/-- Two taps on the sign-in button. The first sign-in has run to its end; the
second has set currentUser and queued its completion when the user signs out. -/
def secondTapRun : List AuthEvent :=
  [.listenToAuthState, .runMain, .signIn, .signIn,
    .currentUserUpdated 0 userA, .notificationPosted 0, .completionQueued 0,
    .runMain, .runMain, .runMain, .runMain,
    .currentUserUpdated 0 userA, .notificationPosted 0, .completionQueued 0, .signOut none,
    .runMain, .runMain, .runMain, .runMain, .runMain, .runMain]

/-- At rest the flag is up and nobody is signed in. -/
theorem flag_up_after_secondTap :
    ∃ s, run next (launch none) secondTapRun = some s ∧ s.Quiescent ∧ s.listeners ≠ [] ∧
      s.isSignedIn = false ∧ s.signedIn = true :=
  ⟨_, rfl, by decide⟩

end Session

end FirebaseLogin
