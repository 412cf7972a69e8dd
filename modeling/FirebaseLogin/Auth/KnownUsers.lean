import FirebaseLogin.Auth.Session

/-!
Where the users of a session come from. Every user it passes on to
createOrUpdateUserInFirestore was restored at launch or set by a request, so
what holds of all of those (`Q`) holds of every user passed on.
-/

namespace FirebaseLogin

variable {Q : User → Prop}

namespace Session

def StageOnly (Q : User → Prop) : Stage → Prop
  | .sent => True
  | .userUpdated user | .notified user => Q user

def TaskOnly (Q : User → Prop) : MainTask → Prop
  | .completion _ result _ => ∀ user ∈ result, Q user
  | .notification | .listener _ | .setSignedIn => True

/-- Every user the session holds satisfies `Q`. -/
structure Only (Q : User → Prop) (s : Session) : Prop where
  currentUser : ∀ user ∈ s.currentUser, Q user
  requests : ∀ r ∈ s.requests, StageOnly Q r.stage
  mainQueue : ∀ task ∈ s.mainQueue, TaskOnly Q task

def EventOnly (Q : User → Prop) : AuthEvent → Prop
  | .currentUserUpdated _ user => Q user
  | _ => True

variable {s s' : Session} {users : List User} {index : Nat} {task : MainTask}

theorem only_enqueue (h : s.Only Q) (task : MainTask) (ht : TaskOnly Q task) :
    (s.enqueue task).Only Q := by
  refine ⟨h.currentUser, h.requests, fun t hmem => ?_⟩
  obtain hmem | hmem := List.mem_append.mp hmem
  · exact h.mainQueue t hmem
  · rwa [List.mem_singleton.mp hmem]

theorem only_setRequest (h : s.Only Q) (index : Nat) (r : Request) (hr : StageOnly Q r.stage) :
    { s with requests := s.requests.set index r }.Only Q := by
  refine ⟨h.currentUser, fun r' hmem => ?_, h.mainQueue⟩
  obtain hmem | rfl := List.mem_or_eq_of_mem_set hmem
  · exact h.requests r' hmem
  · exact hr

theorem only_finishRequest (h : s.Only Q) (ht : TaskOnly Q task) :
    (s.finishRequest index task).Only Q := by
  refine ⟨h.currentUser, fun r hmem => ?_, (only_enqueue h task ht).mainQueue⟩
  exact h.requests r (List.mem_of_mem_eraseIdx hmem)

theorem only_request (h : s.Only Q) (call : AuthCall) :
    Only Q { s with requests := s.requests ++ [⟨call, .sent⟩] } := by
  refine ⟨h.currentUser, fun r hmem => ?_, h.mainQueue⟩
  obtain hmem | hmem := List.mem_append.mp hmem
  · exact h.requests r hmem
  · rw [List.mem_singleton.mp hmem]
    trivial

theorem only_signOut (h : s.Only Q) (error : Option String) : (s.signOut error).Only Q := by
  unfold signOut
  split
  · exact ⟨h.currentUser, h.requests, h.mainQueue⟩
  · have hq := only_enqueue h .notification trivial
    exact ⟨nofun, h.requests, hq.mainQueue⟩
  · exact h

theorem only_runListener (h : s.Only Q) (index : Nat) :
    (s.runListener index).1.Only Q ∧ ∀ user ∈ (s.runListener index).2, Q user := by
  cases hl : s.listeners[index]? with
  | none => simpa [runListener, hl] using h
  | some l =>
      obtain ⟨user, huser, hrun⟩ | ⟨-, hrun⟩ | ⟨-, -, hrun⟩ := runListener_cases hl
      · rw [hrun]
        refine ⟨⟨h.currentUser, h.requests, h.mainQueue⟩, fun v hv => ?_⟩
        obtain rfl := List.mem_singleton.mp hv
        exact h.currentUser v huser
      · rw [hrun]
        exact ⟨⟨h.currentUser, h.requests, h.mainQueue⟩, by simp⟩
      · rw [hrun]
        exact ⟨⟨h.currentUser, h.requests, h.mainQueue⟩, by simp⟩

theorem only_runCompletion (h : s.Only Q) (call : AuthCall) {result : Option User}
    (hresult : ∀ user ∈ result, Q user) (error : Option String) :
    (s.runCompletion call result error).1.Only Q ∧
      ∀ user ∈ (s.runCompletion call result error).2, Q user := by
  unfold runCompletion
  split
  · exact ⟨h, nofun⟩
  · exact ⟨only_enqueue h .setSignedIn trivial,
      fun user hmem => hresult user (Option.mem_toList.mp hmem)⟩
  · exact ⟨⟨h.currentUser, h.requests, h.mainQueue⟩, nofun⟩
  · exact ⟨⟨h.currentUser, h.requests, h.mainQueue⟩, nofun⟩
  · next user =>
      refine ⟨⟨h.currentUser, h.requests, h.mainQueue⟩, fun v hv => ?_⟩
      obtain rfl := List.mem_singleton.mp hv
      exact hresult v rfl

theorem only_runTask (h : s.Only Q) (ht : TaskOnly Q task) :
    (s.runTask task).1.Only Q ∧ ∀ user ∈ (s.runTask task).2, Q user := by
  cases task with
  | notification =>
      refine ⟨⟨h.currentUser, h.requests, fun t hmem => ?_⟩, nofun⟩
      obtain hmem | hmem := List.mem_append.mp hmem
      · obtain ⟨k, -, rfl⟩ := List.mem_map.mp hmem
        trivial
      · exact h.mainQueue t hmem
  | listener index => exact only_runListener h index
  | completion call result error => exact only_runCompletion h call ht error
  | setSignedIn => exact ⟨⟨h.currentUser, h.requests, h.mainQueue⟩, nofun⟩

/-- The session only ever passes on users that Auth handed it. -/
theorem only_step {e : AuthEvent} (hstep : s.step e = some (s', users)) (he : EventOnly Q e)
    (h : s.Only Q) : s'.Only Q ∧ ∀ user ∈ users, Q user := by
  cases e with
  | listenToAuthState =>
      cases hstep
      have hq := only_enqueue h (.listener s.listeners.length) trivial
      exact ⟨⟨h.currentUser, h.requests, hq.mainQueue⟩, nofun⟩
  | signIn | signUp =>
      cases hstep
      exact ⟨only_request h _, nofun⟩
  | signOut error =>
      cases hstep
      exact ⟨only_signOut h error, nofun⟩
  | requestFailed index error =>
      simp only [step] at hstep
      split at hstep
      · cases hstep
        exact ⟨only_finishRequest h nofun, nofun⟩
      · cases hstep
  | currentUserUpdated index user =>
      simp only [step] at hstep
      split at hstep
      · next call _ =>
          cases hstep
          have hset := only_setRequest h index ⟨call, .userUpdated user⟩ he
          refine ⟨⟨fun v hv => ?_, hset.requests, h.mainQueue⟩, nofun⟩
          obtain rfl : user = v := by simpa using hv
          exact he
      · cases hstep
  | notificationPosted index =>
      simp only [step] at hstep
      split at hstep
      · next call user hr =>
          cases hstep
          have huser : Q user := h.requests _ (List.mem_of_getElem? hr)
          have hset := only_setRequest h index ⟨call, .notified user⟩ huser
          exact ⟨only_enqueue hset .notification trivial, nofun⟩
      · cases hstep
  | completionQueued index =>
      simp only [step] at hstep
      split at hstep
      · next call user hr =>
          cases hstep
          have huser : Q user := h.requests _ (List.mem_of_getElem? hr)
          exact ⟨only_finishRequest h fun v hv => by cases hv; exact huser, nofun⟩
      · cases hstep
  | runMain =>
      simp only [step] at hstep
      split at hstep
      · cases hstep
      · next task rest hqueue =>
          have htask := h.mainQueue task (hqueue ▸ List.mem_cons_self)
          have hrest : { s with mainQueue := rest }.Only Q :=
            ⟨h.currentUser, h.requests,
              fun t ht => h.mainQueue t (hqueue ▸ List.mem_cons_of_mem task ht)⟩
          have hrun := only_runTask hrest htask
          rwa [Option.some.inj hstep] at hrun

end Session

end FirebaseLogin
