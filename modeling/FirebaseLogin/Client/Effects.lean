import FirebaseLogin.Client.Issued

/-!
What one event of the app does to the client that handles it: which reads it
starts, whether the session moves, and which forms change their name.
-/

namespace FirebaseLogin

open DocumentStore

namespace Client

@[simp] theorem foldl_createOrUpdate (c : Client) (users : List User) :
    users.foldl createOrUpdateUserInFirestore c =
      { c with
        reads := c.reads ++
          users.map fun user => ⟨userDoc user.uid, .createOrUpdateUser user, none⟩ } := by
  induction users generalizing c with
  | nil => simp
  | cons user users ih => simp [ih, createOrUpdateUserInFirestore]

variable {c c' : Client} {e : AppEvent} {ws : List Write} {r : PendingRead} {now : Timestamp}

/-- Nothing is read or written and every form keeps its name and history. -/
structure Quiet (c c' : Client) : Prop where
  session : c'.session = c.session
  reads : c'.reads = c.reads
  writes : c'.writes = c.writes
  forms : ∀ v' ∈ c'.screens, ∃ v ∈ c.screens, v'.name = v.name ∧ v'.history = v.history

theorem quiet_of_screens (hsession : c'.session = c.session) (hreads : c'.reads = c.reads)
    (hwrites : c'.writes = c.writes) (hscreens : c'.screens = c.screens) : Quiet c c' :=
  ⟨hsession, hreads, hwrites, fun v hv => ⟨v, hscreens ▸ hv, rfl, rfl⟩⟩

theorem mem_updateScreen {screen : Nat} {f : UpdateUserView → UpdateUserView} {v : UpdateUserView}
    (hv : v ∈ (c.updateScreen screen f).screens) :
    v ∈ c.screens ∨ ∃ v₀ ∈ c.screens, v = f v₀ := by
  obtain ⟨k, hk⟩ := List.mem_iff_getElem?.mp hv
  rw [updateScreen, List.getElem?_modify] at hk
  obtain ⟨v₀, hv₀, rfl⟩ := Option.map_eq_some_iff.mp hk
  have hmem := List.mem_of_getElem? hv₀
  by_cases hscreen : screen = k
  · exact .inr ⟨v₀, hmem, by simp [hscreen]⟩
  · exact .inl (by simpa [hscreen] using hmem)

theorem quiet_updateScreen (c : Client) (screen : Nat) {f : UpdateUserView → UpdateUserView}
    (hname : ∀ v, (f v).name = v.name) (hhistory : ∀ v, (f v).history = v.history) :
    Quiet c (c.updateScreen screen f) := by
  refine ⟨rfl, rfl, rfl, fun v hv => ?_⟩
  obtain hv | ⟨v₀, hv₀, rfl⟩ := mem_updateScreen hv
  · exact ⟨v, hv, rfl, rfl⟩
  · exact ⟨v₀, hv₀, hname v₀, hhistory v₀⟩

theorem quiet_runCompletion {completion : Completion} {error : Option String}
    (h : c.runCompletion now completion error = (c', ws)) : Quiet c c' := by
  cases completion with
  | createUser | saveLocation =>
      cases h
      exact quiet_of_screens rfl rfl rfl rfl
  | updateUserInfo screen userId history =>
      cases error <;> (cases h; exact quiet_updateScreen _ _ (fun _ => rfl) fun _ => rfl)
  | updateDeviceName screen =>
      cases error with
      | none =>
          cases h
          exact quiet_of_screens rfl rfl rfl rfl
      | some error =>
          cases h
          exact quiet_updateScreen _ _ (fun _ => rfl) fun _ => rfl
  | registerDevice | deleteDevice =>
      cases error <;> (cases h; exact quiet_of_screens rfl rfl rfl rfl)

/-- What an event does to the client that handles it. -/
inductive Effect (c : Client) : AppEvent → Client → Prop where
  | auth {event : AuthEvent} {session : Session} {users : List User}
      (hstep : c.session.step event = some (session, users)) :
      Effect c (.auth event)
        { c with
          session := session
          reads := c.reads ++
            users.map fun user => ⟨userDoc user.uid, .createOrUpdateUser user, none⟩ }
  | userRead {index : Nat} {now : Timestamp} {reference : DocumentReference} {user : User}
      {answer : ReadAnswer}
      (hread : c.reads[index]? = some ⟨reference, .createOrUpdateUser user, some answer⟩) :
      Effect c (.readCallback index now) { c with reads := c.reads.eraseIdx index }
  | formRead {index : Nat} {now : Timestamp} {reference : DocumentReference} {screen : Nat}
      {answer : ReadAnswer}
      (hread : c.reads[index]? = some ⟨reference, .fetchUserInfo screen, some answer⟩) :
      Effect c (.readCallback index now)
        (updateScreen { c with reads := c.reads.eraseIdx index } screen
          (·.fetchUserInfoCallback c.session.currentUser answer))
  | opened : Effect c .openProfile { c with screens := c.screens ++ [.opened c.device] }
  | fetched {screen : Nat} {userId : Uid} (huser : c.session.currentUid = some userId) :
      Effect c (.profileAppeared screen)
        { c with reads := c.reads ++ [⟨userDoc userId, .fetchUserInfo screen, none⟩] }
  | edited {screen : Nat} {name : String} :
      Effect c (.editName screen name)
        (c.updateScreen screen fun v =>
          { v with name := name, history := { v.history with edited := true } })
  | quiet {e : AppEvent} {c' : Client} (h : Quiet c c') : Effect c e c'

theorem effect_of_handle (h : c.handle e = some (c', ws)) : Effect c e c' := by
  cases e with
  | auth event =>
      obtain ⟨⟨session, users⟩, hstep, hc⟩ := Option.map_eq_some_iff.mp h
      simp only [foldl_createOrUpdate, Prod.mk.injEq] at hc
      obtain ⟨rfl, -⟩ := hc
      exact .auth hstep
  | readCallback index now =>
      obtain ⟨_, _, _, hread, rfl, -⟩ | ⟨_, _, _, hread, rfl, -⟩ := readCallback_cases h
      · exact .userRead hread
      · exact .formRead hread
  | writeCallback index now =>
      obtain ⟨completion, error, -, hrun⟩ := writeCallback_cases h
      obtain ⟨hsession, hreads, hwrites, hforms⟩ := quiet_runCompletion hrun
      exact .quiet ⟨hsession, hreads, hwrites, hforms⟩
  | openProfile =>
      cases h
      exact .opened
  | profileAppeared screen =>
      obtain ⟨_, -, hc⟩ := Option.map_eq_some_iff.mp h
      obtain rfl : _ = c' := congrArg Prod.fst hc
      unfold fetchUserInfo
      split
      · exact .quiet (quiet_updateScreen c screen (fun _ => rfl) fun _ => rfl)
      · next userId huser => exact .fetched huser
  | editName screen name =>
      obtain ⟨_, -, hc⟩ := Option.map_eq_some_iff.mp h
      obtain rfl : _ = c' := congrArg Prod.fst hc
      exact .edited
  | editDeviceName screen name =>
      obtain ⟨_, -, hc⟩ := Option.map_eq_some_iff.mp h
      obtain rfl : _ = c' := congrArg Prod.fst hc
      exact .quiet (quiet_updateScreen c screen (fun _ => rfl) fun _ => rfl)
  | updateUserInfo screen =>
      obtain ⟨v, -, hc⟩ := Option.map_eq_some_iff.mp h
      obtain rfl : _ = c' := congrArg Prod.fst hc
      unfold updateUserInfo
      split
      · exact .quiet (quiet_updateScreen c screen (fun _ => rfl) fun _ => rfl)
      · exact .quiet (quiet_of_screens rfl rfl rfl rfl)
  | deviceList event =>
      obtain ⟨_, -, hc⟩ := Option.map_eq_some_iff.mp h
      obtain rfl : _ = c' := congrArg Prod.fst hc
      exact .quiet (quiet_of_screens rfl rfl rfl rfl)
  | scanFailed error =>
      cases h
      exact .quiet (quiet_of_screens rfl rfl rfl rfl)
  | registerDevice uuid now =>
      obtain ⟨rfl, -⟩ | ⟨_, _, -, -, rfl, -⟩ := writeDevice_cases h <;>
        exact .quiet (quiet_of_screens rfl rfl rfl rfl)
  | deleteDevice row =>
      simp only [handle, Option.ite_none_right_eq_some] at h
      obtain ⟨rfl, -⟩ | ⟨_, _, -, -, rfl, -⟩ := writeDevice_cases h.2 <;>
        exact .quiet (quiet_of_screens rfl rfl rfl rfl)
  | didUpdateLocations locations now =>
      obtain rfl : _ = c' := congrArg Prod.fst (Option.some.inj h)
      unfold didUpdateLocations
      split <;> exact .quiet (quiet_of_screens rfl rfl rfl rfl)

/-- The writes an event issues are queued by the system, not by the client. -/
theorem Effect.writes_eq (h : Effect c e c') : c'.writes = c.writes := by
  cases h with
  | quiet h => exact h.writes
  | auth | userRead | formRead | opened | fetched | edited => rfl

theorem runCompletion_locationManager (c : Client) (now : Timestamp) (completion : Completion)
    (error : Option String) :
    (c.runCompletion now completion error).1.locationManager = c.locationManager := by
  cases completion <;> cases error <;> rfl

/-- The location manager moves with a batch of positions only. -/
theorem locationManager_of_handle (h : c.handle e = some (c', ws)) :
    c'.locationManager = c.locationManager ∨
      ∃ locations location now, e = .didUpdateLocations locations now ∧
        locations.getLast? = some location ∧
        c'.locationManager = { c.locationManager with currentLocation := some location } := by
  cases e with
  | auth event =>
      obtain ⟨⟨session, users⟩, -, hc⟩ := Option.map_eq_some_iff.mp h
      simp only [foldl_createOrUpdate, Prod.mk.injEq] at hc
      exact .inl (hc.1 ▸ rfl)
  | readCallback index now =>
      obtain ⟨_, _, _, -, rfl, -⟩ | ⟨_, _, _, -, rfl, -⟩ := readCallback_cases h
      · exact .inl rfl
      · exact .inl rfl
  | writeCallback index now =>
      obtain ⟨completion, error, -, hrun⟩ := writeCallback_cases h
      have hkept := runCompletion_locationManager
        { c with acknowledgements := c.acknowledgements.eraseIdx index } now completion error
      rw [hrun] at hkept
      exact .inl hkept
  | openProfile | scanFailed error => cases h; exact .inl rfl
  | profileAppeared screen =>
      obtain ⟨_, _, hc⟩ := Option.map_eq_some_iff.mp h
      obtain ⟨rfl, -⟩ := Prod.mk.inj hc
      unfold fetchUserInfo
      split <;> exact .inl rfl
  | editName screen name | editDeviceName screen name | deviceList event =>
      obtain ⟨_, _, hc⟩ := Option.map_eq_some_iff.mp h
      cases hc
      exact .inl rfl
  | updateUserInfo screen =>
      obtain ⟨v, -, hv⟩ := Option.map_eq_some_iff.mp h
      unfold updateUserInfo at hv
      split at hv <;> (cases hv; exact .inl rfl)
  | registerDevice uuid now =>
      obtain ⟨rfl, -⟩ | ⟨_, _, _, _, rfl, -⟩ := writeDevice_cases h
      · exact .inl rfl
      · exact .inl rfl
  | deleteDevice row =>
      simp only [handle, Option.ite_none_right_eq_some] at h
      obtain ⟨rfl, -⟩ | ⟨_, _, _, _, rfl, -⟩ := writeDevice_cases h.2
      · exact .inl rfl
      · exact .inl rfl
  | didUpdateLocations locations now =>
      obtain hlocations : c.didUpdateLocations locations now = (c', ws) := by simpa [handle] using h
      unfold didUpdateLocations at hlocations
      split at hlocations
      · cases hlocations
        exact .inl rfl
      · next location hlast =>
          cases hlocations
          exact .inr ⟨locations, location, now, rfl, hlast, rfl⟩

theorem Effect.session_eq (h : Effect c e c') :
    c'.session = c.session ∨
      ∃ event users, e = .auth event ∧ c.session.step event = some (c'.session, users) := by
  cases h with
  | quiet h => exact .inl h.session
  | auth hstep => exact .inr ⟨_, _, rfl, hstep⟩
  | userRead | formRead | opened | fetched | edited => exact .inl rfl

/-- A read that was not pending before has just been started: it is the read of
a createOrUpdateUserInFirestore for a user the session passed on, or of a
fetchUserInfo. -/
theorem Effect.mem_reads (h : Effect c e c') (hr : r ∈ c'.reads) :
    r ∈ c.reads ∨
    (∃ event session users user, e = .auth event ∧
      c.session.step event = some (session, users) ∧ user ∈ users ∧
      r = ⟨userDoc user.uid, .createOrUpdateUser user, none⟩) ∨
    ∃ screen userId, r = ⟨userDoc userId, .fetchUserInfo screen, none⟩ := by
  cases h with
  | quiet h => exact .inl (h.reads ▸ hr)
  | opened | edited => exact .inl hr
  | userRead | formRead => exact .inl (List.mem_of_mem_eraseIdx hr)
  | fetched huser =>
      obtain hr | hr := List.mem_append.mp hr
      · exact .inl hr
      · exact .inr (.inr ⟨_, _, List.mem_singleton.mp hr⟩)
  | auth hstep =>
      obtain hr | hr := List.mem_append.mp hr
      · exact .inl hr
      · obtain ⟨user, huser, rfl⟩ := List.mem_map.mp hr
        exact .inr (.inl ⟨_, _, _, user, rfl, hstep, huser, rfl⟩)

theorem mem_screens_of_form {screen : Nat} {v : UpdateUserView} (h : c.form? screen = some v) :
    v ∈ c.screens :=
  List.mem_of_getElem? (Option.filter_eq_some_iff.mp h).1

/-- A fetch either leaves the name and history of its form alone or loads both
from the document it read. -/
theorem fetchUserInfoCallback_cases (v : UpdateUserView) (currentUser : Option User)
    (answer : ReadAnswer) :
    ((v.fetchUserInfoCallback currentUser answer).name = v.name ∧
      (v.fetchUserInfoCallback currentUser answer).history = v.history) ∨
    ∃ data, answer.result = .ok (some data) ∧
      (v.fetchUserInfoCallback currentUser answer).name =
        (asString (data.lookup "name")).getD "" ∧
      (v.fetchUserInfoCallback currentUser answer).history.revision =
        if (asString (data.lookup "name")).isSome then answer.revision else none := by
  unfold UpdateUserView.fetchUserInfoCallback
  split
  · exact .inl ⟨rfl, rfl⟩
  · exact .inl ⟨rfl, rfl⟩
  · next data hresult => exact .inr ⟨data, hresult, rfl, rfl⟩

/-- An unedited form whose name has a known revision had it before, or has just
loaded it as the string of the document a fetch read. -/
theorem Effect.mem_screens {v : UpdateUserView} {revision : DocumentReference × Nat}
    (h : Effect c e c') (hv : v ∈ c'.screens) (hedited : v.history.edited = false)
    (hrevision : v.history.revision = some revision) :
    (∃ v₀ ∈ c.screens, v.name = v₀.name ∧ v.history = v₀.history) ∨
    ∃ reference screen answer data,
      ⟨reference, .fetchUserInfo screen, some answer⟩ ∈ c.reads ∧
      answer.result = .ok (some data) ∧ data.lookup "name" = some (.string v.name) ∧
      answer.revision = some revision := by
  cases h with
  | quiet h => exact .inl (h.forms v hv)
  | auth | userRead | fetched => exact .inl ⟨v, hv, rfl, rfl⟩
  | opened =>
      obtain hv | hv := List.mem_append.mp hv
      · exact .inl ⟨v, hv, rfl, rfl⟩
      · obtain rfl := List.mem_singleton.mp hv
        cases hrevision
  | edited =>
      obtain hv | ⟨v₀, -, rfl⟩ := mem_updateScreen hv
      · exact .inl ⟨v, hv, rfl, rfl⟩
      · cases hedited
  | @formRead index now reference screen answer hread =>
      obtain hv | ⟨v₀, hv₀, rfl⟩ := mem_updateScreen hv
      · exact .inl ⟨v, hv, rfl, rfl⟩
      · obtain ⟨hname, hhistory⟩ | ⟨data, hdata, hname, hloaded⟩ :=
          fetchUserInfoCallback_cases v₀ c.session.currentUser answer
        · exact .inl ⟨v₀, hv₀, hname, hhistory⟩
        · rw [hloaded] at hrevision
          split at hrevision
          · next hstring =>
              refine .inr ⟨reference, screen, answer, data, List.mem_of_getElem? hread, hdata,
                ?_, hrevision⟩
              rw [hname]
              exact asString_isSome hstring
          · cases hrevision

end Client

end FirebaseLogin
