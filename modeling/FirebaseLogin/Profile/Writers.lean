import FirebaseLogin.Auth.KnownUsers
import FirebaseLogin.System

/-!
Who writes a profile, in every reachable state.

A profile users/{u} has two writers: createOrUpdateUserInFirestore replaces it by
the data of a user with uid u, and updateUserInfo merges a name into it. No
scanned text and no device id reaches it.
-/

namespace FirebaseLogin

open DocumentStore Execution

variable {Q : User → Prop} {u : Uid} {w : Write}

/-- A write to users/{u}, with `Q` of the user whose data it stores. -/
def ProfileWrite (Q : User → Prop) (u : Uid) (w : Write) : Prop :=
  (∃ user now, user.uid = u ∧ Q user ∧
    w = ⟨userDoc u, .set (userData user now), .createUser⟩) ∨
  ∃ screen name history,
    w = ⟨userDoc u, .merge (dictionary [("name", .string name)]),
      .updateUserInfo screen u history⟩

def Completion.isUpdateUserInfo : Completion → Bool
  | .updateUserInfo _ _ _ => true
  | _ => false

/-- A write to a profile is one of the two, and every updateUserInfo is such a
write. -/
def ProfileShape (Q : User → Prop) (w : Write) : Prop :=
  (∃ u, ProfileWrite Q u w) ∨
    ((∀ u, w.target ≠ userDoc u) ∧ w.completion.isUpdateUserInfo = false)

theorem ProfileWrite.target_eq (h : ProfileWrite Q u w) : w.target = userDoc u := by
  obtain ⟨_, _, _, _, rfl⟩ | ⟨_, _, _, rfl⟩ := h <;> rfl

theorem ProfileShape.of_target (h : ProfileShape Q w) (hu : w.target = userDoc u) :
    ProfileWrite Q u w := by
  obtain ⟨v, hv⟩ | ⟨hne, -⟩ := h
  · rwa [userDoc_inj.mp (hv.target_eq.symm.trans hu)] at hv
  · exact absurd hu (hne u)

theorem ProfileShape.of_updateUserInfo (h : ProfileShape Q w)
    (hw : w.completion.isUpdateUserInfo) : ∃ u, ProfileWrite Q u w := by
  obtain hu | ⟨-, hnot⟩ := h
  · exact hu
  · simp [hnot] at hw

namespace Client

structure Only (Q : User → Prop) (c : Client) : Prop where
  session : c.session.Only Q
  reads : ∀ r ∈ c.reads, ∀ user, r.continuation = .createOrUpdateUser user →
    r.reference = userDoc user.uid ∧ Q user
  writes : ∀ w ∈ c.writes, ProfileShape Q w

theorem deviceNameDoc_ne_userDoc (c : Client) (v u : Uid) : c.deviceNameDoc v ≠ userDoc u :=
  devices_document_ne_userDoc (document_segment (devicesCollection v) c.device.deviceDocId) u

theorem profileShape_of_issuedBy {c : Client} {event : AppEvent} (hc : c.Only Q)
    (h : c.IssuedBy event w) : ProfileShape Q w := by
  cases h with
  | @createUser index now reference user answer hread hmissing =>
      have hread := hc.reads _ (List.mem_of_getElem? hread) user rfl
      exact .inl ⟨user.uid, .inl ⟨user, now, rfl, hread.2, rfl⟩⟩
  | @updateUserInfo screen v userId _ _ =>
      exact .inl ⟨userId, .inr ⟨screen, v.name, v.history, rfl⟩⟩
  | updateDeviceName _ _ => exact .inr ⟨c.deviceNameDoc_ne_userDoc _, rfl⟩
  | registerDevice _ hdoc | deleteDevice _ _ hdoc =>
      exact .inr ⟨devices_document_ne_userDoc hdoc, rfl⟩
  | saveLocation _ _ => exact .inr ⟨locationDoc_ne_userDoc _, rfl⟩

end Client

namespace System

variable {ι : Type} {s s' : System ι} {e : Event ι}

def Only (Q : User → Prop) (s : System ι) : Prop := ∀ i, (s.clients i).Only Q

def EventOnly (Q : User → Prop) : Event ι → Prop
  | .app _ (.auth event) => Session.EventOnly Q event
  | _ => True

theorem only_launch (server : Server) (devices : ι → UIDevice) {users : ι → Option User}
    (h : ∀ i, ∀ user ∈ users i, Q user) : (launch server devices users).Only Q :=
  fun i => ⟨⟨h i, nofun, nofun⟩, nofun, nofun⟩

theorem eventOnly_true (e : Event ι) : EventOnly (fun _ => True) e := by
  unfold EventOnly
  split
  · next event => cases event <;> trivial
  · trivial

/-- Every pending write to a profile is one of the two, whoever its user is. -/
def Shaped (s : System ι) : Prop := s.Only fun _ => True

theorem shaped_launch (server : Server) (devices : ι → UIDevice) (users : ι → Option User) :
    (launch server devices users).Shaped :=
  only_launch server devices fun _ _ _ => trivial

theorem profileShape_of_accepted (h : s.Only Q) (hw : s.accepted e = some w) :
    ProfileShape Q w := by
  obtain ⟨i, hmem⟩ := mem_writes_of_accepted hw
  exact (h i).writes w hmem

variable [DecidableEq ι]

theorem only_session_of_step (hstep : s.step e = some s') (he : EventOnly Q e) (h : s.Only Q)
    (j : ι) : (s'.clients j).session.Only Q := by
  have hj := clientStep_of_step hstep j
  generalize s'.clients j = c' at hj
  cases hj with
  | same | answered _ _ | acknowledged _ => exact (h j).session
  | handled hc =>
      obtain hsame | ⟨event, users, rfl, hsession⟩ := (Client.effect_of_handle hc).session_eq
      · exact hsame ▸ (h j).session
      · exact (Session.only_step hsession he (h j).session).1

/-- Every step keeps the writers of profiles to the two above. -/
theorem only_of_step (hstep : s.step e = some s') (he : EventOnly Q e) (h : s.Only Q) :
    s'.Only Q := by
  refine fun j => ⟨only_session_of_step hstep he h j, fun r hr user huser => ?_,
    fun w hw => ?_⟩
  · obtain hr | ⟨index, reference, continuation, a, hmem, -, rfl⟩ |
        ⟨event, session, users, user', rfl, hsession, hmem, rfl⟩ | ⟨screen, userId, rfl⟩ :=
      mem_reads_of_step hstep hr
    · exact (h j).reads r hr user huser
    · exact (h j).reads _ hmem user huser
    · obtain rfl : user' = user := by simpa using huser
      exact ⟨rfl, (Session.only_step hsession he (h j).session).2 user' hmem⟩
    · cases huser
  · obtain hw | ⟨event, -, hissued⟩ := mem_writes_of_step hstep hw
    · exact (h j).writes w hw
    · exact Client.profileShape_of_issuedBy (h j) hissued

theorem shaped_step (hstep : s.step e = some s') (h : s.Shaped) : s'.Shaped :=
  only_of_step hstep (eventOnly_true e) h

/-- What one step does to a profile: nothing, the creation by a user with that
uid, or the merge of a name. -/
theorem profile_of_step (hstep : s.step e = some s') (h : s.Only Q) (u : Uid) :
    s'.server.lookup (userDoc u) = s.server.lookup (userDoc u) ∨
    (∃ user now, user.uid = u ∧ Q user ∧
      s.accepted e = some ⟨userDoc u, .set (userData user now), .createUser⟩ ∧
      s'.server.lookup (userDoc u) = some (userData user now)) ∨
    ∃ screen name history,
      s.accepted e = some ⟨userDoc u, .merge (dictionary [("name", .string name)]),
        .updateUserInfo screen u history⟩ ∧
      s'.server.lookup (userDoc u) =
        (Operation.merge (dictionary [("name", .string name)])).apply
          (s.server.lookup (userDoc u)) := by
  obtain hsame | ⟨w, hw, htarget, hlookup⟩ := lookup_of_step hstep (userDoc u)
  · exact .inl hsame
  · obtain ⟨user, now, huser, hq, rfl⟩ | ⟨screen, name, history, rfl⟩ :=
      (profileShape_of_accepted h hw).of_target htarget
    · exact .inr (.inl ⟨user, now, huser, hq, hw, hlookup⟩)
    · exact .inr (.inr ⟨screen, name, history, hw, hlookup⟩)

section Examples

/-- A launch with a restored user whose profile is missing: the listener's read
finds nothing, the profile is created, and its form is saved. -/
def firstProfileRun : List (Event Unit) :=
  [.app () (.auth .listenToAuthState), .app () (.auth .runMain), .answerRead () 0,
    .app () (.readCallback 0 7), .acceptWrite (), .app () .openProfile,
    .app () (.profileAppeared 0), .answerRead () 0, .app () (.readCallback 0 8),
    .app () (.editName 0 "Name"), .app () (.updateUserInfo 0), .acceptWrite (),
    .app () (.writeCallback 1 9), .acceptWrite ()]

end Examples

end System

end FirebaseLogin
