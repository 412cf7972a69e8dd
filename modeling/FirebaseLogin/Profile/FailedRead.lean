import FirebaseLogin.Profile.Writers

/-!
A read of createOrUpdateUserInFirestore that fails. Its callback takes the branch
of a missing document and replaces the profile. An existing profile is safe from
these invocations exactly as long as none of their reads fails.
-/

namespace FirebaseLogin

open DocumentStore Execution

def Event.isUpdateUserInfo {ι : Type} : Event ι → Bool
  | .app _ (.updateUserInfo _) => true
  | _ => false

namespace System

variable {ι : Type} {s s' : System ι} {e : Event ι} {u : Uid} {d : Document}

/-- The user of the invocation whose callback runs in this step, if its
getDocument ended with an error. -/
def failedRead (s : System ι) : Event ι → Option Uid
  | .app i (.readCallback index _) =>
      match (s.clients i).reads[index]? with
      | some ⟨_, .createOrUpdateUser user, some ⟨.error _, _⟩⟩ => some user.uid
      | _ => none
  | _ => none

def FailedReadSilent (u : Uid) (s : System ι) (e : Event ι) (_ : System ι) : Prop :=
  s.failedRead e = some u → s.issued e = []

def NoFailedRead (u : Uid) (s : System ι) (e : Event ι) (_ : System ι) : Prop :=
  s.failedRead e ≠ some u

theorem issued_of_failedRead (h : s.failedRead e = some u) : s.issued e ≠ [] := by
  cases e with
  | app i event =>
      cases event with
      | readCallback index now =>
          simp only [failedRead] at h
          split at h
          · next user error revision hread =>
              simp [issued, Client.handle, Client.readCallback, hread,
                Client.createOrUpdateCallback]
          · cases h
      | _ => cases h
  | answerRead _ _ | failRead _ _ _ | acceptWrite _ | rejectWrite _ _ => cases h

theorem failedReadSilent_iff : s.FailedReadSilent u e s' ↔ s.NoFailedRead u e s' :=
  ⟨fun hsilent h => issued_of_failedRead h (hsilent h), fun hno h => absurd h hno⟩

theorem failedRead_of_error {i : ι} {index : Nat} {now : Timestamp}
    {reference : DocumentReference} {user : User} {error : String}
    {revision : Option (DocumentReference × Nat)}
    (h : (s.clients i).reads[index]? =
      some ⟨reference, .createOrUpdateUser user, some ⟨.error error, revision⟩⟩) :
    s.failedRead (.app i (.readCallback index now)) = some user.uid := by
  simp [failedRead, h]

/-- The profile exists, nothing pending writes it, and no read of it by
createOrUpdateUserInFirestore has found it missing. -/
structure SurvivalInvariant (u : Uid) (d : Document) (s : System ι) : Prop where
  shaped : s.Shaped
  stored : s.server.lookup (userDoc u) = some d
  writes : ∀ i, ∀ w ∈ (s.clients i).writes, w.target ≠ userDoc u
  reads : ∀ i, ∀ r ∈ (s.clients i).reads, ∀ user a, r.continuation = .createOrUpdateUser user →
    user.uid = u → r.answer = some a → a.result ≠ .ok none

theorem survivalInvariant_launch {server : Server} (devices : ι → UIDevice)
    (users : ι → Option User) (h : server.lookup (userDoc u) = some d) :
    (launch server devices users).SurvivalInvariant u d :=
  ⟨shaped_launch server devices users, h, nofun, nofun⟩

theorem snapshot_of_survival (h : s.SurvivalInvariant u d) (i : ι) :
    (s.clients i).snapshot s.server (userDoc u) = some d := by
  rw [← h.stored]
  apply overlay_of_not_target
  intro m hm
  obtain ⟨w, hw, rfl⟩ := List.mem_map.mp hm
  exact h.writes i w hw

/-- No write to the profile is issued but by a failed read. -/
theorem target_ne_of_issuedBy (h : s.SurvivalInvariant u d) {i : ι} {event : AppEvent}
    (hread : s.failedRead (.app i event) ≠ some u)
    (hupdate : (Event.app i event).isUpdateUserInfo = false) {w : Write}
    (hw : (s.clients i).IssuedBy event w) : w.target ≠ userDoc u := by
  cases hw with
  | @createUser index now reference user answer hmem hmissing =>
      intro htarget
      have huser := userDoc_inj.mp htarget
      obtain ⟨result, revision⟩ := answer
      match result with
      | .ok (some d) => exact hmissing d rfl
      | .ok none => exact h.reads i _ (List.mem_of_getElem? hmem) user _ rfl huser rfl rfl
      | .error error => exact hread (huser ▸ failedRead_of_error hmem)
  | updateUserInfo _ _ => cases hupdate
  | updateDeviceName _ _ => exact (s.clients i).deviceNameDoc_ne_userDoc _ u
  | registerDevice _ hdoc | deleteDevice _ _ hdoc => exact devices_document_ne_userDoc hdoc u
  | saveLocation _ _ => exact locationDoc_ne_userDoc _ u

variable [DecidableEq ι]

theorem survivalInvariant_step (hstep : s.step e = some s') (hread : s.NoFailedRead u e s')
    (hupdate : e.isUpdateUserInfo = false) (h : s.SurvivalInvariant u d) :
    s'.SurvivalInvariant u d := by
  refine ⟨shaped_step hstep h.shaped, ?_, fun j w hw => ?_, fun j r hr user a huser hu ha => ?_⟩
  · obtain hsame | ⟨w, hw, htarget, -⟩ := lookup_of_step hstep (userDoc u)
    · exact hsame.trans h.stored
    · obtain ⟨i, hmem⟩ := mem_writes_of_accepted hw
      exact absurd htarget (h.writes i w hmem)
  · obtain hw | ⟨event, rfl, hissued⟩ := mem_writes_of_step hstep hw
    · exact h.writes j w hw
    · exact target_ne_of_issuedBy h hread hupdate hissued
  · obtain hr | ⟨index, hmem, ⟨-, rfl⟩ | ⟨error, -, rfl⟩⟩ := answered_of_step hstep hr ha
    · exact h.reads j r hr user a huser hu ha
    · have hreference : r.reference = userDoc u := by
        rw [← hu]
        exact ((h.shaped j).reads _ hmem user huser).1
      simp [answer, hreference, snapshot_of_survival h j]
    · simp

/-- Over every run of sign-ups, sign-ins, auth listeners and everything else
except saved profile forms: a failed read issues no write and an existing
profile is kept exactly, exactly when no read of the profile by
createOrUpdateUserInFirestore calls back with an error. -/
theorem profile_survives_iff (server : Server) (devices : ι → UIDevice) (users : ι → Option User)
    (u : Uid) (es : List (Event ι)) (t : System ι)
    (hes : ∀ e ∈ es, e.isUpdateUserInfo = false)
    (hrun : run step (launch server devices users) es = some t) :
    (Along step (FailedReadSilent u) (launch server devices users) es ∧
      ∀ d, server.lookup (userDoc u) = some d → t.server.lookup (userDoc u) = some d) ↔
    Along step (NoFailedRead u) (launch server devices users) es := by
  constructor
  · rintro ⟨hsilent, -⟩
    exact along_mono (fun _ _ _ _ => failedReadSilent_iff.mp) hsilent
  · intro hno
    refine ⟨along_mono (fun _ _ _ _ => failedReadSilent_iff.mpr) hno, fun d hd => ?_⟩
    have hcondition := along_and.mpr ⟨hno, along_of_events hes⟩
    have hfinal : t.SurvivalInvariant u d := by
      apply run_invariant _ (survivalInvariant_launch devices users hd) hcondition hrun
      intro s e s' hstep hc h
      exact survivalInvariant_step hstep hc.1 hc.2 h
    exact hfinal.stored

section Examples

instance (u : Uid) (s : System ι) (e : Event ι) (s' : System ι) :
    Decidable (s.NoFailedRead u e s') :=
  inferInstanceAs (Decidable (_ ≠ _))

/-- The listener's read succeeds. -/
def onlineLaunch : List (Event Unit) :=
  [.app () (.auth .listenToAuthState), .app () (.auth .runMain), .answerRead () 0,
    .app () (.readCallback 0 7)]

theorem profile_survives_online :
    ∃ t d, run step (single storedProfile (some Session.userA)) onlineLaunch = some t ∧
      storedProfile.lookup (userDoc Session.userA.uid) = some d ∧
      t.server.lookup (userDoc Session.userA.uid) = some d := by
  have hkept := fun t hrun => (profile_survives_iff storedProfile (fun _ => phone)
    (fun _ => some Session.userA) Session.userA.uid onlineLaunch t (by decide) hrun).mpr (by decide)
  exact ⟨_, _, rfl, rfl, (hkept _ rfl).2 _ rfl⟩

/-- The listener's read fails offline; the write it issues is applied later. -/
def offlineLaunch : List (Event Unit) :=
  [.app () (.auth .listenToAuthState), .app () (.auth .runMain),
    .failRead () 0 "Failed to get document because the client is offline.",
    .app () (.readCallback 0 7), .acceptWrite ()]

/-- The stored name and creation time are gone. -/
theorem failedRead_replaces_profile :
    (¬ Along step (FailedReadSilent Session.userA.uid) (single storedProfile (some Session.userA))
      offlineLaunch) ∧
    ∃ t, run step (single storedProfile (some Session.userA)) offlineLaunch = some t ∧
      (t.clients ()).writes = [] ∧
      (storedProfile.lookup (userDoc Session.userA.uid)).isSome ∧
      t.server.lookup (userDoc Session.userA.uid) = some (userData Session.userA 7) ∧
      nameOf t.server (userDoc Session.userA.uid) ≠ nameOf storedProfile (userDoc Session.userA.uid) := by
  refine ⟨fun h => ?_, _, rfl, rfl, by decide, rfl, by decide⟩
  have hno : Along step (NoFailedRead Session.userA.uid) _ offlineLaunch :=
    along_mono (fun _ _ _ _ => failedReadSilent_iff.mp) h
  exact absurd hno (by decide)

end Examples

end System

end FirebaseLogin
