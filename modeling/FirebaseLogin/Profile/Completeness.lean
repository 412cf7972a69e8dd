import FirebaseLogin.Profile.Writers

/-!
Complete profiles. The creation stores all four fields; the merge of a name
leaves a profile complete when there is one and stores a partial profile when
there is none. Later invocations of createOrUpdateUserInFirestore trust that a
document exists, so nothing repairs it.
-/

namespace FirebaseLogin

open DocumentStore Execution

def profileFields : List String := ["uid", "name", "email", "createdAt"]

def IsComplete (d : Document) : Prop := ∀ key ∈ profileFields, (d.lookup key).isSome

def ProfilesComplete (server : Server) : Prop :=
  ∀ u d, server.lookup (userDoc u) = some d → IsComplete d

theorem isComplete_userData (user : User) (now : Timestamp) : IsComplete (userData user now) := by
  simp [IsComplete, profileFields, userData]

theorem isComplete_merge {d old merged : Document} (hold : IsComplete old)
    (h : (Operation.merge d).apply (some old) = some merged) : IsComplete merged := by
  intro key hkey
  have hfield : field ((Operation.merge d).apply (some old)) key = _ :=
    field_apply_merge d (some old) key
  rw [h, field_some, field_some] at hfield
  rw [hfield, Option.isSome_or, hold key hkey, Bool.or_true]

theorem not_isComplete_name (name : String) :
    ¬ IsComplete (dictionary [("name", .string name)]) := by
  intro h
  have := h "uid" (by decide)
  simp at this

namespace System

variable {ι : Type} [DecidableEq ι] {s s' : System ι} {e : Event ι}

/-- An updateUserInfo takes effect on a profile that exists. -/
def MergesIntoProfile (s : System ι) (e : Event ι) (_ : System ι) : Prop :=
  ∀ w ∈ s.accepted e, w.completion.isUpdateUserInfo → (s.server.lookup w.target).isSome

def CompletenessInvariant (s : System ι) : Prop :=
  s.Shaped ∧ ProfilesComplete s.server

theorem profilesComplete_of_step (hstep : s.step e = some s') (h : s.CompletenessInvariant)
    (hmerge : s.MergesIntoProfile e s') : ProfilesComplete s'.server := by
  intro u d hd
  obtain hsame | ⟨user, now, -, -, -, hset⟩ | ⟨screen, name, history, haccepted, hname⟩ :=
    profile_of_step hstep h.1 u
  · exact h.2 u d (hsame ▸ hd)
  · obtain rfl : userData user now = d := by simpa [hset] using hd
    exact isComplete_userData user now
  · obtain ⟨old, hold⟩ := Option.isSome_iff_exists.mp (hmerge _ haccepted rfl)
    rw [hname, hold] at hd
    exact isComplete_merge (h.2 u old hold) hd

/-- A merge into a missing profile leaves it without a uid. -/
theorem mergesIntoProfile_of_complete (hstep : s.step e = some s') (h : s.Shaped)
    (hcomplete : ProfilesComplete s'.server) : s.MergesIntoProfile e s' := by
  intro w hw hupdate
  obtain ⟨u, ⟨_, _, _, _, rfl⟩ | ⟨screen, name, history, rfl⟩⟩ :=
    (profileShape_of_accepted h hw).of_updateUserInfo hupdate
  · cases hupdate
  · cases hold : s.server.lookup (userDoc u) with
    | some d => rfl
    | none =>
        have hlookup := lookup_of_accepted hstep hw
        rw [hold] at hlookup
        exact absurd (hcomplete u _ hlookup) (not_isComplete_name name)

theorem completenessInvariant_step (hstep : s.step e = some s') (h : s.CompletenessInvariant)
    (hmerge : s.MergesIntoProfile e s') : s'.CompletenessInvariant :=
  ⟨shaped_step hstep h.1, profilesComplete_of_step hstep h hmerge⟩

/-- From a store without profiles, every profile is complete in every state of a
run exactly when no updateUserInfo of the run takes effect on a missing profile. -/
theorem profilesComplete_iff (server : Server) (devices : ι → UIDevice)
    (users : ι → Option User) (hempty : ∀ u, server.lookup (userDoc u) = none)
    (es : List (Event ι)) :
    Along step (fun _ _ s' => ProfilesComplete s'.server) (launch server devices users) es ↔
      Along step MergesIntoProfile (launch server devices users) es := by
  apply along_congr (I := CompletenessInvariant)
  · intro s e s' hstep hmerge h
    exact completenessInvariant_step hstep h hmerge
  · intro s e s' hstep h
    exact ⟨mergesIntoProfile_of_complete hstep h.1, profilesComplete_of_step hstep h⟩
  · refine ⟨shaped_launch server devices users, fun u d hd => ?_⟩
    simp [launch, hempty u] at hd

instance (s : System ι) (e : Event ι) (s' : System ι) : Decidable (s.MergesIntoProfile e s') :=
  inferInstanceAs (Decidable (∀ w ∈ s.accepted e, _))

theorem profilesComplete_firstProfileRun :
    (∃ t, run step (single ∅ (some Session.userA)) firstProfileRun = some t ∧
      (t.server.lookup (userDoc Session.userA.uid)).isSome) ∧
    Along step (fun _ _ s' => ProfilesComplete s'.server) (single ∅ (some Session.userA))
      firstProfileRun :=
  ⟨⟨_, rfl, by decide⟩,
    (profilesComplete_iff ∅ _ _ (fun _ => rfl) firstProfileRun).mpr (by decide)⟩

/-- The form is saved while the read of createOrUpdateUserInFirestore is still
unanswered; the answer then finds a document and writes nothing. -/
def saveBeforeCreateRun : List (Event Unit) :=
  [.app () (.auth .listenToAuthState), .app () (.auth .runMain), .app () .openProfile,
    .app () (.profileAppeared 0), .answerRead () 1, .app () (.readCallback 1 7),
    .app () (.editName 0 "Name"), .app () (.updateUserInfo 0), .acceptWrite (),
    .answerRead () 0, .app () (.readCallback 0 8)]

/-- The profile stays without uid, email and createdAt. -/
theorem partialProfile_reached :
    ¬ Along step (fun _ _ s' => ProfilesComplete s'.server) (single ∅ (some Session.userA))
      saveBeforeCreateRun := by
  intro h
  have hfinal := run_invariant (I := fun s : System Unit => ProfilesComplete s.server)
    (fun _ _ _ _ hc _ => hc) (fun _ _ hd => by cases hd) h rfl
  exact not_isComplete_name "Name" (hfinal Session.userA.uid _ rfl)

end System

end FirebaseLogin
