import FirebaseLogin.Profile.Writers

/-!
The identity fields of a profile. Whatever the clients do, the uid and email
stored under users/{u} are those of u, and neither is lost once it is there. The
only assumption is that Auth reports one email per account.
-/

namespace FirebaseLogin

open DocumentStore Execution

structure IdentityRight (authEmail : Uid → Option String) (u : Uid) (d : Option Document) :
    Prop where
  uid : ∀ x, field d "uid" = some x → x = .string u.val
  email : ∀ x, field d "email" = some x → x = .string ((authEmail u).getD "")

structure IdentityKept (d d' : Option Document) : Prop where
  uid : ∀ x, field d "uid" = some x → field d' "uid" = some x
  email : ∀ x, field d "email" = some x → field d' "email" = some x

def EmailFrom (authEmail : Uid → Option String) (user : User) : Prop :=
  user.email = authEmail user.uid

variable {authEmail : Uid → Option String} {u : Uid} {d : Option Document}

theorem identityRight_userData {user : User} (h : EmailFrom authEmail user) (now : Timestamp) :
    IdentityRight authEmail user.uid (some (userData user now)) := by
  refine ⟨fun x hx => ?_, fun x hx => ?_⟩
  · simpa [userData, eq_comm] using hx
  · rw [← h]
    simpa [userData, eq_comm] using hx

/-- The creation stores both fields, so right values can only be replaced by
themselves. -/
theorem identityKept_userData {user : User} (hemail : EmailFrom authEmail user) (now : Timestamp)
    (h : IdentityRight authEmail user.uid d) : IdentityKept d (some (userData user now)) := by
  refine ⟨fun x hx => ?_, fun x hx => ?_⟩
  · simp [userData, h.uid x hx]
  · simp [userData, h.email x hx, show user.email = authEmail user.uid from hemail]

theorem field_merge_name (name : String) (d : Option Document) {key : String} (h : key ≠ "name") :
    field ((Operation.merge (dictionary [("name", .string name)])).apply d) key = field d key := by
  simp [h]

theorem identityRight_merge_name (name : String) (h : IdentityRight authEmail u d) :
    IdentityRight authEmail u ((Operation.merge (dictionary [("name", .string name)])).apply d) := by
  refine ⟨fun x hx => h.uid x ?_, fun x hx => h.email x ?_⟩
  · rwa [field_merge_name name d (by decide)] at hx
  · rwa [field_merge_name name d (by decide)] at hx

theorem identityKept_merge_name (name : String) (d : Option Document) :
    IdentityKept d ((Operation.merge (dictionary [("name", .string name)])).apply d) := by
  refine ⟨fun x hx => ?_, fun x hx => ?_⟩
  · rwa [field_merge_name name d (by decide)]
  · rwa [field_merge_name name d (by decide)]

namespace System

variable {ι : Type} [DecidableEq ι] {s s' : System ι} {e : Event ι}

def IdentityInvariant (authEmail : Uid → Option String) (s : System ι) : Prop :=
  s.Only (EmailFrom authEmail) ∧ ∀ u, IdentityRight authEmail u (s.server.lookup (userDoc u))

theorem identity_of_step (hstep : s.step e = some s') (h : s.IdentityInvariant authEmail) (u : Uid) :
    IdentityRight authEmail u (s'.server.lookup (userDoc u)) ∧
      IdentityKept (s.server.lookup (userDoc u)) (s'.server.lookup (userDoc u)) := by
  obtain hsame | ⟨user, now, rfl, hemail, -, hset⟩ | ⟨screen, name, history, -, hmerge⟩ :=
    profile_of_step hstep h.1 u
  · rw [hsame]
    exact ⟨h.2 u, fun _ hx => hx, fun _ hx => hx⟩
  · rw [hset]
    exact ⟨identityRight_userData hemail now, identityKept_userData hemail now (h.2 user.uid)⟩
  · rw [hmerge]
    exact ⟨identityRight_merge_name name (h.2 u), identityKept_merge_name name _⟩

theorem identityInvariant_step (hstep : s.step e = some s') (he : EventOnly (EmailFrom authEmail) e)
    (h : s.IdentityInvariant authEmail) : s'.IdentityInvariant authEmail :=
  ⟨only_of_step hstep he h.1, fun u => (identity_of_step hstep h u).1⟩

/-- From an empty store, in every state reached, the uid and email of every
profile are right where present, and every step keeps them. -/
theorem identity_right_and_kept (authEmail : Uid → Option String) (devices : ι → UIDevice)
    (users : ι → Option User) (hlaunch : ∀ i, ∀ user ∈ users i, EmailFrom authEmail user)
    (es : List (Event ι)) (hes : ∀ e ∈ es, EventOnly (EmailFrom authEmail) e) :
    Along step
      (fun s _ s' => ∀ u, IdentityRight authEmail u (s'.server.lookup (userDoc u)) ∧
        IdentityKept (s.server.lookup (userDoc u)) (s'.server.lookup (userDoc u)))
      (launch ∅ devices users) es := by
  apply along_of_invariant (I := IdentityInvariant authEmail) _ _ _ (along_of_events hes)
  · intro s e s' hstep he h
    exact identityInvariant_step hstep he h
  · intro s e s' hstep _ h
    exact identity_of_step hstep h
  · exact ⟨only_launch ∅ devices hlaunch, fun u => ⟨nofun, nofun⟩⟩

theorem identity_firstProfileRun :
    (∃ t, run step (single ∅ (some Session.userA)) firstProfileRun = some t ∧
      field (t.server.lookup (userDoc Session.userA.uid)) "email" =
        some (.string "a@example.com")) ∧
    Along step
      (fun s _ s' => ∀ u, IdentityRight (fun _ => some "a@example.com") u
          (s'.server.lookup (userDoc u)) ∧
        IdentityKept (s.server.lookup (userDoc u)) (s'.server.lookup (userDoc u)))
      (single ∅ (some Session.userA)) firstProfileRun := by
  refine ⟨⟨_, rfl, by decide⟩, ?_⟩
  apply identity_right_and_kept
  · intro _ user huser
    obtain rfl : Session.userA = user := by simpa using huser
    rfl
  · simp [firstProfileRun, EventOnly, Session.EventOnly]

end System

end FirebaseLogin
