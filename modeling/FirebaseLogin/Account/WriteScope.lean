import FirebaseLogin.System

/-!
Which account a write goes to. Four of the app's six writers look the user up as
they write; creation of the profile and the device name use a uid captured
before an asynchronous call returned. A run keeps every write inside the account
signed in at that moment exactly when those two find their own user signed in.
-/

namespace FirebaseLogin

open DocumentStore Execution

/-- The location document, the profile or a document below the profile. Nothing
belongs to the account while nobody is signed in. -/
def InAccount : Option Uid → DocumentReference → Prop
  | none, _ => False
  | some v, d => d = locationDoc v ∨ (userDoc v).path <+: d.path

instance : ∀ (v : Option Uid) (d : DocumentReference), Decidable (InAccount v d)
  | none, _ => isFalse id
  | some _, _ => inferInstanceAs (Decidable (_ ∨ _))

/-- The uid a callback writes under without looking the user up. -/
def Client.capturedUid (c : Client) : AppEvent → Option Uid
  | .readCallback index _ =>
      match c.reads[index]? with
      | some ⟨_, .createOrUpdateUser user, some ⟨.ok none, _⟩⟩
      | some ⟨_, .createOrUpdateUser user, some ⟨.error _, _⟩⟩ => some user.uid
      | _ => none
  | .writeCallback index _ =>
      match c.acknowledgements[index]? with
      | some (.updateUserInfo screen userId _, none) =>
          if screen < c.screens.length then some userId else none
      | _ => none
  | _ => none

namespace System

variable {ι : Type} [DecidableEq ι]

def WritesInAccount (s : System ι) (e : Event ι) (_ : System ι) : Prop :=
  match e with
  | .app i event =>
      ∀ w ∈ s.issued (.app i event), InAccount (s.clients i).session.currentUid w.target
  | _ => True

def CapturedUserSignedIn (s : System ι) (e : Event ι) (_ : System ι) : Prop :=
  match e with
  | .app i event =>
      ∀ u ∈ (s.clients i).capturedUid event, (s.clients i).session.currentUid = some u
  | _ => True

end System

theorem userDoc_inAccount (u : Uid) : InAccount (some u) (userDoc u) :=
  .inr (List.prefix_refl _)

theorem devices_inAccount {u : Uid} {text : String} {d : DocumentReference}
    (h : (devicesCollection u).document text = .ok d) : InAccount (some u) d := by
  obtain ⟨rest, -, hpath⟩ := document_below h
  exact .inr ⟨"devices" :: rest, by simp [hpath]⟩

theorem Client.deviceNameDoc_inAccount (c : Client) (u : Uid) :
    InAccount (some u) (c.deviceNameDoc u) :=
  devices_inAccount (document_segment (devicesCollection u) c.device.deviceDocId)

theorem prefix_of_userDoc {u v : Uid} {rest : ResourcePath}
    (h : (userDoc v).path <+: (userDoc u).path ++ rest) : v = u := by
  obtain ⟨rest', hrest⟩ := h
  simp only [userDoc_path, List.cons_append, List.nil_append, List.cons.injEq] at hrest
  exact Segment.ext hrest.2.1

/-- A document at or below a profile is in the account of its own user only. -/
theorem eq_some_of_inAccount {v : Option Uid} {u : Uid} {d : DocumentReference}
    {rest : ResourcePath} (hd : d.path = (userDoc u).path ++ rest) (h : InAccount v d) :
    v = some u := by
  cases v with
  | none => exact h.elim
  | some v =>
      obtain rfl | h := h
      · simp at hd
      · rw [hd] at h
        rw [prefix_of_userDoc h]

namespace Client

variable {c c' : Client} {event : AppEvent} {ws : List Write} {u : Uid}

/-- A write goes to the account of the captured uid, if there is one, and else
to the account signed in. -/
theorem IssuedBy.inAccount {w : Write} (h : c.IssuedBy event w) :
    (∃ u, c.capturedUid event = some u ∧ InAccount (some u) w.target) ∨
      InAccount c.session.currentUid w.target := by
  cases h with
  | @createUser index now reference user answer hread hmissing =>
      refine .inl ⟨user.uid, ?_, userDoc_inAccount user.uid⟩
      obtain ⟨result, revision⟩ := answer
      match result, hmissing with
      | .ok none, _ | .error _, _ => simp [capturedUid, hread]
      | .ok (some d), hmissing => exact absurd rfl (hmissing d)
  | @updateDeviceName index now screen userId history v hack hscreen =>
      refine .inl ⟨userId, ?_, c.deviceNameDoc_inAccount userId⟩
      obtain ⟨hlt, -⟩ := List.getElem?_eq_some_iff.mp hscreen
      simp [capturedUid, hack, hlt]
  | updateUserInfo _ huser =>
      rw [huser]
      exact .inr (userDoc_inAccount _)
  | registerDevice huser hdoc | deleteDevice _ huser hdoc =>
      rw [huser]
      exact .inr (devices_inAccount hdoc)
  | saveLocation _ huser =>
      rw [huser]
      exact .inr (.inl rfl)

theorem capturedUid_cases (hu : c.capturedUid event = some u) :
    (∃ index now reference user answer, event = .readCallback index now ∧
      c.reads[index]? = some ⟨reference, .createOrUpdateUser user, some answer⟩ ∧
      (∀ d, answer.result ≠ .ok (some d)) ∧ user.uid = u) ∨
    ∃ index now screen history v, event = .writeCallback index now ∧
      c.acknowledgements[index]? = some (.updateUserInfo screen u history, none) ∧
      c.screens[screen]? = some v := by
  cases event with
  | readCallback index now =>
      simp only [capturedUid] at hu
      split at hu
      · next user _ hread =>
          exact .inl ⟨index, now, _, user, _, rfl, hread, nofun, Option.some.inj hu⟩
      · next user _ _ hread =>
          exact .inl ⟨index, now, _, user, _, rfl, hread, nofun, Option.some.inj hu⟩
      · cases hu
  | writeCallback index now =>
      simp only [capturedUid] at hu
      split at hu
      · next screen userId history hack =>
          simp only [Option.ite_none_right_eq_some, Option.some.injEq] at hu
          obtain ⟨hlt, rfl⟩ := hu
          exact .inr ⟨index, now, screen, history, _, rfl, hack, List.getElem?_eq_getElem hlt⟩
      · cases hu
  | _ => cases hu

/-- The closure does write, at or below the profile of the uid it captured. -/
theorem exists_write_of_capturedUid (hu : c.capturedUid event = some u)
    (h : c.handle event = some (c', ws)) :
    ∃ w ∈ ws, ∃ rest, w.target.path = (userDoc u).path ++ rest := by
  obtain ⟨index, now, reference, user, answer, rfl, hread, hmissing, rfl⟩ |
    ⟨index, now, screen, history, v, rfl, hack, hscreen⟩ := capturedUid_cases hu
  · obtain ⟨d, hd, -⟩ | ⟨-, hset⟩ := createOrUpdateCallback_cases user now answer.result
    · exact absurd hd (hmissing d)
    · simp only [handle, readCallback, hread, hset, Option.some.injEq, Prod.mk.injEq] at h
      rw [← h.2]
      exact ⟨_, List.mem_singleton_self _, [], rfl⟩
  · simp only [handle, writeCallback, hack, runCompletion, updateDeviceName, hscreen,
      Option.some.injEq, Prod.mk.injEq] at h
    rw [← h.2]
    exact ⟨_, List.mem_singleton_self _, ["devices", c.device.deviceDocId.val], rfl⟩

end Client

namespace System

variable {ι : Type} [DecidableEq ι]

/-- One step writes inside the account exactly when its captured uid, if it has
one, is the uid signed in. -/
theorem writesInAccount_step {s s' : System ι} {e : Event ι} (h : s.step e = some s') :
    s.WritesInAccount e s' ↔ s.CapturedUserSignedIn e s' := by
  cases e with
  | app i event =>
      obtain ⟨⟨c, ws⟩, hc, -⟩ := Option.map_eq_some_iff.mp h
      simp only [WritesInAccount, CapturedUserSignedIn, issued_app hc]
      constructor
      · intro hin u hu
        obtain ⟨w, hw, rest, htarget⟩ := Client.exists_write_of_capturedUid hu hc
        exact eq_some_of_inAccount htarget (hin w hw)
      · intro hsigned w hw
        obtain ⟨u, hu, hin⟩ | hin := (Client.issuedBy_of_handle hc hw).inAccount
        · rw [hsigned u hu]
          exact hin
        · exact hin
  | answerRead _ _ | failRead _ _ _ | acceptWrite _ | rejectWrite _ _ => exact Iff.rfl

/-- Every write of a run goes to the account signed in when it is issued, and
none is issued while nobody is, exactly when every callback that writes under a
captured uid finds that user signed in. -/
theorem writesInAccount_iff (s : System ι) (es : List (Event ι)) :
    Along step WritesInAccount s es ↔ Along step CapturedUserSignedIn s es := by
  apply along_congr (I := fun _ => True)
  · intro _ _ _ _ _ _
    trivial
  · intro s e s' h _
    exact writesInAccount_step h
  · trivial

/-- The first user's listener starts the read of a profile. A second user has
signed in before its callback runs. -/
def switchedAccountRun : List (Event Unit) :=
  ([.listenToAuthState, .runMain, .signOut none, .runMain, .runMain,
      .signIn, .currentUserUpdated 0 Session.userB] : List AuthEvent).map (.app () <| .auth ·) ++
    [.answerRead () 0, .app () (.readCallback 0 0)]

instance (s : System ι) (e : Event ι) (s' : System ι) : Decidable (s.WritesInAccount e s') :=
  match e with
  | .app _ _ => inferInstanceAs (Decidable (∀ w ∈ _, _))
  | .answerRead _ _ | .failRead _ _ _ | .acceptWrite _ | .rejectWrite _ _ => isTrue trivial

/-- The first user's profile is written while the second is signed in. -/
theorem switchedAccount_writes_outside :
    ¬ Along step WritesInAccount (single ∅ (some Session.userA)) switchedAccountRun := by
  decide

end System

end FirebaseLogin
