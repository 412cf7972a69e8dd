import FirebaseLogin.Profile.Writers

/-!
The name of a form that was not edited. Saving the form always merges its name
field, whatever put the text there: a failed fetch or a missing profile leaves it
empty, and a loaded name may be out of date when the merge takes effect. The
merge is harmless as long as the form goes back to the current revision of the
name it overwrites.
-/

namespace FirebaseLogin

open DocumentStore Execution

/-- The history of the form behind an updateUserInfo whose name field nobody has
edited. -/
def Completion.uneditedHistory : Completion → Option NameHistory
  | .updateUserInfo _ _ history => if history.edited then none else some history
  | _ => none

theorem uneditedHistory_eq_some {completion : Completion} {history : NameHistory} :
    completion.uneditedHistory = some history ↔
      ∃ screen u, completion = .updateUserInfo screen u history ∧ history.edited = false := by
  cases completion with
  | updateUserInfo screen u history' =>
      simp only [Completion.uneditedHistory, Option.ite_none_left_eq_some, Option.some.injEq,
        Completion.updateUserInfo.injEq]
      constructor
      · rintro ⟨hedited, rfl⟩
        exact ⟨screen, u, ⟨rfl, rfl, rfl⟩, by simpa using hedited⟩
      · rintro ⟨_, _, ⟨-, -, rfl⟩, hedited⟩
        exact ⟨by simp [hedited], rfl⟩
  | createUser | updateDeviceName _ | registerDevice | deleteDevice | saveLocation =>
      simp [Completion.uneditedHistory]

namespace System

variable {ι : Type} {s s' : System ι} {e : Event ι} {j : ι} {reference : DocumentReference}
  {n : Nat} {x : Option Value}

def UneditedNameKept (s : System ι) (e : Event ι) (s' : System ι) : Prop :=
  ∀ w ∈ s.accepted e, w.completion.uneditedHistory.isSome →
    nameOf s'.server w.target = nameOf s.server w.target

/-- The form was loaded from the document it is saved to, with the name the
server then held, and that name has not changed since. -/
def UneditedNameCurrent (s : System ι) (e : Event ι) (_ : System ι) : Prop :=
  ∀ w ∈ s.accepted e, ∀ history ∈ w.completion.uneditedHistory,
    history.revision = some (w.target, s.nameRevision w.target)

/-- `x` was the name at revision `n`: revision `n` has been reached, and while it
is the current one the server holds `x`. -/
def NameAt (s : System ι) (reference : DocumentReference) (n : Nat) (x : Option Value) : Prop :=
  n ≤ s.nameRevision reference ∧ (n = s.nameRevision reference → nameOf s.server reference = x)

/-- What every read, form and merge remembers of a name is right. -/
structure NameInvariant (s : System ι) : Prop where
  shaped : s.Shaped
  reads : ∀ j, ∀ r ∈ (s.clients j).reads, ∀ a d reference n, r.answer = some a →
    a.result = .ok d → a.revision = some (reference, n) → s.NameAt reference n (field d "name")
  forms : ∀ j, ∀ v ∈ (s.clients j).screens, v.history.edited = false → ∀ reference n,
    v.history.revision = some (reference, n) → s.NameAt reference n (some (.string v.name))
  writes : ∀ j, ∀ w ∈ (s.clients j).writes, ∀ history ∈ w.completion.uneditedHistory,
    ∀ reference n name, history.revision = some (reference, n) →
    w.operation = .merge (dictionary [("name", .string name)]) →
    s.NameAt reference n (some (.string name))

theorem nameInvariant_launch (server : Server) (devices : ι → UIDevice)
    (users : ι → Option User) : (launch server devices users).NameInvariant :=
  ⟨shaped_launch server devices users, nofun, nofun, nofun⟩

theorem nameAt_answer {d : Option Document} (hresult : (s.answer j reference).result = .ok d)
    {target : DocumentReference} (hrevision : (s.answer j reference).revision = some (target, n)) :
    s.NameAt target n (field d "name") := by
  obtain rfl : (s.clients j).snapshot s.server reference = d := by simpa [answer] using hresult
  simp only [answer, Option.ite_none_right_eq_some, Option.some.injEq, Prod.mk.injEq] at hrevision
  obtain ⟨hname, rfl, rfl⟩ := hrevision
  exact ⟨le_refl _, fun _ => hname.symm⟩

/-- A form's name and history are what its merge carries. -/
theorem nameAt_of_issuedBy (h : s.NameInvariant) {event : AppEvent} {w : Write}
    (hw : (s.clients j).IssuedBy event w) {history : NameHistory}
    (hhistory : w.completion.uneditedHistory = some history) {name : String}
    (hrevision : history.revision = some (reference, n))
    (hname : w.operation = .merge (dictionary [("name", .string name)])) :
    s.NameAt reference n (some (.string name)) := by
  obtain ⟨screen, u, hcompletion, hedited⟩ := uneditedHistory_eq_some.mp hhistory
  cases hw with
  | @updateUserInfo screen v userId hform _ =>
      obtain ⟨-, -, rfl⟩ : _ ∧ _ ∧ v.history = history := by simpa using hcompletion
      have hlookup : (dictionary [("name", .string v.name)]).lookup "name" =
          (dictionary [("name", .string name)]).lookup "name" := by
        rw [Operation.merge.inj hname]
      obtain rfl : v.name = name := by simpa using hlookup
      exact h.forms j v (Client.mem_screens_of_form hform) hedited reference n hrevision
  | createUser | updateDeviceName | registerDevice | deleteDevice | saveLocation =>
      cases hcompletion

variable [DecidableEq ι]

/-- A change of the name starts a new revision. -/
theorem nameAt_step (hstep : s.step e = some s') (h : s.NameAt reference n x) :
    s'.NameAt reference n x := by
  obtain ⟨-, hserver, hrevision⟩ | ⟨i, w, rest, -, -, -, hserver, hrevision⟩ := server_of_step hstep
  · unfold NameAt
    rwa [hserver, hrevision]
  · unfold NameAt
    rw [hserver, hrevision]
    simp only [apply]
    split
    · next hsame =>
        rw [hsame]
        exact h
    · exact ⟨Nat.le_succ_of_le h.1, fun heq => absurd h.1 (by omega)⟩

theorem nameInvariant_reads (hstep : s.step e = some s') (h : s.NameInvariant) :
    ∀ j, ∀ r ∈ (s'.clients j).reads, ∀ a d reference n, r.answer = some a →
      a.result = .ok d → a.revision = some (reference, n) →
      s'.NameAt reference n (field d "name") := by
  intro j r hr a d reference n ha hresult hrevision
  apply nameAt_step hstep
  obtain hr | ⟨index, -, ⟨-, rfl⟩ | ⟨error, -, rfl⟩⟩ := answered_of_step hstep hr ha
  · exact h.reads j r hr a d reference n ha hresult hrevision
  · exact nameAt_answer hresult hrevision
  · cases hresult

theorem nameInvariant_forms (hstep : s.step e = some s') (h : s.NameInvariant) :
    ∀ j, ∀ v ∈ (s'.clients j).screens, v.history.edited = false → ∀ reference n,
      v.history.revision = some (reference, n) →
      s'.NameAt reference n (some (.string v.name)) := by
  intro j v hv hedited reference n hrevision
  apply nameAt_step hstep
  have hj := clientStep_of_step hstep j
  generalize s'.clients j = c' at hj hv
  cases hj with
  | same | answered _ _ | acknowledged _ => exact h.forms j v hv hedited reference n hrevision
  | handled hc =>
      obtain ⟨v₀, hv₀, hname, hhistory⟩ | ⟨source, screen, a, data, hmem, hdata, hname, ha⟩ :=
        (Client.effect_of_handle hc).mem_screens hv hedited hrevision
      · rw [hname]
        exact h.forms j v₀ hv₀ (hhistory ▸ hedited) reference n (hhistory ▸ hrevision)
      · have hread := h.reads j _ hmem a (some data) reference n rfl hdata ha
        rwa [field_some, hname] at hread

theorem nameInvariant_step (hstep : s.step e = some s') (h : s.NameInvariant) :
    s'.NameInvariant := by
  refine ⟨shaped_step hstep h.shaped, nameInvariant_reads hstep h, nameInvariant_forms hstep h, ?_⟩
  intro j w hw history hhistory reference n name hrevision hname
  apply nameAt_step hstep
  obtain hw | ⟨event, -, hissued⟩ := mem_writes_of_step hstep hw
  · exact h.writes j w hw history hhistory reference n name hrevision hname
  · exact nameAt_of_issuedBy h hissued hhistory hrevision hname

theorem uneditedNameKept_of_step (hstep : s.step e = some s') (h : s.NameInvariant)
    (hcurrent : s.UneditedNameCurrent e s') : s.UneditedNameKept e s' := by
  intro w hw hunedited
  obtain ⟨history, hhistory⟩ := Option.isSome_iff_exists.mp hunedited
  obtain ⟨screen, u, hcompletion, -⟩ := uneditedHistory_eq_some.mp hhistory
  have hupdate : w.completion.isUpdateUserInfo := by
    rw [hcompletion]
    rfl
  obtain ⟨v, ⟨_, _, _, _, rfl⟩ | ⟨_, name, _, rfl⟩⟩ :=
    (profileShape_of_accepted h.shaped hw).of_updateUserInfo hupdate
  · cases hcompletion
  · obtain ⟨i, hmem⟩ := mem_writes_of_accepted hw
    have hbefore := (h.writes i _ hmem history hhistory _ _ name (hcurrent _ hw history hhistory)
      rfl).2 rfl
    rw [hbefore, nameOf, lookup_of_accepted hstep hw]
    simp

/-- Along every run in which each saved unedited form goes back to the current
revision of the name it overwrites, no unedited form changes a name. -/
theorem uneditedNameKept_of_current (server : Server) (devices : ι → UIDevice)
    (users : ι → Option User) (es : List (Event ι))
    (hcurrent : Along step UneditedNameCurrent (launch server devices users) es) :
    Along step UneditedNameKept (launch server devices users) es := by
  apply along_of_invariant (I := NameInvariant) _ _ (nameInvariant_launch server devices users)
    hcurrent
  · intro s e s' hstep _ h
    exact nameInvariant_step hstep h
  · intro s e s' hstep hc h
    exact uneditedNameKept_of_step hstep h hc

section Examples

instance (s : System ι) (e : Event ι) (s' : System ι) : Decidable (s.UneditedNameCurrent e s') :=
  inferInstanceAs (Decidable (∀ w ∈ s.accepted e, ∀ history ∈ _, _))

instance (s : System ι) (e : Event ι) (s' : System ι) : Decidable (s.UneditedNameKept e s') :=
  inferInstanceAs (Decidable (∀ w ∈ s.accepted e, _))

/-- The form loads the stored name; only the device name is edited. -/
def deviceRenamedRun : List (Event Unit) :=
  [.app () .openProfile, .app () (.profileAppeared 0), .answerRead () 0,
    .app () (.readCallback 0 7), .app () (.editDeviceName 0 "Work phone"),
    .app () (.updateUserInfo 0), .acceptWrite ()]

theorem uneditedNameKept_deviceRenamed :
    (∃ t, run step (single storedProfile (some Session.userA)) deviceRenamedRun = some t ∧
      nameOf t.server (userDoc Session.userA.uid) = some (.string "Name")) ∧
    Along step UneditedNameKept (single storedProfile (some Session.userA)) deviceRenamedRun :=
  ⟨⟨_, rfl, by decide⟩, uneditedNameKept_of_current storedProfile _ _ deviceRenamedRun (by decide)⟩

/-- The same with a fetch that fails: the form opens with an empty name. -/
def failedFetchRun : List (Event Unit) :=
  [.app () .openProfile, .app () (.profileAppeared 0), .failRead () 0 "offline",
    .app () (.readCallback 0 7), .app () (.editDeviceName 0 "Work phone"),
    .app () (.updateUserInfo 0), .acceptWrite ()]

/-- Nobody edited the name and it is erased. -/
theorem uneditedName_erased :
    (¬ Along step UneditedNameKept (single storedProfile (some Session.userA)) failedFetchRun) ∧
    ∃ t, run step (single storedProfile (some Session.userA)) failedFetchRun = some t ∧
      nameOf storedProfile (userDoc Session.userA.uid) = some (.string "Name") ∧
      nameOf t.server (userDoc Session.userA.uid) = some (.string "") :=
  ⟨by decide, _, rfl, by decide, by decide⟩

end Examples

end System

end FirebaseLogin
