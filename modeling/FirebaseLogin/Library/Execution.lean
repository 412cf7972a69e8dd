import Mathlib.Data.List.Basic

/-!
Finite runs of a partial step function. An event carries every choice of the
environment, so a run is a list of events and the step function may refuse one.
A property of runs is a relation between the state before a step, its event and
the state after it; the rules below reduce such a property to one step.
-/

namespace Execution

universe u v
variable {σ : Type u} {ε : Type v} (step : σ → ε → Option σ)

def run : σ → List ε → Option σ
  | s, [] => some s
  | s, e :: es => (step s e).bind fun s' => run s' es

/-- Every step taken by the run satisfies `P`. -/
def Along (P : σ → ε → σ → Prop) : σ → List ε → Prop
  | _, [] => True
  | s, e :: es => ∀ s', step s e = some s' → P s e s' ∧ Along P s' es

variable {step} {P Q C : σ → ε → σ → Prop} {I : σ → Prop}

@[simp] theorem run_nil (s : σ) : run step s [] = some s := rfl

theorem run_cons {s t : σ} {e : ε} {es : List ε} :
    run step s (e :: es) = some t ↔ ∃ s', step s e = some s' ∧ run step s' es = some t := by
  simp only [run, Option.bind_eq_some_iff]

theorem run_append {s t : σ} {es fs : List ε} :
    run step s (es ++ fs) = some t ↔
      ∃ m, run step s es = some m ∧ run step m fs = some t := by
  induction es generalizing s with
  | nil => simp
  | cons e es ih =>
      simp only [List.cons_append, run_cons, ih]
      constructor
      · rintro ⟨s', hs, m, hm, ht⟩
        exact ⟨m, ⟨s', hs, hm⟩, ht⟩
      · rintro ⟨m, ⟨s', hs, hm⟩, ht⟩
        exact ⟨s', hs, m, hm, ht⟩

instance along_decidable [∀ s e s', Decidable (P s e s')] :
    ∀ (s : σ) (es : List ε), Decidable (Along step P s es)
  | _, [] => isTrue trivial
  | s, e :: es =>
      match he : step s e with
      | none => isTrue fun s' hs => by simp [he] at hs
      | some s' =>
          have := along_decidable s' es
          decidable_of_iff (P s e s' ∧ Along step P s' es)
            ⟨fun h t ht => by rw [he] at ht; cases ht; exact h, fun h => h s' he⟩

theorem along_mono (h : ∀ s e s', step s e = some s' → P s e s' → Q s e s')
    {s : σ} {es : List ε} (hp : Along step P s es) : Along step Q s es := by
  induction es generalizing s with
  | nil => trivial
  | cons e es ih =>
      intro s' hs
      exact ⟨h s e s' hs (hp s' hs).1, ih (hp s' hs).2⟩

theorem along_and {s : σ} {es : List ε} :
    Along step (fun s e s' => P s e s' ∧ Q s e s') s es ↔
      Along step P s es ∧ Along step Q s es := by
  constructor
  · intro h
    exact ⟨along_mono (fun _ _ _ _ hs => hs.1) h, along_mono (fun _ _ _ _ hs => hs.2) h⟩
  · rintro ⟨hp, hq⟩
    induction es generalizing s with
    | nil => trivial
    | cons e es ih =>
        intro s' hs
        exact ⟨⟨(hp s' hs).1, (hq s' hs).1⟩, ih (hp s' hs).2 (hq s' hs).2⟩

theorem along_of_step (h : ∀ s e s', step s e = some s' → P s e s') (s : σ) (es : List ε) :
    Along step P s es := by
  induction es generalizing s with
  | nil => trivial
  | cons e es ih =>
      intro s' hs
      exact ⟨h s e s' hs, ih s'⟩

/-- What holds of every event of the list holds of every step of the run. -/
theorem along_of_events {A : ε → Prop} {s : σ} {es : List ε} (h : ∀ e ∈ es, A e) :
    Along step (fun _ e _ => A e) s es := by
  induction es generalizing s with
  | nil => trivial
  | cons e es ih =>
      intro s' _
      exact ⟨h e List.mem_cons_self, ih fun f hf => h f (List.mem_cons_of_mem e hf)⟩

/-- An invariant that every step meeting `C` keeps, and that yields `P` at such
a step, yields `P` along every run whose steps all meet `C`. -/
theorem along_of_invariant
    (keep : ∀ s e s', step s e = some s' → C s e s' → I s → I s')
    (yield : ∀ s e s', step s e = some s' → C s e s' → I s → P s e s')
    {s : σ} {es : List ε} (hs : I s) (hc : Along step C s es) : Along step P s es := by
  induction es generalizing s with
  | nil => trivial
  | cons e es ih =>
      intro s' he
      obtain ⟨hc₀, hc₁⟩ := hc s' he
      exact ⟨yield s e s' he hc₀ hs, ih (keep s e s' he hc₀ hs) hc₁⟩

theorem run_invariant
    (keep : ∀ s e s', step s e = some s' → C s e s' → I s → I s')
    {s t : σ} {es : List ε} (hs : I s) (hc : Along step C s es)
    (hrun : run step s es = some t) : I t := by
  induction es generalizing s with
  | nil =>
      obtain rfl : s = t := by simpa using hrun
      exact hs
  | cons e es ih =>
      obtain ⟨s', he, hrest⟩ := run_cons.mp hrun
      obtain ⟨hc₀, hc₁⟩ := hc s' he
      exact ih (keep s e s' he hc₀ hs) hc₁ hrest

/-- What every step keeps, every run keeps. -/
theorem run_preserves (keep : ∀ s e s', step s e = some s' → I s → I s') {s t : σ} {es : List ε}
    (hs : I s) (hrun : run step s es = some t) : I t := by
  refine run_invariant (C := fun _ _ _ => True) ?_ hs ?_ hrun
  · intro s e s' he _ hs
    exact keep s e s' he hs
  · exact along_of_step (fun _ _ _ _ => trivial) s es

/-- A loop that may fail is a run over its list. -/
theorem foldlM_eq_run (s : σ) (es : List ε) : es.foldlM step s = run step s es := by
  induction es generalizing s with
  | nil => rfl
  | cons e es ih =>
      rw [List.foldlM_cons, run]
      exact congrArg (Option.bind (step s e)) (funext ih)

/-- Two step properties that agree wherever an invariant holds agree along
runs. The invariant only has to survive the steps at which both hold. -/
theorem along_congr
    (keep : ∀ s e s', step s e = some s' → C s e s' → I s → I s')
    (agree : ∀ s e s', step s e = some s' → I s → (P s e s' ↔ C s e s'))
    {s : σ} {es : List ε} (hs : I s) : Along step P s es ↔ Along step C s es := by
  induction es generalizing s with
  | nil => exact Iff.rfl
  | cons e es ih =>
      refine forall_congr' fun s' => forall_congr' fun he => ?_
      constructor
      · rintro ⟨hp, hrest⟩
        have hc := (agree s e s' he hs).mp hp
        exact ⟨hc, (ih (keep s e s' he hc hs)).mp hrest⟩
      · rintro ⟨hc, hrest⟩
        exact ⟨(agree s e s' he hs).mpr hc, (ih (keep s e s' he hc hs)).mpr hrest⟩

section History

variable {η : Type v} (step) (record : σ → ε → η → η)

/-- The step function with a history variable beside the state. The variable is
updated at every step and consulted at none. -/
def recording (s : σ × η) (e : ε) : Option (σ × η) :=
  (step s.1 e).map fun s' => (s', record s.1 e s.2)

variable {step record}

theorem recording_eq_some {s t : σ × η} {e : ε} :
    recording step record s e = some t ↔ step s.1 e = some t.1 ∧ t.2 = record s.1 e s.2 := by
  simp only [recording, Option.map_eq_some_iff]
  constructor
  · rintro ⟨s', hs, rfl⟩
    exact ⟨hs, rfl⟩
  · rintro ⟨hs, ht⟩
    exact ⟨t.1, hs, by rw [← ht]⟩

end History

end Execution
