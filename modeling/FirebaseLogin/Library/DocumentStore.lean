import Mathlib.Data.List.AList

/-!
A store of documents under keys. A document is a finite map from field names to
values; a mutation replaces it, merges fields into it or deletes it. A client
sees the store through its own mutations that the store has not applied yet.
-/

namespace DocumentStore

universe u v w

abbrev Fields (φ : Type v) (β : Type w) := AList (fun _ : φ => β)

abbrev Store (κ : Type u) (φ : Type v) (β : Type w) := AList (fun _ : κ => Fields φ β)

inductive Operation (φ : Type v) (β : Type w) where
  | set (fields : Fields φ β)
  | merge (fields : Fields φ β)
  | delete

variable {κ : Type u} {φ : Type v} {β : Type w} [DecidableEq φ]

instance [DecidableEq β] : DecidableEq (Operation φ β)
  | .set d, .set d' | .merge d, .merge d' =>
      decidable_of_iff (d.entries = d'.entries)
        ⟨fun h => congrArg _ (AList.ext h), fun h => by cases h; rfl⟩
  | .delete, .delete => isTrue rfl
  | .set _, .merge _ | .set _, .delete | .merge _, .set _ | .merge _, .delete
  | .delete, .set _ | .delete, .merge _ => isFalse (by simp)

/-- The document after the operation; a merge creates a document that is missing. -/
def Operation.apply : Operation φ β → Option (Fields φ β) → Option (Fields φ β)
  | .set d, _ => some d
  | .merge d, none => some d
  | .merge d, some old => some (d ∪ old)
  | .delete, _ => none

def field (document : Option (Fields φ β)) (name : φ) : Option β :=
  document.bind (AList.lookup name)

@[simp] theorem field_none (name : φ) : field (none : Option (Fields φ β)) name = none := rfl

@[simp] theorem field_some (d : Fields φ β) (name : φ) :
    field (some d) name = d.lookup name := rfl

@[simp] theorem apply_set (d : Fields φ β) (old : Option (Fields φ β)) :
    (Operation.set d).apply old = some d := rfl

@[simp] theorem apply_delete (old : Option (Fields φ β)) :
    (Operation.delete : Operation φ β).apply old = none := rfl

@[simp] theorem apply_merge_isSome (d : Fields φ β) (old : Option (Fields φ β)) :
    ((Operation.merge d).apply old).isSome = true := by
  cases old <;> rfl

theorem apply_eq_none_iff {op : Operation φ β} {old : Option (Fields φ β)} :
    op.apply old = none ↔ op = .delete := by
  cases op with
  | set d => simp
  | merge d => cases old <;> simp [Operation.apply]
  | delete => simp

/-- A merge writes its own fields and keeps every other one. -/
@[simp] theorem field_apply_merge (d : Fields φ β) (old : Option (Fields φ β)) (name : φ) :
    field ((Operation.merge d).apply old) name = (d.lookup name).or (field old name) := by
  cases old with
  | none => simp [Operation.apply, field]
  | some old =>
      by_cases h : name ∈ d
      · obtain ⟨v, hv⟩ := Option.isSome_iff_exists.mp (AList.lookup_isSome.mpr h)
        simp [Operation.apply, AList.lookup_union_left h, hv]
      · simp [Operation.apply, AList.lookup_union_right h, AList.lookup_eq_none.mpr h]

variable [DecidableEq κ]

def applyAt (store : Store κ φ β) (key : κ) (op : Operation φ β) : Store κ φ β :=
  match op.apply (store.lookup key) with
  | some d => store.insert key d
  | none => store.erase key

@[simp] theorem lookup_applyAt_self (store : Store κ φ β) (key : κ) (op : Operation φ β) :
    (applyAt store key op).lookup key = op.apply (store.lookup key) := by
  unfold applyAt
  split
  · next d h => rw [AList.lookup_insert, h]
  · next h => rw [AList.lookup_erase, h]

theorem lookup_applyAt_of_ne (store : Store κ φ β) {key other : κ} (op : Operation φ β)
    (h : other ≠ key) : (applyAt store key op).lookup other = store.lookup other := by
  unfold applyAt
  split
  · exact AList.lookup_insert_ne h
  · exact AList.lookup_erase_ne h

/-- The document at `key` as seen through the pending mutations, oldest first. -/
def overlay (key : κ) : List (κ × Operation φ β) → Option (Fields φ β) → Option (Fields φ β)
  | [], d => d
  | m :: ms, d => overlay key ms (if m.1 = key then m.2.apply d else d)

theorem overlay_of_not_target {key : κ} {ms : List (κ × Operation φ β)}
    (d : Option (Fields φ β)) (h : ∀ m ∈ ms, m.1 ≠ key) : overlay key ms d = d := by
  induction ms generalizing d with
  | nil => rfl
  | cons m ms ih =>
      simp only [overlay, if_neg (h m List.mem_cons_self)]
      exact ih d fun m' hm' => h m' (List.mem_cons_of_mem m hm')

theorem overlay_append (key : κ) (ms ns : List (κ × Operation φ β)) (d : Option (Fields φ β)) :
    overlay key (ms ++ ns) d = overlay key ns (overlay key ms d) := by
  induction ms generalizing d with
  | nil => rfl
  | cons m ms ih => exact ih _

/-- Applying the oldest pending mutation does not change what the client sees. -/
theorem overlay_applyAt (store : Store κ φ β) (key : κ) (m : κ × Operation φ β)
    (ms : List (κ × Operation φ β)) :
    overlay key ms ((applyAt store m.1 m.2).lookup key) =
      overlay key (m :: ms) (store.lookup key) := by
  by_cases h : m.1 = key
  · subst h
    simp [overlay]
  · simp [overlay, h, lookup_applyAt_of_ne store m.2 (Ne.symm h)]

/-- Without a pending deletion an existing document stays visible. -/
theorem overlay_isSome {key : κ} {ms : List (κ × Operation φ β)} {d : Option (Fields φ β)}
    (keep : ∀ m ∈ ms, m.1 = key → m.2 ≠ .delete) (h : d.isSome) :
    (overlay key ms d).isSome := by
  induction ms generalizing d with
  | nil => exact h
  | cons m ms ih =>
      apply ih fun m' hm' => keep m' (List.mem_cons_of_mem m hm')
      split
      · next hk =>
          have hm := keep m List.mem_cons_self hk
          cases hop : m.2 with
          | set d' => rfl
          | merge d' => exact apply_merge_isSome d' d
          | delete => exact absurd hop hm
      · exact h

/-- A document seen as missing is missing in the store, when nothing pending
deletes it. -/
theorem eq_none_of_overlay_eq_none {key : κ} {ms : List (κ × Operation φ β)}
    {d : Option (Fields φ β)} (keep : ∀ m ∈ ms, m.1 = key → m.2 ≠ .delete)
    (h : overlay key ms d = none) : d = none := by
  cases d with
  | none => rfl
  | some d =>
      have := overlay_isSome keep (d := some d) rfl
      simp [h] at this

end DocumentStore
