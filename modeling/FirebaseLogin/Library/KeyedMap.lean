import Mathlib.Data.List.AList

/-!
A finite map that takes up listings. A listing gives each key at most once; what
can be read of an entry replaces the value under the entry's key, an entry that
cannot be read is skipped, and no key is ever dropped.
-/

namespace KeyedMap

universe u v w
variable {κ : Type u} {β : Type v} {γ : Type w}

abbrev Map (κ : Type u) (γ : Type w) := AList fun _ : κ => γ

theorem eq_of_mem_listing {listing : List (κ × β)} (distinct : (listing.map Prod.fst).Nodup)
    {key : κ} {b b' : β} (hb' : (key, b') ∈ listing) (hb : (key, b) ∈ listing) : b' = b :=
  (Prod.mk.inj (List.inj_on_of_nodup_map distinct hb' hb rfl)).2

variable [DecidableEq κ] (read : β → Option γ) (valid : β → Prop) (value : β → γ → Prop)

def upsert (m : Map κ γ) (entry : κ × β) : Map κ γ :=
  match read entry.2 with
  | some c => m.insert entry.1 c
  | none => m

def absorb (m : Map κ γ) (listing : List (κ × β)) : Map κ γ := listing.foldl (upsert read) m

variable {read valid value} {m : Map κ γ} {listing : List (κ × β)} {key : κ} {b : β}

theorem lookup_upsert_self (m : Map κ γ) (key : κ) (b : β) :
    (upsert read m (key, b)).lookup key = (read b).or (m.lookup key) := by
  unfold upsert
  split
  · next c hc => simp [hc]
  · next hc => simp [hc]

theorem lookup_upsert_of_ne (m : Map κ γ) {entry : κ × β} (h : key ≠ entry.1) :
    (upsert read m entry).lookup key = m.lookup key := by
  unfold upsert
  split
  · exact AList.lookup_insert_ne h
  · rfl

theorem absorb_cons (m : Map κ γ) (entry : κ × β) (listing : List (κ × β)) :
    absorb read m (entry :: listing) = absorb read (upsert read m entry) listing := rfl

theorem lookup_absorb_of_not_mem (h : key ∉ listing.map Prod.fst) :
    (absorb read m listing).lookup key = m.lookup key := by
  induction listing generalizing m with
  | nil => rfl
  | cons entry listing ih =>
      simp only [List.map_cons, List.mem_cons, not_or] at h
      rw [absorb_cons, ih h.2, lookup_upsert_of_ne m h.1]

theorem lookup_absorb_of_mem (distinct : (listing.map Prod.fst).Nodup) (h : (key, b) ∈ listing) :
    (absorb read m listing).lookup key = (read b).or (m.lookup key) := by
  induction listing generalizing m with
  | nil => cases h
  | cons entry listing ih =>
      simp only [List.map_cons, List.nodup_cons] at distinct
      rw [absorb_cons]
      obtain rfl | h := List.mem_cons.mp h
      · rw [lookup_absorb_of_not_mem distinct.1, lookup_upsert_self]
      · have hne : key ≠ entry.1 := by
          rintro rfl
          exact distinct.1 (List.mem_map.mpr ⟨_, h, rfl⟩)
        rw [ih distinct.2 h, lookup_upsert_of_ne m hne]

end KeyedMap
