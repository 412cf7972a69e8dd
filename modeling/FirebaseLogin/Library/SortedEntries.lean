import Mathlib.Data.List.Sort

/-!
Lists of entries with strictly ascending keys, the representation of a sorted
map. Two such lists with the same lookups are equal, so an update is described
by its lookups alone.
-/

namespace SortedEntries

universe u v
variable {κ : Type u} {β : Type v} [LinearOrder κ]

def Ascending (l : List (κ × β)) : Prop := l.Pairwise fun a b => a.1 < b.1

instance (l : List (κ × β)) : Decidable (Ascending l) :=
  inferInstanceAs (Decidable (l.Pairwise _))

def find (key : κ) : List (κ × β) → Option β
  | [] => none
  | e :: l => if e.1 = key then some e.2 else find key l

def put (key : κ) (value : β) : List (κ × β) → List (κ × β)
  | [] => [(key, value)]
  | e :: l =>
      if key < e.1 then (key, value) :: e :: l
      else if key = e.1 then (key, value) :: l
      else e :: put key value l

def putAll (l : List (κ × β)) (entries : List (κ × β)) : List (κ × β) :=
  entries.foldl (fun acc e => put e.1 e.2 acc) l

@[simp] theorem find_nil (key : κ) : find key ([] : List (κ × β)) = none := rfl

theorem find_cons (key : κ) (e : κ × β) (l : List (κ × β)) :
    find key (e :: l) = if e.1 = key then some e.2 else find key l := rfl

@[simp] theorem putAll_nil (l : List (κ × β)) : putAll l [] = l := rfl

theorem putAll_cons (l : List (κ × β)) (e : κ × β) (entries : List (κ × β)) :
    putAll l (e :: entries) = putAll (put e.1 e.2 l) entries := rfl

theorem ascending_cons {e : κ × β} {l : List (κ × β)} :
    Ascending (e :: l) ↔ (∀ e' ∈ l, e.1 < e'.1) ∧ Ascending l := List.pairwise_cons

theorem Ascending.filter {l : List (κ × β)} (h : Ascending l) (p : κ × β → Bool) :
    Ascending (l.filter p) := List.Pairwise.filter p h

theorem find_eq_none {key : κ} {l : List (κ × β)} (h : ∀ e ∈ l, e.1 ≠ key) :
    find key l = none := by
  induction l with
  | nil => rfl
  | cons e l ih =>
      rw [find_cons, if_neg (h e List.mem_cons_self)]
      exact ih fun e' he' => h e' (List.mem_cons_of_mem e he')

theorem mem_of_find {key : κ} {value : β} {l : List (κ × β)} (h : find key l = some value) :
    (key, value) ∈ l := by
  induction l with
  | nil => cases h
  | cons e l ih =>
      rw [find_cons] at h
      split at h
      · next he =>
          cases h
          rw [← he]
          exact List.mem_cons_self
      · exact List.mem_cons_of_mem e (ih h)

theorem find_of_mem {l : List (κ × β)} (hl : Ascending l) {e : κ × β} (h : e ∈ l) :
    find e.1 l = some e.2 := by
  induction l with
  | nil => cases h
  | cons d l ih =>
      rw [ascending_cons] at hl
      rw [find_cons]
      obtain rfl | h := List.mem_cons.mp h
      · rw [if_pos rfl]
      · rw [if_neg (hl.1 e h).ne]
        exact ih hl.2 h

theorem find_eq_some_iff {l : List (κ × β)} (hl : Ascending l) {key : κ} {value : β} :
    find key l = some value ↔ (key, value) ∈ l :=
  ⟨mem_of_find, fun h => find_of_mem hl h⟩

theorem mem_keys_iff {l : List (κ × β)} {key : κ} :
    key ∈ l.map Prod.fst ↔ (find key l).isSome := by
  induction l with
  | nil => simp
  | cons e l ih =>
      rw [find_cons, List.map_cons, List.mem_cons, ih]
      by_cases h : e.1 = key
      · simp [h]
      · simp [h, Ne.symm h]

theorem Ascending.nodup {l : List (κ × β)} (h : Ascending l) : l.Nodup :=
  h.imp fun hab he => hab.ne (congrArg Prod.fst he)

/-- A sorted list is determined by its lookups. -/
theorem ext {l l' : List (κ × β)} (hl : Ascending l) (hl' : Ascending l')
    (h : ∀ key, find key l = find key l') : l = l' := by
  have hperm : l.Perm l' := by
    apply (List.perm_ext_iff_of_nodup hl.nodup hl'.nodup).mpr
    intro e
    rw [← find_eq_some_iff hl, ← find_eq_some_iff hl', h]
  exact hperm.eq_of_pairwise (fun a b _ _ hab hba => absurd hab hba.asymm) hl hl'

theorem mem_put {key : κ} {value : β} {l : List (κ × β)} {e : κ × β}
    (h : e ∈ put key value l) : e = (key, value) ∨ e ∈ l := by
  induction l with
  | nil => exact .inl (by simpa [put] using h)
  | cons d l ih =>
      simp only [put] at h
      split at h
      · exact List.mem_cons.mp h
      · split at h
        · exact (List.mem_cons.mp h).imp_right (List.mem_cons_of_mem d)
        · obtain rfl | h := List.mem_cons.mp h
          · exact .inr List.mem_cons_self
          · exact (ih h).imp_right (List.mem_cons_of_mem d)

theorem ascending_put {l : List (κ × β)} (hl : Ascending l) (key : κ) (value : β) :
    Ascending (put key value l) := by
  induction l with
  | nil => simp [put, Ascending]
  | cons d l ih =>
      have hd := ascending_cons.mp hl
      simp only [put]
      split
      · next hlt =>
          refine ascending_cons.mpr ⟨fun e he => ?_, hl⟩
          obtain rfl | he := List.mem_cons.mp he
          · exact hlt
          · exact hlt.trans (hd.1 e he)
      · split
        · next heq => exact ascending_cons.mpr ⟨fun e he => heq ▸ hd.1 e he, hd.2⟩
        · next hge hne =>
            refine ascending_cons.mpr ⟨fun e he => ?_, ih hd.2⟩
            obtain rfl | he := mem_put he
            · exact lt_of_le_of_ne (not_lt.mp hge) (Ne.symm hne)
            · exact hd.1 e he

theorem find_put {l : List (κ × β)} (key other : κ) (value : β) (hl : Ascending l) :
    find other (put key value l) = if key = other then some value else find other l := by
  induction l with
  | nil => simp [put, find_cons]
  | cons d l ih =>
      have hd := ascending_cons.mp hl
      simp only [put]
      split
      · rfl
      · split
        · next heq =>
            rw [find_cons, find_cons]
            by_cases h : key = other
            · simp [h]
            · simp [h, ← heq]
        · next hge hne =>
            rw [find_cons, find_cons, ih hd.2]
            by_cases h : d.1 = other
            · rw [if_pos h, if_pos h, if_neg fun hk => hne (hk.trans h.symm)]
            · rw [if_neg h, if_neg h]

theorem put_put {l : List (κ × β)} (hl : Ascending l) (key : κ) (value value' : β) :
    put key value (put key value' l) = put key value l := by
  refine ext (ascending_put (ascending_put hl key value') key value)
    (ascending_put hl key value) fun other => ?_
  rw [find_put _ _ _ (ascending_put hl key value'), find_put _ _ _ hl, find_put _ _ _ hl]
  split <;> rfl

theorem ascending_putAll {l : List (κ × β)} (hl : Ascending l) (entries : List (κ × β)) :
    Ascending (putAll l entries) := by
  induction entries generalizing l with
  | nil => exact hl
  | cons e entries ih => exact ih (ascending_put hl e.1 e.2)

/-- Keys that occur once are found however the entries are put in. -/
theorem find_putAll_nodup {l entries : List (κ × β)}
    (hl : Ascending l) (hn : (entries.map Prod.fst).Nodup) (key : κ) :
    find key (putAll l entries) = (find key entries).or (find key l) := by
  induction entries generalizing l with
  | nil => rfl
  | cons e entries ih =>
      obtain ⟨hnot, hn⟩ := List.nodup_cons.mp hn
      rw [putAll_cons, ih (ascending_put hl e.1 e.2) hn, find_put _ _ _ hl, find_cons]
      by_cases heq : e.1 = key
      · have hnone : find key entries = none := by
          refine find_eq_none fun e' he' hkey => hnot ?_
          rw [heq, ← hkey]
          exact List.mem_map_of_mem he'
        simp [heq, hnone]
      · simp [heq]

theorem find_putAll {l entries : List (κ × β)} (hl : Ascending l) (he : Ascending entries)
    (key : κ) : find key (putAll l entries) = (find key entries).or (find key l) :=
  find_putAll_nodup hl (List.pairwise_map.mpr (he.imp fun hab => hab.ne)) key

/-- Putting one more entry among those to be put is putting it last. -/
theorem putAll_put {l entries : List (κ × β)} (hl : Ascending l) (he : Ascending entries)
    (key : κ) (value : β) : putAll l (put key value entries) = put key value (putAll l entries) := by
  refine ext (ascending_putAll hl _) (ascending_put (ascending_putAll hl entries) key value)
    fun other => ?_
  rw [find_putAll hl (ascending_put he key value), find_put _ _ _ he,
    find_put _ _ _ (ascending_putAll hl entries), find_putAll hl he]
  split <;> rfl

theorem mem_putAll {l entries : List (κ × β)} {e : κ × β} (h : e ∈ putAll l entries) :
    e ∈ l ∨ e ∈ entries := by
  induction entries generalizing l with
  | nil => exact .inl h
  | cons d entries ih =>
      obtain h | h := ih h
      · obtain rfl | h := mem_put h
        · exact .inr List.mem_cons_self
        · exact .inl h
      · exact .inr (List.mem_cons_of_mem d h)

theorem length_putAll {l entries : List (κ × β)} (hl : Ascending l) (he : Ascending entries) :
    (putAll l entries).length =
      entries.length + l.countP fun e => (find e.1 entries).isNone := by
  have hperm : (putAll l entries).Perm
      (entries ++ l.filter fun e => (find e.1 entries).isNone) := by
    refine (List.perm_ext_iff_of_nodup (ascending_putAll hl entries).nodup ?_).mpr fun e => ?_
    · refine List.Nodup.append he.nodup (hl.filter _).nodup fun e hmem hmem' => ?_
      have hnone := (List.mem_filter.mp hmem').2
      rw [find_of_mem he hmem] at hnone
      cases hnone
    · rw [← find_eq_some_iff (ascending_putAll hl entries), find_putAll hl he, List.mem_append,
        List.mem_filter, ← find_eq_some_iff he, ← find_eq_some_iff hl]
      cases find e.1 entries <;> simp
  rw [hperm.length_eq, List.length_append, List.countP_eq_length_filter]

/-- An entry below everything put in stays in front. -/
theorem putAll_cons_of_lt {e : κ × β} (l : List (κ × β)) {entries : List (κ × β)}
    (h : ∀ e' ∈ entries, e.1 < e'.1) : putAll (e :: l) entries = e :: putAll l entries := by
  induction entries generalizing l with
  | nil => rfl
  | cons d entries ih =>
      have hlt := h d List.mem_cons_self
      rw [putAll_cons, putAll_cons]
      simp only [put, if_neg hlt.asymm, if_neg hlt.ne']
      exact ih _ fun e' he' => h e' (List.mem_cons_of_mem d he')

theorem find_filter_key {l : List (κ × β)} (p : κ → Bool) (key : κ) :
    find key (l.filter fun e => p e.1) = if p key then find key l else none := by
  induction l with
  | nil => simp
  | cons e l ih =>
      by_cases he : e.1 = key
      · by_cases hp : p key
        · simp [find_cons, he, hp]
        · simp [he, hp, ih]
      · by_cases hp : p e.1
        · simp [find_cons, he, hp, ih]
        · simp [find_cons, he, hp, ih]

/-- The first entries of a sorted list are those a predicate keeps exactly when
everything it drops lies above everything it keeps. -/
theorem take_eq_filter_iff {l : List (κ × β)} (hl : Ascending l) (p : κ × β → Bool) :
    l.take (l.filter p).length = l.filter p ↔
      ∀ dropped ∈ l, p dropped = false → ∀ kept ∈ l, p kept = true → kept.1 < dropped.1 := by
  induction l with
  | nil => simp
  | cons e l ih =>
      have he := ascending_cons.mp hl
      by_cases hp : p e
      · rw [List.filter_cons_of_pos hp, List.length_cons, List.take_succ_cons, List.cons.injEq,
          ih he.2]
        constructor
        · rintro ⟨-, h⟩ dropped hd hpd kept hk hpk
          obtain rfl | hd' := List.mem_cons.mp hd
          · simp [hp] at hpd
          · obtain rfl | hk' := List.mem_cons.mp hk
            · exact he.1 dropped hd'
            · exact h dropped hd' hpd kept hk' hpk
        · intro h
          exact ⟨rfl, fun dropped hd hpd kept hk hpk =>
            h dropped (List.mem_cons_of_mem e hd) hpd kept (List.mem_cons_of_mem e hk) hpk⟩
      · rw [List.filter_cons_of_neg hp]
        constructor
        · intro h dropped hd hpd kept hk hpk
          have hk' : kept ∈ l.filter p := by
            obtain rfl | hk := List.mem_cons.mp hk
            · exact absurd hpk hp
            · exact List.mem_filter.mpr ⟨hk, hpk⟩
          -- The filtered list would start with the dropped head.
          obtain ⟨n, hn⟩ := Nat.exists_eq_succ_of_ne_zero (List.length_pos_of_mem hk').ne'
          rw [hn, List.take_succ_cons] at h
          have hmem : e ∈ l.filter p := h ▸ List.mem_cons_self
          exact absurd (List.mem_filter.mp hmem).2 hp
        · intro h
          have hnil : l.filter p = [] := by
            rw [List.filter_eq_nil_iff]
            intro kept hk hpk
            have hlt := h e List.mem_cons_self (by simpa using hp) kept
              (List.mem_cons_of_mem e hk) hpk
            exact (he.1 kept hk).asymm hlt
          simp [hnil]

/-- Finding by a key that no two elements share. -/
theorem find?_key_eq_some {α : Type v} {ι : Type u} [DecidableEq ι] {f : α → ι} {l : List α}
    (h : (l.map f).Nodup) {key : ι} {a : α} :
    l.find? (fun x => f x = key) = some a ↔ a ∈ l ∧ f a = key := by
  constructor
  · intro hfind
    exact ⟨List.mem_of_find?_eq_some hfind, by simpa using List.find?_some hfind⟩
  · rintro ⟨hmem, rfl⟩
    have hfound : (l.find? fun x => f x = f a).isSome :=
      List.find?_isSome.mpr ⟨a, hmem, decide_eq_true rfl⟩
    obtain ⟨b, hb⟩ := Option.isSome_iff_exists.mp hfound
    have hkey : f b = f a := by simpa using List.find?_some hb
    rw [hb, List.inj_on_of_nodup_map h (List.mem_of_find?_eq_some hb) hmem hkey]

end SortedEntries
