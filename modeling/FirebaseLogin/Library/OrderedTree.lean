import Mathlib.Data.Prod.Lex
import Mathlib.Order.Compare

/-!
Finite trees with ordered labels, compared by label first and then child by
child. When the comparison of the labels is lawful, so is that of the trees.
-/

namespace OrderedTree

universe u

inductive LabelTree (α : Type u) where
  | node (label : α) (children : List (LabelTree α))

variable {α : Type u} [Ord α]

mutual

def LabelTree.cmp : LabelTree α → LabelTree α → Ordering
  | .node a ts, .node b us => (compare a b).then (cmpList ts us)

def cmpList : List (LabelTree α) → List (LabelTree α) → Ordering
  | [], [] => .eq
  | [], _ :: _ => .lt
  | _ :: _, [] => .gt
  | t :: ts, u :: us => (t.cmp u).then (cmpList ts us)

end

instance : Ord (LabelTree α) := ⟨LabelTree.cmp⟩

/-- Children that stand for the elements of a list compare as the list does. -/
theorem cmpList_map {β : Type*} [Ord β] {f : β → LabelTree α}
    (h : ∀ a b, (f a).cmp (f b) = compare a b) (as bs : List β) :
    cmpList (as.map f) (bs.map f) = List.compareLex compare as bs := by
  induction as generalizing bs with
  | nil => cases bs <;> rfl
  | cons a as ih =>
      cases bs with
      | nil => rfl
      | cons b bs =>
          rw [List.map_cons, List.map_cons, cmpList, h, ih, List.compareLex_cons_cons]

theorem then_eq_lt {o p : Ordering} : o.then p = .lt ↔ o = .lt ∨ o = .eq ∧ p = .lt := by
  cases o <;> simp [Ordering.then]

mutual

theorem cmp_swap [Std.OrientedOrd α] : ∀ t u : LabelTree α, t.cmp u = (u.cmp t).swap
  | .node a ts, .node b us => by
      rw [LabelTree.cmp, LabelTree.cmp, Ordering.swap_then, ← cmpList_swap ts us,
        ← Std.OrientedOrd.eq_swap]

theorem cmpList_swap [Std.OrientedOrd α] : ∀ ts us : List (LabelTree α),
    cmpList ts us = (cmpList us ts).swap
  | [], [] | [], _ :: _ | _ :: _, [] => rfl
  | t :: ts, u :: us => by
      rw [cmpList, cmpList, Ordering.swap_then, ← cmp_swap t u, ← cmpList_swap ts us]

end

mutual

theorem cmp_eq_iff [Std.LawfulEqOrd α] : ∀ {t u : LabelTree α}, t.cmp u = .eq ↔ t = u
  | .node a ts, .node b us => by
      rw [LabelTree.cmp, Ordering.then_eq_eq, Std.LawfulEqOrd.compare_eq_iff_eq, cmpList_eq_iff,
        LabelTree.node.injEq]

theorem cmpList_eq_iff [Std.LawfulEqOrd α] : ∀ {ts us : List (LabelTree α)},
    cmpList ts us = .eq ↔ ts = us
  | [], [] => by simp [cmpList]
  | [], _ :: _ => by simp [cmpList]
  | _ :: _, [] => by simp [cmpList]
  | t :: ts, u :: us => by
      rw [cmpList, Ordering.then_eq_eq, cmp_eq_iff, cmpList_eq_iff, List.cons.injEq]

end

mutual

theorem cmp_lt_trans [Std.TransOrd α] [Std.LawfulEqOrd α] : ∀ {t u v : LabelTree α},
    t.cmp u = .lt → u.cmp v = .lt → t.cmp v = .lt
  | .node a ts, .node b us, .node c vs, htu, huv => by
      rw [LabelTree.cmp, then_eq_lt] at *
      obtain hab | ⟨hab, hts⟩ := htu
      · obtain hbc | ⟨hbc, -⟩ := huv
        · exact .inl (Std.TransCmp.lt_trans hab hbc)
        · obtain rfl := Std.LawfulEqOrd.compare_eq_iff_eq.mp hbc
          exact .inl hab
      · obtain rfl := Std.LawfulEqOrd.compare_eq_iff_eq.mp hab
        exact huv.imp_right fun h => ⟨h.1, cmpList_lt_trans hts h.2⟩

theorem cmpList_lt_trans [Std.TransOrd α] [Std.LawfulEqOrd α] : ∀ {ts us vs : List (LabelTree α)},
    cmpList ts us = .lt → cmpList us vs = .lt → cmpList ts vs = .lt
  | [], _, [], htu, huv => by
      rename_i us
      cases us <;> simp [cmpList] at htu huv
  | [], _, _ :: _, _, _ => rfl
  | _ :: _, [], _, htu, _ => by simp [cmpList] at htu
  | _ :: _, _ :: _, [], _, huv => by simp [cmpList] at huv
  | t :: ts, u :: us, v :: vs, htu, huv => by
      rw [cmpList, then_eq_lt] at *
      obtain htu | ⟨htu, hts⟩ := htu
      · obtain huv | ⟨huv, -⟩ := huv
        · exact .inl (cmp_lt_trans htu huv)
        · obtain rfl := cmp_eq_iff.mp huv
          exact .inl htu
      · obtain rfl := cmp_eq_iff.mp htu
        exact huv.imp_right fun h => ⟨h.1, cmpList_lt_trans hts h.2⟩

end

/-- Labels of several parts. -/
instance lawfulEqOrdLex {β : Type u} [Ord β] [Std.LawfulEqOrd α] [Std.LawfulEqOrd β] :
    Std.LawfulEqOrd (α ×ₗ β) where
  compare_self {p} := by
    change (compare (ofLex p).1 (ofLex p).1).then (compare (ofLex p).2 (ofLex p).2) = .eq
    exact Ordering.then_eq_eq.mpr ⟨Std.ReflCmp.compare_self, Std.ReflCmp.compare_self⟩
  eq_of_compare {p q} h := by
    change (compare (ofLex p).1 (ofLex q).1).then (compare (ofLex p).2 (ofLex q).2) = .eq at h
    obtain ⟨hfst, hsnd⟩ := Ordering.then_eq_eq.mp h
    exact ofLex.injective
      (Prod.ext (Std.LawfulEqCmp.eq_of_compare hfst) (Std.LawfulEqCmp.eq_of_compare hsnd))

instance [Std.LawfulEqOrd α] : Std.LawfulEqOrd (LabelTree α) where
  compare_self := cmp_eq_iff.mpr rfl
  eq_of_compare := cmp_eq_iff.mp

instance [Std.TransOrd α] [Std.LawfulEqOrd α] : Std.TransOrd (LabelTree α) where
  eq_swap := cmp_swap _ _
  isLE_trans {t u v} htu huv := by
    change (t.cmp u).isLE = true at htu
    change (u.cmp v).isLE = true at huv
    change (t.cmp v).isLE = true
    rw [Ordering.isLE_iff_eq_lt_or_eq_eq] at *
    obtain htu | htu := htu
    · obtain huv | huv := huv
      · exact .inl (cmp_lt_trans htu huv)
      · exact .inl (cmp_eq_iff.mp huv ▸ htu)
    · exact cmp_eq_iff.mp htu ▸ huv

end OrderedTree
