/-
  Collette.Lex.Order — lists over a linear order, compared lexicographically.

  Ordered key-value stores compare keys this way, so every argument about ranges of
  keys comes down to two facts about a list and what may follow it. Two lists neither
  of which is a prefix of the other compare the same whatever is appended to either
  (`append_lt_append`), and the lists with a given prefix form an interval
  (`prefix_convex`). `prefix_or_lt` is the trichotomy the case splits use: one list is a
  prefix of the other, or they differ at an element both have.
-/

import Mathlib

namespace Collette.Lex

variable {α : Type*} [LinearOrder α]

/-! ## The two spellings of the order -/

theorem compare_eq_lt (a b : List α) : compare a b = .lt ↔ a < b := by
  induction a generalizing b with
  | nil => cases b <;> simp
  | cons x xs ih =>
    cases b with
    | nil => simp
    | cons y ys =>
      rw [List.compare_cons_cons, Ordering.then_eq_lt, compare_lt_iff_lt, compare_eq_iff_eq, ih ys,
        List.cons_lt_cons_iff]

theorem compare_eq_eq (a b : List α) : compare a b = .eq ↔ a = b := Std.LawfulEqOrd.compare_eq_iff_eq

theorem compare_eq_gt (a b : List α) : compare a b = .gt ↔ b < a := by
  rw [← compare_eq_lt b a]
  exact Std.OrientedCmp.gt_iff_lt

/-- Comparing lists agrees with comparing something else as soon as `<` goes both ways. -/
theorem compare_eq_compare {κ : Type*} [LinearOrder κ] {a b : List α} {x y : κ} (hlt : x < y → a < b)
    (hgt : y < x → b < a) (heq : x = y → a = b) : compare a b = compare x y := by
  rcases lt_trichotomy x y with h | h | h
  · rw [(compare_eq_lt a b).mpr (hlt h), compare_lt_iff_lt.mpr h]
  · rw [(compare_eq_eq a b).mpr (heq h), compare_eq_iff_eq.mpr h]
  · rw [(compare_eq_gt a b).mpr (hgt h), compare_gt_iff_gt.mpr h]

/-! ## Prefixes -/

theorem le_of_isPrefix {a b : List α} (h : a <+: b) : a ≤ b := by
  obtain ⟨t, rfl⟩ := h
  cases t with
  | nil => simp
  | cons x t =>
    have h : a ++ [] < a ++ x :: t := List.append_left_lt (List.nil_lt_cons x t)
    rw [List.append_nil] at h
    exact le_of_lt h

theorem lt_append_self {a t : List α} (h : t ≠ []) : a < a ++ t := by
  refine lt_of_le_of_ne (le_of_isPrefix (List.prefix_append a t)) fun e => h ?_
  exact List.append_right_eq_self.mp e.symm

@[simp] theorem append_lt_append_left (p a b : List α) : p ++ a < p ++ b ↔ a < b := by
  induction p with
  | nil => rfl
  | cons x p ih => simpa using ih

@[simp] theorem append_le_append_left (p a b : List α) : p ++ a ≤ p ++ b ↔ a ≤ b := by
  rw [← not_lt, ← not_lt, append_lt_append_left]

/-- Whatever follows, two lists that differ before either ends compare the same. -/
theorem append_lt_append {a b : List α} (h : a < b) (hp : ¬ a <+: b) (r s : List α) : a ++ r < b ++ s := by
  induction a generalizing b with
  | nil => exact absurd (List.nil_prefix) hp
  | cons x xs ih =>
    cases b with
    | nil => exact absurd h (List.not_lt_nil _)
    | cons y ys =>
      rw [List.cons_append, List.cons_append, List.cons_lt_cons_iff]
      rcases List.cons_lt_cons_iff.mp h with hxy | ⟨rfl, hlt⟩
      · exact Or.inl hxy
      · exact Or.inr ⟨rfl, ih hlt fun hq => hp (by simpa using hq)⟩

/-- One list is a prefix of the other, or they compare the same whatever follows them. -/
theorem prefix_or_lt (a b : List α) :
    a <+: b ∨ b <+: a ∨ (∀ r s, a ++ r < b ++ s) ∨ (∀ r s, b ++ s < a ++ r) := by
  by_cases h1 : a <+: b
  · exact Or.inl h1
  by_cases h2 : b <+: a
  · exact Or.inr (Or.inl h2)
  rcases lt_trichotomy a b with h | rfl | h
  · exact Or.inr (Or.inr (Or.inl (append_lt_append h h1)))
  · exact absurd (List.prefix_refl a) h1
  · exact Or.inr (Or.inr (Or.inr fun r s => append_lt_append h h2 s r))

/-- The lists that start with `p` are an interval. -/
theorem prefix_convex {p x y z : List α} (hx : p <+: x) (hz : p <+: z) (hxy : x ≤ y) (hyz : y ≤ z) : p <+: y := by
  by_contra hy
  obtain ⟨a, rfl⟩ := hx
  obtain ⟨c, rfl⟩ := hz
  rcases lt_trichotomy p y with h | h | h
  · have := append_lt_append h hy c []
    simp only [List.append_nil] at this
    exact not_lt.mpr hyz this
  · exact hy (h ▸ List.prefix_refl p)
  · by_cases hp : y <+: p
    · exact not_lt.mpr hxy (lt_of_lt_of_le h (le_of_isPrefix (List.prefix_append p a)))
    · have := append_lt_append h hp [] a
      simp only [List.append_nil] at this
      exact not_lt.mpr hxy this

end Collette.Lex
