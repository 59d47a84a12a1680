/-
  Collette.Lex.Code — encodings of ordered values as lists.

  `Good enc`: the encodings of two distinct values compare as the values do, whatever
  follows either of them. It is what concatenation needs. Order preservation alone does
  not survive it (the next component may decide a comparison the first one should
  have), and neither does a code in which one encoding is a prefix of another.

  - `good_iff`: good is order preserving and self-delimiting.
  - `Good.prod`: the concatenation of two good encodings is good for the lexicographic
    product; with `Good.comap`, so is any composite built from good parts.
-/

import Collette.Lex.Order

namespace Collette.Lex

variable {α κ μ : Type*}

/-- No encoding is a prefix of another. -/
def SelfDelimiting (enc : κ → List α) : Prop := ∀ x y, enc x <+: enc y → x = y

theorem SelfDelimiting.injective {enc : κ → List α} (h : SelfDelimiting enc) : Function.Injective enc :=
  fun x y e => h x y (e ▸ List.prefix_refl _)

/-- A self-delimiting encoding can be read off the front of any list. -/
theorem SelfDelimiting.of_append {enc : κ → List α} (h : SelfDelimiting enc) {x y : κ} {r s : List α}
    (e : enc x ++ r = enc y ++ s) : x = y ∧ r = s := by
  have hxy : x = y := by
    rcases List.prefix_or_prefix_of_prefix (List.prefix_append (enc x) r) (e ▸ List.prefix_append (enc y) s) with
      hp | hp
    · exact h x y hp
    · exact (h y x hp).symm
  subst hxy
  exact ⟨rfl, List.append_cancel_left e⟩

theorem selfDelimiting_of_append {enc : κ → List α} (h : ∀ x y r s, enc x ++ r = enc y ++ s → x = y) :
    SelfDelimiting enc := by
  intro x y hp
  obtain ⟨t, ht⟩ := hp
  exact h x y t [] (by rw [ht, List.append_nil])

variable [LinearOrder α] [LinearOrder κ] [LinearOrder μ]

/-- Distinct values compare as their encodings do, whatever follows the encodings. -/
def Good (enc : κ → List α) : Prop :=
  ∀ x y, x ≠ y → ∀ r s, compare (enc x ++ r) (enc y ++ s) = compare x y

/-- Values compare as their encodings do. -/
def OrderPreserving (enc : κ → List α) : Prop := ∀ x y, compare (enc x) (enc y) = compare x y

theorem Good.lt {enc : κ → List α} (h : Good enc) {x y : κ} (hxy : x < y) (r s : List α) :
    enc x ++ r < enc y ++ s := by
  rw [← compare_eq_lt, h x y (ne_of_lt hxy), compare_lt_iff_lt]
  exact hxy

theorem good_of_lt {enc : κ → List α} (h : ∀ x y, x < y → ∀ r s, enc x ++ r < enc y ++ s) : Good enc :=
  fun x y hne r s => compare_eq_compare (fun hlt => h x y hlt r s) (fun hgt => h y x hgt s r)
    (fun e => absurd e hne)

theorem Good.selfDelimiting {enc : κ → List α} (h : Good enc) : SelfDelimiting enc := by
  intro x y hp
  obtain ⟨t, ht⟩ := hp
  by_contra hne
  have := h x y hne t []
  rw [ht, List.append_nil, (compare_eq_eq _ _).mpr rfl] at this
  exact hne (compare_eq_iff_eq.mp this.symm)

theorem Good.orderPreserving {enc : κ → List α} (h : Good enc) : OrderPreserving enc := by
  intro x y
  by_cases e : x = y
  · subst e; rw [(compare_eq_eq _ _).mpr rfl, compare_eq_iff_eq.mpr rfl]
  · simpa using h x y e [] []

theorem Good.lt_iff {enc : κ → List α} (h : Good enc) (x y : κ) : enc x < enc y ↔ x < y := by
  rw [← compare_eq_lt, h.orderPreserving x y, compare_lt_iff_lt]

theorem Good.le_iff {enc : κ → List α} (h : Good enc) (x y : κ) : enc x ≤ enc y ↔ x ≤ y := by
  rw [← not_lt, ← not_lt, h.lt_iff]

/-- Appended to, an encoding is at or above another exactly when its value is. -/
theorem Good.le_append_iff {enc : κ → List α} (h : Good enc) (x y : κ) (t : List α) :
    enc x ≤ enc y ++ t ↔ x ≤ y := by
  rcases lt_trichotomy x y with hlt | rfl | hgt
  · exact iff_of_true (le_of_lt (by simpa using h.lt hlt [] t)) (le_of_lt hlt)
  · exact iff_of_true (le_of_isPrefix (List.prefix_append _ t)) le_rfl
  · exact iff_of_false (not_le.mpr (by simpa using h.lt hgt t [])) (not_le.mpr hgt)

theorem good_iff {enc : κ → List α} : Good enc ↔ OrderPreserving enc ∧ SelfDelimiting enc := by
  refine ⟨fun h => ⟨h.orderPreserving, h.selfDelimiting⟩, fun ⟨ho, hs⟩ => good_of_lt fun x y hxy r s => ?_⟩
  have hlt : enc x < enc y := by rw [← compare_eq_lt, ho x y, compare_lt_iff_lt]; exact hxy
  exact append_lt_append hlt (fun hp => ne_of_lt hxy (hs x y hp)) r s

/-- Concatenation is good for the lexicographic product. -/
theorem Good.prod {encA : κ → List α} {encB : μ → List α} (hA : Good encA) (hB : Good encB) :
    Good fun p : κ ×ₗ μ => encA (ofLex p).1 ++ encB (ofLex p).2 := by
  refine good_of_lt fun p q hpq r s => ?_
  rw [List.append_assoc, List.append_assoc]
  rcases Prod.Lex.lt_iff.mp hpq with h | ⟨h1, h2⟩
  · exact hA.lt h _ _
  · rw [h1, append_lt_append_left]
    exact hB.lt h2 r s

theorem Good.comap {enc : κ → List α} (h : Good enc) {f : μ → κ} (hf : StrictMono f) :
    Good fun x => enc (f x) := good_of_lt fun _ _ hxy r s => h.lt (hf hxy) r s

/-- Fixed-width encodings need only preserve the order. -/
theorem good_of_length {enc : κ → List α} {n : Nat} (hn : ∀ x, (enc x).length = n)
    (hlt : ∀ x y, x < y → enc x < enc y) : Good enc := by
  refine good_of_lt fun x y hxy r s => append_lt_append (hlt x y hxy) (fun hp => ?_) r s
  have heq := hp.eq_of_length (by rw [hn, hn])
  exact ne_of_lt (hlt x y hxy) heq

end Collette.Lex
