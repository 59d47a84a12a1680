/-
  Collette.Bounds.Successor — `prefix_end`, the end of the keys with a byte prefix
  (`prefix.rs`).

  `prefixEnd` walks back over trailing `0xff` bytes, increments the byte before them and
  drops the rest. `ByteSucc p e` says so without the loop: `p` is `u`, a byte `c` below
  `0xff` and any number of `0xff`s; `e` is `u` and `c + 1`. A string of `0xff`s only
  (`AllFF`) has no end.

  - `prefixEnd_cases`: the loop computes one or the other.
  - `mem_prefix_iff`: a key is at or above `p` and within `prefixEnd p` exactly when it
    starts with `p`.
  - `byteSucc_le_iff`, `lt_byteSucc_iff`: in a good encoding the end of the group of a key
    (what starts with it) separates the keys up to it from those past it.
-/

import Collette.Key.Order

namespace Collette

open Collette.Lex

/-! ## Bounds -/

/-- `std::ops::Bound`. -/
inductive Bound (α : Type) where
  | included (a : α)
  | excluded (a : α)
  | unbounded
  deriving DecidableEq, Repr

def Bound.map {α β : Type} (f : α → β) : Bound α → Bound β
  | .included a => .included (f a)
  | .excluded a => .excluded (f a)
  | .unbounded => .unbounded

theorem Bound.map_eq_excluded {α β : Type} {f : α → β} {b : Bound α} {y : β} :
    b.map f = .excluded y ↔ ∃ x, b = .excluded x ∧ f x = y := by
  cases b <;> simp [Bound.map]

section Ranges

variable {α : Type} [LinearOrder α]

/-- What the bound admits as the start of a range. -/
def Bound.from : Bound α → α → Prop
  | .included a, x => a ≤ x
  | .excluded a, x => a < x
  | .unbounded, _ => True

/-- What the bound admits as the end of a range. -/
def Bound.upTo : Bound α → α → Prop
  | .included b, x => x ≤ b
  | .excluded b, x => x < b
  | .unbounded, _ => True

/-- `RangeBounds::contains`. -/
def contains (range : Bound α × Bound α) (x : α) : Prop := range.1.from x ∧ range.2.upTo x

instance (b : Bound α) (x : α) : Decidable (b.from x) := by
  cases b <;> simp only [Bound.from] <;> infer_instance

instance (b : Bound α) (x : α) : Decidable (b.upTo x) := by
  cases b <;> simp only [Bound.upTo] <;> infer_instance

instance (range : Bound α × Bound α) (x : α) : Decidable (contains range x) :=
  inferInstanceAs (Decidable (_ ∧ _))

/-- What `BTreeMap::range` accepts: the start not past the end, and not both bounds
    `Excluded` at one key. -/
def RangeOk : Bound α × Bound α → Prop
  | (.included a, .included b) => a ≤ b
  | (.included a, .excluded b) => a ≤ b
  | (.excluded a, .included b) => a ≤ b
  | (.excluded a, .excluded b) => a < b
  | (.unbounded, _) => True
  | (_, .unbounded) => True

instance (range : Bound α × Bound α) : Decidable (RangeOk range) := by
  obtain ⟨lo, hi⟩ := range
  cases lo <;> cases hi <;> simp only [RangeOk] <;> infer_instance

theorem Bound.from_mono {b : Bound α} {x y : α} (h : b.from x) (hxy : x ≤ y) : b.from y := by
  cases b with
  | included a => exact le_trans h hxy
  | excluded a => exact lt_of_lt_of_le h hxy
  | unbounded => trivial

theorem Bound.upTo_mono {b : Bound α} {x y : α} (h : b.upTo y) (hxy : x ≤ y) : b.upTo x := by
  cases b with
  | included a => exact le_trans hxy h
  | excluded a => exact lt_of_le_of_lt hxy h
  | unbounded => trivial

theorem rangeOk_unbounded_end (lo : Bound α) : RangeOk (lo, .unbounded) := by cases lo <;> trivial

/-! A start key that the end admits, or an end key that the start admits, is enough. -/

theorem rangeOk_included {a : α} {hi : Bound α} (h : hi.upTo a) : RangeOk (.included a, hi) := by
  cases hi with
  | included b => exact h
  | excluded b => exact le_of_lt h
  | unbounded => trivial

theorem rangeOk_excluded {a : α} {hi : Bound α} (h : hi.upTo a) : RangeOk (.excluded a, hi) := by
  cases hi with
  | included b => exact h
  | excluded b => exact h
  | unbounded => trivial

theorem rangeOk_excluded_end {b : α} {lo : Bound α} (h : lo.from b) : RangeOk (lo, .excluded b) := by
  cases lo with
  | included a => exact h
  | excluded a => exact h
  | unbounded => trivial

end Ranges

/-! ## `prefix_end` -/

/-- The loop over `i` downwards, the indices below `i` still to visit. -/
def prefixEndLoop (bytes : Bytes) : Nat → Bound Bytes
  | 0 => .unbounded
  | i + 1 =>
    if bytes.getD i 0 ≠ 0xff then .excluded ((bytes.set i (bytes.getD i 0 + 1)).take (i + 1))
    else prefixEndLoop bytes i

def prefixEnd (bytes : Bytes) : Bound Bytes := prefixEndLoop bytes bytes.length

def AllFF (bytes : Bytes) : Prop := ∀ b ∈ bytes, b = 0xff

instance (bytes : Bytes) : Decidable (AllFF bytes) := inferInstanceAs (Decidable (∀ b ∈ bytes, b = 0xff))

/-- `e` is the least byte string above every string that starts with `p`. -/
def ByteSucc (p e : Bytes) : Prop :=
  ∃ u c t, c ≠ 0xff ∧ AllFF t ∧ p = u ++ c :: t ∧ e = u ++ [c + 1]

theorem prefixEndLoop_cases (bytes : Bytes) (i : Nat) (hi : i ≤ bytes.length) (hff : AllFF (bytes.drop i)) :
    (AllFF bytes ∧ prefixEndLoop bytes i = .unbounded) ∨
      ∃ e, ByteSucc bytes e ∧ prefixEndLoop bytes i = .excluded e := by
  induction i with
  | zero => exact Or.inl ⟨by simpa using hff, rfl⟩
  | succ i ih =>
    have hget : bytes.getD i 0 = bytes[i] := List.getD_eq_getElem _ _ (by omega)
    have hsplit : bytes = bytes.take i ++ bytes[i] :: bytes.drop (i + 1) := by
      rw [← List.drop_eq_getElem_cons, List.take_append_drop]
    rw [prefixEndLoop, hget]
    by_cases hb : bytes[i] = 0xff
    · rw [if_neg (by simpa using hb)]
      refine ih (by omega) fun b hmem => ?_
      rw [List.drop_eq_getElem_cons (by omega)] at hmem
      rcases List.mem_cons.mp hmem with rfl | hmem
      · exact hb
      · exact hff b hmem
    · rw [if_pos (by simpa using hb)]
      refine Or.inr ⟨_, ⟨bytes.take i, bytes[i], bytes.drop (i + 1), hb, hff, hsplit, ?_⟩, rfl⟩
      rw [List.take_add_one, List.take_set_of_le (le_refl i)]
      simp [List.getElem?_set_self (show i < bytes.length by omega)]

theorem prefixEnd_cases (p : Bytes) :
    (AllFF p ∧ prefixEnd p = .unbounded) ∨ ∃ e, ByteSucc p e ∧ prefixEnd p = .excluded e :=
  prefixEndLoop_cases p p.length (le_refl _) (by simp [AllFF])

example : prefixEnd [1, 0xff] = .excluded [2] ∧ prefixEnd [0xff, 0xff] = .unbounded := by decide

/-- `b + 1` on a `u8` with overflow checked: `none` is the overflow panic. -/
def checkedSucc (b : UInt8) : Option UInt8 := if b.toNat + 1 < 2 ^ 8 then some (b + 1) else none

/-- `prefixEndLoop` with the increment checked. -/
def prefixEndCheckedLoop (bytes : Bytes) : Nat → Option (Bound Bytes)
  | 0 => some .unbounded
  | i + 1 =>
    if bytes.getD i 0 ≠ 0xff then
      (checkedSucc (bytes.getD i 0)).map fun b => .excluded ((bytes.set i b).take (i + 1))
    else prefixEndCheckedLoop bytes i

def prefixEndChecked (bytes : Bytes) : Option (Bound Bytes) := prefixEndCheckedLoop bytes bytes.length

theorem checkedSucc_of_ne {b : UInt8} (h : b ≠ 0xff) : checkedSucc b = some (b + 1) := by
  have hlt : b.toNat < 0xff := by simpa [UInt8.lt_iff_toNat_lt] using lt_ff h
  exact if_pos (by omega)

theorem prefixEndCheckedLoop_eq (bytes : Bytes) (i : Nat) :
    prefixEndCheckedLoop bytes i = some (prefixEndLoop bytes i) := by
  induction i with
  | zero => rfl
  | succ i ih =>
    rw [prefixEndCheckedLoop, prefixEndLoop]
    by_cases hb : bytes.getD i 0 = 0xff
    · rw [if_neg (by simpa using hb), if_neg (by simpa using hb)]
      exact ih
    · rw [if_pos hb, if_pos hb, checkedSucc_of_ne hb]
      rfl

/-- The increment never overflows: the loop leaves the `0xff`s alone. -/
theorem prefixEndChecked_eq (p : Bytes) : prefixEndChecked p = some (prefixEnd p) :=
  prefixEndCheckedLoop_eq p p.length

theorem not_allFF_of_byteSucc {p e : Bytes} (h : ByteSucc p e) : ¬ AllFF p := by
  obtain ⟨u, c, t, hc, -, rfl, -⟩ := h
  exact fun hff => hc (hff c (by simp))

theorem prefixEnd_eq_excluded {p e : Bytes} : prefixEnd p = .excluded e ↔ ByteSucc p e := by
  constructor
  · intro h
    rcases prefixEnd_cases p with ⟨-, hp⟩ | ⟨e', he, hp⟩
    · rw [hp] at h; cases h
    · rw [hp] at h; cases h; exact he
  · intro hm
    obtain ⟨u, c, t, hc, ht, hp, he⟩ := hm
    rcases prefixEnd_cases p with ⟨hff, -⟩ | ⟨e', ⟨u', c', t', hc', ht', hp', he'⟩, hq⟩
    · exact absurd (hff c (by rw [hp]; simp)) hc
    · -- the last byte below `0xff` is at one place only
      rw [hq]
      have hlast : u = u' ∧ c = c' := by
        have heq : u ++ c :: t = u' ++ c' :: t' := by rw [← hp, ← hp']
        rcases List.append_eq_append_iff.mp heq with ⟨w, hw1, hw2⟩ | ⟨w, hw1, hw2⟩
        · cases w with
          | nil => simp only [List.append_nil] at hw1; exact ⟨hw1.symm, (List.cons.inj hw2).1⟩
          | cons d w =>
            have : c' ∈ t := by rw [(List.cons.inj hw2).2]; simp
            exact absurd (ht c' this) hc'
        · cases w with
          | nil => simp only [List.append_nil] at hw1; exact ⟨hw1, (List.cons.inj hw2).1.symm⟩
          | cons d w =>
            have : c ∈ t' := by rw [(List.cons.inj hw2).2]; simp
            exact absurd (ht' c this) hc
      rw [he, he', hlast.1, hlast.2]

/-! ## The keys with a prefix -/

/-- Nothing but its extensions is at or above a string of `0xff`s. -/
theorem prefix_of_allFF {p x : Bytes} (h : AllFF p) (hle : p ≤ x) : p <+: x := by
  induction p generalizing x with
  | nil => exact List.nil_prefix
  | cons b p ih =>
    have hb : b = 0xff := h b (by simp)
    cases x with
    | nil => exact absurd (List.nil_lt_cons b p) (not_lt.mpr hle)
    | cons d x =>
      have hd : d = 0xff := by
        by_contra hd
        exact not_lt.mpr hle (List.cons_lt_cons_iff.mpr (Or.inl (by rw [hb]; exact lt_ff hd)))
      subst hb hd
      refine List.cons_prefix_cons.mpr ⟨rfl, ih (fun b hmem => h b (by simp [hmem])) ?_⟩
      rw [← not_lt]
      exact fun hlt => not_lt.mpr hle (List.cons_lt_cons_iff.mpr (Or.inr ⟨rfl, hlt⟩))

theorem toNat_succ {c : UInt8} (h : c ≠ 0xff) : (c + 1).toNat = c.toNat + 1 := by
  have hlt := lt_ff h
  rw [UInt8.lt_iff_toNat_lt] at hlt
  simp only [UInt8.reduceToNat] at hlt
  rw [UInt8.toNat_add]
  simp only [UInt8.toNat_one]
  omega

theorem lt_succ_iff {b c : UInt8} (h : c ≠ 0xff) : b < c + 1 ↔ b ≤ c := by
  rw [UInt8.lt_iff_toNat_lt, UInt8.le_iff_toNat_le, toNat_succ h]
  omega

theorem ByteSucc.lt {p e : Bytes} (h : ByteSucc p e) {x : Bytes} (hp : p <+: x) : x < e := by
  obtain ⟨u, c, t, hc, -, rfl, rfl⟩ := h
  obtain ⟨r, rfl⟩ := hp
  rw [List.append_assoc, append_lt_append_left, List.cons_append, List.cons_lt_cons_iff]
  exact Or.inl ((lt_succ_iff hc).mpr (le_refl c))

theorem ByteSucc.starts {p e : Bytes} (h : ByteSucc p e) {x : Bytes} (hle : p ≤ x) (hlt : x < e) : p <+: x := by
  obtain ⟨u, c, t, hc, ht, rfl, rfl⟩ := h
  obtain ⟨y, rfl⟩ := prefix_convex (List.prefix_append u _) (List.prefix_append u _) hle (le_of_lt hlt)
  rw [append_le_append_left] at hle
  rw [append_lt_append_left] at hlt
  refine (List.prefix_append_right_inj u).mpr ?_
  cases y with
  | nil => exact absurd (List.nil_lt_cons c t) (not_lt.mpr hle)
  | cons b y =>
    have hbc : b ≤ c := by
      rcases List.cons_lt_cons_iff.mp hlt with hlt | ⟨-, hlt⟩
      · exact (lt_succ_iff hc).mp hlt
      · exact absurd hlt (List.not_lt_nil _)
    have hcb : ¬ b < c := fun hb => not_lt.mpr hle (List.cons_lt_cons_iff.mpr (Or.inl hb))
    have heq : c = b := le_antisymm (not_lt.mp hcb) hbc
    subst heq
    refine List.cons_prefix_cons.mpr ⟨rfl, prefix_of_allFF ht ?_⟩
    rw [← not_lt]
    exact fun hlt => not_lt.mpr hle (List.cons_lt_cons_iff.mpr (Or.inr ⟨rfl, hlt⟩))

/-- Above the prefix and not extending it is at or above its end. -/
theorem ByteSucc.le {p e : Bytes} (h : ByteSucc p e) {x : Bytes} (hle : p ≤ x) (hp : ¬ p <+: x) : e ≤ x := by
  rw [← not_lt]
  exact fun hlt => hp (h.starts hle hlt)

theorem ByteSucc.append_left {p e : Bytes} (h : ByteSucc p e) (q : Bytes) : ByteSucc (q ++ p) (q ++ e) := by
  obtain ⟨u, c, t, hc, ht, rfl, rfl⟩ := h
  exact ⟨q ++ u, c, t, hc, ht, by rw [List.append_assoc], by rw [List.append_assoc]⟩

theorem ByteSucc.append_allFF {p e t : Bytes} (h : ByteSucc p e) (ht : AllFF t) : ByteSucc (p ++ t) e := by
  obtain ⟨u, c, s, hc, hs, rfl, rfl⟩ := h
  refine ⟨u, c, s ++ t, hc, fun b hb => ?_, by simp, rfl⟩
  rcases List.mem_append.mp hb with hb | hb
  · exact hs b hb
  · exact ht b hb

/-- The interval from `p` to `prefix_end(p)` holds the byte strings that start with `p`
    and no others. -/
theorem mem_prefix_iff (p x : Bytes) : (p ≤ x ∧ (prefixEnd p).upTo x) ↔ p <+: x := by
  refine ⟨fun ⟨hle, hup⟩ => ?_, fun hp => ⟨le_of_isPrefix hp, ?_⟩⟩
  · rcases prefixEnd_cases p with ⟨hff, -⟩ | ⟨e, he, hq⟩
    · exact prefix_of_allFF hff hle
    · rw [hq] at hup; exact he.starts hle hup
  · rcases prefixEnd_cases p with ⟨-, hq⟩ | ⟨e, he, hq⟩
    · rw [hq]; trivial
    · rw [hq]; exact he.lt hp

/-- `ByteSucc` is what its name says: nothing lower is above every extension of `p`. -/
theorem ByteSucc.isLeast {p e : Bytes} (h : ByteSucc p e) : IsLeast {b | ∀ x, p <+: x → x < b} e := by
  refine ⟨fun x hp => h.lt hp, fun b hb => ?_⟩
  by_contra hlt
  rw [not_le] at hlt
  have hle : p ≤ b := le_of_lt (hb p (List.prefix_refl p))
  exact lt_irrefl b (hb b (h.starts hle hlt))

/-- `prefix_end` delimits the keys with a prefix: membership, no overflow, least end. -/
theorem prefixEnd_delimits (p : Bytes) :
    (∀ x, (p ≤ x ∧ (prefixEnd p).upTo x) ↔ p <+: x) ∧
      prefixEndChecked p = some (prefixEnd p) ∧
      ∀ e, prefixEnd p = .excluded e → IsLeast {b | ∀ x, p <+: x → x < b} e :=
  ⟨mem_prefix_iff p, prefixEndChecked_eq p, fun _ he => (prefixEnd_eq_excluded.mp he).isLeast⟩

/-- `[2]` is the least byte string above all that start with `[1, 0xff]`. -/
theorem prefixEnd_delimits_trailing_ff :
    IsLeast {b : Bytes | ∀ x, [1, 0xff] <+: x → x < b} [2] :=
  (prefixEnd_delimits [1, 0xff]).2.2 [2] (by decide)

theorem prefixEnd_upTo {p x : Bytes} (h : p <+: x) : (prefixEnd p).upTo x := ((mem_prefix_iff p x).mpr h).2

/-! ## Groups of keys -/

section Groups

variable {κ : Type} [LinearOrder κ] {enc : κ → Bytes}

/-- An all-`0xff` key is the last of its type. -/
theorem le_of_allFF (hK : Good enc) {a : κ} (ha : AllFF (enc a)) (k : κ) : k ≤ a := by
  by_contra h
  rw [not_le] at h
  exact ne_of_lt h (hK.selfDelimiting a k (prefix_of_allFF ha ((hK.le_iff a k).mpr (le_of_lt h))))

/-- A key past the group of `a` is at or past the end of the group, and the other way
    round. -/
theorem byteSucc_le_iff (hK : Good enc) {a : κ} {e : Bytes} (he : ByteSucc (enc a) e) (k : κ) :
    e ≤ enc k ↔ a < k := by
  constructor
  · intro h
    by_contra hk
    rw [not_lt, ← hK.le_iff] at hk
    exact not_lt.mpr h (lt_of_le_of_lt hk (he.lt (List.prefix_refl _)))
  · intro h
    exact he.le ((hK.le_iff a k).mpr (le_of_lt h)) fun hp => ne_of_lt h (hK.selfDelimiting a k hp)

theorem lt_byteSucc_iff (hK : Good enc) {a : κ} {e : Bytes} (he : ByteSucc (enc a) e) (k : κ)
    (t : Bytes) : enc k ++ t < e ↔ k ≤ a := by
  constructor
  · intro h
    by_contra hk
    rw [not_le, ← byteSucc_le_iff hK he] at hk
    exact not_lt.mpr (le_trans hk (le_of_isPrefix (List.prefix_append _ t))) h
  · intro h
    rcases lt_or_eq_of_le h with hlt | rfl
    · exact lt_trans (by simpa using hK.lt hlt t []) (he.lt (List.prefix_refl _))
    · exact he.lt (List.prefix_append _ t)

end Groups

end Collette
