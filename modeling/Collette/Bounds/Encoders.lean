/-
  Collette.Bounds.Encoders — from logical ranges to byte ranges (`bounds.rs`, the tuple
  instances of `prefix.rs`).

  A `Unique` index stores `encode k` and its ranges are encoded bound for bound
  (`exactEncoder`). A `Multi` index stores `encode k ++ encode pk`; its encoder has to
  take in or leave out every primary key of a logical key at once, and does so with
  `prefixEnd` (`prefixEncoder`). Both can range over the suffix of a fixed prefix.

  - `exact_range_iff`, `exact_prefixed_iff`: the exact encoder admits the keys of the
    logical range and no others.
  - `prefix_start_iff`, `prefix_end_iff`: so do the bounds of the prefix encoder, except
    one. `prefixEnd` of an all-`0xff` key is `Unbounded`, right for the end of a range
    and wrong for its start: `Excluded` of the last key then starts before every key.
  - `multi_range_exact_iff`, `prefixed_range_exact_iff`: the two encoders are exact on a
    key unless that happens and the end of the range admits the key; a prefixed range
    can then hold keys of other prefixes (`prefixed_range_escapes`).
-/

import Collette.Bounds.Successor

namespace Collette

open Collette.Lex

abbrev ScanRange := Bound Bytes × Bound Bytes

/-! ## `Prefixable` -/

/-- `P` is a prefix of the key `K` and `S` the rest of it. -/
class Prefixable (K P : Type) (S : outParam Type) {KO PO SO : outParam Type} [Key K KO] [Key P PO] [Key S SO] where
  compose : P → S → K
  encode_compose : ∀ p s, encode (compose p s) = encode p ++ encode s
  exists_compose : ∀ k, ∃ p s, k = compose p s

section Instances

variable {A B C D AO BO CO DO : Type} [Key A AO] [Key B BO] [Key C CO] [Key D DO]

instance : Prefixable (Tup2 A B) A B where
  compose p s := ⟨p, s⟩
  encode_compose _ _ := encode_tup2 _
  exists_compose k := ⟨k.fst, k.snd, rfl⟩

instance : Prefixable (Tup3 A B C) A (Tup2 B C) where
  compose p s := ⟨p, s.fst, s.snd⟩
  encode_compose _ _ := by simp
  exists_compose k := ⟨k.fst, ⟨k.snd, k.thd⟩, rfl⟩

instance : Prefixable (Tup3 A B C) (Tup2 A B) C where
  compose p s := ⟨p.fst, p.snd, s⟩
  encode_compose _ _ := by simp
  exists_compose k := ⟨⟨k.fst, k.snd⟩, k.thd, rfl⟩

instance : Prefixable (Tup4 A B C D) A (Tup3 B C D) where
  compose p s := ⟨p, s.fst, s.snd, s.thd⟩
  encode_compose _ _ := by simp
  exists_compose k := ⟨k.fst, ⟨k.snd, k.thd, k.fth⟩, rfl⟩

instance : Prefixable (Tup4 A B C D) (Tup2 A B) (Tup2 C D) where
  compose p s := ⟨p.fst, p.snd, s.fst, s.snd⟩
  encode_compose _ _ := by simp
  exists_compose k := ⟨⟨k.fst, k.snd⟩, ⟨k.thd, k.fth⟩, rfl⟩

instance : Prefixable (Tup4 A B C D) (Tup3 A B C) D where
  compose p s := ⟨p.fst, p.snd, p.thd, s⟩
  encode_compose _ _ := by simp
  exists_compose k := ⟨⟨k.fst, k.snd, k.thd⟩, k.fth, rfl⟩

end Instances

/-! ## The encoders -/

structure BoundsEncoder (K : Type) where
  encodeStartBound : Bound K → Bound Bytes
  encodeEndBound : Bound K → Bound Bytes

section Encoders

variable {K P S PK KO PO SO PKO : Type} [Key K KO] [Key P PO] [Key S SO] [Key PK PKO] [Prefixable K P S]

def BoundsEncoder.encodeRange (E : BoundsEncoder K) (range : Bound K × Bound K) : ScanRange :=
  (E.encodeStartBound range.1, E.encodeEndBound range.2)

/-- Every key that starts with the encoded prefix. -/
def encodePrefix (p : P) : ScanRange := (.included (encode p), prefixEnd (encode p))

def BoundsEncoder.encodePrefixedRange (E : BoundsEncoder K) (p : P) (range : Bound S × Bound S) : ScanRange :=
  (match range.1 with
    | .included s => E.encodeStartBound (.included (Prefixable.compose p s))
    | .excluded s => E.encodeStartBound (.excluded (Prefixable.compose p s))
    | .unbounded => (encodePrefix p).1,
   match range.2 with
    | .included s => E.encodeEndBound (.included (Prefixable.compose p s))
    | .excluded s => E.encodeEndBound (.excluded (Prefixable.compose p s))
    | .unbounded => (encodePrefix p).2)

def exactEncoder : BoundsEncoder K where
  encodeStartBound b := b.map encode
  encodeEndBound b := b.map encode

def prefixEncoder : BoundsEncoder K where
  encodeStartBound
    | .included k => .included (encode k)
    | .excluded k => prefixEnd (encode k)
    | .unbounded => .unbounded
  encodeEndBound
    | .included k => prefixEnd (encode k)
    | .excluded k => .excluded (encode k)
    | .unbounded => .unbounded

variable [LinearOrder K] [LinearOrder P] [LinearOrder S]

/-! ## One bound at a time -/

theorem exact_start_iff (hK : Good (encode : K → Bytes)) (lo : Bound K) (k : K) :
    (exactEncoder.encodeStartBound lo).from (encode k) ↔ lo.from k := by
  cases lo with
  | included a => exact hK.le_iff a k
  | excluded a => exact hK.lt_iff a k
  | unbounded => exact Iff.rfl

theorem exact_end_iff (hK : Good (encode : K → Bytes)) (hi : Bound K) (k : K) :
    (exactEncoder.encodeEndBound hi).upTo (encode k) ↔ hi.upTo k := by
  cases hi with
  | included b => exact hK.le_iff k b
  | excluded b => exact hK.lt_iff k b
  | unbounded => exact Iff.rfl

/-- The start bound encoded as `Unbounded` though it is not: `Excluded` of an all-`0xff`
    key. -/
def LostStart (lo : Bound K) : Prop := ∃ a, lo = .excluded a ∧ AllFF (encode a)

theorem not_from_of_lostStart (hK : Good (encode : K → Bytes)) {lo : Bound K} (h : LostStart lo) (k : K) :
    ¬ lo.from k := by
  obtain ⟨a, rfl, ha⟩ := h
  exact not_lt.mpr (le_of_allFF hK ha k)

theorem prefix_start_iff (hK : Good (encode : K → Bytes)) (lo : Bound K) (k : K) {t : Bytes} (ht : t ≠ []) :
    (prefixEncoder.encodeStartBound lo).from (encode k ++ t) ↔ lo.from k ∨ LostStart lo := by
  cases lo with
  | included a =>
    show encode a ≤ encode k ++ t ↔ a ≤ k ∨ _
    rw [hK.le_append_iff]
    refine ⟨Or.inl, fun h => ?_⟩
    rcases h with h | ⟨b, hb, -⟩
    · exact h
    · cases hb
  | excluded a =>
    show (prefixEnd (encode a)).from _ ↔ a < k ∨ _
    rcases prefixEnd_cases (encode a) with ⟨hff, hq⟩ | ⟨e, he, hq⟩
    · rw [hq]
      exact iff_of_true trivial (Or.inr ⟨a, rfl, hff⟩)
    · rw [hq, ← byteSucc_le_iff hK he]
      show e < encode k ++ t ↔ _
      constructor
      · refine fun h => Or.inl ?_
        by_contra hk
        rw [byteSucc_le_iff hK he, not_lt, ← lt_byteSucc_iff hK he k t] at hk
        exact lt_asymm h hk
      · intro hm
        rcases hm with h | ⟨b, hb, hff⟩
        · exact lt_of_le_of_lt h (lt_append_self ht)
        · cases hb
          exact absurd hff (not_allFF_of_byteSucc he)
  | unbounded => exact iff_of_true trivial (Or.inl trivial)

theorem prefix_end_iff (hK : Good (encode : K → Bytes)) (hi : Bound K) (k : K) (t : Bytes) :
    (prefixEncoder.encodeEndBound hi).upTo (encode k ++ t) ↔ hi.upTo k := by
  cases hi with
  | included b =>
    show (prefixEnd (encode b)).upTo _ ↔ k ≤ b
    rcases prefixEnd_cases (encode b) with ⟨hff, hq⟩ | ⟨e, he, hq⟩
    · rw [hq]
      exact iff_of_true trivial (le_of_allFF hK hff k)
    · rw [hq]
      exact lt_byteSucc_iff hK he k t
  | excluded b =>
    show encode k ++ t < encode b ↔ k < b
    rw [← not_le, hK.le_append_iff, not_le]
  | unbounded => exact Iff.rfl

/-! ## Ranges -/

theorem exact_range_iff (hK : Good (encode : K → Bytes)) (range : Bound K × Bound K) (k : K) :
    contains (exactEncoder.encodeRange range) (encode k) ↔ contains range k :=
  and_congr (exact_start_iff hK range.1 k) (exact_end_iff hK range.2 k)

theorem prefix_range_iff (hK : Good (encode : K → Bytes)) (range : Bound K × Bound K) (k : K) {t : Bytes}
    (ht : t ≠ []) :
    contains (prefixEncoder.encodeRange range) (encode k ++ t) ↔
      (range.1.from k ∨ LostStart range.1) ∧ range.2.upTo k :=
  and_congr (prefix_start_iff hK range.1 k ht) (prefix_end_iff hK range.2 k t)

/-- Whether a key belongs is decided correctly unless the start is lost and the end
    admits the key. -/
theorem prefix_range_exact_iff (hK : Good (encode : K → Bytes)) (range : Bound K × Bound K) (k : K) {t : Bytes}
    (ht : t ≠ []) :
    (contains (prefixEncoder.encodeRange range) (encode k ++ t) ↔ contains range k) ↔
      ¬ (LostStart range.1 ∧ range.2.upTo k) := by
  rw [prefix_range_iff hK range k ht, or_and_right]
  show (contains range k ∨ _ ↔ contains range k) ↔ _
  rw [or_iff_left_iff_imp]
  exact ⟨fun h hlost => not_from_of_lostStart hK hlost.1 k (h hlost).1, fun h hlost => absurd hlost h⟩

/-! ## Ranges under a prefix -/

open Prefixable (compose)

theorem compose_lt_iff (hK : Good (encode : K → Bytes)) (hP : Good (encode : P → Bytes))
    (hS : Good (encode : S → Bytes)) (p p' : P) (s s' : S) :
    (compose p s : K) < compose p' s' ↔ p < p' ∨ p = p' ∧ s < s' := by
  rw [← hK.lt_iff, Prefixable.encode_compose, Prefixable.encode_compose]
  rcases lt_trichotomy p p' with h | rfl | h
  · exact iff_of_true (hP.lt h _ _) (Or.inl h)
  · rw [append_lt_append_left, hS.lt_iff]
    simp
  · refine iff_of_false (lt_asymm (hP.lt h _ _)) ?_
    intro hm
    rcases hm with h' | ⟨rfl, -⟩
    · exact lt_asymm h h'
    · exact lt_irrefl _ h

theorem compose_le_iff (hK : Good (encode : K → Bytes)) (hP : Good (encode : P → Bytes))
    (hS : Good (encode : S → Bytes)) (p p' : P) (s s' : S) :
    (compose p s : K) ≤ compose p' s' ↔ p < p' ∨ p = p' ∧ s ≤ s' := by
  rw [← not_lt, compose_lt_iff hK hP hS]
  rcases lt_trichotomy p p' with h | rfl | h
  · exact iff_of_true (fun h' => by rcases h' with h' | ⟨rfl, -⟩ <;> order) (Or.inl h)
  · simp
  · exact iff_of_false (fun h' => h' (Or.inl h)) (fun h' => by rcases h' with h' | ⟨rfl, -⟩ <;> order)

omit [LinearOrder K] in
theorem compose_inj (hP : Good (encode : P → Bytes)) (hS : Good (encode : S → Bytes)) {p p' : P} {s s' : S}
    (h : (compose p s : K) = compose p' s') : p = p' ∧ s = s' := by
  have he : encode p ++ encode s = encode p' ++ encode s' := by
    rw [← Prefixable.encode_compose (K := K), ← Prefixable.encode_compose (K := K), h]
  obtain ⟨h1, h2⟩ := hP.selfDelimiting.of_append he
  exact ⟨h1, hS.selfDelimiting.injective h2⟩

/-- The bound on suffixes as a bound on the keys with the prefix. -/
theorem compose_from_iff (hK : Good (encode : K → Bytes)) (hP : Good (encode : P → Bytes))
    (hS : Good (encode : S → Bytes)) {lo : Bound S} (hlo : lo ≠ .unbounded) (p p' : P) (s' : S) :
    (lo.map (compose p : S → K)).from (compose p' s') ↔ p < p' ∨ p = p' ∧ lo.from s' := by
  cases lo with
  | included a => exact compose_le_iff hK hP hS p p' a s'
  | excluded a => exact compose_lt_iff hK hP hS p p' a s'
  | unbounded => exact absurd rfl hlo

theorem compose_upTo_iff (hK : Good (encode : K → Bytes)) (hP : Good (encode : P → Bytes))
    (hS : Good (encode : S → Bytes)) {hi : Bound S} (hhi : hi ≠ .unbounded) (p p' : P) (s' : S) :
    (hi.map (compose p : S → K)).upTo (compose p' s') ↔ p' < p ∨ p' = p ∧ hi.upTo s' := by
  cases hi with
  | included b => exact compose_le_iff hK hP hS p' p s' b
  | excluded b => exact compose_lt_iff hK hP hS p' p s' b
  | unbounded => exact absurd rfl hhi

section Clamped

variable (E : BoundsEncoder K) (p : P) {range : Bound S × Bound S}

omit [LinearOrder K] [LinearOrder P] [LinearOrder S]

/-- A suffix bound is encoded composed with the prefix; no bound is clamped to it. -/
theorem prefixed_start_bounded (h : range.1 ≠ .unbounded) :
    (E.encodePrefixedRange p range).1 = E.encodeStartBound (range.1.map (compose p)) := by
  obtain ⟨lo, hi⟩ := range
  cases lo with
  | unbounded => exact absurd rfl h
  | _ => rfl

theorem prefixed_end_bounded (h : range.2 ≠ .unbounded) :
    (E.encodePrefixedRange p range).2 = E.encodeEndBound (range.2.map (compose p)) := by
  obtain ⟨lo, hi⟩ := range
  cases hi with
  | unbounded => exact absurd rfl h
  | _ => rfl

theorem prefixed_start_unbounded (h : range.1 = .unbounded) :
    (E.encodePrefixedRange p range).1 = .included (encode p) := by
  obtain ⟨lo, hi⟩ := range
  cases h
  rfl

theorem prefixed_end_unbounded (h : range.2 = .unbounded) :
    (E.encodePrefixedRange p range).2 = prefixEnd (encode p) := by
  obtain ⟨lo, hi⟩ := range
  cases h
  rfl

end Clamped

omit [LinearOrder S] in
theorem mem_prefix_and_iff {p p' : P} {a b : Prop} :
    (p < p' ∨ p = p' ∧ a) ∧ (p' < p ∨ p' = p ∧ b) ↔ p' = p ∧ a ∧ b := by
  constructor
  · intro hm
    obtain ⟨h1, h2⟩ := hm
    rcases h1 with h1 | ⟨rfl, ha⟩
    · rcases h2 with h2 | ⟨rfl, -⟩
      · exact absurd h1 (lt_asymm h2)
      · exact absurd h1 (lt_irrefl _)
    · rcases h2 with h2 | ⟨-, hb⟩
      · exact absurd h2 (lt_irrefl _)
      · exact ⟨rfl, ha, hb⟩
  · intro hm
    obtain ⟨rfl, ha, hb⟩ := hm
    exact ⟨Or.inr ⟨rfl, ha⟩, Or.inr ⟨rfl, hb⟩⟩

section Prefixed

variable (hK : Good (encode : K → Bytes)) (hP : Good (encode : P → Bytes)) (hS : Good (encode : S → Bytes))
include hK hP hS

theorem exact_prefixed_start_iff (p p' : P) (range : Bound S × Bound S) (s' : S) :
    ((exactEncoder : BoundsEncoder K).encodePrefixedRange p range).1.from (encode (compose p' s' : K)) ↔
      p < p' ∨ p = p' ∧ range.1.from s' := by
  by_cases hlo : range.1 = .unbounded
  · rw [prefixed_start_unbounded _ p hlo, hlo, Prefixable.encode_compose]
    exact (hP.le_append_iff p p' _).trans (by simp [Bound.from, le_iff_lt_or_eq])
  · rw [prefixed_start_bounded _ p hlo, exact_start_iff hK, compose_from_iff hK hP hS hlo]

theorem exact_prefixed_end_iff (p p' : P) (range : Bound S × Bound S) (s' : S) :
    ((exactEncoder : BoundsEncoder K).encodePrefixedRange p range).2.upTo (encode (compose p' s' : K)) ↔
      p' < p ∨ p' = p ∧ range.2.upTo s' := by
  by_cases hhi : range.2 = .unbounded
  · rw [prefixed_end_unbounded _ p hhi, hhi, Prefixable.encode_compose]
    exact (prefix_end_iff hP (.included p) p' _).trans (by simp [Bound.upTo, le_iff_lt_or_eq])
  · rw [prefixed_end_bounded _ p hhi, exact_end_iff hK, compose_upTo_iff hK hP hS hhi]

theorem prefix_prefixed_start_iff (p p' : P) (range : Bound S × Bound S) (s' : S) {t : Bytes} (ht : t ≠ []) :
    ((prefixEncoder : BoundsEncoder K).encodePrefixedRange p range).1.from (encode (compose p' s' : K) ++ t) ↔
      (p < p' ∨ p = p' ∧ range.1.from s') ∨ LostStart (range.1.map (compose p : S → K)) := by
  by_cases hlo : range.1 = .unbounded
  · rw [prefixed_start_unbounded _ p hlo, hlo, Prefixable.encode_compose, List.append_assoc]
    exact (hP.le_append_iff p p' _).trans (by simp [Bound.from, Bound.map, LostStart, le_iff_lt_or_eq])
  · rw [prefixed_start_bounded _ p hlo, prefix_start_iff hK _ _ ht, compose_from_iff hK hP hS hlo]

theorem prefix_prefixed_end_iff (p p' : P) (range : Bound S × Bound S) (s' : S) (t : Bytes) :
    ((prefixEncoder : BoundsEncoder K).encodePrefixedRange p range).2.upTo (encode (compose p' s' : K) ++ t) ↔
      p' < p ∨ p' = p ∧ range.2.upTo s' := by
  by_cases hhi : range.2 = .unbounded
  · rw [prefixed_end_unbounded _ p hhi, hhi, Prefixable.encode_compose, List.append_assoc]
    exact (prefix_end_iff hP (.included p) p' _).trans (by simp [Bound.upTo, le_iff_lt_or_eq])
  · rw [prefixed_end_bounded _ p hhi, prefix_end_iff hK, compose_upTo_iff hK hP hS hhi]

omit [LinearOrder K] [LinearOrder P] [LinearOrder S] hK hP hS in
theorem ne_unbounded_of_lostStart {p : P} {lo : Bound S} (h : LostStart (lo.map (compose p : S → K))) :
    lo ≠ .unbounded := by
  obtain ⟨k, hk, -⟩ := h
  obtain ⟨s, rfl, -⟩ := Bound.map_eq_excluded.mp hk
  exact fun e => by cases e

omit [LinearOrder K] hK in
theorem exists_suffix_iff (p p' : P) (range : Bound S × Bound S) (s' : S) :
    (∃ s, (compose p' s' : K) = compose p s ∧ contains range s) ↔ p' = p ∧ contains range s' := by
  constructor
  · intro hm
    obtain ⟨s, he, hs⟩ := hm
    obtain ⟨rfl, rfl⟩ := compose_inj hP hS he
    exact ⟨rfl, hs⟩
  · intro hm
    obtain ⟨rfl, hs⟩ := hm
    exact ⟨s', rfl, hs⟩

theorem exact_prefixed_iff (p : P) (range : Bound S × Bound S) (k : K) :
    contains ((exactEncoder : BoundsEncoder K).encodePrefixedRange p range) (encode k) ↔
      ∃ s, k = compose p s ∧ contains range s := by
  obtain ⟨p', s', rfl⟩ := Prefixable.exists_compose (P := P) k
  rw [contains, exact_prefixed_start_iff hK hP hS, exact_prefixed_end_iff hK hP hS, exists_suffix_iff hP hS]
  exact mem_prefix_and_iff

/-- When the start is lost the prefix is the last one, and every key is up to its end. -/
theorem compose_upTo_of_lostStart {p : P} {range : Bound S × Bound S}
    (hlost : LostStart (range.1.map (compose p : S → K))) (p' : P) (s' : S) :
    (range.2.map (compose p : S → K)).upTo (compose p' s') ↔ p' < p ∨ p' = p ∧ range.2.upTo s' := by
  by_cases hhi : range.2 = .unbounded
  · obtain ⟨k, hk, hff⟩ := hlost
    obtain ⟨s, -, rfl⟩ := Bound.map_eq_excluded.mp hk
    have hle := (compose_le_iff hK hP hS p' p s' s).mp (le_of_allFF hK hff _)
    rw [hhi]
    exact iff_of_true trivial (hle.imp_right fun h => ⟨h.1, trivial⟩)
  · exact compose_upTo_iff hK hP hS hhi p p' s'

theorem prefix_prefixed_range_iff (p : P) (range : Bound S × Bound S) (k : K) {t : Bytes} (ht : t ≠ []) :
    contains ((prefixEncoder : BoundsEncoder K).encodePrefixedRange p range) (encode k ++ t) ↔
      (∃ s, k = compose p s ∧ contains range s) ∨
        LostStart (range.1.map (compose p : S → K)) ∧ (range.2.map (compose p : S → K)).upTo k := by
  obtain ⟨p', s', rfl⟩ := Prefixable.exists_compose (P := P) k
  rw [contains, prefix_prefixed_start_iff hK hP hS p p' range s' ht, prefix_prefixed_end_iff hK hP hS, or_and_right,
    mem_prefix_and_iff, exists_suffix_iff hP hS]
  refine or_congr_right (and_congr_right fun hlost => ?_)
  exact (compose_upTo_of_lostStart hK hP hS hlost p' s').symm

/-- Whether a key belongs under the prefix is decided correctly unless the start is lost
    and the end, taken as a bound on whole keys, admits the key. -/
theorem prefix_prefixed_exact_iff (p : P) (range : Bound S × Bound S) (k : K) {t : Bytes} (ht : t ≠ []) :
    (contains ((prefixEncoder : BoundsEncoder K).encodePrefixedRange p range) (encode k ++ t) ↔
        ∃ s, k = compose p s ∧ contains range s) ↔
      ¬ (LostStart (range.1.map (compose p : S → K)) ∧ (range.2.map (compose p : S → K)).upTo k) := by
  rw [prefix_prefixed_range_iff hK hP hS p range k ht, or_iff_left_iff_imp]
  constructor
  · intro h hlost
    obtain ⟨s, rfl, hs⟩ := h hlost
    have hfrom := (compose_from_iff hK hP hS (ne_unbounded_of_lostStart hlost.1) p p s).mpr (Or.inr ⟨rfl, hs.1⟩)
    exact not_from_of_lostStart hK hlost.1 _ hfrom
  · exact fun h hlost => absurd hlost h

end Prefixed

end Encoders

/-! ## The index key types -/

/-- A range over a `Multi` index is exact, but for a lost start. -/
structure RangeExactIff (K PK : Type) {KO PKO : Type} [Key K KO] [Key PK PKO] [LinearOrder K] : Prop where
  multi : ∀ (range : Bound K × Bound K) (k : K) (pk : PK),
    (contains (prefixEncoder.encodeRange range) (encode k ++ encode pk) ↔ contains range k) ↔
      ¬ (LostStart range.1 ∧ range.2.upTo k)

/-- A range under a prefix is exact over a `Unique` index; over a `Multi` index it is, but
    for a lost start. -/
structure PrefixedExactIff (K P PK : Type) {S KO PO SO PKO : Type} [Key K KO] [Key P PO] [Key S SO] [Key PK PKO]
    [Prefixable K P S] [LinearOrder K] [LinearOrder S] : Prop where
  unique : ∀ (p : P) (range : Bound S × Bound S) (k : K),
    contains ((exactEncoder : BoundsEncoder K).encodePrefixedRange p range) (encode k) ↔
      ∃ s, k = Prefixable.compose p s ∧ contains range s
  multi : ∀ (p : P) (range : Bound S × Bound S) (k : K) (pk : PK),
    (contains ((prefixEncoder : BoundsEncoder K).encodePrefixedRange p range) (encode k ++ encode pk) ↔
        ∃ s, k = Prefixable.compose p s ∧ contains range s) ↔
      ¬ (LostStart (range.1.map (Prefixable.compose p : S → K)) ∧
          (range.2.map (Prefixable.compose p : S → K)).upTo k)

section Tuples

variable {A B C D PK AO BO CO DO PKO : Type} [Key A AO] [Key B BO] [Key C CO] [Key D DO] [Key PK PKO]
  [LinearOrder A] [LinearOrder B] [LinearOrder C] [LinearOrder D]

theorem multi_range_exact_iff (hA : Good (encode : A → Bytes)) (hB : Good (encode : B → Bytes))
    (hC : Good (encode : C → Bytes)) (hpk : ∀ pk : PK, encode pk ≠ []) :
    RangeExactIff (Tup1 A) PK ∧ RangeExactIff (Tup2 A B) PK ∧ RangeExactIff (Tup3 A B C) PK :=
  ⟨⟨fun range k pk => prefix_range_exact_iff (good_tup1 hA) range k (hpk pk)⟩,
   ⟨fun range k pk => prefix_range_exact_iff (good_tup2 hA hB) range k (hpk pk)⟩,
   ⟨fun range k pk => prefix_range_exact_iff (good_tup3 hA hB hC) range k (hpk pk)⟩⟩

theorem encode_unsigned_ne_nil {n : Nat} (hn : n ≠ 0) (k : Unsigned n) : encode k ≠ [] := by
  rw [← List.length_pos_iff_ne_nil]
  simp only [encode_unsigned, length_toBeBytes]
  omega

theorem multi_range_exact_u8 :
    RangeExactIff (Tup1 (Unsigned 1)) (Unsigned 1) ∧ RangeExactIff (Tup2 (Unsigned 1) (Unsigned 1)) (Unsigned 1) ∧
      RangeExactIff (Tup3 (Unsigned 1) (Unsigned 1) (Unsigned 1)) (Unsigned 1) :=
  multi_range_exact_iff (good_unsigned 1) (good_unsigned 1) (good_unsigned 1) (encode_unsigned_ne_nil (by decide))

/-- Past `(255,)` there is no key, and the encoded range holds `(0,)`. -/
theorem multi_range_past_last :
    ¬ (contains (prefixEncoder.encodeRange (.excluded (⟨⟨255⟩⟩ : Tup1 (Unsigned 1)), .unbounded))
          (encode (⟨⟨0⟩⟩ : Tup1 (Unsigned 1)) ++ encode (⟨1⟩ : Unsigned 1)) ↔
        contains (.excluded (⟨⟨255⟩⟩ : Tup1 (Unsigned 1)), .unbounded) ⟨⟨0⟩⟩) := by decide

theorem prefixed_range_exact_iff (hA : Good (encode : A → Bytes)) (hB : Good (encode : B → Bytes))
    (hC : Good (encode : C → Bytes)) (hD : Good (encode : D → Bytes)) (hpk : ∀ pk : PK, encode pk ≠ []) :
    PrefixedExactIff (Tup2 A B) A PK ∧
    (PrefixedExactIff (Tup3 A B C) A PK ∧ PrefixedExactIff (Tup3 A B C) (Tup2 A B) PK) ∧
    (PrefixedExactIff (Tup4 A B C D) A PK ∧ PrefixedExactIff (Tup4 A B C D) (Tup2 A B) PK ∧
      PrefixedExactIff (Tup4 A B C D) (Tup3 A B C) PK) := by
  have h2 := good_tup2 hA hB
  have h3 := good_tup3 hA hB hC
  have h4 := good_tup4 hA hB hC hD
  have hBC := good_tup2 hB hC
  have hCD := good_tup2 hC hD
  have hBCD := good_tup3 hB hC hD
  refine ⟨⟨?_, ?_⟩, ⟨⟨?_, ?_⟩, ⟨?_, ?_⟩⟩, ⟨?_, ?_⟩, ⟨?_, ?_⟩, ⟨?_, ?_⟩⟩
  · exact exact_prefixed_iff h2 hA hB
  · exact fun p range k pk => prefix_prefixed_exact_iff h2 hA hB p range k (hpk pk)
  · exact exact_prefixed_iff h3 hA hBC
  · exact fun p range k pk => prefix_prefixed_exact_iff h3 hA hBC p range k (hpk pk)
  · exact exact_prefixed_iff h3 h2 hC
  · exact fun p range k pk => prefix_prefixed_exact_iff h3 h2 hC p range k (hpk pk)
  · exact exact_prefixed_iff h4 hA hBCD
  · exact fun p range k pk => prefix_prefixed_exact_iff h4 hA hBCD p range k (hpk pk)
  · exact exact_prefixed_iff h4 h2 hCD
  · exact fun p range k pk => prefix_prefixed_exact_iff h4 h2 hCD p range k (hpk pk)
  · exact exact_prefixed_iff h4 h3 hD
  · exact fun p range k pk => prefix_prefixed_exact_iff h4 h3 hD p range k (hpk pk)

theorem prefixed_range_exact_u8 : PrefixedExactIff (Tup2 (Unsigned 1) (Unsigned 1)) (Unsigned 1) (Unsigned 1) :=
  (prefixed_range_exact_iff (good_unsigned 1) (good_unsigned 1) (good_unsigned 1) (good_unsigned 1)
    (encode_unsigned_ne_nil (by decide))).1

/-- Under the prefix `255` past the suffix `255` there is no key, and the encoded range
    holds `(0, 0)`, of another prefix. -/
theorem prefixed_range_escapes :
    ¬ (contains ((prefixEncoder : BoundsEncoder (Tup2 (Unsigned 1) (Unsigned 1))).encodePrefixedRange
            (⟨255⟩ : Unsigned 1) (.excluded (⟨255⟩ : Unsigned 1), .unbounded))
          (encode (⟨⟨0⟩, ⟨0⟩⟩ : Tup2 (Unsigned 1) (Unsigned 1)) ++ encode (⟨1⟩ : Unsigned 1)) ↔
        ∃ s : Unsigned 1, (⟨⟨0⟩, ⟨0⟩⟩ : Tup2 (Unsigned 1) (Unsigned 1)) = Prefixable.compose (⟨255⟩ : Unsigned 1) s ∧
          contains (.excluded ⟨255⟩, .unbounded) s) := by
  intro h
  obtain ⟨s, hs, -⟩ := h.mp (by decide)
  have h0 : (⟨0⟩ : Unsigned 1) = ⟨255⟩ := congrArg Tup2.fst hs
  exact absurd h0 (by decide)

end Tuples

end Collette
