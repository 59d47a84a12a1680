/-
  Collette.Key.Order — which encodings keep the logical order of the keys.

  The logical orders are Rust's: integers by value, byte strings and arrays
  lexicographically, tuples lexicographically by component, references as what they
  point to, strings by their UTF-8 bytes.

  - `composite_good`: composite keys inherit a good encoding from their components, at
    every nesting depth, and so do the keys a `Multi` index stores, which are ordered by
    (index key, primary key).
  - `good_unsigned`, `good_signed`: integers of any width encode well, the signed ones
    because flipping the sign bit adds half the range (`toNat_flip`);
    `integer_order_iso` says so of the numbers.
  - `enum_order_iff`: enums do not always. The discriminants are written with the sign bit
    as it is, so a negative one sorts after a non-negative one; those of one sign compare
    as they should.
  - `good_vec`: byte vectors encode well; `vec_order` says so of the vectors.
  - `str_order_iff`: strings do not. The `0xff` end byte sorts above every byte of a
    longer string, so a string that is a proper prefix of another sorts after it; every
    other pair compares as it should.
-/

import Collette.Key.Scalars

namespace Collette

open Collette.Lex

/-! ## The logical orders -/

instance (n : Nat) : LinearOrder (Unsigned n) :=
  LinearOrder.lift' (fun k => k.bits.toNat) (by rintro ⟨a⟩ ⟨b⟩ h; exact congrArg _ (BitVec.eq_of_toNat_eq h))

instance (n : Nat) : LinearOrder (Signed n) :=
  LinearOrder.lift' (fun k => k.bits.toInt) (by rintro ⟨a⟩ ⟨b⟩ h; exact congrArg _ (BitVec.eq_of_toInt_eq h))

instance (S : Nat) : LinearOrder (ByteArr S) :=
  LinearOrder.lift' ByteArr.bytes (by rintro ⟨a, _⟩ ⟨b, _⟩ h; simpa using h)

section Composite

variable {K A B C D PK : Type} [LinearOrder K] [LinearOrder A] [LinearOrder B] [LinearOrder C] [LinearOrder D]
  [LinearOrder PK]

instance : LinearOrder (Ref K) := LinearOrder.lift' Ref.val fun _ _ h => Ref.ext h

instance : LinearOrder (Tup1 A) := LinearOrder.lift' Tup1.fst fun _ _ h => Tup1.ext h

def Tup2.lex (t : Tup2 A B) : A ×ₗ B := toLex (t.fst, t.snd)

def Tup3.lex (t : Tup3 A B C) : A ×ₗ B ×ₗ C := toLex (t.fst, toLex (t.snd, t.thd))

def Tup4.lex (t : Tup4 A B C D) : A ×ₗ B ×ₗ C ×ₗ D := toLex (t.fst, toLex (t.snd, toLex (t.thd, t.fth)))

instance : LinearOrder (Tup2 A B) :=
  LinearOrder.lift' Tup2.lex (by rintro ⟨a, b⟩ ⟨a', b'⟩ h; simpa [Tup2.lex] using h)

instance : LinearOrder (Tup3 A B C) :=
  LinearOrder.lift' Tup3.lex (by rintro ⟨a, b, c⟩ ⟨a', b', c'⟩ h; simpa [Tup3.lex] using h)

instance : LinearOrder (Tup4 A B C D) :=
  LinearOrder.lift' Tup4.lex (by rintro ⟨a, b, c, d⟩ ⟨a', b', c', d'⟩ h; simpa [Tup4.lex] using h)

theorem Tup2.lt_iff (x y : Tup2 A B) : x < y ↔ x.fst < y.fst ∨ x.fst = y.fst ∧ x.snd < y.snd := by
  show x.lex < y.lex ↔ _
  simp [Tup2.lex, Prod.Lex.lt_iff]

theorem Tup3.lt_iff (x y : Tup3 A B C) :
    x < y ↔ x.fst < y.fst ∨ x.fst = y.fst ∧ (x.snd < y.snd ∨ x.snd = y.snd ∧ x.thd < y.thd) := by
  show x.lex < y.lex ↔ _
  simp [Tup3.lex, Prod.Lex.lt_iff]

theorem Tup4.lt_iff (x y : Tup4 A B C D) :
    x < y ↔ x.fst < y.fst ∨ x.fst = y.fst ∧ (x.snd < y.snd ∨ x.snd = y.snd ∧
      (x.thd < y.thd ∨ x.thd = y.thd ∧ x.fth < y.fth)) := by
  show x.lex < y.lex ↔ _
  simp [Tup4.lex, Prod.Lex.lt_iff]

/-! ## Composite keys -/

variable {KO AO BO CO DO PO : Type} [Key K KO] [Key A AO] [Key B BO] [Key C CO] [Key D DO] [Key PK PO]

theorem good_ref (h : Good (encode : K → Bytes)) : Good (encode : Ref K → Bytes) :=
  h.comap (f := Ref.val) fun _ _ hlt => hlt

theorem good_tup1 (h : Good (encode : A → Bytes)) : Good (encode : Tup1 A → Bytes) :=
  h.comap (f := Tup1.fst) fun _ _ hlt => hlt

theorem good_tup2 (hA : Good (encode : A → Bytes)) (hB : Good (encode : B → Bytes)) :
    Good (encode : Tup2 A B → Bytes) := by
  rw [show (encode : Tup2 A B → Bytes) = _ from funext encode_tup2]
  exact (hA.prod hB).comap (f := Tup2.lex) fun _ _ hlt => hlt

theorem good_tup3 (hA : Good (encode : A → Bytes)) (hB : Good (encode : B → Bytes)) (hC : Good (encode : C → Bytes)) :
    Good (encode : Tup3 A B C → Bytes) := by
  rw [show (encode : Tup3 A B C → Bytes) = _ from funext encode_tup3]
  exact (hA.prod (hB.prod hC)).comap (f := Tup3.lex) fun _ _ hlt => hlt

theorem good_tup4 (hA : Good (encode : A → Bytes)) (hB : Good (encode : B → Bytes)) (hC : Good (encode : C → Bytes))
    (hD : Good (encode : D → Bytes)) : Good (encode : Tup4 A B C D → Bytes) := by
  rw [show (encode : Tup4 A B C D → Bytes) = _ from funext encode_tup4]
  exact (hA.prod (hB.prod (hC.prod hD))).comap (f := Tup4.lex) fun _ _ hlt => hlt

end Composite

instance KeyTy.order {ι : Type} [Leaves ι] [∀ i : ι, LinearOrder (Leaves.Val i)] : (t : KeyTy ι) → LinearOrder t.Val
  | .leaf i => inferInstanceAs (LinearOrder (Leaves.Val i))
  | .ref k =>
    have := k.order
    inferInstanceAs (LinearOrder (Ref k.Val))
  | .tup1 a =>
    have := a.order
    inferInstanceAs (LinearOrder (Tup1 a.Val))
  | .tup2 a b =>
    have := a.order
    have := b.order
    inferInstanceAs (LinearOrder (Tup2 a.Val b.Val))
  | .tup3 a b c =>
    have := a.order
    have := b.order
    have := c.order
    inferInstanceAs (LinearOrder (Tup3 a.Val b.Val c.Val))
  | .tup4 a b c d =>
    have := a.order
    have := b.order
    have := c.order
    have := d.order
    inferInstanceAs (LinearOrder (Tup4 a.Val b.Val c.Val d.Val))

/-- Every scalar of the type satisfies `p`. -/
def KeyTy.All {ι : Type} (p : ι → Prop) : KeyTy ι → Prop
  | .leaf i => p i
  | .ref k => k.All p
  | .tup1 a => a.All p
  | .tup2 a b => a.All p ∧ b.All p
  | .tup3 a b c => a.All p ∧ b.All p ∧ c.All p
  | .tup4 a b c d => a.All p ∧ b.All p ∧ c.All p ∧ d.All p

theorem good_keyTy {ι : Type} [Leaves ι] [∀ i : ι, LinearOrder (Leaves.Val i)] (t : KeyTy ι)
    (h : t.All fun i => Good (encode : Leaves.Val i → Bytes)) : Good (encode : t.Val → Bytes) := by
  induction t with
  | leaf i => exact h
  | ref k ih => exact good_ref (ih h)
  | tup1 a ih => exact good_tup1 (ih h)
  | tup2 a b iha ihb => exact good_tup2 (iha h.1) (ihb h.2)
  | tup3 a b c iha ihb ihc => exact good_tup3 (iha h.1) (ihb h.2.1) (ihc h.2.2)
  | tup4 a b c d iha ihb ihc ihd => exact good_tup4 (iha h.1) (ihb h.2.1) (ihc h.2.2.1) (ihd h.2.2.2)

/-- The keys stored for (index key, primary key) pairs: ordered by the pair, and no
    stored key is the same as another pair's or starts it. -/
structure AppendGood (K PK : Type) {KO PO AK AO : Type} [Key K KO] [Key PK PO] [Key AK AO] [AppendKey K PK AK AO]
    [LinearOrder K] [LinearOrder PK] : Prop where
  ordered : Good fun p : K ×ₗ PK => encode (AppendKey.append (ofLex p).1 (ofLex p).2)
  unambiguous : ∀ (k k' : K) (pk pk' : PK),
    encode (AppendKey.append k pk) <+: encode (AppendKey.append k' pk') → k = k' ∧ pk = pk'

section Append

variable {K A B C D PK KO AO BO CO DO PO AK AKO : Type} [Key K KO] [Key A AO] [Key B BO] [Key C CO] [Key D DO]
  [Key PK PO] [Key AK AKO] [AppendKey K PK AK AKO] [LinearOrder K] [LinearOrder A] [LinearOrder B] [LinearOrder C]
  [LinearOrder D] [LinearOrder PK]

theorem appendGood (hK : Good (encode : K → Bytes)) (hPK : Good (encode : PK → Bytes)) : AppendGood K PK := by
  have ho : Good fun p : K ×ₗ PK => encode (AppendKey.append (ofLex p).1 (ofLex p).2) := by
    rw [funext fun p : K ×ₗ PK => AppendKey.encode_append (ofLex p).1 (ofLex p).2]
    exact hK.prod hPK
  refine ⟨ho, fun k k' pk pk' hp => ?_⟩
  have := ho.selfDelimiting (toLex (k, pk)) (toLex (k', pk')) hp
  simpa using this

/-- Composite keys inherit order and framing from their components: references, tuples
    of one to four in both branches of the `SIZE` match, the three store keys of a
    `Multi` index, and any nesting of references and tuples. -/
theorem composite_good (hA : Good (encode : A → Bytes)) (hB : Good (encode : B → Bytes))
    (hC : Good (encode : C → Bytes)) (hD : Good (encode : D → Bytes)) (hPK : Good (encode : PK → Bytes)) :
    (Good (encode : Ref A → Bytes) ∧ Good (encode : Tup1 A → Bytes) ∧ Good (encode : Tup2 A B → Bytes) ∧
      Good (encode : Tup3 A B C → Bytes) ∧ Good (encode : Tup4 A B C D → Bytes)) ∧
    (AppendGood (Tup1 A) PK ∧ AppendGood (Tup2 A B) PK ∧ AppendGood (Tup3 A B C) PK) ∧
    ∀ {ι : Type} [Leaves ι] [∀ i : ι, LinearOrder (Leaves.Val i)] (t : KeyTy ι),
      (t.All fun i => Good (encode : Leaves.Val i → Bytes)) → Good (encode : t.Val → Bytes) := by
  have h1 := good_tup1 hA
  have h2 := good_tup2 hA hB
  have h3 := good_tup3 hA hB hC
  refine ⟨⟨good_ref hA, h1, h2, h3, good_tup4 hA hB hC hD⟩, ⟨?_, ?_, ?_⟩, fun t => good_keyTy t⟩
  · exact appendGood h1 hPK
  · exact appendGood h2 hPK
  · exact appendGood h3 hPK

end Append

/-! ## Unsigned integers -/

theorem toBeBytes_lt {n v w : Nat} (h : v < w) (hw : w < 256 ^ n) : toBeBytes n v < toBeBytes n w := by
  induction n generalizing v w with
  | zero => simp only [Nat.pow_zero] at hw; omega
  | succ n ih =>
    have hpos : 0 < 256 ^ n := by positivity
    have hq : w / 256 ^ n < 256 := Nat.div_lt_of_lt_mul (by rwa [Nat.pow_succ] at hw)
    have hle : v / 256 ^ n ≤ w / 256 ^ n := Nat.div_le_div_right (le_of_lt h)
    have hbyte : ∀ m, m < 256 → (UInt8.ofNat m).toNat = m := fun m hm => by
      rw [UInt8.toNat_ofNat']; exact Nat.mod_eq_of_lt (by simpa using hm)
    rw [toBeBytes, toBeBytes, List.cons_lt_cons_iff, UInt8.lt_iff_toNat_lt, hbyte _ (by omega), hbyte _ hq]
    -- the leading bytes decide, or the remainders do
    rcases Nat.lt_or_eq_of_le hle with hlt | heq
    · exact Or.inl hlt
    · refine Or.inr ⟨by rw [heq], ih ?_ (Nat.mod_lt _ hpos)⟩
      have hv := Nat.div_add_mod v (256 ^ n)
      have hw' := Nat.div_add_mod w (256 ^ n)
      rw [heq] at hv
      omega

theorem good_unsigned (n : Nat) : Good (encode : Unsigned n → Bytes) :=
  good_of_length (n := n) (fun k => length_toBeBytes n k.bits.toNat)
    fun _ y h => toBeBytes_lt h (toNat_lt_pow y.bits)

theorem composite_good_u8 : Good (encode : Tup4 (Unsigned 1) (Unsigned 1) (Unsigned 1) (Unsigned 1) → Bytes) :=
  (composite_good (good_unsigned 1) (good_unsigned 1) (good_unsigned 1) (good_unsigned 1)
    (good_unsigned 1)).1.2.2.2.2

/-! ## Signed integers -/

theorem xor_two_pow {k a : Nat} (h : a < 2 * 2 ^ k) : a ^^^ 2 ^ k = if a < 2 ^ k then a + 2 ^ k else a - 2 ^ k := by
  have hpos : 0 < 2 ^ k := by positivity
  have hmod : (a ^^^ 2 ^ k) % 2 ^ k = a % 2 ^ k := by rw [Nat.xor_mod_two_pow, Nat.mod_self, Nat.xor_zero]
  have hdiv : (a ^^^ 2 ^ k) / 2 ^ k = a / 2 ^ k ^^^ 1 := by rw [Nat.xor_div_two_pow, Nat.div_self hpos]
  have hv := Nat.div_add_mod (a ^^^ 2 ^ k) (2 ^ k)
  rw [hmod, hdiv] at hv
  split
  · rename_i hlt
    rw [Nat.div_eq_of_lt hlt, Nat.mod_eq_of_lt hlt] at hv
    simp only [Nat.zero_xor, Nat.mul_one] at hv
    omega
  · rename_i hge
    have hone : a / 2 ^ k = 1 := Nat.div_eq_of_lt_le (by omega) (by omega)
    have ha := Nat.div_add_mod a (2 ^ k)
    rw [hone] at hv ha
    simp only [Nat.xor_self, Nat.mul_zero] at hv
    omega

/-- Flipping the sign bit adds half the range. -/
theorem toNat_flip {w : Nat} (hw : 0 < w) (x : BitVec w) :
    ((x ^^^ BitVec.intMin w).toNat : Int) = x.toInt + 2 ^ (w - 1) := by
  obtain ⟨k, rfl⟩ : ∃ k, w = k + 1 := ⟨w - 1, by omega⟩
  have hx := x.isLt
  rw [Nat.pow_succ'] at hx
  have hpow : ((2 ^ k : Nat) : Int) = 2 ^ k := by push_cast; rfl
  have hpow' : (2 : Int) ^ (k + 1) = 2 * 2 ^ k := pow_succ' 2 k
  rw [BitVec.toNat_xor, BitVec.toNat_intMin_of_pos (by omega), Nat.add_sub_cancel, xor_two_pow hx,
    BitVec.toInt_eq_toNat_cond, Nat.pow_succ']
  split
  · rw [if_pos (by omega)]
    push_cast
    omega
  · rw [if_neg (by omega)]
    push_cast
    omega

theorem encode_signed_lt {n : Nat} {x y : Signed n} (h : x.bits.toInt < y.bits.toInt) : encode x < encode y := by
  rcases Nat.eq_zero_or_pos n with rfl | hn
  · exact absurd h (by rw [BitVec.eq_nil x.bits, BitVec.eq_nil y.bits]; exact lt_irrefl _)
  · have hx := toNat_flip (show 0 < 8 * n by omega) x.bits
    have hy := toNat_flip (show 0 < 8 * n by omega) y.bits
    exact toBeBytes_lt (by omega) (toNat_lt_pow _)

theorem good_signed (n : Nat) : Good (encode : Signed n → Bytes) :=
  good_of_length (n := n) (fun _ => length_toBeBytes n _) fun _ _ h => encode_signed_lt h

/-- Every string of `n` bytes is the encoding of one integer. -/
theorem exists_toBeBytes (n : Nat) {bytes : Bytes} (h : bytes.length = n) :
    ∃ x : BitVec (8 * n), toBeBytes n x.toNat = bytes := by
  refine ⟨BitVec.ofNat _ (fromBeBytes bytes), ?_⟩
  have hlt := fromBeBytes_lt bytes
  rw [h, show (256 : Nat) = 2 ^ 8 from rfl, ← Nat.pow_mul] at hlt
  rw [BitVec.toNat_ofNat, Nat.mod_eq_of_lt hlt]
  subst h
  exact toBeBytes_fromBeBytes bytes

/-- Integers of any width compare as their encodings do, and the encodings are all the
    strings of that many bytes. -/
theorem integer_order_iso (n : Nat) :
    (∀ x y : Unsigned n, compare (encode x) (encode y) = compare x.bits.toNat y.bits.toNat) ∧
    (∀ x y : Signed n, compare (encode x) (encode y) = compare x.bits.toInt y.bits.toInt) ∧
    Set.range (encode : Unsigned n → Bytes) = {bytes | bytes.length = n} ∧
    Set.range (encode : Signed n → Bytes) = {bytes | bytes.length = n} := by
  refine ⟨fun x y => ?_, fun x y => ?_, ?_, ?_⟩
  · refine compare_eq_compare (fun h => toBeBytes_lt h (toNat_lt_pow _)) (fun h => toBeBytes_lt h (toNat_lt_pow _)) ?_
    intro h
    rw [encode_unsigned, encode_unsigned, h]
  · refine compare_eq_compare encode_signed_lt encode_signed_lt fun h => ?_
    rw [encode_signed, encode_signed, BitVec.eq_of_toInt_eq h]
  · ext bytes
    constructor
    · intro hx
      obtain ⟨x, rfl⟩ := hx
      exact length_toBeBytes n _
    · intro h
      obtain ⟨x, hx⟩ := exists_toBeBytes n h
      exact ⟨⟨x⟩, hx⟩
  · ext bytes
    constructor
    · intro hx
      obtain ⟨x, rfl⟩ := hx
      exact length_toBeBytes n _
    · intro h
      obtain ⟨x, hx⟩ := exists_toBeBytes n h
      refine ⟨⟨x ^^^ BitVec.intMin (8 * n)⟩, ?_⟩
      rw [encode_signed, BitVec.xor_assoc, BitVec.xor_self, BitVec.xor_zero]
      exact hx

/-! ## Enums -/

/-- The discriminant as a number of the enum's integer type. -/
def discriminantValue {e : EnumDecl} (v : Variant e) : Int :=
  if e.signed then (discriminant v).toInt else (discriminant v).toNat

/-- Among numbers of one sign the bit patterns compare as the numbers do. -/
theorem toNat_lt_of_toInt_lt {w : Nat} {x y : BitVec w} (hsign : x.toInt < 0 ↔ y.toInt < 0) (h : x.toInt < y.toInt) :
    x.toNat < y.toNat := by
  rw [BitVec.toInt_neg_iff, BitVec.toInt_neg_iff] at hsign
  rw [BitVec.toInt_eq_toNat_cond, BitVec.toInt_eq_toNat_cond] at h
  split at h
  · split at h
    · omega
    · omega
  · split at h
    · omega
    · omega

/-- A negative number's pattern is above a non-negative one's. -/
theorem toNat_lt_of_neg {w : Nat} {x y : BitVec w} (hx : x.toInt < 0) (hy : ¬ y.toInt < 0) : y.toNat < x.toNat := by
  rw [BitVec.toInt_neg_iff] at hx hy
  omega

theorem encode_variant_lt {e : EnumDecl} {v w : Variant e} (hsign : discriminantValue v < 0 ↔ discriminantValue w < 0)
    (h : discriminantValue v < discriminantValue w) : encode v < encode w := by
  refine toBeBytes_lt ?_ (toNat_lt_pow _)
  unfold discriminantValue at hsign h
  split at h
  · rename_i hsigned
    rw [if_pos hsigned, if_pos hsigned] at hsign
    exact toNat_lt_of_toInt_lt hsign h
  · exact Int.ofNat_lt.mp h

theorem encode_variant_gt {e : EnumDecl} {v w : Variant e} (hv : discriminantValue v < 0)
    (hw : ¬ discriminantValue w < 0) : encode w < encode v := by
  refine toBeBytes_lt ?_ (toNat_lt_pow _)
  unfold discriminantValue at hv hw
  split at hv
  · rename_i hsigned
    rw [if_pos hsigned] at hw
    exact toNat_lt_of_neg hv hw
  · omega

theorem discriminantValue_injective {e : EnumDecl} {v w : Variant e} (h : discriminantValue v = discriminantValue w) :
    discriminant v = discriminant w := by
  unfold discriminantValue at h
  split at h
  · exact BitVec.eq_of_toInt_eq h
  · exact BitVec.eq_of_toNat_eq (by exact_mod_cast h)

theorem compare_variant_iff {e : EnumDecl} (v w : Variant e) :
    compare (encode v) (encode w) = compare (discriminantValue v) (discriminantValue w) ↔
      (discriminantValue v < 0 ↔ discriminantValue w < 0) := by
  constructor
  · refine fun h => ⟨fun hv => ?_, fun hw => ?_⟩
    · by_contra hw
      rw [(compare_eq_gt _ _).mpr (encode_variant_gt hv hw), compare_lt_iff_lt.mpr (by omega)] at h
      cases h
    · by_contra hv
      rw [(compare_eq_lt _ _).mpr (encode_variant_gt hw hv), compare_gt_iff_gt.mpr (by omega)] at h
      cases h
  · refine fun hsign => compare_eq_compare (encode_variant_lt hsign) (encode_variant_lt hsign.symm) fun h => ?_
    rw [encode_variant, encode_variant, discriminantValue_injective h]

/-- Variants compare as their discriminants exactly when these are of one sign; all
    variants of an enum do exactly when it has no two discriminants of different signs. -/
theorem enum_order_iff (e : EnumDecl) :
    (∀ v w : Variant e, compare (encode v) (encode w) = compare (discriminantValue v) (discriminantValue w) ↔
      (discriminantValue v < 0 ↔ discriminantValue w < 0)) ∧
    ((∀ v w : Variant e, compare (encode v) (encode w) = compare (discriminantValue v) (discriminantValue w)) ↔
      (∀ v : Variant e, discriminantValue v < 0) ∨ ∀ v : Variant e, 0 ≤ discriminantValue v) := by
  refine ⟨compare_variant_iff, ?_⟩
  simp only [compare_variant_iff]
  constructor
  · intro h
    by_cases hneg : ∃ v : Variant e, discriminantValue v < 0
    · obtain ⟨v, hv⟩ := hneg
      exact Or.inl fun w => (h v w).mp hv
    · exact Or.inr fun v => not_lt.mp fun hv => hneg ⟨v, hv⟩
  · rintro (h | h) v w
    · simp [h v, h w]
    · simp [not_lt.mpr (h v), not_lt.mpr (h w)]

/-- `Low => -1`, `Middle => 0`, `High => 1`, as an `i8`. -/
def level : EnumDecl where
  variants := 3
  n := 1
  signed := true
  arms := [(0, -1), (1, 0), (2, 1)]
  exhaustive := by decide
  distinct := by decide

def level.low : Variant level := ⟨(0 : Fin 3)⟩

def level.high : Variant level := ⟨(2 : Fin 3)⟩

/-- `Low` is below `High`, but `ff` sorts after `01`. -/
theorem enum_order_low_high : compare (encode level.low) (encode level.high) ≠
    compare (discriminantValue level.low) (discriminantValue level.high) := by decide

/-! ## Byte vectors -/

/-- The terminator sorts below an escape and below any other byte, so the shorter vector
    sorts first whatever follows it. -/
theorem encodeUnsized_lt {a b : Bytes} (h : a < b) (r s : Bytes) :
    encodeUnsizedKeyBytes a ++ r < encodeUnsizedKeyBytes b ++ s := by
  have hpos : ∀ {y : UInt8}, y ≠ 0x00 → 0x00 < y := by
    intro y hy
    rw [UInt8.lt_iff_toNat_lt]
    have : y.toNat ≠ 0 := fun e => hy (UInt8.toNat_inj.mp e)
    exact Nat.pos_of_ne_zero this
  induction a generalizing b with
  | nil =>
    cases b with
    | nil => exact absurd h (lt_irrefl _)
    | cons y ys =>
      rw [encodeUnsizedKeyBytes, encodeUnsizedKeyBytes]
      by_cases hy : y = 0x00
      · rw [if_pos hy]
        exact List.cons_lt_cons_iff.mpr (Or.inr ⟨rfl, List.cons_lt_cons_iff.mpr (Or.inl (by decide))⟩)
      · rw [if_neg hy]
        exact List.cons_lt_cons_iff.mpr (Or.inl (hpos hy))
  | cons x xs ih =>
    cases b with
    | nil => exact absurd h (List.not_lt_nil _)
    | cons y ys =>
      rw [encodeUnsizedKeyBytes, encodeUnsizedKeyBytes]
      rcases List.cons_lt_cons_iff.mp h with hxy | ⟨rfl, hlt⟩
      · have hy : y ≠ 0x00 := by
          intro e
          rw [e, UInt8.lt_iff_toNat_lt] at hxy
          exact absurd hxy (Nat.not_lt_zero _)
        rw [if_neg hy]
        by_cases hx : x = 0x00
        · rw [if_pos hx]
          exact List.cons_lt_cons_iff.mpr (Or.inl (hpos hy))
        · rw [if_neg hx]
          exact List.cons_lt_cons_iff.mpr (Or.inl hxy)
      · rw [List.append_assoc, List.append_assoc, append_lt_append_left]
        exact ih hlt

theorem good_vec : Good (encode : Bytes → Bytes) := good_of_lt fun _ _ h => encodeUnsized_lt h

/-- Whatever follows them, two byte vectors compare as their encodings do, and neither
    encoding starts the other. -/
theorem vec_order {a b : Bytes} (h : a ≠ b) (r s : Bytes) :
    compare (encode a ++ r) (encode b ++ s) = compare a b ∧ ¬ encode a <+: encode b ∧
      compare (encode a) (encode b) = compare a b := by
  have hcompare : ∀ r s, compare (encode a ++ r) (encode b ++ s) = compare a b := fun r s => by
    rcases lt_trichotomy a b with hlt | he | hgt
    · rw [(compare_eq_lt _ _).mpr hlt]
      exact (compare_eq_lt _ _).mpr (encodeUnsized_lt hlt r s)
    · exact absurd he h
    · rw [(compare_eq_gt _ _).mpr hgt]
      exact (compare_eq_gt _ _).mpr (encodeUnsized_lt hgt s r)
  refine ⟨hcompare r s, fun hp => h (good_vec.selfDelimiting a b hp), ?_⟩
  simpa using hcompare [] []

theorem vec_order_zeros :
    compare (encode ([0x00, 0xff] : Bytes) ++ [0x00]) (encode ([0x00] : Bytes) ++ [0xff]) = .gt ∧
    ¬ encode ([0x00, 0xff] : Bytes) <+: encode ([0x00] : Bytes) ∧
    compare (encode ([0x00, 0xff] : Bytes)) (encode ([0x00] : Bytes)) = .gt :=
  @vec_order [0x00, 0xff] [0x00] (by decide) [0x00] [0xff]

/-! ## Strings -/

/-- One string is the start of the other and shorter. -/
def ProperPrefix (s t : String) : Prop := asBytes s <+: asBytes t ∧ s ≠ t

theorem lt_ff {b : UInt8} (h : b ≠ 0xff) : b < 0xff := by
  have := b.toNat_lt
  have hne : b.toNat ≠ 255 := fun e => h (UInt8.toNat_inj.mp e)
  rw [UInt8.lt_iff_toNat_lt]
  simp only [UInt8.reduceToNat]
  omega

/-- A proper prefix sorts before the longer string, and its encoding after. -/
theorem properPrefix_flips {s t : String} (h : ProperPrefix s t) :
    asBytes s < asBytes t ∧ encodeStr t < encodeStr s := by
  obtain ⟨⟨r, hr⟩, hne⟩ := h
  cases r with
  | nil => exact absurd (asBytes_injective (by simpa using hr)) hne
  | cons b r =>
    have hb : b ≠ 0xff := fun e => ff_not_mem_asBytes t (by rw [← hr]; simp [e])
    refine ⟨by rw [← hr]; exact lt_append_self (by simp), ?_⟩
    rw [encodeStr, encodeStr, ← hr, List.append_assoc, append_lt_append_left, List.cons_append,
      List.cons_lt_cons_iff]
    exact Or.inl (lt_ff hb)

/-- String keys compare as the strings do exactly when neither string is a proper prefix
    of the other, for `String` and `&str` alike. -/
theorem str_order_iff (s t : String) :
    (compare (encode s) (encode t) = compare (asBytes s) (asBytes t) ∧
      compare (encode (Str.mk s)) (encode (Str.mk t)) = compare (asBytes s) (asBytes t)) ↔
    ¬ ProperPrefix s t ∧ ¬ ProperPrefix t s := by
  simp only [encode_string, encode_str, and_self]
  constructor
  · refine fun h => ⟨fun hp => ?_, fun hp => ?_⟩
    · obtain ⟨h1, h2⟩ := properPrefix_flips hp
      rw [(compare_eq_gt _ _).mpr h2, (compare_eq_lt _ _).mpr h1] at h
      cases h
    · obtain ⟨h1, h2⟩ := properPrefix_flips hp
      rw [(compare_eq_lt _ _).mpr h2, (compare_eq_gt _ _).mpr h1] at h
      cases h
  · intro hm
    obtain ⟨h1, h2⟩ := hm
    by_cases e : s = t
    · subst e; rw [(compare_eq_eq _ _).mpr rfl, (compare_eq_eq _ _).mpr rfl]
    rcases prefix_or_lt (asBytes s) (asBytes t) with hp | hp | hlt | hgt
    · exact absurd ⟨hp, e⟩ h1
    · exact absurd ⟨hp, Ne.symm e⟩ h2
    · have h0 := hlt [] []
      simp only [List.append_nil] at h0
      rw [(compare_eq_lt _ _).mpr h0]
      exact (compare_eq_lt _ _).mpr (hlt [0xff] [0xff])
    · have h0 := hgt [] []
      simp only [List.append_nil] at h0
      rw [(compare_eq_gt _ _).mpr h0]
      exact (compare_eq_gt _ _).mpr (hgt [0xff] [0xff])

/-- `"a" < "ab"`, but `a ff` sorts after `a b ff`. -/
theorem str_order_a_ab : compare (encode "a") (encode "ab") ≠ compare (asBytes "a") (asBytes "ab") := by decide

end Collette
