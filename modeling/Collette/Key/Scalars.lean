/-
  Collette.Key.Scalars — the scalar key types, and the language they generate.

  `Scalar` names every scalar `impl Key` of the crate. Each framing stops at the right
  byte whatever follows it:
  - fixed width (integers, `bool`, `[u8; S]`, enums) splits at a known length;
  - a string ends at the first `0xff`, a byte no UTF-8 string holds (`ff_not_mem_asBytes`);
  - a byte vector ends at the first `0x00 0x00`, since inside it a `0x00` is followed by
    `0xff` (`decodeUnsizedLoop_encode`).

  With `roundTrip_of_leaves`, every type of the language round trips (`decode_encode`)
  and is self-delimiting (`selfDelimiting_keyTy`).
-/

import Collette.Key.Language

namespace Collette

open Collette.Lex

/-! ## Fixed width -/

theorem splitAt_append {a : Bytes} {n : Nat} (h : a.length = n) (b : Bytes) : splitAt n (a ++ b) = some (a, b) := by
  subst h; simp [splitAt]

@[simp] theorem length_toBeBytes (n v : Nat) : (toBeBytes n v).length = n := by
  induction n generalizing v with
  | zero => rfl
  | succ n ih => simp [toBeBytes, ih]

theorem foldl_fromBeBytes (bytes : Bytes) (acc : Nat) :
    bytes.foldl (fun acc b => acc * 256 + b.toNat) acc = acc * 256 ^ bytes.length + fromBeBytes bytes := by
  induction bytes generalizing acc with
  | nil => simp [fromBeBytes]
  | cons b bytes ih =>
    simp only [fromBeBytes, List.foldl_cons, List.length_cons]
    rw [ih, ih (0 * 256 + b.toNat), Nat.zero_mul, Nat.zero_add, Nat.pow_succ']
    ring

theorem fromBeBytes_cons (b : UInt8) (bytes : Bytes) :
    fromBeBytes (b :: bytes) = b.toNat * 256 ^ bytes.length + fromBeBytes bytes := by
  show (bytes.foldl _ (0 * 256 + b.toNat)) = _
  rw [foldl_fromBeBytes, Nat.zero_mul, Nat.zero_add]

theorem fromBeBytes_toBeBytes (n v : Nat) (h : v < 256 ^ n) : fromBeBytes (toBeBytes n v) = v := by
  induction n generalizing v with
  | zero => simp only [Nat.pow_zero, Nat.lt_one_iff] at h; subst h; rfl
  | succ n ih =>
    have hq : v / 256 ^ n < 256 := Nat.div_lt_of_lt_mul (by rwa [Nat.pow_succ] at h)
    rw [toBeBytes, fromBeBytes_cons, length_toBeBytes, ih _ (Nat.mod_lt _ (by positivity)), UInt8.toNat_ofNat',
      Nat.mod_eq_of_lt (by simpa using hq)]
    exact Nat.div_add_mod' v (256 ^ n)

theorem fromBeBytes_lt (bytes : Bytes) : fromBeBytes bytes < 256 ^ bytes.length := by
  induction bytes with
  | nil => exact Nat.one_pos
  | cons b bytes ih =>
    have hb := b.toNat_lt
    have hmul : (b.toNat + 1) * 256 ^ bytes.length ≤ 256 * 256 ^ bytes.length := Nat.mul_le_mul_right _ (by omega)
    rw [fromBeBytes_cons, List.length_cons, Nat.pow_succ']
    rw [Nat.add_mul, Nat.one_mul] at hmul
    omega

theorem toBeBytes_fromBeBytes (bytes : Bytes) : toBeBytes bytes.length (fromBeBytes bytes) = bytes := by
  induction bytes with
  | nil => rfl
  | cons b bytes ih =>
    have hlt := fromBeBytes_lt bytes
    have hpos : 0 < 256 ^ bytes.length := by positivity
    have hdiv : (b.toNat * 256 ^ bytes.length + fromBeBytes bytes) / 256 ^ bytes.length = b.toNat := by
      rw [Nat.mul_comm, Nat.mul_add_div hpos, Nat.div_eq_of_lt hlt, Nat.add_zero]
    have hmod : (b.toNat * 256 ^ bytes.length + fromBeBytes bytes) % 256 ^ bytes.length = fromBeBytes bytes := by
      rw [Nat.mul_comm, Nat.mul_add_mod, Nat.mod_eq_of_lt hlt]
    rw [fromBeBytes_cons, List.length_cons, toBeBytes, hdiv, hmod, ih, UInt8.ofNat_toNat]

theorem toNat_lt_pow {n : Nat} (x : BitVec (8 * n)) : x.toNat < 256 ^ n := by
  have := x.isLt
  rwa [Nat.pow_mul] at this

theorem decodeInt_toBeBytes {n : Nat} (x : BitVec (8 * n)) (rest : Bytes) :
    decodeInt n (toBeBytes n x.toNat ++ rest) = some (x, rest) := by
  rw [decodeInt, splitAt_append (length_toBeBytes n _)]
  simp [fromBeBytes_toBeBytes n _ (toNat_lt_pow x)]

theorem roundTrip_unsigned (n : Nat) : RoundTrip (id : Unsigned n → Unsigned n) := by
  refine ⟨fun k rest => ?_, fun _ => rfl⟩
  show (decodeInt n (toBeBytes n k.bits.toNat ++ rest)).map _ = _
  rw [decodeInt_toBeBytes]; rfl

theorem roundTrip_signed (n : Nat) : RoundTrip (id : Signed n → Signed n) := by
  refine ⟨fun k rest => ?_, fun _ => rfl⟩
  show (decodeInt n (toBeBytes n (k.bits ^^^ BitVec.intMin (8 * n)).toNat ++ rest)).map _ = _
  rw [decodeInt_toBeBytes]
  simp

theorem roundTrip_bool : RoundTrip (id : Bool → Bool) :=
  ⟨fun k rest => by cases k <;> rfl, fun _ => rfl⟩

theorem roundTrip_byteArr (S : Nat) : RoundTrip (id : ByteArr S → ByteArr S) := by
  refine ⟨fun k rest => ?_, fun _ => rfl⟩
  obtain ⟨bytes, rfl⟩ := k
  rw [encode_byteArr]
  show (if h : bytes.length ≤ (bytes ++ rest).length then _ else none) = _
  simp

/-- The variant's discriminant is the one of an arm naming it. -/
theorem discriminant_mem {e : EnumDecl} (v : Variant e) : (v.idx, discriminant v) ∈ e.arms := by
  obtain ⟨a, ha, hv⟩ := e.exhaustive v.idx
  obtain ⟨b, hb⟩ : ∃ b, e.arms.find? (·.1 == v.idx) = some b :=
    Option.isSome_iff_exists.mp (List.find?_isSome.mpr ⟨a, ha, by simpa using hv⟩)
  have h1 : b.1 = v.idx := by simpa using List.find?_some hb
  have h2 : discriminant v = b.2 := by simp [discriminant, hb]
  rw [h2, ← h1]
  exact List.mem_of_find?_eq_some hb

theorem find_discriminant {e : EnumDecl} (v : Variant e) :
    e.arms.find? (·.2 == discriminant v) = some (v.idx, discriminant v) := by
  obtain ⟨b, hb⟩ : ∃ b, e.arms.find? (·.2 == discriminant v) = some b :=
    Option.isSome_iff_exists.mp (List.find?_isSome.mpr ⟨_, discriminant_mem v, by simp⟩)
  have h2 : b.2 = discriminant v := by simpa using List.find?_some hb
  rw [hb, List.inj_on_of_nodup_map e.distinct (List.mem_of_find?_eq_some hb) (discriminant_mem v) h2]

theorem roundTrip_variant (e : EnumDecl) : RoundTrip (id : Variant e → Variant e) := by
  refine ⟨fun k rest => ?_, fun _ => rfl⟩
  show (decodeInt e.n (toBeBytes e.n (discriminant k).toNat ++ rest)).bind _ = _
  rw [decodeInt_toBeBytes]
  simp [find_discriminant]

/-! ## Byte vectors -/

theorem decodeUnsizedLoop_end (out rest : Bytes) : decodeUnsizedLoop out (0x00 :: 0x00 :: rest) = some (out, rest) := by
  rw [decodeUnsizedLoop.eq_def]; simp

theorem decodeUnsizedLoop_escape (out rest : Bytes) :
    decodeUnsizedLoop out (0x00 :: 0xff :: rest) = decodeUnsizedLoop (out ++ [0x00]) rest := by
  rw [decodeUnsizedLoop.eq_def]; simp

theorem decodeUnsizedLoop_byte (out rest : Bytes) {b : UInt8} (h : b ≠ 0x00) :
    decodeUnsizedLoop out (b :: rest) = decodeUnsizedLoop (out ++ [b]) rest := by
  rw [decodeUnsizedLoop.eq_def]; simp [h]

/-- Whatever was decoded before, the loop reads `bytes` back and stops at its own
    terminator. -/
theorem decodeUnsizedLoop_encode (out bytes rest : Bytes) :
    decodeUnsizedLoop out (encodeUnsizedKeyBytes bytes ++ rest) = some (out ++ bytes, rest) := by
  induction bytes generalizing out with
  | nil => simp [encodeUnsizedKeyBytes, decodeUnsizedLoop_end]
  | cons b bytes ih =>
    rw [encodeUnsizedKeyBytes]
    by_cases h : b = 0x00
    · subst h
      rw [if_pos rfl, List.append_assoc, List.cons_append, List.cons_append, decodeUnsizedLoop_escape,
        List.nil_append, ih, List.append_assoc, List.singleton_append]
    · rw [if_neg h, List.append_assoc, List.singleton_append, decodeUnsizedLoop_byte _ _ h, ih,
        List.append_assoc, List.singleton_append]

theorem roundTrip_vec : RoundTrip (id : Bytes → Bytes) :=
  ⟨fun k rest => decodeUnsizedLoop_encode [] k rest, fun _ => rfl⟩

/-! ## Strings -/

theorem asBytes_eq (s : String) : asBytes s = s.toList.flatMap String.utf8EncodeChar := by
  rw [asBytes, ← String.utf8Encode_toList, List.utf8Encode]
  exact List.toList_data_toByteArray

theorem ff_not_mem_utf8EncodeChar (c : Char) : 0xff ∉ String.utf8EncodeChar c := by
  have hne : ∀ m, m < 255 → (0xff : UInt8) ≠ UInt8.ofNat m := by
    intro m hm h
    have := congrArg UInt8.toNat h
    simp only [UInt8.toNat_ofNat', UInt8.reduceToNat] at this
    omega
  have h := c.val.toNat_lt
  unfold String.utf8EncodeChar
  simp only
  -- the largest lead byte is `0xf7`
  split_ifs <;> simp only [List.mem_cons, List.not_mem_nil, or_false, not_or] <;>
    (repeat' constructor) <;> (apply hne; omega)

/-- `0xff` is forbidden in UTF-8. -/
theorem ff_not_mem_asBytes (s : String) : 0xff ∉ asBytes s := by
  rw [asBytes_eq, List.mem_flatMap]
  intro hm
  obtain ⟨c, -, h⟩ := hm
  exact ff_not_mem_utf8EncodeChar c h

theorem asBytes_injective : Function.Injective asBytes := by
  intro s t h
  refine String.toByteArray_inj.mp (ByteArray.ext (Array.toList_inj.mp h))

theorem fromUtf8_asBytes (s : String) : fromUtf8 (asBytes s) = some s := by
  have e : ByteArray.mk (asBytes s).toArray = s.toByteArray := rfl
  unfold fromUtf8
  rw [dif_pos (by rw [e]; exact ByteArray.validateUTF8_eq_true_iff.mpr s.isValidUTF8)]
  rfl

theorem decodeStr_encodeStr (s : String) (rest : Bytes) : decodeStr (encodeStr s ++ rest) = some (s, rest) := by
  have hpos : (asBytes s ++ 0xff :: rest).findIdx? (· == 0xff) = some (asBytes s).length := by
    rw [List.findIdx?_append, List.findIdx?_eq_none_iff.mpr]
    · simp [List.findIdx?_cons]
    · intro b hb
      have : b ≠ 0xff := fun h => ff_not_mem_asBytes s (h ▸ hb)
      simpa using this
  rw [encodeStr, List.append_assoc, List.singleton_append, decodeStr, hpos]
  simp [splitAt_append rfl, fromUtf8_asBytes]

theorem roundTrip_string : RoundTrip (id : String → String) :=
  ⟨fun k rest => decodeStr_encodeStr k rest, fun _ => rfl⟩

theorem roundTrip_str : RoundTrip Str.data :=
  ⟨fun k rest => decodeStr_encodeStr k.data rest, fun _ => rfl⟩

/-! ## The language -/

inductive Scalar where
  | unsigned (n : Nat)
  | signed (n : Nat)
  | bool
  | byteArr (S : Nat)
  | vec
  | string
  | str
  | enum (e : EnumDecl)

@[reducible] def Scalar.Val : Scalar → Type
  | .unsigned n => Unsigned n
  | .signed n => Signed n
  | .bool => Bool
  | .byteArr S => ByteArr S
  | .vec => Bytes
  | .string => String
  | .str => Str
  | .enum e => Variant e

/-- Only the borrowed `&str` is read as another type. -/
def Scalar.owned : Scalar → Scalar
  | .str => .string
  | i => i

instance : Leaves Scalar where
  Val := Scalar.Val
  owned := Scalar.owned
  toOwned
    | .str => Str.data
    | .unsigned _ | .signed _ | .bool | .byteArr _ | .vec | .string | .enum _ => id
  key
    | .unsigned n => inferInstanceAs (Key (Unsigned n) (Unsigned n))
    | .signed n => inferInstanceAs (Key (Signed n) (Signed n))
    | .bool => inferInstanceAs (Key Bool Bool)
    | .byteArr S => inferInstanceAs (Key (ByteArr S) (ByteArr S))
    | .vec => inferInstanceAs (Key Bytes Bytes)
    | .string => inferInstanceAs (Key String String)
    | .str => inferInstanceAs (Key Str String)
    | .enum e => inferInstanceAs (Key (Variant e) (Variant e))

theorem roundTrip_scalar (i : Scalar) : RoundTrip (Leaves.toOwned i) := by
  cases i with
  | unsigned n => exact roundTrip_unsigned n
  | signed n => exact roundTrip_signed n
  | bool => exact roundTrip_bool
  | byteArr S => exact roundTrip_byteArr S
  | vec => exact roundTrip_vec
  | string => exact roundTrip_string
  | str => exact roundTrip_str
  | enum e => exact roundTrip_variant e

theorem toOwned_injective_scalar (i : Scalar) : Function.Injective (Leaves.toOwned i) := by
  cases i with
  | str =>
    intro a b h
    obtain ⟨s⟩ := a
    obtain ⟨t⟩ := b
    exact congrArg Str.mk h
  | _ => exact Function.injective_id

theorem toOwned_injective {ι : Type} [Leaves ι] (h : ∀ i : ι, Function.Injective (Leaves.toOwned i)) (t : KeyTy ι) :
    Function.Injective t.toOwned := by
  induction t with
  | leaf i => exact h i
  | ref k ih =>
    intro v w e
    exact Ref.ext (ih e)
  | tup1 a ih =>
    intro v w e
    exact Tup1.ext (ih (Tup1.mk.inj e))
  | tup2 a b iha ihb =>
    intro v w e
    obtain ⟨e1, e2⟩ := Tup2.mk.inj e
    exact Tup2.ext (iha e1) (ihb e2)
  | tup3 a b c iha ihb ihc =>
    intro v w e
    obtain ⟨e1, e2, e3⟩ := Tup3.mk.inj e
    exact Tup3.ext (iha e1) (ihb e2) (ihc e3)
  | tup4 a b c d iha ihb ihc ihd =>
    intro v w e
    obtain ⟨e1, e2, e3, e4⟩ := Tup4.mk.inj e
    exact Tup4.ext (iha e1) (ihb e2) (ihc e3) (ihd e4)

theorem roundTrip_keyTy (t : KeyTy Scalar) : RoundTrip t.toOwned := roundTrip_of_leaves roundTrip_scalar t

/-- No key of the language encodes as a prefix of another. -/
theorem selfDelimiting_keyTy (t : KeyTy Scalar) : SelfDelimiting (encode : t.Val → Bytes) :=
  (roundTrip_keyTy t).selfDelimiting (toOwned_injective toOwned_injective_scalar t)

/-- Decoding undoes encoding for every key of every type of the language, whatever
    bytes follow, and the owned form encodes to the same bytes. -/
theorem decode_encode (t : KeyTy Scalar) (k : t.Val) (rest : Bytes) :
    Key.decodePart t.Val (encode k ++ rest) = some (t.toOwned k, rest) ∧
      Key.decode t.Val (encode k) = some (t.toOwned k) ∧ encode (t.toOwned k) = encode k :=
  ⟨(roundTrip_keyTy t).decodePart k rest, (roundTrip_keyTy t).decode k, (roundTrip_keyTy t).encode k⟩

end Collette
