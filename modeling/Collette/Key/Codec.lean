/-
  Collette.Key.Codec — the ordered key encodings (`key.rs`, `macros.rs`).

  A key type encodes its values as bytes and decodes a value off the front of a byte
  string (`decodePart`); `none` is the panic of a malformed input. Decoding yields the
  owned form of the type (`String` for `&str`), which is a key type too.

  One instance for each `impl Key`: the integers of any width, `bool`, `[u8; S]`,
  `Vec<u8>`, `String` and `&str`, enums given by `impl_enum_key!`, references, and
  tuples of one to four components. `KeyTy` is the language of types these impls
  generate: scalars (`Leaves`) under references and tuples, nested to any depth.
-/

import Collette.Lex.Code

namespace Collette

abbrev Bytes := List UInt8

/-- Bytes compare as numbers; `compare` is the core instance. -/
instance linearOrderUInt8 : LinearOrder UInt8 where
  le_refl := UInt8.le_refl
  le_trans := fun _ _ _ => UInt8.le_trans
  lt_iff_le_not_ge := fun a b => by simp only [UInt8.lt_iff_toNat_lt, UInt8.le_iff_toNat_le]; omega
  le_antisymm := fun _ _ => UInt8.le_antisymm
  le_total := UInt8.le_total
  toDecidableLE := inferInstance
  toDecidableEq := inferInstance
  toDecidableLT := inferInstance
  min := min
  max := max
  min_def := fun _ _ => rfl
  max_def := fun _ _ => rfl
  compare := compare
  compare_eq_compareOfLessAndEq := fun _ _ => rfl

inductive KeySize where
  | fixed (s : Nat)
  | variableLen
  deriving DecidableEq, Repr

/-- The size of two components in a row. -/
def KeySize.plus : KeySize → KeySize → KeySize
  | .fixed s1, .fixed s2 => .fixed (s1 + s2)
  | _, _ => .variableLen

/-- `{:?}`. -/
class Debug (K : Type) where
  fmt : K → String

class Key (K : Type) (OwnedKey : outParam Type) where
  size : KeySize
  encode : K → Bytes
  decodePart : Bytes → Option (OwnedKey × Bytes)

export Key (encode)

/-- `Key::decode`: bytes left over panic too. -/
def Key.decode (K : Type) {O : Type} [Key K O] (bytes : Bytes) : Option O :=
  match Key.decodePart K bytes with
  | some (key, []) => some key
  | _ => none

/-! ## Byte strings -/

/-- `<[u8]>::split_at`, which panics past the end. -/
def splitAt (n : Nat) (bytes : Bytes) : Option (Bytes × Bytes) :=
  if n ≤ bytes.length then some (bytes.take n, bytes.drop n) else none

/-- `0x00` is escaped to `0x00 0xff`; `0x00 0x00` ends the value. -/
def encodeUnsizedKeyBytes : Bytes → Bytes
  | [] => [0x00, 0x00]
  | b :: bytes => (if b = 0x00 then [0x00, 0xff] else [b]) ++ encodeUnsizedKeyBytes bytes

/-- The loop of `decode_unsized_key_bytes` on the bytes from `i` on. -/
def decodeUnsizedLoop (out : Bytes) : Bytes → Option (Bytes × Bytes)
  | [] => none
  | b :: bytes =>
    if b = 0x00 then
      match bytes with
      | [] => none
      | next :: bytes =>
        if next = 0x00 then some (out, bytes)
        else if next = 0xff then decodeUnsizedLoop (out ++ [0x00]) bytes
        else none
    else decodeUnsizedLoop (out ++ [b]) bytes

def decodeUnsizedKeyBytes (bytes : Bytes) : Option (Bytes × Bytes) := decodeUnsizedLoop [] bytes

instance : Key Bytes Bytes where
  size := .variableLen
  encode := encodeUnsizedKeyBytes
  decodePart := decodeUnsizedKeyBytes

/-- `[u8; S]`. -/
structure ByteArr (S : Nat) where
  bytes : Bytes
  length : bytes.length = S
  deriving DecidableEq

instance (S : Nat) : Key (ByteArr S) (ByteArr S) where
  size := .fixed S
  encode k := k.bytes
  decodePart bytes :=
    if h : S ≤ bytes.length then some (⟨bytes.take S, by simp [h]⟩, bytes.drop S) else none

/-! ## Strings -/

/-- `str::as_bytes`. -/
def asBytes (s : String) : Bytes := s.toByteArray.data.toList

/-- `str::from_utf8`. -/
def fromUtf8 (bytes : Bytes) : Option String :=
  if h : (ByteArray.mk bytes.toArray).validateUTF8 = true then
    some (String.ofByteArray _ (ByteArray.validateUTF8_eq_true_iff.mp h))
  else none

/-- `&str`. -/
structure Str where
  data : String
  deriving DecidableEq

def encodeStr (s : String) : Bytes := asBytes s ++ [0xff]

/-- Split at the first `0xff`, which ends the string. -/
def decodeStr (bytes : Bytes) : Option (String × Bytes) := do
  let endStrPos ← bytes.findIdx? (· == 0xff)
  let (strbytes, tail) ← splitAt endStrPos bytes
  let s ← fromUtf8 strbytes
  match tail with
  | _ :: r => some (s, r)
  | [] => none

instance : Key Str String where
  size := .variableLen
  encode s := encodeStr s.data
  decodePart := decodeStr

instance : Key String String where
  size := .variableLen
  encode s := encodeStr s
  decodePart := decodeStr

/-! ## Integers, booleans and enums -/

/-- `to_be_bytes` of the low `n` bytes, most significant first. -/
def toBeBytes : Nat → Nat → Bytes
  | 0, _ => []
  | n + 1, v => UInt8.ofNat (v / 256 ^ n) :: toBeBytes n (v % 256 ^ n)

def fromBeBytes (bytes : Bytes) : Nat := bytes.foldl (fun acc b => acc * 256 + b.toNat) 0

/-- `u8` to `u128`: `n` bytes. -/
structure Unsigned (n : Nat) where
  bits : BitVec (8 * n)
  deriving DecidableEq

/-- `i8` to `i128`: the two's complement pattern. -/
structure Signed (n : Nat) where
  bits : BitVec (8 * n)
  deriving DecidableEq

def decodeInt (n : Nat) (bytes : Bytes) : Option (BitVec (8 * n) × Bytes) :=
  (splitAt n bytes).map fun (kbytes, r) => (BitVec.ofNat _ (fromBeBytes kbytes), r)

/-- `impl_unsigned_integer_key!`. -/
instance (n : Nat) : Key (Unsigned n) (Unsigned n) where
  size := .fixed n
  encode k := toBeBytes n k.bits.toNat
  decodePart bytes := (decodeInt n bytes).map fun (v, r) => (⟨v⟩, r)

/-- `impl_signed_integer_key!`: the sign bit of `MIN` flipped. -/
instance (n : Nat) : Key (Signed n) (Signed n) where
  size := .fixed n
  encode k := toBeBytes n (k.bits ^^^ BitVec.intMin (8 * n)).toNat
  decodePart bytes := (decodeInt n bytes).map fun (sortable, r) => (⟨sortable ^^^ BitVec.intMin (8 * n)⟩, r)

instance : Key Bool Bool where
  size := .fixed 1
  encode
    | true => [1]
    | false => [0]
  decodePart
    | [] => none
    | b :: r => if b = 0 then some (false, r) else if b = 1 then some (true, r) else none

/-- A use of `impl_enum_key!`: the arms `variant => discriminant` in order, over an
    integer type of `n` bytes. The compiler checks that every variant has an arm. -/
structure EnumDecl where
  variants : Nat
  n : Nat
  signed : Bool
  arms : List (Fin variants × BitVec (8 * n))
  exhaustive : ∀ v, ∃ a ∈ arms, a.1 = v
  distinct : (arms.map (·.2)).Nodup

structure Variant (e : EnumDecl) where
  idx : Fin e.variants
  deriving DecidableEq

/-- The first arm of the variant. -/
def discriminant {e : EnumDecl} (v : Variant e) : BitVec (8 * e.n) :=
  ((e.arms.find? (·.1 == v.idx)).map (·.2)).getD 0

instance (e : EnumDecl) : Key (Variant e) (Variant e) where
  size := .fixed e.n
  encode v := toBeBytes e.n (discriminant v).toNat
  decodePart bytes :=
    (decodeInt e.n bytes).bind fun (value, r) =>
      (e.arms.find? (·.2 == value)).map fun a => (⟨a.1⟩, r)

/-! ## References and tuples -/

@[ext] structure Ref (K : Type) where
  val : K
  deriving DecidableEq

@[ext] structure Tup1 (A : Type) where
  fst : A
  deriving DecidableEq

@[ext] structure Tup2 (A B : Type) where
  fst : A
  snd : B
  deriving DecidableEq

@[ext] structure Tup3 (A B C : Type) where
  fst : A
  snd : B
  thd : C
  deriving DecidableEq

@[ext] structure Tup4 (A B C D : Type) where
  fst : A
  snd : B
  thd : C
  fth : D
  deriving DecidableEq

section Tuples

variable {K A B C D KO AO BO CO DO : Type} [Key K KO] [Key A AO] [Key B BO] [Key C CO] [Key D DO]

instance : Key (Ref K) KO where
  size := Key.size K
  encode k := encode k.val
  decodePart := Key.decodePart K

instance : Key (Tup1 K) (Tup1 KO) where
  size := Key.size K
  encode k := encode k.fst
  decodePart bytes := do
    let (k, r) ← Key.decodePart K bytes
    some (⟨k⟩, r)

/-- Both sizes known: the buffer is reserved for the whole key. Otherwise the first
    component starts it. -/
instance : Key (Tup2 A B) (Tup2 AO BO) where
  size := (Key.size A).plus (Key.size B)
  encode k := match (Key.size A).plus (Key.size B) with
    | .fixed _ => [] ++ encode k.fst ++ encode k.snd
    | .variableLen => encode k.fst ++ encode k.snd
  decodePart bytes := do
    let (a, r) ← Key.decodePart A bytes
    let (b, r) ← Key.decodePart B r
    some (⟨a, b⟩, r)

instance : Key (Tup3 A B C) (Tup3 AO BO CO) where
  size := ((Key.size A).plus (Key.size B)).plus (Key.size C)
  encode k := match ((Key.size A).plus (Key.size B)).plus (Key.size C) with
    | .fixed _ => [] ++ encode k.fst ++ encode k.snd ++ encode k.thd
    | .variableLen => encode k.fst ++ encode k.snd ++ encode k.thd
  decodePart bytes := do
    let (a, r) ← Key.decodePart A bytes
    let (b, r) ← Key.decodePart B r
    let (c, r) ← Key.decodePart C r
    some (⟨a, b, c⟩, r)

instance : Key (Tup4 A B C D) (Tup4 AO BO CO DO) where
  size := (((Key.size A).plus (Key.size B)).plus (Key.size C)).plus (Key.size D)
  encode k := match (((Key.size A).plus (Key.size B)).plus (Key.size C)).plus (Key.size D) with
    | .fixed _ => [] ++ encode k.fst ++ encode k.snd ++ encode k.thd ++ encode k.fth
    | .variableLen => encode k.fst ++ encode k.snd ++ encode k.thd ++ encode k.fth
  decodePart bytes := do
    let (a, r) ← Key.decodePart A bytes
    let (b, r) ← Key.decodePart B r
    let (c, r) ← Key.decodePart C r
    let (d, r) ← Key.decodePart D r
    some (⟨a, b, c, d⟩, r)

@[simp] theorem encode_vec (k : Bytes) : encode k = encodeUnsizedKeyBytes k := rfl
@[simp] theorem encode_byteArr {S : Nat} (k : ByteArr S) : encode k = k.bytes := rfl
@[simp] theorem encode_str (k : Str) : encode k = encodeStr k.data := rfl
@[simp] theorem encode_string (k : String) : encode k = encodeStr k := rfl
@[simp] theorem encode_unsigned {n : Nat} (k : Unsigned n) : encode k = toBeBytes n k.bits.toNat := rfl
@[simp] theorem encode_signed {n : Nat} (k : Signed n) :
    encode k = toBeBytes n (k.bits ^^^ BitVec.intMin (8 * n)).toNat := rfl
@[simp] theorem encode_variant {e : EnumDecl} (k : Variant e) : encode k = toBeBytes e.n (discriminant k).toNat := rfl
@[simp] theorem encode_ref (k : Ref K) : encode k = encode k.val := rfl
@[simp] theorem encode_tup1 (k : Tup1 K) : encode k = encode k.fst := rfl

/-- Both branches of the `SIZE` match write the components one after another. -/
@[simp] theorem encode_tup2 (k : Tup2 A B) : encode k = encode k.fst ++ encode k.snd := by
  show (match (Key.size A).plus (Key.size B) with | .fixed _ => _ | .variableLen => _) = _
  split <;> simp

@[simp] theorem encode_tup3 (k : Tup3 A B C) : encode k = encode k.fst ++ (encode k.snd ++ encode k.thd) := by
  show (match ((Key.size A).plus (Key.size B)).plus (Key.size C) with | .fixed _ => _ | .variableLen => _) = _
  split <;> simp

@[simp] theorem encode_tup4 (k : Tup4 A B C D) :
    encode k = encode k.fst ++ (encode k.snd ++ (encode k.thd ++ encode k.fth)) := by
  show (match (((Key.size A).plus (Key.size B)).plus (Key.size C)).plus (Key.size D) with
    | .fixed _ => _ | .variableLen => _) = _
  split <;> simp

/-- The composite key a `Multi` index stores: the index key with the primary key
    appended. It keeps both, and encodes as one after the other. -/
class AppendKey (K PK : Type) {KO PO : outParam Type} [Key K KO] [Key PK PO] (AK AO : outParam Type) [Key AK AO] where
  append : K → PK → AK
  encode_append : ∀ k pk, encode (append k pk) = encode k ++ encode pk
  append_inj : ∀ k pk k' pk', append k pk = append k' pk' → k = k' ∧ pk = pk'

variable {PK PO : Type} [Key PK PO]

instance : AppendKey (Tup1 A) PK (Tup2 A (Ref PK)) (Tup2 AO PO) where
  append k pk := ⟨k.fst, ⟨pk⟩⟩
  encode_append _ _ := by simp
  append_inj := by rintro ⟨a⟩ pk ⟨a'⟩ pk' h; simpa using h

instance : AppendKey (Tup2 A B) PK (Tup3 A B (Ref PK)) (Tup3 AO BO PO) where
  append k pk := ⟨k.fst, k.snd, ⟨pk⟩⟩
  encode_append _ _ := by simp
  append_inj := by rintro ⟨a, b⟩ pk ⟨a', b'⟩ pk' h; simpa [and_assoc] using h

instance : AppendKey (Tup3 A B C) PK (Tup4 A B C (Ref PK)) (Tup4 AO BO CO PO) where
  append k pk := ⟨k.fst, k.snd, k.thd, ⟨pk⟩⟩
  encode_append _ _ := by simp
  append_inj := by rintro ⟨a, b, c⟩ pk ⟨a', b', c'⟩ pk' h; simpa [and_assoc] using h

end Tuples

end Collette
