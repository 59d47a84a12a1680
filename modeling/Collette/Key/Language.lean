/-
  Collette.Key.Language — decoding undoes encoding, over the whole key language.

  `KeyTy` is the grammar of key types: scalars under references and tuples of one to
  four components, nested to any depth. `RoundTrip own` says of one key type that
  decoding `encode k` followed by any bytes gives the owned form of `k` and those
  bytes, and that the owned form encodes as `k` does. The proof follows the impls: one
  lemma for each scalar framing (fixed width, the `0xff` end byte, the escaped
  `0x00 0x00` end) and one for each way to build a key from others;
  `roundTrip_of_leaves` is the induction on the grammar.

  A round trip with an injective owned form makes the encoding self-delimiting
  (`RoundTrip.selfDelimiting`), which is what the stores rely on.
-/

import Collette.Key.Codec

namespace Collette

open Collette.Lex

/-! ## The grammar -/

/-- The scalar key types at the leaves of a key type, each with its owned form. -/
class Leaves (ι : Type) where
  Val : ι → Type
  owned : ι → ι
  toOwned : ∀ i, Val i → Val (owned i)
  key : ∀ i, Key (Val i) (Val (owned i))

attribute [reducible, instance] Leaves.key

inductive KeyTy (ι : Type) where
  | leaf (i : ι)
  | ref (k : KeyTy ι)
  | tup1 (a : KeyTy ι)
  | tup2 (a b : KeyTy ι)
  | tup3 (a b c : KeyTy ι)
  | tup4 (a b c d : KeyTy ι)

section Grammar

variable {ι : Type} [Leaves ι]

@[reducible] def KeyTy.Val : KeyTy ι → Type
  | .leaf i => Leaves.Val i
  | .ref k => Ref k.Val
  | .tup1 a => Tup1 a.Val
  | .tup2 a b => Tup2 a.Val b.Val
  | .tup3 a b c => Tup3 a.Val b.Val c.Val
  | .tup4 a b c d => Tup4 a.Val b.Val c.Val d.Val

/-- `Key::OwnedKey`: references are read as their referent. -/
def KeyTy.owned : KeyTy ι → KeyTy ι
  | .leaf i => .leaf (Leaves.owned i)
  | .ref k => k.owned
  | .tup1 a => .tup1 a.owned
  | .tup2 a b => .tup2 a.owned b.owned
  | .tup3 a b c => .tup3 a.owned b.owned c.owned
  | .tup4 a b c d => .tup4 a.owned b.owned c.owned d.owned

def KeyTy.toOwned : (t : KeyTy ι) → t.Val → t.owned.Val
  | .leaf i => Leaves.toOwned i
  | .ref k => fun v => k.toOwned v.val
  | .tup1 a => fun v => ⟨a.toOwned v.fst⟩
  | .tup2 a b => fun v => ⟨a.toOwned v.fst, b.toOwned v.snd⟩
  | .tup3 a b c => fun v => ⟨a.toOwned v.fst, b.toOwned v.snd, c.toOwned v.thd⟩
  | .tup4 a b c d => fun v => ⟨a.toOwned v.fst, b.toOwned v.snd, c.toOwned v.thd, d.toOwned v.fth⟩

instance KeyTy.key : (t : KeyTy ι) → Key t.Val t.owned.Val
  | .leaf i => Leaves.key i
  | .ref k =>
    have := k.key
    inferInstanceAs (Key (Ref k.Val) k.owned.Val)
  | .tup1 a =>
    have := a.key
    inferInstanceAs (Key (Tup1 a.Val) (Tup1 a.owned.Val))
  | .tup2 a b =>
    have := a.key
    have := b.key
    inferInstanceAs (Key (Tup2 a.Val b.Val) (Tup2 a.owned.Val b.owned.Val))
  | .tup3 a b c =>
    have := a.key
    have := b.key
    have := c.key
    inferInstanceAs (Key (Tup3 a.Val b.Val c.Val) (Tup3 a.owned.Val b.owned.Val c.owned.Val))
  | .tup4 a b c d =>
    have := a.key
    have := b.key
    have := c.key
    have := d.key
    inferInstanceAs (Key (Tup4 a.Val b.Val c.Val d.Val) (Tup4 a.owned.Val b.owned.Val c.owned.Val d.owned.Val))

end Grammar

/-! ## Round trips -/

structure RoundTrip {K O O' : Type} [Key K O] [Key O O'] (own : K → O) : Prop where
  decodePart : ∀ k rest, Key.decodePart K (encode k ++ rest) = some (own k, rest)
  encode : ∀ k, encode (own k) = encode k

section Impls

variable {K A B C D KO AO BO CO DO KO' AO' BO' CO' DO' : Type} [Key K KO] [Key A AO] [Key B BO] [Key C CO] [Key D DO]
  [Key KO KO'] [Key AO AO'] [Key BO BO'] [Key CO CO'] [Key DO DO']
  {own : K → KO} {ownA : A → AO} {ownB : B → BO} {ownC : C → CO} {ownD : D → DO}

theorem RoundTrip.decode (h : RoundTrip own) (k : K) : Key.decode K (Collette.encode k) = some (own k) := by
  have := h.decodePart k []
  rw [List.append_nil] at this
  simp [Key.decode, this]

theorem RoundTrip.selfDelimiting (h : RoundTrip own) (hi : Function.Injective own) :
    SelfDelimiting (Collette.encode : K → Bytes) := by
  refine selfDelimiting_of_append fun x y r s e => hi ?_
  have hx := h.decodePart x r
  rw [e, h.decodePart y s] at hx
  simp only [Option.some.injEq, Prod.mk.injEq] at hx
  exact hx.1.symm

theorem roundTrip_ref (h : RoundTrip own) : RoundTrip fun k : Ref K => own k.val :=
  ⟨fun k rest => h.decodePart k.val rest, fun k => h.encode k.val⟩

theorem roundTrip_tup1 (h : RoundTrip own) : RoundTrip fun k : Tup1 K => Tup1.mk (own k.fst) := by
  refine ⟨fun k rest => ?_, fun k => by simp [h.encode]⟩
  show (Key.decodePart K (encode k.fst ++ rest) >>= _) = _
  rw [h.decodePart]; rfl

theorem roundTrip_tup2 (hA : RoundTrip ownA) (hB : RoundTrip ownB) :
    RoundTrip fun k : Tup2 A B => Tup2.mk (ownA k.fst) (ownB k.snd) := by
  refine ⟨fun k rest => ?_, fun k => by simp [hA.encode, hB.encode]⟩
  rw [encode_tup2, List.append_assoc]
  show (Key.decodePart A (encode k.fst ++ _) >>= _) = _
  simp only [hA.decodePart, hB.decodePart, Option.bind_eq_bind, Option.bind_some]

theorem roundTrip_tup3 (hA : RoundTrip ownA) (hB : RoundTrip ownB) (hC : RoundTrip ownC) :
    RoundTrip fun k : Tup3 A B C => Tup3.mk (ownA k.fst) (ownB k.snd) (ownC k.thd) := by
  refine ⟨fun k rest => ?_, fun k => by simp [hA.encode, hB.encode, hC.encode]⟩
  rw [encode_tup3, List.append_assoc, List.append_assoc]
  show (Key.decodePart A (encode k.fst ++ _) >>= _) = _
  simp only [hA.decodePart, hB.decodePart, hC.decodePart, Option.bind_eq_bind, Option.bind_some]

theorem roundTrip_tup4 (hA : RoundTrip ownA) (hB : RoundTrip ownB) (hC : RoundTrip ownC) (hD : RoundTrip ownD) :
    RoundTrip fun k : Tup4 A B C D => Tup4.mk (ownA k.fst) (ownB k.snd) (ownC k.thd) (ownD k.fth) := by
  refine ⟨fun k rest => ?_, fun k => by simp [hA.encode, hB.encode, hC.encode, hD.encode]⟩
  rw [encode_tup4, List.append_assoc, List.append_assoc, List.append_assoc]
  show (Key.decodePart A (encode k.fst ++ _) >>= _) = _
  simp only [hA.decodePart, hB.decodePart, hC.decodePart, hD.decodePart, Option.bind_eq_bind, Option.bind_some]

end Impls

/-- Types built from round-tripping scalars round trip, however deep they are nested. -/
theorem roundTrip_of_leaves {ι : Type} [Leaves ι] (h : ∀ i : ι, RoundTrip (Leaves.toOwned i)) (t : KeyTy ι) :
    RoundTrip t.toOwned := by
  induction t with
  | leaf i => exact h i
  | ref k ih => exact roundTrip_ref ih
  | tup1 a ih => exact roundTrip_tup1 ih
  | tup2 a b iha ihb => exact roundTrip_tup2 iha ihb
  | tup3 a b c iha ihb ihc => exact roundTrip_tup3 iha ihb ihc
  | tup4 a b c d iha ihb ihc ihd => exact roundTrip_tup4 iha ihb ihc ihd

end Collette
