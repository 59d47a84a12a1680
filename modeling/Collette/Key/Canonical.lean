/-
  Collette.Key.Canonical — decoding accepts nothing but encodings.

  `Canonical own` is the other half of `RoundTrip own`: what `decodePart` reads off a byte
  string is the encoding of a key. As there, one lemma for each scalar framing and one for
  each way to build a key from others; `canonical_of_leaves` is the induction on the
  grammar. An enum needs each variant listed once: of two arms for one variant, decoding
  accepts both discriminants and encoding writes the first.

  - `decode_iff`: for every type of the language and every byte string, decoding reads
    off exactly an encoding, panics only where no encoding starts the string, and decodes
    a whole string to `k` exactly when it is the encoding of `k`.
-/

import Collette.Key.Order

namespace Collette

/-- What is decoded was encoded. -/
def Canonical {K O : Type} [Key K O] (own : K → O) : Prop :=
  ∀ bytes o rest, Key.decodePart K bytes = some (o, rest) → ∃ k, own k = o ∧ bytes = encode k ++ rest

/-! ## Fixed width -/

theorem splitAt_eq_some {n : Nat} {bytes a b : Bytes} (h : splitAt n bytes = some (a, b)) :
    bytes = a ++ b ∧ a.length = n := by
  unfold splitAt at h
  split at h
  · rename_i hle
    cases h
    exact ⟨(List.take_append_drop n bytes).symm, List.length_take_of_le hle⟩
  · cases h

theorem decodeInt_eq_some {n : Nat} {bytes rest : Bytes} {x : BitVec (8 * n)}
    (h : decodeInt n bytes = some (x, rest)) : bytes = toBeBytes n x.toNat ++ rest := by
  unfold decodeInt at h
  obtain ⟨⟨a, b⟩, hsplit, he⟩ := Option.map_eq_some_iff.mp h
  cases he
  obtain ⟨hbytes, hlen⟩ := splitAt_eq_some hsplit
  obtain ⟨x, hx⟩ := exists_toBeBytes n hlen
  have hback : BitVec.ofNat (8 * n) (fromBeBytes a) = x := by
    rw [← hx, fromBeBytes_toBeBytes n _ (toNat_lt_pow x), BitVec.ofNat_toNat, BitVec.setWidth_eq]
  rw [hback, hx, hbytes]

theorem canonical_unsigned (n : Nat) : Canonical (id : Unsigned n → Unsigned n) := by
  intro bytes k rest h
  obtain ⟨⟨v, r⟩, hint, he⟩ := Option.map_eq_some_iff.mp h
  cases he
  exact ⟨_, rfl, decodeInt_eq_some hint⟩

theorem canonical_signed (n : Nat) : Canonical (id : Signed n → Signed n) := by
  intro bytes k rest h
  obtain ⟨⟨sortable, r⟩, hint, he⟩ := Option.map_eq_some_iff.mp h
  cases he
  refine ⟨_, rfl, ?_⟩
  rw [encode_signed, BitVec.xor_assoc, BitVec.xor_self, BitVec.xor_zero]
  exact decodeInt_eq_some hint

theorem canonical_bool : Canonical (id : Bool → Bool) := by
  intro bytes k rest h
  cases bytes with
  | nil => cases h
  | cons b r =>
    have hd : (if b = 0 then some (false, r) else if b = 1 then some (true, r) else none) = some (k, rest) := h
    split at hd
    · rename_i hb
      cases hd
      exact ⟨false, rfl, by rw [hb]; rfl⟩
    · split at hd
      · rename_i hb
        cases hd
        exact ⟨true, rfl, by rw [hb]; rfl⟩
      · cases hd

theorem canonical_byteArr (S : Nat) : Canonical (id : ByteArr S → ByteArr S) := by
  intro bytes k rest h
  have hd : (if h : S ≤ bytes.length then some ((⟨bytes.take S, by simp [h]⟩ : ByteArr S), bytes.drop S) else none) =
    some (k, rest) := h
  split at hd
  · cases hd
    exact ⟨_, rfl, (List.take_append_drop S bytes).symm⟩
  · cases hd

/-- With every variant listed once, each arm holds the discriminant of its variant. -/
theorem discriminant_of_mem {e : EnumDecl} (honce : (e.arms.map (·.1)).Nodup) {a : Fin e.variants × BitVec (8 * e.n)}
    (ha : a ∈ e.arms) : discriminant (Variant.mk a.1) = a.2 := by
  have hmem := discriminant_mem (Variant.mk a.1 : Variant e)
  exact congrArg Prod.snd (List.inj_on_of_nodup_map honce hmem ha rfl)

theorem canonical_variant {e : EnumDecl} (honce : (e.arms.map (·.1)).Nodup) :
    Canonical (id : Variant e → Variant e) := by
  intro bytes k rest h
  obtain ⟨⟨value, r⟩, hint, hfind⟩ := Option.bind_eq_some_iff.mp h
  obtain ⟨a, ha, he⟩ := Option.map_eq_some_iff.mp hfind
  cases he
  refine ⟨_, rfl, ?_⟩
  have hvalue : a.2 = value := by simpa using List.find?_some ha
  rw [encode_variant, discriminant_of_mem honce (List.mem_of_find?_eq_some ha), hvalue]
  exact decodeInt_eq_some hint

/-! ## Byte vectors and strings -/

/-- What the loop returns is what it had and the vector it read, terminator included. -/
theorem decodeUnsizedLoop_eq_some {out bytes vec rest : Bytes} (h : decodeUnsizedLoop out bytes = some (vec, rest)) :
    ∃ read, vec = out ++ read ∧ bytes = encodeUnsizedKeyBytes read ++ rest := by
  fun_induction decodeUnsizedLoop out bytes with
  | case1 => cases h
  | case2 => cases h
  | case3 out tail =>
    cases h
    exact ⟨[], (List.append_nil _).symm, rfl⟩
  | case4 out bytes hne ih =>
    obtain ⟨read, hvec, hbytes⟩ := ih h
    refine ⟨0x00 :: read, ?_, ?_⟩
    · rw [hvec, List.append_assoc, List.singleton_append]
    · rw [encodeUnsizedKeyBytes, if_pos rfl, hbytes]
      rfl
  | case5 => cases h
  | case6 out b bytes hb ih =>
    obtain ⟨read, hvec, hbytes⟩ := ih h
    refine ⟨b :: read, ?_, ?_⟩
    · rw [hvec, List.append_assoc, List.singleton_append]
    · rw [encodeUnsizedKeyBytes, if_neg hb, hbytes]
      rfl

theorem canonical_vec : Canonical (id : Bytes → Bytes) := by
  intro bytes k rest h
  obtain ⟨read, hk, hbytes⟩ := decodeUnsizedLoop_eq_some h
  exact ⟨read, hk.symm, hbytes⟩

theorem fromUtf8_eq_some {bytes : Bytes} {s : String} (h : fromUtf8 bytes = some s) : asBytes s = bytes := by
  unfold fromUtf8 at h
  split at h
  · cases h
    rfl
  · cases h

theorem decodeStr_eq_some {bytes rest : Bytes} {s : String} (h : decodeStr bytes = some (s, rest)) :
    bytes = encodeStr s ++ rest := by
  unfold decodeStr at h
  obtain ⟨pos, hpos, h⟩ := Option.bind_eq_some_iff.mp h
  obtain ⟨⟨strbytes, tail⟩, hsplit, h⟩ := Option.bind_eq_some_iff.mp h
  obtain ⟨str, hstr, h⟩ := Option.bind_eq_some_iff.mp h
  obtain ⟨hbytes, hlen⟩ := splitAt_eq_some hsplit
  obtain ⟨hlt, hff, -⟩ := List.findIdx?_eq_some_iff_getElem.mp hpos
  cases tail with
  | nil => cases h
  | cons b r =>
    cases h
    have hb : b = 0xff := by
      subst hbytes hlen
      simpa using hff
    rw [hbytes, encodeStr, fromUtf8_eq_some hstr, hb, List.append_assoc, List.singleton_append]

theorem canonical_string : Canonical (id : String → String) :=
  fun _ s _ h => ⟨s, rfl, decodeStr_eq_some h⟩

theorem canonical_str : Canonical Str.data := fun _ s _ h => ⟨⟨s⟩, rfl, decodeStr_eq_some h⟩

/-! ## References and tuples -/

section Impls

variable {K A B C D KO AO BO CO DO : Type} [Key K KO] [Key A AO] [Key B BO] [Key C CO] [Key D DO]
  {own : K → KO} {ownA : A → AO} {ownB : B → BO} {ownC : C → CO} {ownD : D → DO}

theorem canonical_ref (h : Canonical own) : Canonical fun k : Ref K => own k.val := by
  intro bytes o rest hd
  obtain ⟨k, ho, hbytes⟩ := h bytes o rest hd
  exact ⟨⟨k⟩, ho, hbytes⟩

theorem canonical_tup1 (h : Canonical own) : Canonical fun k : Tup1 K => Tup1.mk (own k.fst) := by
  intro bytes o rest hd
  obtain ⟨⟨k, r⟩, hk, hd⟩ := Option.bind_eq_some_iff.mp hd
  cases hd
  obtain ⟨x, rfl, hbytes⟩ := h _ _ _ hk
  exact ⟨⟨x⟩, rfl, hbytes⟩

theorem canonical_tup2 (hA : Canonical ownA) (hB : Canonical ownB) :
    Canonical fun k : Tup2 A B => Tup2.mk (ownA k.fst) (ownB k.snd) := by
  intro bytes o rest hd
  obtain ⟨⟨a, r1⟩, ha, hd⟩ := Option.bind_eq_some_iff.mp hd
  obtain ⟨⟨b, r2⟩, hb, hd⟩ := Option.bind_eq_some_iff.mp hd
  cases hd
  obtain ⟨x, rfl, rfl⟩ := hA _ _ _ ha
  obtain ⟨y, rfl, rfl⟩ := hB _ _ _ hb
  exact ⟨⟨x, y⟩, rfl, by rw [encode_tup2, List.append_assoc]⟩

theorem canonical_tup3 (hA : Canonical ownA) (hB : Canonical ownB) (hC : Canonical ownC) :
    Canonical fun k : Tup3 A B C => Tup3.mk (ownA k.fst) (ownB k.snd) (ownC k.thd) := by
  intro bytes o rest hd
  obtain ⟨⟨a, r1⟩, ha, hd⟩ := Option.bind_eq_some_iff.mp hd
  obtain ⟨⟨b, r2⟩, hb, hd⟩ := Option.bind_eq_some_iff.mp hd
  obtain ⟨⟨c, r3⟩, hc, hd⟩ := Option.bind_eq_some_iff.mp hd
  cases hd
  obtain ⟨x, rfl, rfl⟩ := hA _ _ _ ha
  obtain ⟨y, rfl, rfl⟩ := hB _ _ _ hb
  obtain ⟨z, rfl, rfl⟩ := hC _ _ _ hc
  exact ⟨⟨x, y, z⟩, rfl, by simp only [encode_tup3, List.append_assoc]⟩

theorem canonical_tup4 (hA : Canonical ownA) (hB : Canonical ownB) (hC : Canonical ownC) (hD : Canonical ownD) :
    Canonical fun k : Tup4 A B C D => Tup4.mk (ownA k.fst) (ownB k.snd) (ownC k.thd) (ownD k.fth) := by
  intro bytes o rest hd
  obtain ⟨⟨a, r1⟩, ha, hd⟩ := Option.bind_eq_some_iff.mp hd
  obtain ⟨⟨b, r2⟩, hb, hd⟩ := Option.bind_eq_some_iff.mp hd
  obtain ⟨⟨c, r3⟩, hc, hd⟩ := Option.bind_eq_some_iff.mp hd
  obtain ⟨⟨d, r4⟩, hdd, hd⟩ := Option.bind_eq_some_iff.mp hd
  cases hd
  obtain ⟨x, rfl, rfl⟩ := hA _ _ _ ha
  obtain ⟨y, rfl, rfl⟩ := hB _ _ _ hb
  obtain ⟨z, rfl, rfl⟩ := hC _ _ _ hc
  obtain ⟨w, rfl, rfl⟩ := hD _ _ _ hdd
  exact ⟨⟨x, y, z, w⟩, rfl, by simp only [encode_tup4, List.append_assoc]⟩

end Impls

/-! ## The language -/

theorem canonical_of_leaves {ι : Type} [Leaves ι] {p : ι → Prop} (h : ∀ i : ι, p i → Canonical (Leaves.toOwned i))
    (t : KeyTy ι) (ht : t.All p) : Canonical t.toOwned := by
  induction t with
  | leaf i => exact h i ht
  | ref k ih => exact canonical_ref (ih ht)
  | tup1 a ih => exact canonical_tup1 (ih ht)
  | tup2 a b iha ihb => exact canonical_tup2 (iha ht.1) (ihb ht.2)
  | tup3 a b c iha ihb ihc => exact canonical_tup3 (iha ht.1) (ihb ht.2.1) (ihc ht.2.2)
  | tup4 a b c d iha ihb ihc ihd => exact canonical_tup4 (iha ht.1) (ihb ht.2.1) (ihc ht.2.2.1) (ihd ht.2.2.2)

/-- Every value of the owned type is the owned form of some key. -/
theorem toOwned_surjective {ι : Type} [Leaves ι] (h : ∀ i : ι, Function.Surjective (Leaves.toOwned i)) (t : KeyTy ι) :
    Function.Surjective t.toOwned := by
  induction t with
  | leaf i => exact h i
  | ref k ih =>
    intro o
    obtain ⟨v, hv⟩ := ih o
    exact ⟨⟨v⟩, hv⟩
  | tup1 a ih =>
    intro o
    obtain ⟨v, hv⟩ := ih o.fst
    exact ⟨⟨v⟩, Tup1.ext hv⟩
  | tup2 a b iha ihb =>
    intro o
    obtain ⟨v, hv⟩ := iha o.fst
    obtain ⟨w, hw⟩ := ihb o.snd
    exact ⟨⟨v, w⟩, Tup2.ext hv hw⟩
  | tup3 a b c iha ihb ihc =>
    intro o
    obtain ⟨v, hv⟩ := iha o.fst
    obtain ⟨w, hw⟩ := ihb o.snd
    obtain ⟨x, hx⟩ := ihc o.thd
    exact ⟨⟨v, w, x⟩, Tup3.ext hv hw hx⟩
  | tup4 a b c d iha ihb ihc ihd =>
    intro o
    obtain ⟨v, hv⟩ := iha o.fst
    obtain ⟨w, hw⟩ := ihb o.snd
    obtain ⟨x, hx⟩ := ihc o.thd
    obtain ⟨y, hy⟩ := ihd o.fth
    exact ⟨⟨v, w, x, y⟩, Tup4.ext hv hw hx hy⟩

/-- An enum lists each of its variants once. -/
def Scalar.ListedOnce : Scalar → Prop
  | .enum e => (e.arms.map (·.1)).Nodup
  | _ => True

theorem canonical_scalar (i : Scalar) (h : i.ListedOnce) : Canonical (Leaves.toOwned i) := by
  cases i with
  | unsigned n => exact canonical_unsigned n
  | signed n => exact canonical_signed n
  | bool => exact canonical_bool
  | byteArr S => exact canonical_byteArr S
  | vec => exact canonical_vec
  | string => exact canonical_string
  | str => exact canonical_str
  | enum e => exact canonical_variant h

theorem toOwned_surjective_scalar (i : Scalar) : Function.Surjective (Leaves.toOwned i) := by
  cases i with
  | str => exact fun s => ⟨⟨s⟩, rfl⟩
  | _ => exact Function.surjective_id

/-- Decoding accepts the image of encoding and nothing else, at the front of a byte
    string and for a whole one, whether `k` is written as the key type or in its owned
    form. -/
theorem decode_iff (t : KeyTy Scalar) (ht : t.All Scalar.ListedOnce) (bytes : Bytes) :
    (∀ o rest, Key.decodePart t.Val bytes = some (o, rest) → bytes = encode o ++ rest) ∧
    (Key.decodePart t.Val bytes = none → ∀ k : t.Val, ¬ encode k <+: bytes) ∧
    (∀ o, Key.decode t.Val bytes = some o ↔ bytes = encode o) ∧
    ∀ k : t.Val, Key.decode t.Val bytes = some (t.toOwned k) ↔ bytes = encode k := by
  have hround := roundTrip_keyTy t
  have hcanon := canonical_of_leaves canonical_scalar t ht
  have hpart : ∀ o rest, Key.decodePart t.Val bytes = some (o, rest) → bytes = encode o ++ rest := by
    intro o rest h
    obtain ⟨k, rfl, hbytes⟩ := hcanon bytes o rest h
    rw [hround.encode]
    exact hbytes
  have hdecode : ∀ o, Key.decode t.Val bytes = some o ↔ bytes = encode o := by
    intro o
    constructor
    · intro h
      unfold Key.decode at h
      split at h
      · rename_i key hkey
        cases h
        have := hpart _ _ hkey
        rwa [List.append_nil] at this
      · cases h
    · intro h
      obtain ⟨k, rfl⟩ := toOwned_surjective toOwned_surjective_scalar t o
      rw [h, hround.encode]
      exact hround.decode k
  refine ⟨hpart, fun h k hk => ?_, hdecode, fun k => ?_⟩
  · obtain ⟨rest, rfl⟩ := hk
    rw [hround.decodePart] at h
    cases h
  · rw [hdecode, hround.encode]

/-- `Queued => 0`, `Done => 1`, as a `u8`. -/
def status : EnumDecl where
  variants := 2
  n := 1
  signed := false
  arms := [(0, 0), (1, 1)]
  exhaustive := by decide
  distinct := by decide

/-- `(Vec<u8>, Status)`: an empty vector, then no discriminant. -/
theorem decode_iff_status : Key.decodePart (Tup2 Bytes (Variant status)) [0x00, 0x00, 0x02] = none ∧
    ∀ k : Tup2 Bytes (Variant status), ¬ encode k <+: [0x00, 0x00, 0x02] :=
  ⟨rfl, (decode_iff (.tup2 (.leaf .vec) (.leaf (.enum status)))
    ⟨trivial, show (status.arms.map (·.1)).Nodup by decide⟩ [0x00, 0x00, 0x02]).2.1 rfl⟩

end Collette
