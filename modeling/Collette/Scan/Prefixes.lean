/-
  Collette.Scan.Prefixes — prefix scans of indexes.

  A prefix is encoded to the interval of the byte strings that start with its encoding,
  whichever index it is for. The key of a record starts where its place does, in a
  `Unique` index as in a `Multi` one, and the prefix encodes to the start of a key whose
  leading components it is. No other key starts with those bytes as long as no encoding
  of a prefix starts another; the order of the keys plays no part.

  - `prefix_scan_exact`: in any reachable state a prefix scan over built-in key types
    yields the records with that prefix, once each.
-/

import Collette.Scan.Results
import Collette.Scan.Panics

namespace Collette

open Prog Collette.Lex Collette.Table

section Places

variable {Record PK PO P S PO' SO : Type} [Key PK PO] [Key P PO'] [Key S SO] [Item Record PK]

/-- Whatever follows a key, it is in the interval of its leading components and of no others. -/
theorem contains_prefix_append_iff {K KO : Type} [Key K KO] [Prefixable K P S]
    (hP : SelfDelimiting (encode : P → Bytes)) (p : P) (k : K) (t : Bytes) :
    contains (encodePrefix p) (encode k ++ t) ↔ ∃ s, k = Prefixable.compose p s := by
  have hstart : contains (encodePrefix p) (encode k ++ t) ↔ encode p <+: encode k ++ t := mem_prefix_iff _ _
  rw [hstart]
  constructor
  · intro h
    obtain ⟨p', s, rfl⟩ := Prefixable.exists_compose (P := P) k
    obtain ⟨u, hu⟩ := h
    rw [Prefixable.encode_compose, List.append_assoc] at hu
    obtain ⟨rfl, -⟩ := hP.of_append hu
    exact ⟨s, rfl⟩
  · intro h
    obtain ⟨s, rfl⟩ := h
    exact (prefix_compose p s).trans (List.prefix_append _ _)

/-- What a record is stored under starts with its index key. -/
theorem key_prefix_place (I : Index Record PK) (r : Record) : encode (I.key r) <+: I.place r := by
  obtain ⟨name, K, KO, kind, key⟩ := I
  cases kind with
  | unique eq debug => exact List.prefix_refl _
  | multi keyImpl append eq debug =>
    refine ⟨encode (Item.key r), ?_⟩
    exact (append.encode_append (key r) (Item.key r)).symm

theorem contains_encodePrefix_iff (I : Index Record PK) [Prefixable I.IndexKey P S]
    (hP : SelfDelimiting (encode : P → Bytes)) (p : P) (r : Record) :
    contains (encodePrefix p) (I.place r) ↔ ∃ s, I.key r = Prefixable.compose p s := by
  obtain ⟨t, ht⟩ := key_prefix_place I r
  rw [← ht]
  exact contains_prefix_append_iff hP p (I.key r) t

end Places

/-- Whatever the components of an index key and whichever kind the index is of, the scan
    of a prefix yields exactly the records whose keys have it as their leading
    components, in either direction. -/
theorem prefix_scan_exact {Record : Type} {pk : KeyTy Scalar} [Debug pk.Val] [Item Record pk.Val]
    {indexes : List (Index Record pk.Val)} (hnames : (storeNames indexes).Nodup) (hlaw : LawfulCodec Record)
    {db : Stores} (hreach : Reach indexes db) {I : Index Record pk.Val} (hI : I ∈ indexes) {pt : KeyTy Scalar}
    {S SO : Type} [Key S SO] [Prefixable I.IndexKey pt.Val S] (p : pt.Val) (direction : Option Direction) :
    ∃ (R : Set Record) (rs : List Record), Consistent indexes db R ∧
      (runScan (.index I) ((Selection.prefixed p).chain I.kind.boundsEncoder direction none)
        (World.start noFaults db)).1 = .ok (rs.map fun r => ⟨r, .key (I.place r)⟩) ∧
      (∀ r, r ∈ rs ↔ r ∈ R ∧ ∃ s, I.key r = Prefixable.compose p s) ∧ rs.Nodup := by
  have hk := keysOk_keyTy pk
  obtain ⟨M, hrep⟩ := rep_of_reach hk hnames hlaw hreach
  have hc := compile_chain_none I.kind.boundsEncoder (Selection.prefixed p) direction
  obtain ⟨rs, hrun, hmem, hsorted⟩ :=
    runScan_ok (e := .index I) hk hlaw hrep hI hc (rangeOk_encodePrefix p)
  refine ⟨_, rs, hrep.consistent hk, hrun, fun r => ?_, nodup_of_before hsorted⟩
  rw [hmem r]
  exact and_congr_right fun _ => contains_encodePrefix_iff I (selfDelimiting_keyTy pt) p r

/-- A user's region by name, then the email. -/
def byName : Index User (Unsigned 1) where
  NAME := "by_name"
  IndexKey := Tup2 Str (Unsigned 1)
  IndexOwnedKey := Tup2 String (Unsigned 1)
  kind := .unique inferInstance ⟨fun k => s!"({k.fst.data}, {Debug.fmt k.snd})"⟩
  key user := ⟨⟨if user.region = 0 then "" else "eu"⟩, ⟨user.email.toBitVec⟩⟩

instance : Prefixable (ScanExecutor.index byName).LogicalKey Str (Unsigned 1) :=
  inferInstanceAs (Prefixable (Tup2 Str (Unsigned 1)) Str (Unsigned 1))

/-- A user of the region without a name, and one of another. -/
def unnamedUser : Stores :=
  (Op.exec [byName] noFaults (.insert ⟨2, 3, 1⟩) (Op.exec [byName] noFaults (.insert ⟨1, 2, 0⟩) (emptyDb [byName])).2).2

theorem reach_unnamedUser : Reach [byName] unnamedUser := .step _ _ (.step _ _ .empty)

theorem stored_unnamedUser : (unnamedUser MAIN_STORE).bind (·[encode (⟨1⟩ : Unsigned 1)]?) = some [1, 2, 0] := by
  decide +kernel

/-- The users of the empty region: `""` encodes as `ff` alone, and so has no end. -/
theorem prefix_scan_exact_unnamed :
    ∃ (R : Set User) (rs : List User), Consistent [byName] unnamedUser R ∧
      (runScan (.index byName) ((Selection.prefixed (Str.mk "")).chain exactEncoder none none)
        (World.start noFaults unnamedUser)).1 = .ok (rs.map fun r => ⟨r, .key (byName.place r)⟩) ∧
      (∀ r, r ∈ rs ↔ r ∈ R ∧ ∃ s : Unsigned 1, byName.key r = (⟨⟨""⟩, s⟩ : Tup2 Str (Unsigned 1))) ∧ rs.Nodup ∧
      ⟨1, 2, 0⟩ ∈ rs := by
  obtain ⟨R, rs, hR, hrun, hmem, hnodup⟩ := @prefix_scan_exact User (.leaf (.unsigned 1))
    (inferInstanceAs (Debug (Unsigned 1))) (inferInstanceAs (Item User (Unsigned 1))) [byName] (by decide)
    lawfulCodec_user _ reach_unnamedUser byName (List.mem_singleton_self _) (.leaf .str) (Unsigned 1) (Unsigned 1) _
    (inferInstanceAs (Prefixable (Tup2 Str (Unsigned 1)) Str (Unsigned 1))) (Str.mk "") none
  refine ⟨R, rs, hR, hrun, hmem, hnodup, (hmem _).mpr ⟨?_, ⟨⟨2⟩, rfl⟩⟩⟩
  obtain ⟨st, hst, hstored⟩ := Option.bind_eq_some_iff.mp stored_unnamedUser
  exact hR.mem_of_stored lawfulCodec_user hst hstored rfl

end Collette
