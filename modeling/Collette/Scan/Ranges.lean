/-
  Collette.Scan.Ranges — range scans over primary keys and `Unique` indexes.

  Both stores are keyed by the encoding of the logical key itself, and their ranges are
  encoded bound for bound. With an encoding that keeps the order, the bytes in range are
  the encodings of the keys in range, and the order of the one is the order of the other.

  - `range_scan_exact`: in any reachable state such a scan yields the records with keys in
    range, once each, in the order of its direction.
-/

import Collette.Scan.Results
import Collette.Scan.Panics

namespace Collette

open Prog Collette.Lex Collette.Table

/-- In the scan's direction, `a` comes before `b`. -/
def Direction.Ordered {κ : Type} [LT κ] : Direction → κ → κ → Prop
  | .leftToRight, a, b => a < b
  | .rightToLeft, a, b => b < a

/-- A scan with `.range`, or with none. -/
def Selection.ranged {K KO : Type} [Key K KO] : Option (Bound K × Bound K) → Selection K
  | some bounds => .range bounds
  | none => .all

section Exact

variable {Record PK PO : Type} [Key PK PO] [Item Record PK]

/-- The key of a record in the order of the scan. -/
def ScanExecutor.logicalKey : (e : ScanExecutor Record PK) → Record → e.LogicalKey
  | .collection => Item.key
  | .index I => I.key

variable {e : ScanExecutor Record PK} (hexact : ¬ e.IsMulti)
include hexact

theorem place_exact (r : Record) : e.place r = encode (e.logicalKey r) := by
  cases e with
  | collection => rfl
  | index I =>
    obtain ⟨name, K, KO, kind, key⟩ := I
    cases kind with
    | unique eq debug => rfl
    | multi key append eq debug => exact absurd id hexact

omit [Item Record PK] in
theorem boundsEncoder_exact : e.boundsEncoder = exactEncoder := by
  cases e with
  | collection => rfl
  | index I =>
    obtain ⟨name, K, KO, kind, key⟩ := I
    cases kind with
    | unique eq debug => rfl
    | multi key append eq debug => exact absurd id hexact

variable [LinearOrder e.LogicalKey]

theorem before_place_iff (hgood : Good (encode : e.LogicalKey → Bytes)) (d : Direction) (r r' : Record) :
    d.before (e.place r) (e.place r') ↔ d.Ordered (e.logicalKey r) (e.logicalKey r') := by
  rw [place_exact hexact, place_exact hexact]
  cases d with
  | leftToRight => exact hgood.lt_iff _ _
  | rightToLeft => exact hgood.lt_iff _ _

omit hexact [Item Record PK] in
/-- The bytes of a key are in the encoded range exactly when the key is in the range. -/
theorem contains_ranged_iff (hgood : Good (encode : e.LogicalKey → Bytes))
    (range : Option (Bound e.LogicalKey × Bound e.LogicalKey)) (k : e.LogicalKey) :
    contains ((Selection.ranged range).bounds exactEncoder) (encode k) ↔
      ∀ bounds, range = some bounds → contains bounds k := by
  cases range with
  | none => exact iff_of_true ⟨trivial, trivial⟩ fun _ h => by cases h
  | some bounds => exact (exact_range_iff hgood bounds k).trans ⟨fun h b hb => Option.some.inj hb ▸ h, fun h => h _ rfl⟩

end Exact

/-- A primary scan or a `Unique` index scan over any range that is not reversed, in either
    direction, yields exactly the records whose keys are in the range, each once and in
    order, with the encoded key as the cursor. -/
theorem range_scan_exact {Record PK PO PO' : Type} [Key PK PO] [Key PO PO'] [Debug PK] [Item Record PK]
    {own : PK → PO} (hk : KeysOk own) {indexes : List (Index Record PK)} (hnames : (storeNames indexes).Nodup)
    (hlaw : LawfulCodec Record) {db : Stores} (hreach : Reach indexes db) {e : ScanExecutor Record PK}
    (he : e.Registered indexes) (hexact : ¬ e.IsMulti) [LinearOrder e.LogicalKey]
    (hself : SelfDelimiting (encode : e.LogicalKey → Bytes))
    (hord : OrderPreserving (encode : e.LogicalKey → Bytes))
    {range : Option (Bound e.LogicalKey × Bound e.LogicalKey)}
    (hrange : ∀ bounds, range = some bounds → RangeOk bounds) (direction : Option Direction) :
    ∃ (R : Set Record) (rs : List Record), Consistent indexes db R ∧
      (runScan e ((Selection.ranged range).chain e.boundsEncoder direction none) (World.start noFaults db)).1 =
        .ok (rs.map fun r => ⟨r, .key (encode (e.logicalKey r))⟩) ∧
      (∀ r, r ∈ rs ↔ r ∈ R ∧ ∀ bounds, range = some bounds → contains bounds (e.logicalKey r)) ∧ rs.Nodup ∧
      rs.Pairwise fun r r' => (direction.getD .leftToRight).Ordered (e.logicalKey r) (e.logicalKey r') := by
  have hgood : Good (encode : e.LogicalKey → Bytes) := good_iff.mpr ⟨hord, hself⟩
  obtain ⟨M, hrep⟩ := rep_of_reach hk hnames hlaw hreach
  have hsel : (Selection.ranged range).WellOrdered := by
    cases range with
    | none => trivial
    | some bounds => exact ⟨hgood, hrange bounds rfl⟩
  have hc := compile_chain_none e.boundsEncoder (Selection.ranged range) direction
  have hok : RangeOk ((Selection.ranged range).bounds e.boundsEncoder) :=
    (selection_rangeOk_iff e hsel).mpr fun h => hexact h.1
  obtain ⟨rs, hrun, hmem, hsorted⟩ := runScan_ok hk hlaw hrep he hc hok
  refine ⟨_, rs, hrep.consistent hk, ?_, fun r => ?_, nodup_of_before hsorted,
    hsorted.imp fun h => (before_place_iff hexact hgood _ _ _).mp h⟩
  · rw [hrun]
    refine congrArg _ (List.map_congr_left fun r _ => ?_)
    rw [ScanExecutor.entry, place_exact hexact]
  · rw [hmem r, boundsEncoder_exact hexact, place_exact hexact, contains_ranged_iff hgood]
    exact Iff.rfl

instance : LinearOrder (ScanExecutor.index byEmail).LogicalKey := inferInstanceAs (LinearOrder (Unsigned 1))

/-- The users with an email below 5, the last one first. -/
theorem range_scan_exact_users :
    ∃ (R : Set User) (rs : List User), Consistent [byEmail, byRegion] oneUser R ∧
      (runScan (.index byEmail) ((Selection.ranged (some (.unbounded, .excluded (⟨5⟩ : Unsigned 1)))).chain
          exactEncoder (some .rightToLeft) none) (World.start noFaults oneUser)).1 =
        .ok (rs.map fun r => ⟨r, .key (encode (byEmail.key r))⟩) ∧
      (∀ r, r ∈ rs ↔ r ∈ R ∧ ∀ bounds, some (.unbounded, .excluded (⟨5⟩ : Unsigned 1)) = some bounds →
        contains bounds (show Unsigned 1 from byEmail.key r)) ∧ rs.Nodup ∧
      rs.Pairwise fun r r' => (show Unsigned 1 from byEmail.key r') < byEmail.key r := by
  refine range_scan_exact (e := .index byEmail) (keysOk_unsigned 1) (by decide) lawfulCodec_user reach_oneUser
    (show byEmail ∈ [byEmail, byRegion] by simp) (fun h => h trivial) (good_unsigned 1).selfDelimiting
    (good_unsigned 1).orderPreserving (fun bounds h => ?_) (some .rightToLeft)
  obtain rfl := Option.some.inj h
  trivial

end Collette
