/-
  Collette.Scan.Selections — what a client selects and what a scan of it yields, for every
  selection, kind of index and direction.

  A selection is meant in logical keys (`Selects`) and carried out in bytes. Over the
  primary store and a `Unique` index the two are the same. A `Multi` index has a primary
  key after each logical one, and a range whose start is lost holds the keys up to its end
  besides (`Escapes`); a range under a prefix can hold keys of other prefixes that way.

  - `placed_iff`: where a record is placed is in the encoded bounds if its key is selected
    or, in a `Multi` index, escapes.
  - `ordered_keys`: places are ordered as the logical keys are, and under one key as the
    primary keys.
  - `scan_exact`: so in any reachable state a scan whose bounds do not collide yields the
    records whose keys are selected or escape, once each, in that order.
  - `scan_reversed`: a scan from right to left does what the scan from left to right does,
    a panic included, with the entries reversed.
-/

import Collette.Prog.Script
import Collette.Scan.Prefixes
import Collette.Scan.Ranges

namespace Collette

open Prog Collette.Lex Collette.Table

open Prefixable (compose)

/-! ## Selections in logical keys -/

section Selections

variable {K KO : Type} [Key K KO]

/-- The prefix of a selection delimits itself. -/
def Selection.Delimited : Selection K → Prop
  | @Selection.prefixed _ _ _ P _ _ _ _ _ _ _ => SelfDelimiting (encode : P → Bytes)
  | @Selection.prefixedRange _ _ _ P _ _ _ _ _ _ _ _ _ => SelfDelimiting (encode : P → Bytes)
  | _ => True

variable [LinearOrder K]

def Selection.Selects : Selection K → K → Prop
  | .all, _ => True
  | .range bounds, k => contains bounds k
  | @Selection.prefixed _ _ _ _ _ _ _ _ _ _ p, k => ∃ s, k = compose p s
  | @Selection.prefixedRange _ _ _ _ _ _ _ _ _ _ _ p bounds, k => ∃ s, k = compose p s ∧ contains bounds s

/-- The start of the range is lost, and the key is up to its end. -/
def Selection.Escapes : Selection K → K → Prop
  | .range bounds, k => LostStart bounds.1 ∧ bounds.2.upTo k
  | @Selection.prefixedRange _ _ _ _ S _ _ _ _ _ _ p bounds, k =>
    LostStart (bounds.1.map (compose p : S → K)) ∧ (bounds.2.map (compose p : S → K)).upTo k
  | _, _ => False

/-- Any encoding that delimits itself is good for some order of its values. -/
theorem good_of_selfDelimiting {P PO : Type} [Key P PO] (h : SelfDelimiting (encode : P → Bytes)) :
    ∃ _ : LinearOrder P, Good (encode : P → Bytes) := by
  let order : LinearOrder P := LinearOrder.lift' encode h.injective
  refine ⟨order, good_of_lt fun p p' hlt r t => ?_⟩
  have hbytes : encode p < encode p' := hlt
  exact append_lt_append hbytes (fun hp => ne_of_lt hlt (h p p' hp)) r t

variable (hK : Good (encode : K → Bytes)) {sel : Selection K} (hok : sel.WellOrdered) (hdel : sel.Delimited)
include hK hok hdel

theorem exact_selects_iff (k : K) : contains (sel.bounds exactEncoder) (encode k) ↔ sel.Selects k := by
  cases sel with
  | all => exact iff_of_true ⟨trivial, trivial⟩ trivial
  | range bounds => exact exact_range_iff hK bounds k
  | prefixed p =>
    have hiff := contains_prefix_append_iff hdel p k []
    rwa [List.append_nil] at hiff
  | prefixedRange p bounds =>
    obtain ⟨_, hP⟩ := good_of_selfDelimiting hdel
    exact exact_prefixed_iff hK hP hok.1 p bounds k

theorem prefix_selects_iff (k : K) {t : Bytes} (ht : t ≠ []) :
    contains (sel.bounds prefixEncoder) (encode k ++ t) ↔ sel.Selects k ∨ sel.Escapes k := by
  cases sel with
  | all => exact iff_of_true ⟨trivial, trivial⟩ (Or.inl trivial)
  | range bounds =>
    refine (prefix_range_iff hK bounds k ht).trans ?_
    rw [or_and_right]
    exact Iff.rfl
  | prefixed p => exact (contains_prefix_append_iff hdel p k t).trans (by simp [Selection.Selects, Selection.Escapes])
  | prefixedRange p bounds =>
    obtain ⟨_, hP⟩ := good_of_selfDelimiting hdel
    exact prefix_prefixed_range_iff hK hP hok.1 p bounds k ht

end Selections

/-! ## Places -/

section Places

variable {Record PK PO : Type} [Key PK PO] [Item Record PK] {e : ScanExecutor Record PK}

theorem place_multi (h : e.IsMulti) (r : Record) : e.place r = encode (e.logicalKey r) ++ encode (Item.key r) := by
  cases e with
  | collection => exact h.elim
  | index I =>
    obtain ⟨name, K, KO, kind, key⟩ := I
    cases kind with
    | unique eq debug => exact absurd trivial h
    | multi keyImpl append eq debug => exact append.encode_append (key r) (Item.key r)

omit [Item Record PK] in
theorem boundsEncoder_multi (h : e.IsMulti) : e.boundsEncoder = prefixEncoder := by
  cases e with
  | collection => exact h.elim
  | index I =>
    obtain ⟨name, K, KO, kind, key⟩ := I
    cases kind with
    | unique eq debug => exact absurd trivial h
    | multi keyImpl append eq debug => rfl

variable [LinearOrder e.LogicalKey] (hK : Good (encode : e.LogicalKey → Bytes))
include hK

theorem placed_iff (hne : ∀ pk : PK, encode pk ≠ []) {sel : Selection e.LogicalKey} (hok : sel.WellOrdered)
    (hdel : sel.Delimited) (r : Record) : contains (sel.bounds e.boundsEncoder) (e.place r) ↔
      sel.Selects (e.logicalKey r) ∨ e.IsMulti ∧ sel.Escapes (e.logicalKey r) := by
  by_cases hmulti : e.IsMulti
  · rw [boundsEncoder_multi hmulti, place_multi hmulti, prefix_selects_iff hK hok hdel _ (hne _)]
    simp [hmulti]
  · rw [boundsEncoder_exact hmulti, place_exact hmulti, exact_selects_iff hK hok hdel]
    simp [hmulti]

/-- The keys of a record in the order of the scan. -/
def ScanExecutor.keys (e : ScanExecutor Record PK) (r : Record) : e.LogicalKey ×ₗ PK :=
  toLex (e.logicalKey r, Item.key r)

variable [LinearOrder PK]

theorem ordered_keys (hpk : Good (encode : PK → Bytes)) {d : Direction} {r r' : Record}
    (h : d.before (e.place r) (e.place r')) : d.Ordered (e.keys r) (e.keys r') := by
  have hlt : ∀ r r' : Record, e.place r < e.place r' → e.keys r < e.keys r' := by
    intro r r' hplace
    by_cases hmulti : e.IsMulti
    · rw [place_multi hmulti, place_multi hmulti] at hplace
      exact ((hK.prod hpk).lt_iff (e.keys r) (e.keys r')).mp hplace
    · rw [place_exact hmulti, place_exact hmulti] at hplace
      exact Prod.Lex.toLex_lt_toLex.mpr (Or.inl ((hK.lt_iff _ _).mp hplace))
  cases d with
  | leftToRight => exact hlt r r' h
  | rightToLeft => exact hlt r' r h

end Places

/-- A scan of any selection whose bounds do not collide yields exactly the records whose
    keys are selected, and in a `Multi` index those whose keys escape, each once, in the
    order of the logical keys and under one of them of the primary keys. -/
theorem scan_exact {Record PK PO PO' : Type} [Key PK PO] [Key PO PO'] [Debug PK] [Item Record PK] [LinearOrder PK]
    {own : PK → PO} (hk : KeysOk own) (hpk : Good (encode : PK → Bytes)) (hne : ∀ pk : PK, encode pk ≠ [])
    {indexes : List (Index Record PK)} (hnames : (storeNames indexes).Nodup) (hlaw : LawfulCodec Record) {db : Stores}
    (hreach : Reach indexes db) {e : ScanExecutor Record PK} (he : e.Registered indexes) [LinearOrder e.LogicalKey]
    (hK : Good (encode : e.LogicalKey → Bytes)) {sel : Selection e.LogicalKey} (hok : sel.WellOrdered)
    (hdel : sel.Delimited) (hcol : ¬ Collides e sel none) (direction : Option Direction) :
    ∃ (R : Set Record) (rs : List Record), Consistent indexes db R ∧
      (runScan e (sel.chain e.boundsEncoder direction none) (World.start noFaults db)).1 = .ok (rs.map e.entry) ∧
      (∀ r, r ∈ rs ↔ r ∈ R ∧ (sel.Selects (e.logicalKey r) ∨ e.IsMulti ∧ sel.Escapes (e.logicalKey r))) ∧ rs.Nodup ∧
      rs.Pairwise fun r r' => (direction.getD .leftToRight).Ordered (e.keys r) (e.keys r') := by
  obtain ⟨M, hrep⟩ := rep_of_reach hk hnames hlaw hreach
  have hc := compile_chain_none e.boundsEncoder sel direction
  have hrange : RangeOk (sel.bounds e.boundsEncoder) :=
    (selection_rangeOk_iff e hok).mpr fun h => hcol ⟨h.1, rfl, h.2⟩
  obtain ⟨rs, hrun, hmem, hsorted⟩ := runScan_ok hk hlaw hrep he hc hrange
  refine ⟨_, rs, hrep.consistent hk, hrun, fun r => ?_, nodup_of_before hsorted, hsorted.imp (ordered_keys hK hpk)⟩
  rw [hmem r, placed_iff hK hne hok hdel]
  exact Iff.rfl

/-- Past region 255 there is no region. -/
def pastLast : Selection (ScanExecutor.index byRegion).LogicalKey :=
  .range (.excluded (⟨⟨255⟩⟩ : Tup1 (Unsigned 1)), .unbounded)

theorem stored_oneUser : (oneUser MAIN_STORE).bind (·[encode (⟨1⟩ : Unsigned 1)]?) = some [1, 1, 1] := by decide +kernel

/-- The user of region 1 escapes, and is yielded. -/
theorem scan_exact_past_last : ∃ rs : List User,
    (runScan (.index byRegion) (pastLast.chain (ScanExecutor.index byRegion).boundsEncoder (some .rightToLeft) none)
        (World.start noFaults oneUser)).1 = .ok (rs.map (ScanExecutor.index byRegion).entry) ∧
      ⟨1, 1, 1⟩ ∈ rs ∧ ¬ pastLast.Selects (byRegion.key ⟨1, 1, 1⟩) := by
  have hK : Good (encode : (ScanExecutor.index byRegion).LogicalKey → Bytes) := good_tup1 (good_unsigned 1)
  have hok : pastLast.WellOrdered := ⟨hK, trivial⟩
  obtain ⟨R, rs, hR, hrun, hmem, -, -⟩ := scan_exact (keysOk_unsigned 1) (good_unsigned 1)
    (encode_unsigned_ne_nil (by decide)) (by decide) lawfulCodec_user reach_oneUser registered_byRegion hK
    hok trivial (fun h => h.2.2.elim) (some .rightToLeft)
  obtain ⟨st, hst, hstored⟩ := Option.bind_eq_some_iff.mp stored_oneUser
  have hlost : LostStart (.excluded (⟨⟨255⟩⟩ : Tup1 (Unsigned 1))) := ⟨_, rfl, by decide +kernel⟩
  have huser : (⟨1, 1, 1⟩ : User) ∈ R := hR.mem_of_stored lawfulCodec_user hst hstored rfl
  have hmulti : (ScanExecutor.index byRegion).IsMulti := id
  have hescapes : pastLast.Escapes (byRegion.key ⟨1, 1, 1⟩) := ⟨hlost, trivial⟩
  refine ⟨rs, hrun, (hmem _).mpr ⟨huser, Or.inr ⟨hmulti, hescapes⟩⟩, fun hselects => ?_⟩
  exact not_from_of_lostStart hK hlost _ hselects.1

/-- A scan from right to left yields what it does from left to right, the last entry
    first, and panics where it does. -/
theorem scan_reversed {Record PK PO PO' : Type} [Key PK PO] [Key PO PO'] [Debug PK] [Item Record PK] {own : PK → PO}
    (hk : KeysOk own) {indexes : List (Index Record PK)} (hnames : (storeNames indexes).Nodup)
    (hlaw : LawfulCodec Record) {db : Stores} (hreach : Reach indexes db) {e : ScanExecutor Record PK}
    (he : e.Registered indexes) (sel : Selection e.LogicalKey) :
    (runScan e (sel.chain e.boundsEncoder (some .rightToLeft) none) (World.start noFaults db)).1 =
      (runScan e (sel.chain e.boundsEncoder none none) (World.start noFaults db)).1.map List.reverse := by
  obtain ⟨M, hrep⟩ := rep_of_reach hk hnames hlaw hreach
  obtain ⟨st, main, hst, hmain⟩ := hrep.stores he
  have hleft := compile_chain_none e.boundsEncoder sel none
  have hright := compile_chain_none e.boundsEncoder sel (some .rightToLeft)
  by_cases hok : st.isEmpty ∨ RangeOk (sel.bounds e.boundsEncoder)
  · rw [runScan_rows hlaw hrep he hst hmain hright hok, runScan_rows hlaw hrep he hst hmain hleft hok]
    exact congrArg Outcome.ok List.filterMap_reverse
  · have hnone : ∀ d, st.scan (sel.bounds e.boundsEncoder) d = none := fun d => scan_eq_none.mpr (not_or.mp hok)
    rw [runScan_panics hst hright (hnone _), runScan_panics hst hleft (hnone _)]
    rfl

theorem scan_reversed_unnamed :
    (runScan (.index byName) (Selection.all.chain exactEncoder (some .rightToLeft) none)
        (World.start noFaults unnamedUser)).1 =
      (runScan (.index byName) (Selection.all.chain exactEncoder none none)
        (World.start noFaults unnamedUser)).1.map List.reverse :=
  scan_reversed (e := .index byName) (keysOk_unsigned 1) (by decide) lawfulCodec_user reach_unnamedUser
    (List.mem_singleton_self _) .all

end Collette
