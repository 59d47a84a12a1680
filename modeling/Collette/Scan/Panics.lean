/-
  Collette.Scan.Panics — which scans make `BTreeMap::range` panic.

  The exact encoder keeps the order of its bounds, so a range that `BTreeMap` accepts on
  logical keys is one on bytes. The encoder of a `Multi` index does not: it starts past
  `Excluded(a)` at the end of the group of `a`, as `Excluded` of a byte string that the
  end of the range may be too (`Meets`). An equal pair of `Excluded` bounds is what
  `BTreeMap::range` panics on, unless the map is empty.

  - `group_rangeOk_iff`, `prefix_prefixed_rangeOk_iff`: the byte bounds are accepted
    unless they meet.
  - `compile_chain_cursor`: a cursor of a chain replaces one of its bounds or is refused,
    so a scan with a cursor never panics.
  - `scan_panics_iff`: in any reachable state, the scans that panic are those of a
    `Multi` index that has entries, with no cursor and with bounds that meet.
-/

import Collette.Scan.Iteration
import Collette.Collection.Prepared

namespace Collette

open Prog Collette.Lex

/-! ## Byte bounds that meet -/

section Groups

variable {κ : Type} {enc : κ → Bytes}

/-- The start of a range over groups of keys. -/
def groupStart (enc : κ → Bytes) : Bound κ → Bound Bytes
  | .included a => .included (enc a)
  | .excluded a => prefixEnd (enc a)
  | .unbounded => .unbounded

def groupEnd (enc : κ → Bytes) : Bound κ → Bound Bytes
  | .included b => prefixEnd (enc b)
  | .excluded b => .excluded (enc b)
  | .unbounded => .unbounded

/-- The range starts and ends at the end of the group of its start key, excluded. -/
def Meets (enc : κ → Bytes) : Bound κ × Bound κ → Prop
  | (.excluded a, .included b) => a = b ∧ ¬ AllFF (enc a)
  | (.excluded a, .excluded b) => ByteSucc (enc a) (enc b)
  | _ => False

variable [LinearOrder κ]

theorem group_excluded_included (h : Good enc) {a b : κ} (hab : a ≤ b) :
    RangeOk (prefixEnd (enc a), prefixEnd (enc b)) ↔ ¬ (a = b ∧ ¬ AllFF (enc a)) := by
  rcases prefixEnd_cases (enc a) with ⟨hff, ha⟩ | ⟨e, he, ha⟩
  · rw [ha]
    exact iff_of_true trivial fun hm => hm.2 hff
  · by_cases hne : a = b
    · rw [← hne, ha]
      exact iff_of_false (lt_irrefl e) fun hm => hm ⟨rfl, not_allFF_of_byteSucc he⟩
    · refine iff_of_true ?_ fun hm => hne hm.1
      have hle : e ≤ enc b := (byteSucc_le_iff h he b).mpr (lt_of_le_of_ne hab hne)
      rcases prefixEnd_cases (enc b) with ⟨-, hb⟩ | ⟨e', he', hb⟩
      · rw [ha, hb]; trivial
      · rw [ha, hb]
        exact lt_of_le_of_lt hle (he'.lt (List.prefix_refl _))

theorem group_excluded_excluded (h : Good enc) {a b : κ} (hab : a < b) :
    RangeOk (prefixEnd (enc a), .excluded (enc b)) ↔ ¬ ByteSucc (enc a) (enc b) := by
  rcases prefixEnd_cases (enc a) with ⟨hff, ha⟩ | ⟨e, he, ha⟩
  · rw [ha]
    exact iff_of_true trivial fun hm => not_allFF_of_byteSucc hm hff
  · rw [ha, ← prefixEnd_eq_excluded, ha]
    have hle : e ≤ enc b := (byteSucc_le_iff h he b).mpr hab
    show e < enc b ↔ _
    rw [lt_iff_le_and_ne]
    simp [hle]

theorem group_rangeOk_iff (h : Good enc) {range : Bound κ × Bound κ} (hok : RangeOk range) :
    RangeOk (groupStart enc range.1, groupEnd enc range.2) ↔ ¬ Meets enc range := by
  obtain ⟨lo, hi⟩ := range
  cases lo with
  | unbounded => exact iff_of_true trivial fun hm => hm
  | included a =>
    refine iff_of_true ?_ fun hm => hm
    cases hi with
    | unbounded => trivial
    | included b =>
      have hle : enc a ≤ enc b := (h.le_iff a b).mpr hok
      exact rangeOk_included (Bound.upTo_mono (prefixEnd_upTo (List.prefix_refl _)) hle)
    | excluded b => exact (h.le_iff a b).mpr hok
  | excluded a =>
    cases hi with
    | unbounded => exact iff_of_true (rangeOk_unbounded_end _) fun hm => hm
    | included b => exact group_excluded_included h hok
    | excluded b => exact group_excluded_excluded h hok

theorem rangeOk_map (h : Good enc) {range : Bound κ × Bound κ} (hok : RangeOk range) :
    RangeOk (range.1.map enc, range.2.map enc) := by
  obtain ⟨lo, hi⟩ := range
  cases lo with
  | unbounded => trivial
  | included a =>
    cases hi with
    | unbounded => trivial
    | included b => exact (h.le_iff a b).mpr hok
    | excluded b => exact (h.le_iff a b).mpr hok
  | excluded a =>
    cases hi with
    | unbounded => trivial
    | included b => exact (h.le_iff a b).mpr hok
    | excluded b => exact (h.lt_iff a b).mpr hok

end Groups

/-! ## The encoders -/

section Encoders

variable {K P S KO PO SO : Type} [Key K KO] [Key P PO] [Key S SO] [Prefixable K P S]

theorem prefix_encodeRange (range : Bound K × Bound K) :
    prefixEncoder.encodeRange range = (groupStart encode range.1, groupEnd encode range.2) := by
  obtain ⟨lo, hi⟩ := range
  cases lo <;> cases hi <;> rfl

/-- The keys of a prefix, by their suffix. -/
def withPrefix (p : P) (s : S) : Bytes := encode p ++ encode s

theorem good_withPrefix [LinearOrder S] (hS : Good (encode : S → Bytes)) (p : P) : Good (withPrefix p : S → Bytes) := by
  refine good_of_lt fun s s' hlt r t => ?_
  unfold withPrefix
  rw [List.append_assoc, List.append_assoc, append_lt_append_left]
  exact hS.lt hlt r t

/-- The bounds under a prefix meet: as those of the whole keys do, or at the end of the
    prefix where the range has no other. -/
def MeetsUnder (p : P) : Bound S × Bound S → Prop
  | (.excluded s, .unbounded) => AllFF (encode s) ∧ ¬ AllFF (encode p)
  | range => Meets (withPrefix p) range

omit [Key S SO] [Prefixable K P S] in
theorem rangeOk_prefixStart (p : P) {hi : Bound Bytes} {x : Bytes} (hp : encode p <+: x) (h : hi.upTo x) :
    RangeOk (.included (encode p), hi) := rangeOk_included (Bound.upTo_mono h (le_of_isPrefix hp))

omit [Key S SO] [Prefixable K P S] in
theorem rangeOk_encodePrefix (p : P) : RangeOk (encodePrefix p) :=
  rangeOk_prefixStart p (List.prefix_refl _) (prefixEnd_upTo (List.prefix_refl _))

theorem prefixed_eq_group (p : P) {range : Bound S × Bound S} (hlo : range.1 ≠ .unbounded)
    (hhi : range.2 ≠ .unbounded) : (prefixEncoder : BoundsEncoder K).encodePrefixedRange p range =
      (groupStart (withPrefix p) range.1, groupEnd (withPrefix p) range.2) := by
  rw [Prod.ext_iff, prefixed_start_bounded _ p hlo, prefixed_end_bounded _ p hhi]
  obtain ⟨lo, hi⟩ := range
  have he : ∀ s, encode (Prefixable.compose p s : K) = withPrefix p s := Prefixable.encode_compose p
  constructor
  · cases lo <;> simp [prefixEncoder, groupStart, Bound.map, he]
  · cases hi <;> simp [prefixEncoder, groupEnd, Bound.map, he]

/-- Past the last suffix of a prefix, up to the end of the prefix. -/
theorem prefix_excluded_unbounded (p : P) (s : S) :
    RangeOk (prefixEnd (withPrefix p s), prefixEnd (encode p)) ↔ ¬ (AllFF (encode s) ∧ ¬ AllFF (encode p)) := by
  rcases prefixEnd_cases (encode p) with ⟨hff, hp⟩ | ⟨e, he, hp⟩
  · rw [hp]
    exact iff_of_true (rangeOk_unbounded_end _) fun hm => hm.2 hff
  · rcases prefixEnd_cases (encode s) with ⟨hff, -⟩ | ⟨e', he', hs⟩
    · have hps : prefixEnd (withPrefix p s) = .excluded e := prefixEnd_eq_excluded.mpr (he.append_allFF hff)
      rw [hps, hp]
      exact iff_of_false (lt_irrefl e) fun hm => hm ⟨hff, not_allFF_of_byteSucc he⟩
    · have hps : prefixEnd (withPrefix p s) = .excluded (encode p ++ e') :=
        prefixEnd_eq_excluded.mpr (he'.append_left _)
      rw [hps, hp]
      exact iff_of_true (he.lt (List.prefix_append _ _)) fun hm => not_allFF_of_byteSucc he' hm.1

theorem prefix_compose (p : P) (s : S) :
    encode p <+: encode (Prefixable.compose p s : K) := by
  rw [Prefixable.encode_compose]
  exact List.prefix_append _ _

variable [LinearOrder S]

theorem prefix_prefixed_rangeOk_iff (hS : Good (encode : S → Bytes)) (p : P) {range : Bound S × Bound S}
    (hok : RangeOk range) :
    RangeOk ((prefixEncoder : BoundsEncoder K).encodePrefixedRange p range) ↔ ¬ MeetsUnder p range := by
  by_cases hhi : range.2 = .unbounded
  · obtain ⟨lo, hi⟩ := range
    obtain rfl : hi = .unbounded := hhi
    cases lo with
    | unbounded => exact iff_of_true (rangeOk_encodePrefix p) id
    | included s => exact iff_of_true (rangeOk_included (prefixEnd_upTo (prefix_compose p s))) id
    | excluded s =>
      have h := prefix_excluded_unbounded p s
      unfold withPrefix at h
      rw [← Prefixable.encode_compose (K := K)] at h
      exact h
  · by_cases hlo : range.1 = .unbounded
    · obtain ⟨lo, hi⟩ := range
      obtain rfl : lo = .unbounded := hlo
      cases hi with
      | unbounded => exact absurd rfl hhi
      | included b =>
        have hup := prefixEnd_upTo (List.prefix_refl (encode (Prefixable.compose p b : K)))
        exact iff_of_true (rangeOk_prefixStart p (prefix_compose p b) hup) id
      | excluded b => exact iff_of_true (le_of_isPrefix (prefix_compose p b)) id
    · rw [prefixed_eq_group p hlo hhi, group_rangeOk_iff (good_withPrefix hS p) hok]
      obtain ⟨lo, hi⟩ := range
      cases hi with
      | unbounded => exact absurd rfl hhi
      | included b => cases lo <;> exact Iff.rfl
      | excluded b => cases lo <;> exact Iff.rfl

theorem exact_prefixed_rangeOk (hS : Good (encode : S → Bytes)) (p : P) {range : Bound S × Bound S}
    (hok : RangeOk range) : RangeOk ((exactEncoder : BoundsEncoder K).encodePrefixedRange p range) := by
  obtain ⟨lo, hi⟩ := range
  have he : ∀ s, encode (Prefixable.compose p s : K) = withPrefix p s := Prefixable.encode_compose p
  cases lo with
  | unbounded =>
    cases hi with
    | unbounded => exact rangeOk_encodePrefix p
    | included b => exact le_of_isPrefix (prefix_compose p b)
    | excluded b => exact le_of_isPrefix (prefix_compose p b)
  | included a =>
    cases hi with
    | unbounded => exact rangeOk_included (prefixEnd_upTo (prefix_compose p a))
    | _ =>
      simp only [BoundsEncoder.encodePrefixedRange, exactEncoder, Bound.map, he]
      exact rangeOk_map (good_withPrefix hS p) hok
  | excluded a =>
    cases hi with
    | unbounded => exact rangeOk_excluded (prefixEnd_upTo (prefix_compose p a))
    | _ =>
      simp only [BoundsEncoder.encodePrefixedRange, exactEncoder, Bound.map, he]
      exact rangeOk_map (good_withPrefix hS p) hok

end Encoders

/-! ## Selections -/

section Selections

variable {K KO : Type} [Key K KO]

/-- The bounds a selection is encoded to. -/
def Selection.bounds (E : BoundsEncoder K) : Selection K → ScanRange
  | .all => (.unbounded, .unbounded)
  | .range bounds => E.encodeRange bounds
  | @Selection.prefixed _ _ _ _ _ _ _ _ _ _ p => encodePrefix p
  | @Selection.prefixedRange _ _ _ _ _ _ _ _ _ _ _ p bounds => E.encodePrefixedRange p bounds

/-- The range is one that ordered maps accept, over keys with good encodings. -/
def Selection.WellOrdered [LinearOrder K] : Selection K → Prop
  | .range bounds => Good (encode : K → Bytes) ∧ RangeOk bounds
  | @Selection.prefixedRange _ _ _ _ S _ _ _ _ _ _ _ bounds => Good (encode : S → Bytes) ∧ RangeOk bounds
  | _ => True

/-- Encoded for a `Multi` index, the bounds are `Excluded` at one key. -/
def Selection.Meets : Selection K → Prop
  | .range bounds => Collette.Meets encode bounds
  | @Selection.prefixedRange _ _ _ _ _ _ _ _ _ _ _ p bounds => MeetsUnder p bounds
  | _ => False

theorem exact_rangeOk [LinearOrder K] {sel : Selection K} (hok : sel.WellOrdered) :
    RangeOk (sel.bounds exactEncoder) := by
  cases sel with
  | all => trivial
  | range bounds => exact rangeOk_map hok.1 hok.2
  | prefixed p => exact rangeOk_encodePrefix p
  | prefixedRange p bounds => exact exact_prefixed_rangeOk hok.1 p hok.2

theorem prefix_rangeOk_iff [LinearOrder K] {sel : Selection K} (hok : sel.WellOrdered) :
    RangeOk (sel.bounds prefixEncoder) ↔ ¬ sel.Meets := by
  cases sel with
  | all => exact iff_of_true trivial id
  | range bounds =>
    show RangeOk (prefixEncoder.encodeRange bounds) ↔ _
    rw [prefix_encodeRange]
    exact group_rangeOk_iff hok.1 hok.2
  | prefixed p => exact iff_of_true (rangeOk_encodePrefix p) id
  | prefixedRange p bounds => exact prefix_prefixed_rangeOk_iff hok.1 p hok.2

/-- The key a chain resumes after; `Cursor::None` is as good as no cursor. -/
def resumeKey (cursor : Option Cursor) : Option Bytes := cursor.bind Cursor.intoKeyVec

variable (E : BoundsEncoder K) (sel : Selection K) (direction : Option Direction)

theorem compile_chain_none :
    (sel.chain E direction none).compile = .ok ⟨sel.bounds E, direction.getD .leftToRight⟩ := by
  have hscan : (sel.scan E).compile = .ok ⟨sel.bounds E, .leftToRight⟩ := by
    cases sel <;> rfl
  cases direction with
  | none => exact hscan
  | some d =>
    show (Scan.directed d (sel.scan E)).compile = _
    rw [Scan.compile, hscan]
    rfl

theorem compile_chain {cursor : Option Cursor} (h : resumeKey cursor = none) :
    (sel.chain E direction cursor).compile = .ok ⟨sel.bounds E, direction.getD .leftToRight⟩ := by
  rw [← compile_chain_none]
  cases cursor with
  | none => rfl
  | some cursor =>
    cases cursor with
    | none => exact compile_after_none _
    | key k => cases h

/-- With a cursor the chain is refused, or its bounds are fine. -/
theorem compile_chain_cursor {cursor : Option Cursor} {k : Bytes} (h : resumeKey cursor = some k) :
    (sel.chain E direction cursor).compile = .error .cursorOutOfBounds ∨
      ∃ c, (sel.chain E direction cursor).compile = .ok c ∧ RangeOk c.range := by
  obtain ⟨cursor, rfl, hk⟩ := Option.bind_eq_some_iff.mp h
  cases cursor with
  | none => cases hk
  | key k' =>
    have hchain := compile_chain_none E sel direction
    by_cases hin : contains (sel.bounds E) k'
    · exact Or.inr ⟨_, compile_after_inside hchain hin, rangeOk_past hin⟩
    · exact Or.inl (compile_after_outside hchain hin)

end Selections

/-! ## Which scans panic -/

section Panics

variable {Record PK PO PO' : Type} [Key PK PO] [Key PO PO'] [Debug PK] [Item Record PK]

def ScanExecutor.IsMulti : ScanExecutor Record PK → Prop
  | .collection => False
  | .index I => ¬ I.IsUnique

/-- The scan hands `BTreeMap::range` an equal pair of `Excluded` bounds: a `Multi` index,
    no cursor, bounds that meet. -/
def Collides (e : ScanExecutor Record PK) (sel : Selection e.LogicalKey) (cursor : Option Cursor) : Prop :=
  e.IsMulti ∧ resumeKey cursor = none ∧ sel.Meets

omit [Debug PK] [Item Record PK] in
theorem selection_rangeOk_iff (e : ScanExecutor Record PK) [LinearOrder e.LogicalKey] {sel : Selection e.LogicalKey}
    (hok : sel.WellOrdered) : RangeOk (sel.bounds e.boundsEncoder) ↔ ¬ (e.IsMulti ∧ sel.Meets) := by
  cases e with
  | collection => exact iff_of_true (exact_rangeOk hok) fun h => h.1
  | index I =>
    obtain ⟨name, K, KO, kind, key⟩ := I
    cases kind with
    | unique eq debug => exact iff_of_true (exact_rangeOk hok) fun h => h.1 trivial
    | multi key append eq debug =>
      refine (prefix_rangeOk_iff hok).trans (not_congr ?_)
      simp [ScanExecutor.IsMulti, Index.IsUnique]

variable {indexes : List (Index Record PK)} {db : Stores} {e : ScanExecutor Record PK} [LinearOrder e.LogicalKey]
  {sel : Selection e.LogicalKey}

omit [Debug PK] [Item Record PK] in
/-- The bounds handed to the store are fine unless they collide. -/
theorem bounds_ok_iff (hok : sel.WellOrdered) (direction : Option Direction) (cursor : Option Cursor) :
    (∀ c, (sel.chain e.boundsEncoder direction cursor).compile = .ok c → RangeOk c.range) ↔
      ¬ Collides e sel cursor := by
  have hiff := selection_rangeOk_iff e hok
  cases hcur : resumeKey cursor with
  | none =>
    rw [compile_chain _ sel direction hcur]
    constructor
    · intro h hm
      exact hiff.mp (h _ rfl) ⟨hm.1, hm.2.2⟩
    · intro h c hc
      cases hc
      exact hiff.mpr fun hm => h ⟨hm.1, hcur, hm.2⟩
  | some k =>
    refine iff_of_true (fun c hc => ?_) fun hm => ?_
    · rcases compile_chain_cursor e.boundsEncoder sel direction hcur with herr | ⟨c', hc', hr⟩
      · rw [herr] at hc; cases hc
      · rw [hc'] at hc; cases hc; exact hr
    · have hnone := hm.2.1
      rw [hcur] at hnone
      cases hnone

/-- The store of the scan is not empty. -/
def HasEntries (db : Stores) (name : String) : Prop := ∃ st, db name = some st ∧ ¬ st.isEmpty

omit [Debug PK] [Item Record PK] in
theorem iter_safe_iff (hprep : Prepared (storeNames indexes) db) (he : e.Registered indexes) (hok : sel.WellOrdered)
    (direction : Option Direction) (cursor : Option Cursor) :
    (e.iter db (sel.chain e.boundsEncoder direction cursor) (World.start noFaults db)).1 ≠ .panic ↔
      ¬ (HasEntries db e.store ∧ Collides e sel cursor) := by
  have hidle : Idle noFaults db (World.start noFaults db) := ⟨rfl, rfl⟩
  obtain ⟨main, hmain⟩ := hprep MAIN_STORE (by simp [storeNames])
  obtain ⟨st, hst⟩ : ∃ st, db e.store = some st := by
    cases e with
    | collection => exact ⟨main, hmain⟩
    | index I => exact hprep I.NAME (name_mem_storeNames he)
  have hentries : HasEntries db e.store ↔ ¬ st.isEmpty := by
    constructor
    · intro h
      obtain ⟨st', hst', hne⟩ := h
      rw [hst] at hst'
      exact Option.some.inj hst' ▸ hne
    · exact fun h => ⟨st, hst, h⟩
  have hbounds := bounds_ok_iff hok direction cursor
  cases hc : (sel.chain e.boundsEncoder direction cursor).compile with
  | error err =>
    rw [(iter_error hc _ hidle).1]
    refine iff_of_true (by simp) fun hm => hbounds.mp (fun c hc' => ?_) hm.2
    rw [hc] at hc'; cases hc'
  | ok c =>
    have hrange : RangeOk c.range ↔ ¬ Collides e sel cursor := by
      rw [← hbounds, hc]
      exact ⟨fun h c' hc' => Except.ok.inj hc' ▸ h, fun h => h c rfl⟩
    rw [ne_eq, iter_panics_iff hst hmain hc hidle, hentries, hrange, not_not]

end Panics

/-- In any reachable state a scan over a range that ordered maps accept panics exactly
    when its store has entries and its bounds collide; whenever they do not, they are
    bounds that `BTreeMap::range` accepts. -/
theorem scan_panics_iff {Record PK PO PO' : Type} [Key PK PO] [Key PO PO'] [Debug PK] [Item Record PK]
    {indexes : List (Index Record PK)} {db : Stores} (hreach : Reach indexes db) {e : ScanExecutor Record PK}
    (he : e.Registered indexes) [LinearOrder e.LogicalKey] {sel : Selection e.LogicalKey} (hok : sel.WellOrdered)
    (direction : Option Direction) (cursor : Option Cursor) :
    ((e.iter db (sel.chain e.boundsEncoder direction cursor) (World.start noFaults db)).1 ≠ .panic ↔
        ¬ (HasEntries db e.store ∧ Collides e sel cursor)) ∧
      ((∀ c, (sel.chain e.boundsEncoder direction cursor).compile = .ok c → RangeOk c.range) ↔
        ¬ Collides e sel cursor) :=
  ⟨iter_safe_iff (reach_prepared hreach) he hok direction cursor, bounds_ok_iff hok direction cursor⟩

instance : LinearOrder (ScanExecutor.index byRegion).LogicalKey := inferInstanceAs (LinearOrder (Tup1 (Unsigned 1)))

/-- Past region 1 and up to it: a range of no key. -/
def noRegion : Selection (ScanExecutor.index byRegion).LogicalKey :=
  .range (.excluded (⟨⟨1⟩⟩ : Tup1 (Unsigned 1)), .included (⟨⟨1⟩⟩ : Tup1 (Unsigned 1)))

theorem noRegion_wellOrdered : noRegion.WellOrdered := ⟨good_tup1 (good_unsigned 1), le_refl _⟩

theorem noRegion_collides : Collides (.index byRegion) noRegion none := ⟨id, rfl, rfl, by decide⟩

theorem registered_byRegion : (ScanExecutor.index byRegion).Registered [byEmail, byRegion] :=
  List.mem_cons_of_mem _ (List.mem_singleton_self _)

theorem hasEntries_oneUser : HasEntries oneUser "by_region" := by
  refine ⟨_, rfl, ?_⟩
  decide

theorem scan_panics_no_region :
    Reach [byEmail, byRegion] oneUser ∧ noRegion.WellOrdered ∧
      ((ScanExecutor.index byRegion).iter oneUser (noRegion.chain (ScanExecutor.index byRegion).boundsEncoder none none)
        (World.start noFaults oneUser)).1 = .panic := by
  refine ⟨reach_oneUser, noRegion_wellOrdered, ?_⟩
  by_contra h
  have hsafe := iter_safe_iff (reach_prepared reach_oneUser) registered_byRegion noRegion_wellOrdered none none
  exact hsafe.mp h ⟨hasEntries_oneUser, noRegion_collides⟩

/-- With a cursor the same scan does not panic. -/
theorem scan_panics_iff_users :
    ((ScanExecutor.index byRegion).iter oneUser
          (noRegion.chain (ScanExecutor.index byRegion).boundsEncoder none (some (.key [1, 1])))
          (World.start noFaults oneUser)).1 ≠ .panic :=
  (scan_panics_iff reach_oneUser registered_byRegion noRegion_wellOrdered none (some (.key [1, 1]))).1.mpr
    fun h => by cases h.2.2.1

end Collette
