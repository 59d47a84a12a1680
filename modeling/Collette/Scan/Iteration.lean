/-
  Collette.Scan.Iteration — what a scan of the in-memory backend returns.

  With no faults a scan is decided by its compiled bounds and the stores of its snapshot:
  `iter` fails as `compile` does, panics as `BTreeMap::range` does, and otherwise holds
  the entries in range in the order of its direction. `next` then takes one entry after
  the other.

  - `contains_past`, `rangeOk_past`: after a cursor inside the bounds, the bounds hold
    exactly the keys past the cursor that they held before, and are a range `BTreeMap`
    accepts.
  - `mem_rows`, `sorted_rows`: the entries are those in bounds, in strictly ascending or
    descending key order.
  - `iter_panics_iff`: over prepared stores, what makes `iter` panic.
-/

import Collette.Scan.Model
import Collette.Collection.Consistency

namespace Collette

open Prog Collette.Lex

/-! ## Ranges after a cursor -/

/-- `k` comes before `k'` in the direction. -/
def Direction.before : Direction → Bytes → Bytes → Prop
  | .leftToRight, k, k' => k < k'
  | .rightToLeft, k, k' => k' < k

instance (d : Direction) (k k' : Bytes) : Decidable (d.before k k') := by
  cases d <;> unfold Direction.before <;> infer_instance

instance (d : Direction) : IsStrictOrder Bytes d.before := by
  cases d with
  | leftToRight => exact inferInstanceAs (IsStrictOrder Bytes fun k k' => k < k')
  | rightToLeft => exact inferInstanceAs (IsStrictOrder Bytes fun k k' => k > k')

/-- `AfterScan::compile` on bounds that hold the cursor. -/
def CompiledScan.past (scan : CompiledScan) (cursor : Bytes) : CompiledScan :=
  match scan.direction with
  | .leftToRight => { scan with range := (.excluded cursor, scan.range.2) }
  | .rightToLeft => { scan with range := (scan.range.1, .excluded cursor) }

section Cursors

variable {K KO : Type} [Key K KO] {scan : Scan K} {c : CompiledScan}

theorem compile_after_none (scan : Scan K) : (Scan.after .none scan).compile = scan.compile := by
  simp only [Scan.compile, Cursor.intoKeyVec]
  cases scan.compile <;> rfl

theorem compile_after_outside (h : scan.compile = .ok c) {k : Bytes} (hk : ¬ contains c.range k) :
    (Scan.after (.key k) scan).compile = .error .cursorOutOfBounds := by
  simp only [Scan.compile, h, Cursor.intoKeyVec]
  show (if ¬ contains c.range k then _ else _) = _
  rw [if_pos hk]
  rfl

theorem compile_after_inside (h : scan.compile = .ok c) {k : Bytes} (hk : contains c.range k) :
    (Scan.after (.key k) scan).compile = .ok (c.past k) := by
  simp only [Scan.compile, h, Cursor.intoKeyVec]
  show (if ¬ contains c.range k then _ else _) = _
  rw [if_neg (not_not.mpr hk)]
  unfold CompiledScan.past
  cases c.direction <;> rfl

theorem past_direction (c : CompiledScan) (k : Bytes) : (c.past k).direction = c.direction := by
  obtain ⟨range, d⟩ := c
  cases d <;> rfl

/-- A cursor inside the bounds leaves a range that `BTreeMap` accepts, whatever the
    bounds were before. -/
theorem rangeOk_past {k : Bytes} (hk : contains c.range k) : RangeOk (c.past k).range := by
  obtain ⟨⟨lo, hi⟩, d⟩ := c
  obtain ⟨hlo, hhi⟩ := hk
  cases d with
  | leftToRight => exact rangeOk_excluded hhi
  | rightToLeft => exact rangeOk_excluded_end hlo

/-- Tightened, the bounds hold the keys past the cursor and no others. -/
theorem contains_past {k : Bytes} (hk : contains c.range k) (x : Bytes) :
    contains (c.past k).range x ↔ contains c.range x ∧ c.direction.before k x := by
  obtain ⟨⟨lo, hi⟩, d⟩ := c
  obtain ⟨hlo, hhi⟩ := hk
  cases d with
  | leftToRight =>
    constructor
    · intro h
      exact ⟨⟨Bound.from_mono hlo (le_of_lt h.1), h.2⟩, h.1⟩
    · intro h
      exact ⟨h.2, h.1.2⟩
  | rightToLeft =>
    constructor
    · intro h
      exact ⟨⟨h.1, Bound.upTo_mono hhi (le_of_lt h.2)⟩, h.2⟩
    · intro h
      exact ⟨h.1.1, h.2⟩

end Cursors

/-! ## `KVStore::scan` -/

section Store

variable {st : KVStore} {range : ScanRange} {d : Direction}

theorem scan_eq_none : st.scan range d = none ↔ ¬ st.isEmpty ∧ ¬ RangeOk range := by
  unfold KVStore.scan
  rw [← not_or]
  by_cases h : st.isEmpty ∨ RangeOk range
  · rw [if_pos h]
    cases d <;> exact iff_of_false (by simp) (not_not.mpr h)
  · rw [if_neg h]
    exact iff_of_true rfl h

/-- What a scan returns where it does not panic. -/
def KVStore.rows (st : KVStore) (c : CompiledScan) : List (Bytes × Bytes) :=
  let entries := st.toList.filter fun entry => contains c.range entry.1
  match c.direction with
  | .leftToRight => entries
  | .rightToLeft => entries.reverse

theorem scan_of_rangeOk {c : CompiledScan} (h : st.isEmpty ∨ RangeOk c.range) :
    st.scan c.range c.direction = some (st.rows c) := by
  unfold KVStore.scan KVStore.rows
  rw [if_pos h]
  cases c.direction <;> rfl

theorem rows_of_scan {c : CompiledScan} {entries : List (Bytes × Bytes)}
    (h : st.scan c.range c.direction = some entries) : st.rows c = entries := by
  have hrange : st.isEmpty ∨ RangeOk c.range := by
    by_contra hno
    rw [scan_eq_none.mpr (not_or.mp hno)] at h
    cases h
  exact Option.some.inj ((scan_of_rangeOk hrange).symm.trans h)

theorem mem_rows {c : CompiledScan} {k v : Bytes} : (k, v) ∈ st.rows c ↔ st[k]? = some v ∧ contains c.range k := by
  have hmem : (k, v) ∈ st.toList.filter (fun entry => contains c.range entry.1) ↔
      st[k]? = some v ∧ contains c.range k := by
    rw [List.mem_filter, Std.TreeMap.mem_toList_iff_getElem?_eq_some, decide_eq_true_eq]
  unfold KVStore.rows
  cases c.direction with
  | leftToRight => exact hmem
  | rightToLeft => exact List.mem_reverse.trans hmem

theorem sorted_rows (st : KVStore) (c : CompiledScan) :
    (st.rows c).Pairwise fun x y => c.direction.before x.1 y.1 := by
  have hsorted : (st.toList.filter fun entry => contains c.range entry.1).Pairwise fun x y => x.1 < y.1 := by
    refine List.Pairwise.filter _ ?_
    have h := Std.TreeMap.ordered_keys_toList (t := st)
    exact h.imp fun h => (compare_eq_lt _ _).mp h
  unfold KVStore.rows
  cases c.direction with
  | leftToRight => exact hsorted
  | rightToLeft => exact List.pairwise_reverse.mpr hsorted

/-- After a cursor inside the bounds a scan returns what it returned past the cursor. -/
theorem rows_past {c : CompiledScan} {k : Bytes} (hk : contains c.range k) :
    st.rows (c.past k) = (st.rows c).filter fun entry => c.direction.before k entry.1 := by
  have hfilter : (st.toList.filter fun entry => contains (c.past k).range entry.1) =
      (st.toList.filter fun entry => contains c.range entry.1).filter fun entry => c.direction.before k entry.1 := by
    rw [List.filter_filter]
    refine List.filter_congr fun entry _ => ?_
    simp only [contains_past hk, Bool.decide_and, Bool.and_comm]
  unfold KVStore.rows
  rw [past_direction, hfilter]
  cases c.direction with
  | leftToRight => rfl
  | rightToLeft => exact List.filter_reverse.symm

end Store

/-! ## Runs without faults -/

section Calls

variable {α : Type} {p : Prog World BackendError α} {a : α} {db : Stores}

theorem fault_yields : Yields (Idle noFaults db) fault (.ok ()) := by
  intro s hs
  unfold fault
  rw [hs.faults]
  exact ⟨rfl, hs⟩

theorem observe_yields {p : Prog World Error α} {o : Outcome Error α} (call : Call)
    (h : Yields (Idle noFaults db) p o) : Yields (Idle noFaults db) (observe call p) o :=
  fun s hs => ⟨(h s hs).1, (h s hs).2.1, (h s hs).2.2⟩

theorem backend_yields (call : Call) (h : Yields (Idle noFaults db) p (.ok a)) :
    Yields (Idle noFaults db) (backend call p) (.ok a) :=
  observe_yields call (fault_yields.bind h).mapErr

theorem backend_panics (call : Call) (h : Yields (Idle noFaults db) p .panic) :
    Yields (Idle noFaults db) (backend call p) .panic :=
  observe_yields call (fault_yields.bind h).mapErr_panic

theorem codec_yields (call : Call) {x : Except CodecError α} (h : x = .ok a) :
    Yields (Idle noFaults db) (codec call x) (.ok a) := by
  rw [h]
  exact observe_yields call (Yields.pure a).mapErr

theorem read_yields : Yields (Idle noFaults db) read (.ok db) := by
  refine backend_yields _ fun s hs => ?_
  exact ⟨by rw [← hs.committed], hs⟩

theorem openReadStore_yields {handle : Stores} {name : String} {st : KVStore} (h : handle name = some st) :
    Yields (Idle noFaults db) (openReadStore handle name) (.ok ⟨st⟩) := by
  refine backend_yields _ ?_
  rw [h]
  exact Yields.pure _

theorem readGet_yields (st : KVStore) (k : Bytes) : Yields (Idle noFaults db) (ReadStore.get ⟨st⟩ k) (.ok st[k]?) :=
  backend_yields _ (Yields.pure _)

theorem storeGet_yields {st : KVStore} {k v : Bytes} (h : st[k]? = some v) :
    Yields (Idle noFaults db) (ReadStore.get ⟨st⟩ k) (.ok (some v)) := h ▸ readGet_yields st k

theorem scan_yields {st : KVStore} {range : ScanRange} {d : Direction} {entries : List (Bytes × Bytes)}
    (h : st.scan range d = some entries) : Yields (Idle noFaults db) (ReadStore.scan ⟨st⟩ range d) (.ok entries) := by
  refine backend_yields _ ?_
  rw [h]
  exact Yields.pure _

theorem scan_panics {st : KVStore} {range : ScanRange} {d : Direction} (h : st.scan range d = none) :
    Yields (Idle noFaults db) (ReadStore.scan ⟨st⟩ range d) .panic := by
  refine backend_panics _ ?_
  rw [h]
  exact Yields.panic

end Calls

section Iter

variable {Record PK PO : Type} [Key PK PO]

/-- The executor's iterator over the entries. -/
def ScanExecutor.over (entries : List (Bytes × Bytes)) (main : KVStore) :
    ScanExecutor Record PK → ScanIterator Record
  | .collection => .collection entries
  | .index _ => .index entries ⟨main⟩

variable {e : ScanExecutor Record PK} {db handle : Stores} {st main : KVStore} {scan : Scan e.LogicalKey}
  {c : CompiledScan}

theorem iter_error {err : Error} (h : scan.compile = .error err) :
    Yields (Idle noFaults db) (e.iter handle scan) (.error err) := by
  unfold ScanExecutor.iter
  rw [h]
  exact (Yields.throw err).bind_error

theorem iter_panics (hst : handle e.store = some st) (h : scan.compile = .ok c)
    (hscan : st.scan c.range c.direction = none) : Yields (Idle noFaults db) (e.iter handle scan) .panic := by
  unfold ScanExecutor.iter
  rw [h]
  refine (Yields.pure c).bind ?_
  cases e with
  | collection => exact (openReadStore_yields hst).bind (scan_panics hscan).bind_panic
  | index I => exact (openReadStore_yields hst).bind (scan_panics hscan).bind_panic

theorem iter_ok (hst : handle e.store = some st) (hmain : handle MAIN_STORE = some main) (h : scan.compile = .ok c)
    {entries : List (Bytes × Bytes)} (hscan : st.scan c.range c.direction = some entries) :
    Yields (Idle noFaults db) (e.iter handle scan) (.ok (e.over entries main)) := by
  unfold ScanExecutor.iter
  rw [h]
  refine (Yields.pure c).bind ?_
  cases e with
  | collection => exact (openReadStore_yields hst).bind ((scan_yields hscan).bind (Yields.pure _))
  | index I =>
    refine (openReadStore_yields hst).bind ((scan_yields hscan).bind ?_)
    exact (openReadStore_yields hmain).bind (Yields.pure _)

/-- Whichever calls fail, an iterator that is returned is over the entries in bounds. -/
theorem iter_returns : Returns (e.iter handle scan) fun it => ∃ c st main, scan.compile = .ok c ∧
    handle e.store = some st ∧ handle MAIN_STORE = some main ∧ it = e.over (st.rows c) main := by
  unfold ScanExecutor.iter
  refine (Returns.ofExcept fun _ h => h).bind fun c hc => ?_
  cases e with
  | collection =>
    refine (openReadStore_returns handle MAIN_STORE).bind fun store hst => ?_
    refine (readScan_returns store _ _).bind fun entries hscan => Returns.pure ?_
    exact ⟨c, store.store, store.store, hc, hst, hst, by rw [rows_of_scan hscan]; rfl⟩
  | index I =>
    refine (openReadStore_returns handle I.NAME).bind fun store hst => ?_
    refine (readScan_returns store _ _).bind fun entries hscan => ?_
    refine (openReadStore_returns handle MAIN_STORE).bind fun primaryStore hmain => Returns.pure ?_
    exact ⟨c, store.store, primaryStore.store, hc, hst, hmain, by rw [rows_of_scan hscan]; rfl⟩

/-- With its stores prepared, a scan whose bounds compile panics exactly when
    `BTreeMap::range` does. -/
theorem iter_panics_iff (hst : handle e.store = some st) (hmain : handle MAIN_STORE = some main)
    (h : scan.compile = .ok c) {s : World} (hs : Idle noFaults db s) :
    (e.iter handle scan s).1 = .panic ↔ ¬ st.isEmpty ∧ ¬ RangeOk c.range := by
  rw [← scan_eq_none (d := c.direction)]
  cases hscan : st.scan c.range c.direction with
  | none => exact iff_of_true (iter_panics hst h hscan s hs).1 rfl
  | some entries =>
    rw [(iter_ok hst hmain h hscan s hs).1]
    exact iff_of_false (by simp) (by simp)

end Iter

end Collette
