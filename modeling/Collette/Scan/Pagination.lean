/-
  Collette.Scan.Pagination — reading a scan in pages while the collection changes.

  A client pages through a fixed chain: for each page it starts a fresh scan `after` the
  cursor of the last entry it was given, and takes a number of entries. Between pages
  any operations commit. A page is short when the iterator ended before the number was
  reached.

  The client follows a reader of sorted rows (`Tracks`): the rows of each snapshot are
  the entries of the scan's store in bounds, sorted in the scan's direction, and a page
  is the first few of them past the last one returned. The cursor of an entry returned
  is in bounds, so it is accepted whatever has been deleted since.

  - `step_page`: a page never fails, and is the reader's page.
  - `pagination_exact`: over a whole run, no page fails, no key is returned twice, no key
    that stayed is missed, and without commits the pages are the scan.
-/

import Collette.Scan.Results
import Collette.Table.Paging

namespace Collette

open Prog Collette.Lex Collette.Table

/-! ## The client -/

section Client

variable {Record PK PO PO' : Type} [Key PK PO] [Key PO PO'] [Debug PK] [Item Record PK]

/-- `.take(n)`, and whether the iterator ended before. -/
def ScanIterator.take : Nat → ScanIterator Record → Prog World Error (List (Entry Record) × Bool)
  | 0, _ => pure ([], false)
  | n + 1, it =>
    match it.next with
    | none => pure ([], true)
    | some (result, it) => do
      let entry ← result
      let (entries, ended) ← it.take n
      pure (entry :: entries, ended)

/-- The first `n` entries of a fresh scan. -/
def readPage (e : ScanExecutor Record PK) (scan : Scan e.LogicalKey) (n : Nat) :
    Prog World Error (List (Entry Record) × Bool) := do
  let handle ← read
  let it ← e.iter handle scan
  it.take n

structure Client (Record : Type) where
  /-- The stores committed by now. -/
  db : Stores
  /-- The entries of all pages. -/
  entries : List (Entry Record)
  /-- The stores each page was read from. -/
  snapshots : List Stores
  /-- A page was short. -/
  exhausted : Bool

def Client.start (db : Stores) : Client Record := ⟨db, [], [], false⟩

def Client.cursor (s : Client Record) : Cursor := (s.entries.map (·.key)).getLast?.getD .none

inductive ClientStep (Record PO : Type) where
  | page (n : Nat)
  | commit (F : List Event → Option BackendError) (op : Op Record PO)

def Client.step (indexes : List (Index Record PK)) (e : ScanExecutor Record PK) (scan : Scan e.LogicalKey)
    (s : Client Record) : ClientStep Record PO → Outcome Error (Client Record)
  | .page n =>
    match (readPage e (.after s.cursor scan) n (World.start noFaults s.db)).1 with
    | .ok (entries, ended) => .ok ⟨s.db, s.entries ++ entries, s.snapshots ++ [s.db], s.exhausted || ended⟩
    | .error err => .error err
    | .panic => .panic
  | .commit F op => .ok { s with db := (op.exec indexes F s.db).2 }

def Client.run (indexes : List (Index Record PK)) (e : ScanExecutor Record PK) (scan : Scan e.LogicalKey) :
    List (ClientStep Record PO) → Client Record → Outcome Error (Client Record)
  | [], s => .ok s
  | step :: steps, s =>
    match s.step indexes e scan step with
    | .ok s => run indexes e scan steps s
    | .error err => .error err
    | .panic => .panic

end Client

/-! ## One page -/

section Page

variable {Record PK PO PO' : Type} [Key PK PO] [Key PO PO'] [Item Record PK]

variable {own : PK → PO} {indexes : List (Index Record PK)} {M : PO → Option Record} {db : Stores}
  {e : ScanExecutor Record PK} {st main : KVStore} {c : CompiledScan}

theorem take_yields (n : Nat) {kvs : List (Bytes × Bytes)} (h : ∀ kv ∈ kvs, ∃ entry, e.entryOf main kv = some entry) :
    Yields (Idle noFaults db) ((e.over kvs main).take n)
      (.ok ((kvs.take n).filterMap (e.entryOf main), decide (kvs.length < n))) := by
  induction n generalizing kvs with
  | zero => exact Yields.pure _
  | succ n ih =>
    unfold ScanIterator.take
    cases kvs with
    | nil =>
      rw [over_nil_next]
      exact Yields.pure _
    | cons kv kvs =>
      obtain ⟨entry, hentry⟩ := h kv (by simp)
      obtain ⟨p, hnext, hp⟩ := next_yields hentry kvs
      rw [hnext, List.take_succ_cons, List.filterMap_cons_some hentry, List.length_cons]
      simp only [Nat.add_lt_add_iff_right]
      exact (hp db).bind ((ih fun kv hmem => h kv (by simp [hmem])).bind (Yields.pure _))

theorem readPage_ok (hrep : Rep own indexes M db) (hlaw : LawfulCodec Record) (he : e.Registered indexes)
    (hst : db e.store = some st) (hmain : db MAIN_STORE = some main) {scan : Scan e.LogicalKey}
    (hc : scan.compile = .ok c) (hok : RangeOk c.range) (n : Nat) :
    (readPage e scan n (World.start noFaults db)).1 =
      .ok (((st.rows c).take n).filterMap (e.entryOf main), decide ((st.rows c).length < n)) := by
  have hload : ∀ kv ∈ st.rows c, ∃ entry, e.entryOf main kv = some entry := fun kv hkv =>
    entryOf_stored hrep he hst hlaw hmain (mem_rows.mp hkv).1
  exact (read_yields.bind ((iter_ok hst hmain hc (scan_of_rangeOk (Or.inr hok))).bind (take_yields n hload))
    (World.start noFaults db) ⟨rfl, rfl⟩).1

end Page

/-! ## The client as a reader of rows -/

open Paging

section Tracks

variable {Record PK PO : Type} [Key PK PO]

/-- The store has an entry under the key. -/
def HasKey (db : Stores) (name : String) (k : Bytes) : Prop := ∃ st v, db name = some st ∧ st[k]? = some v

/-- The client has the entries of the rows that the reader has, and the reader has seen
    the rows of the snapshots. -/
structure Tracks (e : ScanExecutor Record PK) (c : CompiledScan) (s : Client Record) (rd : Reader (Bytes × Bytes)) :
    Prop where
  keys : s.entries.map (·.key) = rd.out.map fun kv => .key kv.1
  exhausted : s.exhausted = rd.done
  inRange : ∀ kv ∈ rd.out, contains c.range kv.1
  seen : ∀ rows ∈ rd.seen, ∃ db ∈ s.snapshots, ∀ k, contains c.range k → HasKey db e.store k → k ∈ rows.map Prod.fst

variable {e : ScanExecutor Record PK} {scan : Scan e.LogicalKey} {c : CompiledScan} {s : Client Record}
  {rd : Reader (Bytes × Bytes)}

theorem tracks_start (db : Stores) : Tracks e c (Client.start db) start := ⟨rfl, rfl, by simp [start], by simp [start]⟩

theorem Tracks.cursor (h : Tracks e c s rd) : s.cursor = ((rd.last Prod.fst).map Cursor.key).getD .none := by
  unfold Client.cursor Reader.last
  rw [h.keys, List.getLast?_map, Option.map_map]
  rfl

/-- Resumed after a key in bounds, the scan compiles, and returns its rows past the key. -/
theorem compile_resume (hc : scan.compile = .ok c) (hok : RangeOk c.range) {last : Option Bytes}
    (hlast : ∀ k, last = some k → contains c.range k) :
    ∃ c', (Scan.after ((last.map Cursor.key).getD .none) scan).compile = .ok c' ∧ RangeOk c'.range ∧
      ∀ st : KVStore, st.rows c' = past c.direction.before Prod.fst last (st.rows c) := by
  cases last with
  | none => exact ⟨c, (compile_after_none scan).trans hc, hok, fun _ => rfl⟩
  | some k =>
    have hk := hlast k rfl
    exact ⟨c.past k, compile_after_inside hc hk, rangeOk_past hk, fun st => rows_past hk⟩

theorem Tracks.last_inRange (h : Tracks e c s rd) (k : Bytes) (hk : rd.last Prod.fst = some k) :
    contains c.range k := by
  obtain ⟨kv, hkv, rfl⟩ := Option.map_eq_some_iff.mp hk
  exact h.inRange kv (List.mem_of_getLast? hkv)

/-- The keys a client has, in the reader's terms. -/
theorem Tracks.paged (htr : Tracks e c s rd) (hinv : Inv c.direction.before Prod.fst rd) :
    ∃ keys : List Bytes, s.entries.map (·.key) = keys.map Cursor.key ∧ keys.Pairwise c.direction.before ∧
      (s.exhausted = true → ∀ k, contains c.range k → (∀ db ∈ s.snapshots, HasKey db e.store k) →
        keys.count k = 1) := by
  have hsorted : (rd.out.map Prod.fst).Pairwise c.direction.before := List.pairwise_map.mpr hinv.sorted
  refine ⟨rd.out.map Prod.fst, ?_, hsorted, fun hdone k hin hkey => ?_⟩
  · rw [htr.keys, List.map_map]
    rfl
  · have hnodup : (rd.out.map Prod.fst).Nodup := by
      refine List.Pairwise.imp (fun {k k'} hlt heq => ?_) hsorted
      rw [heq] at hlt
      exact irrefl _ hlt
    refine List.count_eq_one_of_mem hnodup ?_
    have hseen : ∀ rows ∈ rd.seen, k ∈ rows.map Prod.fst := by
      intro rows hrows
      obtain ⟨db, hdb, hmem⟩ := htr.seen rows hrows
      exact hmem k hin (hkey db hdb)
    rcases hinv.covers k hseen with hout | ⟨hfalse, -⟩
    · exact hout
    · rw [htr.exhausted, hfalse] at hdone
      cases hdone

variable {PO' : Type} [Key PO PO'] [Debug PK] [Item Record PK] {own : PK → PO} {indexes : List (Index Record PK)}
  {M : PO → Option Record} {st main : KVStore}

/-- A page returns the next rows of the snapshot, whatever they are by now. -/
theorem step_page (hrep : Rep own indexes M s.db) (hlaw : LawfulCodec Record) (he : e.Registered indexes)
    (hst : s.db e.store = some st) (hmain : s.db MAIN_STORE = some main) (hc : scan.compile = .ok c)
    (hok : RangeOk c.range) (h : Tracks e c s rd) (n : Nat) :
    ∃ s', s.step indexes e scan (.page n) = .ok s' ∧ s'.db = s.db ∧
      Tracks e c s' (rd.page c.direction.before Prod.fst (st.rows c) n) ∧
      s'.entries = s.entries ++
        ((past c.direction.before Prod.fst (rd.last Prod.fst) (st.rows c)).take n).filterMap (e.entryOf main) := by
  obtain ⟨c', hc', hok', hrows⟩ := compile_resume hc hok h.last_inRange
  rw [← h.cursor] at hc'
  have hpage := readPage_ok hrep hlaw he hst hmain hc' hok' n
  rw [hrows] at hpage
  have hmem : ∀ kv ∈ past c.direction.before Prod.fst (rd.last Prod.fst) (st.rows c), kv ∈ st.rows c := by
    intro kv hkv
    cases hlast : rd.last Prod.fst with
    | none => rw [hlast] at hkv; exact hkv
    | some k => rw [hlast] at hkv; exact List.mem_of_mem_filter hkv
  have hload : ∀ kv ∈ (past c.direction.before Prod.fst (rd.last Prod.fst) (st.rows c)).take n,
      ∃ entry, e.entryOf main kv = some entry := fun kv hkv =>
    entryOf_stored hrep he hst hlaw hmain (mem_rows.mp (hmem kv (List.mem_of_mem_take hkv))).1
  refine ⟨⟨s.db, s.entries ++ _, s.snapshots ++ [s.db], s.exhausted || _⟩, by simp only [Client.step, hpage]; rfl, rfl,
    ⟨?_, ?_, ?_, ?_⟩, rfl⟩
  · show (s.entries ++ _).map (·.key) = (rd.out ++ _).map _
    rw [List.map_append, List.map_append, h.keys, entriesOf_keys hload]
  · show (s.exhausted || _) = (rd.done || _)
    rw [h.exhausted]
    refine congrArg (rd.done || ·) (decide_eq_decide.mpr ?_)
    rw [List.length_take]
    omega
  · intro kv hkv
    rcases List.mem_append.mp hkv with hkv | hkv
    · exact h.inRange kv hkv
    · exact (mem_rows.mp (hmem kv (List.mem_of_mem_take hkv))).2
  · intro rows hrows'
    rcases List.mem_append.mp hrows' with hrows' | hrows'
    · obtain ⟨db, hdb, hk⟩ := h.seen rows hrows'
      exact ⟨db, List.mem_append_left _ hdb, hk⟩
    · refine ⟨s.db, List.mem_append_right _ (by simp), fun k hin hkey => ?_⟩
      obtain ⟨st', v, hst', hv⟩ := hkey
      obtain rfl : st' = st := Option.some.inj (hst'.symm.trans hst)
      rw [List.mem_singleton.mp hrows']
      exact List.mem_map.mpr ⟨(k, v), mem_rows.mpr ⟨hv, hin⟩, rfl⟩

/-! ## Runs -/

section Runs

variable (hk : KeysOk own) (hnames : (storeNames indexes).Nodup) (hlaw : LawfulCodec Record)
  (he : e.Registered indexes) (hc : scan.compile = .ok c) (hok : RangeOk c.range)
include hk hnames hlaw he hc hok

theorem run_tracks (steps : List (ClientStep Record PO)) (hreach : Reach indexes s.db) (htr : Tracks e c s rd)
    (hinv : Inv c.direction.before Prod.fst rd) :
    ∃ s' rd', Client.run indexes e scan steps s = .ok s' ∧ Tracks e c s' rd' ∧
      Inv c.direction.before Prod.fst rd' := by
  induction steps generalizing s rd with
  | nil => exact ⟨s, rd, rfl, htr, hinv⟩
  | cons step steps ih =>
    cases step with
    | commit F op => exact ih (.step F op hreach) ⟨htr.keys, htr.exhausted, htr.inRange, htr.seen⟩ hinv
    | page n =>
      obtain ⟨M, hrep⟩ := rep_of_reach hk hnames hlaw hreach
      obtain ⟨st, main, hst, hmain⟩ := hrep.stores he
      obtain ⟨s', hs', hdb, htr', -⟩ := step_page hrep hlaw he hst hmain hc hok htr n
      obtain ⟨s'', rd'', hrun, h⟩ := ih (hdb ▸ hreach) htr' (hinv.page (sorted_rows st c) n)
      exact ⟨s'', rd'', by rw [Client.run, hs']; exact hrun, h⟩

omit hk hnames in
theorem run_same {db : Stores} (hrep : Rep own indexes M db) (hst : db e.store = some st)
    (hmain : db MAIN_STORE = some main) (steps : List (ClientStep Record PO))
    (hsteps : ∀ step ∈ steps, ∃ n, step = .page n) (hdb : s.db = db) (htr : Tracks e c s rd)
    (hsame : Same (st.rows c) rd) (hentries : s.entries = rd.out.filterMap (e.entryOf main)) :
    ∃ s' rd', Client.run indexes e scan steps s = .ok s' ∧ Tracks e c s' rd' ∧ Same (st.rows c) rd' ∧
      s'.entries = rd'.out.filterMap (e.entryOf main) := by
  induction steps generalizing s rd with
  | nil => exact ⟨s, rd, rfl, htr, hsame, hentries⟩
  | cons step steps ih =>
    obtain ⟨n, rfl⟩ := hsteps step (by simp)
    subst hdb
    obtain ⟨s', hs', hdb, htr', hadd⟩ := step_page hrep hlaw he hst hmain hc hok htr n
    have hentries' : s'.entries =
        (rd.page c.direction.before Prod.fst (st.rows c) n).out.filterMap (e.entryOf main) := by
      rw [hadd, hentries, ← List.filterMap_append]
      rfl
    obtain ⟨s'', rd'', hrun, h⟩ := ih (fun step hmem => hsteps step (List.mem_cons_of_mem _ hmem)) hdb htr'
      (hsame.page (sorted_rows st c) n) hentries'
    exact ⟨s'', rd'', by rw [Client.run, hs']; exact hrun, h⟩

end Runs

end Tracks

/-- However a client pages through a scan, and whatever commits between its pages: no
    page fails, the keys come in order and so never twice, a key in range that was there
    at every page has come once a page was short, and with no commits the pages are the
    entries of one scan. -/
theorem pagination_exact {Record : Type} {pk : KeyTy Scalar} [Debug pk.Val] [Item Record pk.Val]
    {indexes : List (Index Record pk.Val)} (hnames : (storeNames indexes).Nodup) (hlaw : LawfulCodec Record)
    {db : Stores} (hreach : Reach indexes db) {e : ScanExecutor Record pk.Val} (he : e.Registered indexes)
    {scan : Scan e.LogicalKey} {c : CompiledScan} (hc : scan.compile = .ok c) (hok : RangeOk c.range)
    (steps : List (ClientStep Record pk.owned.Val)) :
    ∃ s, Client.run indexes e scan steps (Client.start db) = .ok s ∧
      (∃ keys : List Bytes, s.entries.map (·.key) = keys.map Cursor.key ∧ keys.Pairwise c.direction.before ∧
        (s.exhausted = true → ∀ k, contains c.range k → (∀ db' ∈ s.snapshots, HasKey db' e.store k) →
          keys.count k = 1)) ∧
      ((∀ step ∈ steps, ∃ n, step = .page n) → ∃ m all,
        (readPage e scan m (World.start noFaults db)).1 = .ok (all, true) ∧ s.entries <+: all ∧
          (s.exhausted = true → s.entries = all)) := by
  obtain ⟨s, rd, hrun, htr, hinv⟩ :=
    run_tracks (keysOk_keyTy pk) hnames hlaw he hc hok steps hreach (tracks_start db) inv_start
  refine ⟨s, hrun, htr.paged hinv, fun hsteps => ?_⟩
  obtain ⟨M, hrep⟩ := rep_of_reach (keysOk_keyTy pk) hnames hlaw hreach
  obtain ⟨st, main, hst, hmain⟩ := hrep.stores he
  obtain ⟨s', rd', hrun', htr', hsame, hentries⟩ :=
    run_same hlaw he hc hok hrep hst hmain steps hsteps rfl (tracks_start db) (same_start _) rfl
  obtain rfl : s = s' := Outcome.ok.inj (hrun.symm.trans hrun')
  have hall := readPage_ok hrep hlaw he hst hmain hc hok ((st.rows c).length + 1)
  rw [List.take_of_length_le (Nat.le_succ _), decide_eq_true (Nat.lt_succ_self _)] at hall
  refine ⟨_, _, hall, ?_, fun hdone => ?_⟩
  · rw [hentries]
    exact hsame.isPrefix.filterMap _
  · rw [hentries, hsame.all (htr'.exhausted ▸ hdone)]

/-- One user of the scan by region, another inserted, and the rest of the scan. -/
theorem pagination_exact_users :
    ∃ s, Client.run [byEmail, byRegion] (.index byRegion) .full
        [.page 1, .commit noFaults (.insert ⟨3, 3, 3⟩), .page 2] (Client.start oneUser) = .ok s ∧
      ∃ keys : List Bytes, s.entries.map (·.key) = keys.map Cursor.key ∧ keys.Pairwise fun k k' => k < k' :=
  (@pagination_exact User (.leaf (.unsigned 1)) (inferInstanceAs (Debug (Unsigned 1)))
    (inferInstanceAs (Item User (Unsigned 1))) [byEmail, byRegion] (by decide) lawfulCodec_user _ reach_oneUser
    (.index byRegion) (show byRegion ∈ [byEmail, byRegion] by simp) .full _ rfl trivial _).imp
    fun s h => ⟨h.1, h.2.1.imp fun keys hkeys => ⟨hkeys.1, hkeys.2.1⟩⟩

end Collette
