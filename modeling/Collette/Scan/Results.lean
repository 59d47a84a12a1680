/-
  Collette.Scan.Results — what a scan yields, as records.

  `runScan` starts a scan, opens its iterator and takes every `next`. In a state that
  stands for a table each stored entry of the scan's store leads to its record, the one
  placed there, so the entries in bounds are the records placed in bounds.

  - `iter_pending`: an iterator has its entries from the snapshot it was opened on, and
    yields them whatever is committed between its `next`s (`Pending`).
  - `runScan_ok`: a scan whose bounds `BTreeMap` accepts yields exactly the records placed
    in bounds, in the order of their places, each under its place as the cursor.
-/

import Collette.Scan.Iteration

namespace Collette

open Prog Collette.Lex Collette.Table

/-! ## One entry -/

section Entries

variable {Record PK PO : Type} [Key PK PO] [Item Record PK]

/-- What the iterator makes of a stored entry, where it makes something of it. -/
def ScanExecutor.entryOf (main : KVStore) (e : ScanExecutor Record PK) (kv : Bytes × Bytes) : Option (Entry Record) :=
  let record := match e with
    | .collection => some kv.2
    | .index _ => main[kv.2]?
  (record.bind fun bytes => (Item.fromBytes bytes : Except CodecError Record).toOption).map (⟨·, .key kv.1⟩)

variable {e : ScanExecutor Record PK} {main : KVStore}

theorem entryOf_key {kv : Bytes × Bytes} {entry : Entry Record} (h : e.entryOf main kv = some entry) :
    entry.key = .key kv.1 := by
  obtain ⟨r, -, rfl⟩ := Option.map_eq_some_iff.mp h
  rfl

theorem entriesOf_keys {kvs : List (Bytes × Bytes)} (h : ∀ kv ∈ kvs, ∃ entry, e.entryOf main kv = some entry) :
    (kvs.filterMap (e.entryOf main)).map (·.key) = kvs.map fun kv => .key kv.1 := by
  induction kvs with
  | nil => rfl
  | cons kv kvs ih =>
    obtain ⟨entry, hentry⟩ := h kv (by simp)
    rw [List.filterMap_cons_some hentry, List.map_cons, List.map_cons, entryOf_key hentry,
      ih fun kv hmem => h kv (by simp [hmem])]

theorem fromBytes_of_toOption {bytes : Bytes} {r : Record}
    (h : (Item.fromBytes bytes : Except CodecError Record).toOption = some r) :
    (Item.fromBytes bytes : Except CodecError Record) = .ok r := by
  cases hx : (Item.fromBytes bytes : Except CodecError Record) with
  | ok r' => rw [hx] at h; cases h; rfl
  | error err => rw [hx] at h; cases h

/-- `next` returns the entry, whatever is committed by then, and goes on. -/
theorem next_yields {kv : Bytes × Bytes} {entry : Entry Record} (h : e.entryOf main kv = some entry)
    (rest : List (Bytes × Bytes)) : ∃ p, (e.over (kv :: rest) main).next = some (p, e.over rest main) ∧
      ∀ db, Yields (Idle noFaults db) p (.ok entry) := by
  obtain ⟨r, hr, rfl⟩ := Option.map_eq_some_iff.mp h
  obtain ⟨bytes, hbytes, hr⟩ := Option.bind_eq_some_iff.mp hr
  have hdec := fromBytes_of_toOption hr
  cases e with
  | collection =>
    obtain rfl := Option.some.inj hbytes
    exact ⟨_, rfl, fun _ => (backend_yields _ (Yields.pure _)).bind ((codec_yields _ hdec).bind (Yields.pure _))⟩
  | index I =>
    refine ⟨_, rfl, fun _ => (backend_yields _ (Yields.pure _)).bind ((storeGet_yields hbytes).bind ?_)⟩
    exact (codec_yields _ hdec).bind (Yields.pure _)

end Entries

/-! ## Taking everything -/

section Collect

variable {Record PK PO : Type} [Key PK PO] [Item Record PK]

/-- The entries the backend iterator has left. -/
def ScanIterator.remaining : ScanIterator Record → Nat
  | .collection inner => inner.length
  | .index inner _ => inner.length

theorem remaining_next {it it' : ScanIterator Record} {result : Prog World Error (Entry Record)}
    (h : it.next = some (result, it')) : it'.remaining < it.remaining := by
  cases it with
  | collection inner =>
    cases inner with
    | nil => cases h
    | cons entry inner =>
      cases h
      exact Nat.lt_succ_self _
  | index inner primaryStore =>
    cases inner with
    | nil => cases h
    | cons entry inner =>
      cases h
      exact Nat.lt_succ_self _

/-- `next` until there is none, or one fails. -/
def ScanIterator.collect (it : ScanIterator Record) : Prog World Error (List (Entry Record)) :=
  match h : it.next with
  | none => pure []
  | some (result, it') =>
    have := remaining_next h
    do
      let entry ← result
      let entries ← it'.collect
      pure (entry :: entries)
termination_by it.remaining

/-- A fresh scan, and everything it yields. -/
def runScan (e : ScanExecutor Record PK) (scan : Scan e.LogicalKey) : Prog World Error (List (Entry Record)) := do
  let handle ← read
  let it ← e.iter handle scan
  it.collect

theorem collect_none {it : ScanIterator Record} (h : it.next = none) : it.collect = pure [] := by
  rw [ScanIterator.collect]
  split
  · rfl
  · rename_i hnext
    rw [h] at hnext
    cases hnext

theorem collect_some {it it' : ScanIterator Record} {result : Prog World Error (Entry Record)}
    (h : it.next = some (result, it')) :
    it.collect = result >>= fun entry => it'.collect >>= fun entries => pure (entry :: entries) := by
  rw [ScanIterator.collect]
  split
  · rename_i hnext
    rw [h] at hnext
    cases hnext
  · rename_i hnext
    rw [h] at hnext
    cases hnext
    rfl

theorem over_nil_next (e : ScanExecutor Record PK) (main : KVStore) : (e.over [] main).next = none := by
  cases e <;> rfl

/-- The iterator yields these entries, whatever is committed meanwhile. -/
inductive Pending : ScanIterator Record → List (Entry Record) → Prop
  | ended {it : ScanIterator Record} : it.next = none → Pending it []
  | entry {it it' : ScanIterator Record} {result : Prog World Error (Entry Record)} {entry : Entry Record}
      {entries : List (Entry Record)} : it.next = some (result, it') →
      (∀ db, Yields (Idle noFaults db) result (.ok entry)) → Pending it' entries → Pending it (entry :: entries)

theorem pending_over {e : ScanExecutor Record PK} {main : KVStore} {kvs : List (Bytes × Bytes)}
    (h : ∀ kv ∈ kvs, ∃ entry, e.entryOf main kv = some entry) :
    Pending (e.over kvs main) (kvs.filterMap (e.entryOf main)) := by
  induction kvs with
  | nil => exact .ended (over_nil_next e main)
  | cons kv kvs ih =>
    obtain ⟨entry, hentry⟩ := h kv (by simp)
    obtain ⟨p, hnext, hp⟩ := next_yields hentry kvs
    rw [List.filterMap_cons_some hentry]
    exact .entry hnext hp (ih fun kv hmem => h kv (by simp [hmem]))

theorem Pending.collect {it : ScanIterator Record} {entries : List (Entry Record)} (h : Pending it entries)
    (db : Stores) : Yields (Idle noFaults db) it.collect (.ok entries) := by
  induction h with
  | ended hnext =>
    rw [collect_none hnext]
    exact Yields.pure _
  | entry hnext hresult _ ih =>
    rw [collect_some hnext]
    exact (hresult db).bind (ih.bind (Yields.pure _))

end Collect

/-! ## Records and their places -/

section Places

variable {Record PK PO PO' : Type} [Key PK PO] [Key PO PO'] [Item Record PK]

/-- The bytes a record is stored under in the store of the scan. -/
def ScanExecutor.place (e : ScanExecutor Record PK) (r : Record) : Bytes :=
  match e with
  | .collection => encode (Item.key r)
  | .index I => I.place r

/-- What a scan yields for a record. -/
def ScanExecutor.entry (e : ScanExecutor Record PK) (r : Record) : Entry Record := ⟨r, .key (e.place r)⟩

variable {own : PK → PO} {indexes : List (Index Record PK)} {M : PO → Option Record} {db : Stores}
  {e : ScanExecutor Record PK} {st main : KVStore}

omit [Key PK PO] in
theorem mem_unique {r r' : Record} (hr : Mem (pkey own) M r) (hr' : Mem (pkey own) M r')
    (h : pkey own r = pkey own r') : r = r' := by
  have : some r = some r' := by rw [← hr, h, hr']
  exact Option.some.inj this

section Stores

variable (hrep : Rep own indexes M db) (he : e.Registered indexes) (hst : db e.store = some st)
include hrep he hst

/-- Two records with one place are one record. -/
theorem place_injective (hk : KeysOk own) {r r' : Record} (hr : Mem (pkey own) M r) (hr' : Mem (pkey own) M r')
    (h : e.place r = e.place r') : r = r' := by
  cases e with
  | collection => exact mem_unique hr hr' (hk.encode_eq_iff.mp h)
  | index I =>
    obtain ⟨st', hst', hidx⟩ := hrep.index I he
    exact mem_unique hr hr' (Index.same_place hk hidx hr hr' h)

theorem stored_place {r : Record} (hr : Mem (pkey own) M r) : ∃ v, st[e.place r]? = some v := by
  cases e with
  | collection =>
    obtain ⟨main, hmain, hrows⟩ := hrep.main
    obtain rfl : main = st := Option.some.inj (hmain.symm.trans hst)
    obtain ⟨b, hb⟩ := hrep.encodes r hr
    exact ⟨b, (hrows _ b).mpr ⟨r, hr, rfl, hb⟩⟩
  | index I =>
    obtain ⟨st', hst', hidx⟩ := hrep.index I he
    obtain rfl : st' = st := Option.some.inj (hst'.symm.trans hst)
    exact ⟨_, (hidx _ _).mpr ⟨r, hr, rfl, rfl⟩⟩

/-- The entry stored at a place leads to the record placed there. -/
theorem entryOf_record (hlaw : LawfulCodec Record) (hmain : db MAIN_STORE = some main) {k v : Bytes}
    (hkv : st[k]? = some v) :
    ∃ r, Mem (pkey own) M r ∧ k = e.place r ∧ e.entryOf main (k, v) = some (e.entry r) := by
  obtain ⟨main', hmain', hrows⟩ := hrep.main
  obtain rfl : main' = main := Option.some.inj (hmain'.symm.trans hmain)
  cases e with
  | collection =>
    obtain rfl : st = main' := Option.some.inj (hst.symm.trans hmain)
    obtain ⟨r, hr, rfl, hv⟩ := (hrows k v).mp hkv
    refine ⟨r, hr, rfl, ?_⟩
    simp [ScanExecutor.entryOf, ScanExecutor.entry, ScanExecutor.place, hlaw r v hv, Except.toOption]
  | index I =>
    obtain ⟨st', hst', hidx⟩ := hrep.index I he
    obtain rfl : st' = st := Option.some.inj (hst'.symm.trans hst)
    obtain ⟨r, hr, rfl, rfl⟩ := (hidx k v).mp hkv
    obtain ⟨b, hb⟩ := hrep.encodes r hr
    have hget : main'[encode (Item.key r)]? = some b := (hrows _ b).mpr ⟨r, hr, rfl, hb⟩
    refine ⟨r, hr, rfl, ?_⟩
    simp [ScanExecutor.entryOf, ScanExecutor.entry, ScanExecutor.place, hget, hlaw r b hb, Except.toOption]

theorem entryOf_stored (hlaw : LawfulCodec Record) (hmain : db MAIN_STORE = some main) {k v : Bytes}
    (hkv : st[k]? = some v) : ∃ entry, e.entryOf main (k, v) = some entry := by
  obtain ⟨r, -, -, hentry⟩ := entryOf_record hrep he hst hlaw hmain hkv
  exact ⟨_, hentry⟩

end Stores

/-- The entries of a scan are the entries of records, in the order of the rows. -/
theorem entries_of_records {kvs : List (Bytes × Bytes)}
    (h : ∀ kv ∈ kvs, ∃ r, Mem (pkey own) M r ∧ kv.1 = e.place r ∧ e.entryOf main kv = some (e.entry r)) :
    ∃ rs : List Record, kvs.filterMap (e.entryOf main) = rs.map e.entry ∧ kvs.map Prod.fst = rs.map e.place ∧
      ∀ r ∈ rs, Mem (pkey own) M r := by
  induction kvs with
  | nil => exact ⟨[], rfl, rfl, by simp⟩
  | cons kv kvs ih =>
    obtain ⟨r, hr, hplace, hentry⟩ := h kv (by simp)
    obtain ⟨rs, hentries, hplaces, hmem⟩ := ih fun kv hkv => h kv (by simp [hkv])
    refine ⟨r :: rs, ?_, ?_, ?_⟩
    · rw [List.filterMap_cons_some hentry, hentries, List.map_cons]
    · rw [List.map_cons, List.map_cons, hplace, hplaces]
    · intro r' hr'
      rcases List.mem_cons.mp hr' with rfl | hr'
      · exact hr
      · exact hmem r' hr'

/-- The stores a scan needs are there in a state that stands for a table. -/
theorem Rep.stores {db : Stores} (hrep : Rep own indexes M db) (he : e.Registered indexes) :
    ∃ st main, db e.store = some st ∧ db MAIN_STORE = some main := by
  obtain ⟨main, hmain, -⟩ := hrep.main
  cases e with
  | collection => exact ⟨main, main, hmain, hmain⟩
  | index I =>
    obtain ⟨st, hst, -⟩ := hrep.index I he
    exact ⟨st, main, hst, hmain⟩

omit [Key PO PO'] in
/-- Records in the order of their places come once each. -/
theorem nodup_of_before {d : Direction} {rs : List Record}
    (h : rs.Pairwise fun r r' => d.before (e.place r) (e.place r')) : rs.Nodup := by
  refine h.imp fun {r r'} hlt heq => ?_
  rw [heq] at hlt
  exact irrefl _ hlt

variable {scan : Scan e.LogicalKey} {c : CompiledScan}

/-- An iterator opened on a snapshot yields what the scan of that snapshot returns,
    whatever is committed by then. -/
theorem iter_pending (hlaw : LawfulCodec Record) {handle : Stores} (hrep : Rep own indexes M handle)
    (he : e.Registered indexes) {it : ScanIterator Record}
    (h : (e.iter handle scan (World.start noFaults db)).1 = .ok it) :
    ∃ entries, Pending it entries ∧ (runScan e scan (World.start noFaults handle)).1 = .ok entries := by
  obtain ⟨st, main, hst, hmain⟩ := hrep.stores he
  have hidle : ∀ db, Idle noFaults db (World.start noFaults db) := fun _ => ⟨rfl, rfl⟩
  cases hc : scan.compile with
  | error err =>
    rw [(iter_error hc _ (hidle db)).1] at h
    cases h
  | ok c =>
    cases hscan : st.scan c.range c.direction with
    | none =>
      rw [(iter_panics hst hc hscan _ (hidle db)).1] at h
      cases h
    | some entries =>
      rw [(iter_ok hst hmain hc hscan _ (hidle db)).1] at h
      obtain rfl := Outcome.ok.inj h
      obtain rfl := rows_of_scan hscan
      have hpending : Pending (e.over (st.rows c) main) _ :=
        pending_over fun kv hkv => entryOf_stored hrep he hst hlaw hmain (mem_rows.mp hkv).1
      exact ⟨_, hpending, (read_yields.bind ((iter_ok hst hmain hc hscan).bind (hpending.collect handle)) _
        (hidle handle)).1⟩

/-- A scan whose bounds `BTreeMap` accepts yields what its rows lead to. -/
theorem runScan_rows (hlaw : LawfulCodec Record) (hrep : Rep own indexes M db) (he : e.Registered indexes)
    (hst : db e.store = some st) (hmain : db MAIN_STORE = some main) (hc : scan.compile = .ok c)
    (hok : st.isEmpty ∨ RangeOk c.range) :
    (runScan e scan (World.start noFaults db)).1 = .ok ((st.rows c).filterMap (e.entryOf main)) := by
  have hpending : Pending (e.over (st.rows c) main) _ :=
    pending_over fun kv hkv => entryOf_stored hrep he hst hlaw hmain (mem_rows.mp hkv).1
  exact (read_yields.bind ((iter_ok hst hmain hc (scan_of_rangeOk hok)).bind (hpending.collect db))
    (World.start noFaults db) ⟨rfl, rfl⟩).1

theorem runScan_panics (hst : db e.store = some st) (hc : scan.compile = .ok c)
    (hscan : st.scan c.range c.direction = none) : (runScan e scan (World.start noFaults db)).1 = .panic :=
  (read_yields.bind (iter_panics hst hc hscan).bind_panic (World.start noFaults db) ⟨rfl, rfl⟩).1

theorem runScan_ok (hk : KeysOk own) (hlaw : LawfulCodec Record) (hrep : Rep own indexes M db)
    (he : e.Registered indexes) (hc : scan.compile = .ok c) (hok : RangeOk c.range) :
    ∃ rs : List Record, (runScan e scan (World.start noFaults db)).1 = .ok (rs.map e.entry) ∧
      (∀ r, r ∈ rs ↔ Mem (pkey own) M r ∧ contains c.range (e.place r)) ∧
      rs.Pairwise fun r r' => c.direction.before (e.place r) (e.place r') := by
  obtain ⟨st, main, hst, hmain⟩ := hrep.stores he
  have hload : ∀ kv ∈ st.rows c, ∃ r, Mem (pkey own) M r ∧ kv.1 = e.place r ∧ e.entryOf main kv = some (e.entry r) :=
    fun kv hkv => entryOf_record hrep he hst hlaw hmain (mem_rows.mp hkv).1
  obtain ⟨rs, hentries, hplaces, hmem⟩ := entries_of_records hload
  have hplaced : ∀ r, r ∈ rs → contains c.range (e.place r) := by
    intro r hr
    have hk : e.place r ∈ (st.rows c).map Prod.fst := hplaces ▸ List.mem_map_of_mem hr
    obtain ⟨kv, hkv, he⟩ := List.mem_map.mp hk
    rw [← he]
    exact (mem_rows.mp hkv).2
  refine ⟨rs, ?_, fun r => ⟨fun hr => ⟨hmem r hr, hplaced r hr⟩, fun hr => ?_⟩, ?_⟩
  · rw [← hentries]
    exact runScan_rows hlaw hrep he hst hmain hc (Or.inr hok)
  · obtain ⟨v, hv⟩ := stored_place hrep he hst hr.1
    have hk' : e.place r ∈ rs.map e.place := by
      rw [← hplaces]
      exact List.mem_map.mpr ⟨(e.place r, v), mem_rows.mpr ⟨hv, hr.2⟩, rfl⟩
    obtain ⟨r', hr', heq⟩ := List.mem_map.mp hk'
    rw [← place_injective hrep he hst hk (hmem r' hr') hr.1 heq]
    exact hr'
  · have hsorted : ((st.rows c).map Prod.fst).Pairwise c.direction.before := List.pairwise_map.mpr (sorted_rows st c)
    rw [hplaces] at hsorted
    exact List.pairwise_map.mp hsorted

end Places

end Collette
