/-
  Collette.Scan.Cursors — cursors that a client builds of a record (`index.rs`,
  `iter.rs`).

  An entry of a scan carries the key it is stored under. `Index::cursor` and
  `Cursor::from_key` compute a key from a record instead. Whatever the record was when
  its entry was written, the two are one key, since every change of a record moves its
  entry or leaves it where the changed record belongs (`Rep`).

  - `yielded_entry`: whatever `next` returns, in whatever state of the backend, is the
    entry of a record of the snapshot.
  - `cursors_agree`: so its key is the cursor of its record, and resuming from the one is
    resuming from the other.
-/

import Collette.Scan.Results

namespace Collette

open Prog Collette.Lex Collette.Table

section Cursors

variable {Record PK PO : Type} [Key PK PO]

/-- `Cursor::from_key`. -/
def Cursor.fromKey {K KO : Type} [Key K KO] (key : K) : Cursor := .key (encode key)

variable [Item Record PK]

/-- `Index::cursor`. -/
def Index.cursor (I : Index Record PK) (record : Record) : Cursor :=
  Cursor.fromKey (I.kind.storeKey (I.key record) (Item.key record))

/-- The cursor a client builds for the scan: of the primary key for a primary scan, the
    index's own for an index scan. -/
def ScanExecutor.cursor (record : Record) : ScanExecutor Record PK → Cursor
  | .collection => Cursor.fromKey (Item.key record)
  | .index I => I.cursor record

theorem entry_key (e : ScanExecutor Record PK) (r : Record) : (e.entry r).key = e.cursor r := by
  cases e <;> rfl

/-! ## What an iterator yields -/

/-- The iterator or one after it returns the entry, each `next` from any state of the
    backend. -/
inductive Yielded : ScanIterator Record → Entry Record → Prop
  | now {it it' : ScanIterator Record} {result : Prog World Error (Entry Record)} {entry : Entry Record} {w : World} :
      it.next = some (result, it') → (result w).1 = .ok entry → Yielded it entry
  | later {it it' : ScanIterator Record} {result : Prog World Error (Entry Record)} {entry : Entry Record} :
      it.next = some (result, it') → Yielded it' entry → Yielded it entry

variable {e : ScanExecutor Record PK} {main : KVStore}

theorem next_returns {kv : Bytes × Bytes} {rest : List (Bytes × Bytes)} {result : Prog World Error (Entry Record)}
    {it : ScanIterator Record} (h : (e.over (kv :: rest) main).next = some (result, it)) :
    it = e.over rest main ∧ Returns result fun entry => e.entryOf main kv = some entry := by
  have hinner : Returns (backend .next (pure kv)) fun x => x = kv := backend_returns _ (Returns.pure rfl)
  cases e with
  | collection =>
    cases h
    refine ⟨rfl, hinner.bind fun x hx => ?_⟩
    subst hx
    refine (codec_returns _ fun _ h => h).bind fun r hr => Returns.pure ?_
    simp [ScanExecutor.entryOf, hr, Except.toOption]
  | index I =>
    cases h
    refine ⟨rfl, hinner.bind fun x hx => ?_⟩
    subst hx
    refine (readGet_returns ⟨main⟩ _).bind fun bytes hbytes => ?_
    cases bytes with
    | none => exact Returns.throw _
    | some bytes =>
      refine (codec_returns _ fun _ h => h).bind fun r hr => Returns.pure ?_
      simp [ScanExecutor.entryOf, ← hbytes, hr, Except.toOption]

theorem yielded_over {kvs : List (Bytes × Bytes)} {entry : Entry Record} (h : Yielded (e.over kvs main) entry) :
    ∃ kv ∈ kvs, e.entryOf main kv = some entry := by
  induction kvs with
  | nil =>
    cases h with
    | now hnext => rw [over_nil_next] at hnext; cases hnext
    | later hnext => rw [over_nil_next] at hnext; cases hnext
  | cons kv kvs ih =>
    cases h with
    | now hnext hresult => exact ⟨kv, List.mem_cons_self, (next_returns hnext).2 _ _ hresult⟩
    | later hnext h =>
      obtain ⟨rfl, -⟩ := next_returns hnext
      obtain ⟨kv', hmem, hentry⟩ := ih h
      exact ⟨kv', List.mem_cons_of_mem _ hmem, hentry⟩

variable {PO' : Type} [Key PO PO'] {own : PK → PO} {indexes : List (Index Record PK)} {M : PO → Option Record}
  {db : Stores}

theorem yielded_entry (hlaw : LawfulCodec Record) (hrep : Rep own indexes M db) (he : e.Registered indexes)
    {scan : Scan e.LogicalKey} {w : World} {it : ScanIterator Record} (hit : (e.iter db scan w).1 = .ok it)
    {entry : Entry Record} (h : Yielded it entry) : ∃ r, Mem (pkey own) M r ∧ entry = e.entry r := by
  obtain ⟨c, st, main, -, hst, hmain, rfl⟩ := iter_returns w it hit
  obtain ⟨kv, hkv, hentry⟩ := yielded_over h
  obtain ⟨r, hr, -, hentry'⟩ := entryOf_record hrep he hst hlaw hmain (mem_rows.mp hkv).1
  exact ⟨r, hr, Option.some.inj (hentry.symm.trans hentry')⟩

end Cursors

/-- Every entry that a scan of a reachable state yields, whichever calls fail and whatever
    is committed meanwhile, has the cursor of its record as its key; and any scan goes on
    after the one as after the other. -/
theorem cursors_agree {Record : Type} {pk : KeyTy Scalar} [Debug pk.Val] [Item Record pk.Val]
    {indexes : List (Index Record pk.Val)} (hnames : (storeNames indexes).Nodup) (hlaw : LawfulCodec Record)
    {db : Stores} (hreach : Reach indexes db) {e : ScanExecutor Record pk.Val} (he : e.Registered indexes)
    {scan : Scan e.LogicalKey} {w : World} {it : ScanIterator Record} (hit : (e.iter db scan w).1 = .ok it)
    {entry : Entry Record} (h : Yielded it entry) :
    entry.key = e.cursor entry.record ∧
      ∀ (handle : Stores) (scan' : Scan e.LogicalKey),
        e.iter handle (.after (e.cursor entry.record) scan') = e.iter handle (.after entry.key scan') := by
  obtain ⟨M, hrep⟩ := rep_of_reach (keysOk_keyTy pk) hnames hlaw hreach
  obtain ⟨r, -, rfl⟩ := yielded_entry hlaw hrep he hit h
  have hkey := entry_key e r
  exact ⟨hkey, fun handle scan' => by rw [hkey]; rfl⟩

/-- The only user scanned by region, everything being removed before `iter`. -/
theorem cursors_agree_users : (Cursor.key [1, 1]) = byRegion.cursor ⟨1, 1, 1⟩ := by
  have hnext : ∃ it, ((ScanExecutor.index byRegion).iter oneUser .full
      (World.start noFaults (emptyDb [byEmail, byRegion]))).1 = .ok it ∧ Yielded it ⟨⟨1, 1, 1⟩, .key [1, 1]⟩ :=
    ⟨_, rfl, .now (w := World.start noFaults (emptyDb [byEmail, byRegion])) rfl rfl⟩
  obtain ⟨it, hit, hyielded⟩ := hnext
  exact (@cursors_agree User (.leaf (.unsigned 1)) (inferInstanceAs (Debug (Unsigned 1)))
    (inferInstanceAs (Item User (Unsigned 1))) [byEmail, byRegion] (by decide) lawfulCodec_user _ reach_oneUser
    (.index byRegion) (show byRegion ∈ [byEmail, byRegion] by simp) .full _ it hit _ hyielded).1

end Collette
