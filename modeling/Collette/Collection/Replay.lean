/-
  Collette.Collection.Replay — operations done once more.

  The stores of a collection are those of its records, whatever happened on the way to
  them (`Rep.sameEntries`). So nothing is left of what failed, and the records alone bring the
  stores back.

  - `failures_erased`: among operations any calls of which fail, those that went through
    go through alone and without faults, and leave the same stores.
  - `restored`: the records that a full scan yields, inserted in any order into an empty
    collection, are all accepted and leave the stores they were read from.
-/

import Collette.Scan.Results

namespace Collette

open Prog Collette.Lex Collette.Table

/-- In each of the stores the same entries. -/
def SameEntries (names : List String) (db db' : Stores) : Prop :=
  ∀ name ∈ names, ∃ st st', db name = some st ∧ db' name = some st' ∧ ∀ k : Bytes, st[k]? = st'[k]?

theorem Holds.same {st st' : KVStore} {S S' : Bytes → Bytes → Prop} (h : Holds st S) (h' : Holds st' S')
    (hS : ∀ k v, S k v ↔ S' k v) (k : Bytes) : st[k]? = st'[k]? :=
  Option.ext fun v => (h k v).trans ((hS k v).trans (h' k v).symm)

section Replay

variable {Record PK PO PO' : Type} [Key PK PO] [Key PO PO'] [Item Record PK] {own : PK → PO}
  {indexes : List (Index Record PK)} {M M' : PO → Option Record} {db db' : Stores}

/-- Stores that stand for the same records are the same. -/
theorem Rep.sameEntries (h : Rep own indexes M db) (h' : Rep own indexes M' db')
    (hmem : ∀ r, Mem (pkey own) M r ↔ Mem (pkey own) M' r) : SameEntries (storeNames indexes) db db' := by
  have hstored : ∀ {name : String} {S S' : Bytes → Bytes → Prop}, Stored db name S → Stored db' name S' →
      (∀ k v, S k v ↔ S' k v) →
      ∃ st st', db name = some st ∧ db' name = some st' ∧ ∀ k : Bytes, st[k]? = st'[k]? := by
    intro name S S' hst hst' hS
    obtain ⟨st, hn, hst⟩ := hst
    obtain ⟨st', hn', hst'⟩ := hst'
    exact ⟨st, st', hn, hn', hst.same hst' hS⟩
  intro name hname
  rcases List.mem_cons.mp hname with rfl | hname
  · exact hstored h.main h'.main fun k v => exists_congr fun r => and_congr_left fun _ => hmem r
  · obtain ⟨I, hI, rfl⟩ := List.mem_map.mp hname
    exact hstored (h.index I hI) (h'.index I hI) fun k v => exists_congr fun r => and_congr_left fun _ => hmem r

/-! ## One operation -/

theorem not_refuses {op : Op Record PO} (h : op.Accepts own indexes M) (e : Error) :
    ¬ op.Refuses own indexes M e := by
  cases op with
  | insert r =>
    intro href
    rcases href.2 with hsome | ⟨I, hI, hc⟩
    · exact hsome h.1
    · exact h.2 I hI hc
  | update r =>
    intro href
    rcases href with ⟨-, hnone⟩ | ⟨-, -, I, hI, hc⟩
    · exact h.1 hnone
    · exact h.2 I hI hc
  | save r =>
    intro href
    obtain ⟨-, I, hI, hc⟩ := href
    exact h I hI hc
  | remove pk => exact id

variable [Debug PK]

/-- Whichever calls fail, an operation goes through on a table that accepts it, or the
    stores are as before. -/
theorem exec_either (hk : KeysOk own) (hnames : (storeNames indexes).Nodup) (hlaw : LawfulCodec Record)
    (hrep : Rep own indexes M db) (F : List Event → Option BackendError) (op : Op Record PO) :
    (op.exec indexes F db).1 = .ok () ∧ op.Accepts own indexes M ∧
        Rep own indexes (op.apply own M) (op.exec indexes F db).2 ∨
      (op.exec indexes F db).1 ≠ .ok () ∧ (op.exec indexes F db).2 = db := by
  have hpost := op_triple (F := F) hk hnames hlaw hrep op (World.start F db) ⟨rfl, rfl⟩
  unfold Op.exec
  cases hr : op.run indexes (World.start F db) with
  | mk o s =>
    rw [hr] at hpost
    cases o with
    | ok a => exact Or.inl ⟨rfl, hpost⟩
    | error e => exact Or.inr ⟨nofun, hpost.1⟩
    | panic => exact hpost.elim

/-- Where one went through, it goes through without faults. -/
theorem exec_again (hk : KeysOk own) (hnames : (storeNames indexes).Nodup) (hlaw : LawfulCodec Record)
    (hrep : Rep own indexes M db) {op : Op Record PO} (hacc : op.Accepts own indexes M)
    (hbytes : ∃ b, op.bytes = .ok b) : (op.exec indexes noFaults db).1 = .ok () ∧
      Rep own indexes (op.apply own M) (op.exec indexes noFaults db).2 := by
  have hpost := op_triple (F := noFaults) hk hnames hlaw hrep op (World.start noFaults db) ⟨rfl, rfl⟩
  unfold Op.exec
  cases hr : op.run indexes (World.start noFaults db) with
  | mk o s =>
    rw [hr] at hpost
    cases o with
    | ok a => exact ⟨rfl, hpost.2⟩
    | panic => exact hpost.elim
    | error e =>
      obtain ⟨b, hb⟩ := hbytes
      cases hpost.2 with
      | backend h => cases h
      | codec h => rw [hb] at h; cases h
      | refused h => exact absurd h (not_refuses hacc e)

omit [Debug PK] in
theorem bytes_of_rep {op : Op Record PO} (h : Rep own indexes (op.apply own M) db) : ∃ b, op.bytes = .ok b := by
  cases op with
  | insert r | update r | save r => exact h.encodes r (mem_put.mpr (Or.inl rfl))
  | remove pk => exact ⟨_, rfl⟩

/-! ## Many operations -/

/-- The operations one after another, each among its own faults: those that went through,
    and the stores after them. -/
def attempts (indexes : List (Index Record PK)) :
    List ((List Event → Option BackendError) × Op Record PO) → Stores → List (Op Record PO) × Stores
  | [], db => ([], db)
  | (F, op) :: rest, db =>
    let r := op.exec indexes F db
    let later := attempts indexes rest r.2
    (if r.1 = .ok () then op :: later.1 else later.1, later.2)

theorem attempts_rep (hk : KeysOk own) (hnames : (storeNames indexes).Nodup) (hlaw : LawfulCodec Record)
    (steps : List ((List Event → Option BackendError) × Op Record PO)) (hrep : Rep own indexes M db)
    (hrep' : Rep own indexes M db') :
    (attempts indexes ((attempts indexes steps db).1.map fun op => (noFaults, op)) db').1 =
        (attempts indexes steps db).1 ∧
      ∃ M', Rep own indexes M' (attempts indexes steps db).2 ∧
        Rep own indexes M' (attempts indexes ((attempts indexes steps db).1.map fun op => (noFaults, op)) db').2 := by
  induction steps generalizing M db db' with
  | nil => exact ⟨rfl, M, hrep, hrep'⟩
  | cons step steps ih =>
    obtain ⟨F, op⟩ := step
    rcases exec_either hk hnames hlaw hrep F op with ⟨hok, hacc, hnext⟩ | ⟨hfails, hsame⟩
    · obtain ⟨hok', hnext'⟩ := exec_again hk hnames hlaw hrep' hacc (bytes_of_rep hnext)
      have hlater := ih hnext hnext'
      simp only [attempts, hok, hok', if_true, List.map_cons]
      exact ⟨congrArg _ hlater.1, hlater.2⟩
    · simp only [attempts, if_neg hfails, hsame]
      exact ih hrep hrep'

/-- Of operations among whose calls any fail, those that went through go through again,
    alone and without faults, and leave the same entries in every store. -/
theorem failures_erased (hk : KeysOk own) (hnames : (storeNames indexes).Nodup) (hlaw : LawfulCodec Record)
    (steps : List ((List Event → Option BackendError) × Op Record PO)) :
    (attempts indexes ((attempts indexes steps (emptyDb indexes)).1.map fun op => (noFaults, op))
        (emptyDb indexes)).1 = (attempts indexes steps (emptyDb indexes)).1 ∧
      SameEntries (storeNames indexes) (attempts indexes steps (emptyDb indexes)).2
        (attempts indexes ((attempts indexes steps (emptyDb indexes)).1.map fun op => (noFaults, op))
          (emptyDb indexes)).2 := by
  obtain ⟨hdone, M', hrep, hrep'⟩ := attempts_rep hk hnames hlaw steps (rep_empty own indexes) (rep_empty own indexes)
  exact ⟨hdone, hrep.sameEntries hrep' fun _ => Iff.rfl⟩

/-! ## Records inserted anew -/

omit [Debug PK] in
/-- A record of the table that is not there yet is accepted. -/
theorem accepts_missing (hk : KeysOk own) (hrep : Rep own indexes M db) (hkeyed : Keyed (pkey own) M')
    (hsub : ∀ r, Mem (pkey own) M' r → Mem (pkey own) M r) {r : Record} (hr : Mem (pkey own) M r)
    (hmissing : ¬ Mem (pkey own) M' r) : (Op.insert r).Accepts own indexes M' := by
  refine ⟨?_, fun I hI hc => ?_⟩
  · cases hM : M' (pkey own r) with
    | none => rfl
    | some r' =>
      have hr' := hkeyed.mem hM
      obtain rfl := mem_unique (hsub r' hr') hr (hkeyed _ _ hM)
      exact absurd hr' hmissing
  · obtain ⟨r', hr', hne, hplace⟩ := hc
    obtain ⟨st, -, hst⟩ := hrep.index I hI
    exact hne (Index.same_place hk hst (hsub r' hr') hr hplace)

theorem inserts_rep (hk : KeysOk own) (hnames : (storeNames indexes).Nodup) (hlaw : LawfulCodec Record)
    (hrep : Rep own indexes M db) {rs : List Record} (hnodup : rs.Nodup) (hrs : ∀ r ∈ rs, Mem (pkey own) M r)
    (hrep' : Rep own indexes M' db') (hsub : ∀ r, Mem (pkey own) M' r → Mem (pkey own) M r)
    (hmissing : ∀ r ∈ rs, ¬ Mem (pkey own) M' r) :
    (attempts indexes (rs.map fun r => (noFaults, .insert r)) db').1 = rs.map .insert ∧
      ∃ M1, Rep own indexes M1 (attempts indexes (rs.map fun r => (noFaults, .insert r)) db').2 ∧
        ∀ r, Mem (pkey own) M1 r ↔ Mem (pkey own) M' r ∨ r ∈ rs := by
  induction rs generalizing M' db' with
  | nil => exact ⟨rfl, M', hrep', by simp⟩
  | cons r rs ih =>
    obtain ⟨hr, hnodup⟩ := List.nodup_cons.mp hnodup
    have hmem := hrs r List.mem_cons_self
    have hacc := accepts_missing hk hrep hrep'.keyed hsub hmem (hmissing r List.mem_cons_self)
    obtain ⟨hok, hnext⟩ := exec_again hk hnames hlaw hrep' hacc (hrep.encodes r hmem)
    have hput : ∀ r', Mem (pkey own) (put (pkey own) M' r) r' ↔ r' = r ∨ Mem (pkey own) M' r' := by
      intro r'
      rw [mem_put, del_eq_self hacc.1]
    obtain ⟨hdone, M1, hrep1, hM1⟩ := ih hnodup (fun r' hr' => hrs r' (List.mem_cons_of_mem _ hr')) hnext
      (fun r' hr' => ((hput r').mp hr').elim (fun heq => heq ▸ hmem) (hsub r')) fun r' hr' hput' => by
        rcases (hput r').mp hput' with rfl | hr''
        · exact hr hr'
        · exact hmissing r' (List.mem_cons_of_mem _ hr') hr''
    simp only [List.map_cons, attempts, hok, if_true]
    refine ⟨congrArg _ hdone, M1, hrep1, fun r' => ?_⟩
    rw [hM1 r', Op.apply, hput r', List.mem_cons]
    tauto

/-- In any reachable state a full scan of the primary store yields records that, inserted
    in any order into an empty collection, are all accepted and bring back every entry of
    every store. -/
theorem restored (hk : KeysOk own) (hnames : (storeNames indexes).Nodup) (hlaw : LawfulCodec Record)
    (hreach : Reach indexes db) : ∃ rs : List Record,
      (runScan (.collection : ScanExecutor Record PK) .full (World.start noFaults db)).1 =
          .ok (rs.map (ScanExecutor.collection : ScanExecutor Record PK).entry) ∧
        ∀ rs' : List Record, rs'.Perm rs →
          (attempts indexes (rs'.map fun r => (noFaults, .insert r)) (emptyDb indexes)).1 = rs'.map .insert ∧
            SameEntries (storeNames indexes) db
              (attempts indexes (rs'.map fun r => (noFaults, .insert r)) (emptyDb indexes)).2 := by
  obtain ⟨M, hrep⟩ := rep_of_reach hk hnames hlaw hreach
  have hfull : (Scan.full : Scan PK).compile = .ok ⟨(.unbounded, .unbounded), .leftToRight⟩ := rfl
  obtain ⟨rs, hrun, hmem, hsorted⟩ :=
    runScan_ok hk hlaw hrep (show ScanExecutor.collection.Registered indexes from trivial) hfull trivial
  refine ⟨rs, hrun, fun rs' hperm => ?_⟩
  have hrs' : ∀ r, r ∈ rs' ↔ Mem (pkey own) M r := fun r =>
    hperm.mem_iff.trans ((hmem r).trans (and_iff_left ⟨trivial, trivial⟩))
  have hnone : ∀ r : Record, ¬ Mem (pkey own) (fun _ => none) r := fun r h => Option.some_ne_none _ h.symm
  obtain ⟨hdone, M', hrep', hM'⟩ := inserts_rep hk hnames hlaw hrep (hperm.nodup_iff.mpr (nodup_of_before hsorted))
    (fun r hr => (hrs' r).mp hr) (rep_empty own indexes) (fun r h => absurd h (hnone r)) fun r _ => hnone r
  refine ⟨hdone, hrep.sameEntries hrep' fun r => ?_⟩
  rw [hM' r, or_iff_right (hnone r), hrs' r]

end Replay

/-! ## A collection of users -/

/-- The second insert has no disk, the third an email that is taken. -/
def troubled : List ((List Event → Option BackendError) × Op User (Unsigned 1)) :=
  [(noFaults, .insert ⟨1, 1, 1⟩), (fun _ => some ⟨"disk"⟩, .insert ⟨2, 2, 2⟩), (noFaults, .insert ⟨3, 1, 3⟩),
    (noFaults, .save ⟨1, 4, 1⟩)]

theorem attempts_troubled : (attempts [byEmail, byRegion] troubled (emptyDb [byEmail, byRegion])).1 =
    [.insert ⟨1, 1, 1⟩, .save ⟨1, 4, 1⟩] := rfl

theorem failures_erased_troubled : SameEntries ["__main", "by_email", "by_region"]
    (attempts [byEmail, byRegion] troubled (emptyDb [byEmail, byRegion])).2
    (attempts [byEmail, byRegion] [(noFaults, .insert ⟨1, 1, 1⟩), (noFaults, .save ⟨1, 4, 1⟩)]
      (emptyDb [byEmail, byRegion])).2 := by
  have hnames : (storeNames [byEmail, byRegion]).Nodup := by decide
  have herased := (failures_erased (keysOk_unsigned 1) hnames lawfulCodec_user troubled).2
  rw [attempts_troubled] at herased
  exact herased

theorem restored_oneUser : ∃ rs : List User, ∀ rs' : List User, rs'.Perm rs →
    SameEntries (storeNames [byEmail, byRegion]) oneUser
      (attempts [byEmail, byRegion] (rs'.map fun r => (noFaults, .insert r)) (emptyDb [byEmail, byRegion])).2 := by
  obtain ⟨rs, -, hrestored⟩ := restored (keysOk_unsigned 1) (by decide) lawfulCodec_user reach_oneUser
  exact ⟨rs, fun rs' hperm => (hrestored rs' hperm).2⟩

end Collette
