/-
  Collette.Collection.Refinement — a collection refines a finite map with uniqueness
  constraints.

  `prescribe` is the purpose of the component, without stores or bytes: a map from
  primary keys to records, in which no two records share a key of a `Unique` index, and
  what each command answers. With a backend that reports no errors and a codec that
  takes every record, `collection_refines_map` says a run of commands on a collection
  answers what the map prescribes, step by step. The simulation relation is `Rep`.

  - `conflict_iff`: a record finds its place in an index taken exactly when the index is
    `Unique` and a record with another primary key has its key. So a `Multi` index never
    refuses, and a record never conflicts with its own old entry.
  - `refines_step`: one command.
-/

import Collette.Collection.Consistency

namespace Collette

open Prog Collette.Lex Collette.Table

variable {Record PK PO PO' : Type} [Key PK PO] [Key PO PO'] [Item Record PK]

/-! ## Conflicts -/

/-- Another record of the map has `r`'s key in the `Unique` index `I`. -/
def Index.Taken (own : PK → PO) (M : PO → Option Record) (I : Index Record PK) (r : Record) : Prop :=
  I.IsUnique ∧ ∃ r', Mem (pkey own) M r' ∧ Item.key r' ≠ Item.key r ∧ I.key r' = I.key r

section Conflicts

variable {own : PK → PO} {M : PO → Option Record} {I : Index Record PK}

/-- Records with different primary keys meet in an index only in a `Unique` one, under
    one index key. -/
theorem place_eq_iff (hk : KeysOk own) (hI : SelfDelimiting (encode : I.IndexKey → Bytes)) {r r' : Record}
    (hne : Item.key r' ≠ Item.key r) : I.place r' = I.place r ↔ I.IsUnique ∧ I.key r' = I.key r := by
  unfold Index.place Index.IsUnique
  cases hkind : I.kind with
  | unique eq debug =>
    exact ⟨fun h => ⟨trivial, hI.injective h⟩, fun h => by rw [h.2]; rfl⟩
  | multi key append eq debug =>
    refine iff_of_false (fun h => ?_) fun h => h.1
    have h' : encode (I.key r') ++ encode (Item.key r') = encode (I.key r) ++ encode (Item.key r) := by
      rw [← append.encode_append, ← append.encode_append]; exact h
    exact hne (hk.injective (hI.of_append h').2)

theorem conflict_iff (hk : KeysOk own) (hI : SelfDelimiting (encode : I.IndexKey → Bytes)) (r : Record) :
    I.Conflict own M r ↔ I.Taken own M r := by
  constructor
  · intro hm
    obtain ⟨r', hr', hne, hplace⟩ := hm
    have hne' : Item.key r' ≠ Item.key r := fun e => hne (congrArg own e)
    obtain ⟨hu, hkey⟩ := (place_eq_iff hk hI hne').mp hplace
    exact ⟨hu, r', hr', hne', hkey⟩
  · intro hm
    obtain ⟨hu, r', hr', hne, hkey⟩ := hm
    exact ⟨r', hr', fun e => hne (hk.eq_iff.mp e), (place_eq_iff hk hI hne).mpr ⟨hu, hkey⟩⟩

end Conflicts

/-! ## The map -/

inductive Cmd (Record PO : Type) where
  | op (op : Op Record PO)
  | get (pk : PO)

inductive Answer (Record : Type) where
  | done
  | alreadyExists
  | notFound
  | found (record : Option Record)

section Map

variable (own : PK → PO) (indexes : List (Index Record PK)) (M : PO → Option Record)

open Classical in
/-- Fails if the primary key or a `Unique` key of the record is in the map. -/
noncomputable def prescribeInsert (r : Record) : Answer Record × (PO → Option Record) :=
  if M (pkey own r) ≠ none ∨ ∃ I ∈ indexes, I.IsUnique ∧ ∃ r', Mem (pkey own) M r' ∧ I.key r' = I.key r then
    (.alreadyExists, M)
  else (.done, put (pkey own) M r)

open Classical in
/-- Fails if the primary key is not in the map, or another record has a `Unique` key of
    the record. -/
noncomputable def prescribeUpdate (r : Record) : Answer Record × (PO → Option Record) :=
  if M (pkey own r) = none then (.notFound, M)
  else if ∃ I ∈ indexes, I.Taken own M r then (.alreadyExists, M)
  else (.done, put (pkey own) M r)

open Classical in
/-- What the map answers to a command, and the map after it. -/
noncomputable def prescribe : Cmd Record PO → Answer Record × (PO → Option Record)
  | .op (.insert r) => prescribeInsert own indexes M r
  | .op (.update r) => prescribeUpdate own indexes M r
  | .op (.save r) =>
    if M (pkey own r) ≠ none then prescribeUpdate own indexes M r else prescribeInsert own indexes M r
  | .op (.remove pk) => (.done, del M pk)
  | .get pk => (.found (M pk), M)

end Map

noncomputable def prescribeAll (own : PK → PO) (indexes : List (Index Record PK)) :
    List (Cmd Record PO) → (PO → Option Record) → List (Answer Record)
  | [], _ => []
  | cmd :: cmds, M => (prescribe own indexes M cmd).1 :: prescribeAll own indexes cmds (prescribe own indexes M cmd).2

/-! ## Runs of the collection -/

/-- An outcome with the texts of its error left out; `none` is a panic or an error no
    map reports. -/
def answer : Outcome Error Unit → Option (Answer Record)
  | .ok () => some .done
  | .error (.alreadyExists _) => some .alreadyExists
  | .error (.notFound _) => some .notFound
  | _ => none

section Run

variable [Debug PK] (indexes : List (Index Record PK))

/-- A command on the committed stores, no call failing. -/
def Cmd.exec (db : Stores) : Cmd Record PO → Option (Answer Record) × Stores
  | .op o =>
    let r := o.exec indexes noFaults db
    (answer r.1, r.2)
  | .get pk =>
    match Collette.get Record pk (World.start noFaults db) with
    | (.ok record, s) => (some (.found record), s.committed)
    | (_, s) => (none, s.committed)

def runAll : List (Cmd Record PO) → Stores → List (Option (Answer Record))
  | [], _ => []
  | cmd :: cmds, db => (cmd.exec indexes db).1 :: runAll cmds (cmd.exec indexes db).2

end Run

/-! ## Refinement -/

/-- The codec takes every record and gives it back. -/
def TotalCodec (Record : Type) {PK : Type} [Item Record PK] : Prop :=
  ∀ r : Record, ∃ b, Item.toBytes r = .ok b ∧ Item.fromBytes b = .ok r

theorem TotalCodec.lawful (h : TotalCodec Record) : LawfulCodec Record := by
  intro r b hb
  obtain ⟨b', hb', hr⟩ := h r
  rw [hb'] at hb
  exact Except.ok.inj hb ▸ hr

section Refinement

variable {own : PK → PO} {indexes : List (Index Record PK)} {M : PO → Option Record} {db : Stores}

/-- When the primary key is free, having the same key in an index is having it taken. -/
theorem shared_iff_taken {r : Record} (hnone : M (pkey own r) = none) :
    (∃ I ∈ indexes, I.IsUnique ∧ ∃ r', Mem (pkey own) M r' ∧ I.key r' = I.key r) ↔ ∃ I ∈ indexes, I.Taken own M r := by
  constructor
  · intro hm
    obtain ⟨I, hI, hu, r', hr', hkey⟩ := hm
    refine ⟨I, hI, hu, r', hr', fun e => ?_, hkey⟩
    have : pkey own r' = pkey own r := congrArg own e
    rw [Mem, this, hnone] at hr'
    cases hr'
  · intro hm
    obtain ⟨I, hI, hu, r', hr', -, hkey⟩ := hm
    exact ⟨I, hI, hu, r', hr', hkey⟩

theorem exists_conflict_iff (hk : KeysOk own) (hI : ∀ I ∈ indexes, SelfDelimiting (encode : I.IndexKey → Bytes))
    (r : Record) : (∃ I ∈ indexes, I.Conflict own M r) ↔ ∃ I ∈ indexes, I.Taken own M r :=
  exists_congr fun I => and_congr_right fun hmem => conflict_iff hk (hI I hmem) r

theorem not_exists_taken (hk : KeysOk own) (hI : ∀ I ∈ indexes, SelfDelimiting (encode : I.IndexKey → Bytes))
    {r : Record} (h : ∀ I ∈ indexes, ¬ I.Conflict own M r) : ¬ ∃ I ∈ indexes, I.Taken own M r := by
  rw [← exists_conflict_iff hk hI]
  simpa using h

variable [Debug PK]

/-- With no faults and a total codec an operation is refused or goes through. -/
theorem exec_cases (hk : KeysOk own) (hnames : (storeNames indexes).Nodup) (hcodec : TotalCodec Record)
    (hrep : Rep own indexes M db) (op : Op Record PO) :
    (∃ db', op.exec indexes noFaults db = (.ok (), db') ∧ op.Accepts own indexes M ∧
        Rep own indexes (op.apply own M) db') ∨
    ∃ e, op.exec indexes noFaults db = (.error e, db) ∧ op.Refuses own indexes M e := by
  have hpost := op_triple (F := noFaults) hk hnames hcodec.lawful hrep op (World.start noFaults db) ⟨rfl, rfl⟩
  unfold Op.exec
  cases hr : op.run indexes (World.start noFaults db) with
  | mk o s =>
    rw [hr] at hpost
    cases o with
    | ok a => exact Or.inl ⟨s.committed, rfl, hpost⟩
    | panic => exact hpost.elim
    | error e =>
      obtain ⟨hc, hblame⟩ := hpost
      refine Or.inr ⟨e, by rw [← hc], ?_⟩
      cases hblame with
      | backend h => cases h
      | codec h =>
        cases op with
        | insert v | update v | save v =>
          obtain ⟨b, hb, -⟩ := hcodec v
          rw [Op.bytes, hb] at h; cases h
        | remove pk => cases h
      | refused h => exact h

/-! ### The map's answers, by conflicts -/

section Answers

variable (hk : KeysOk own) (hI : ∀ I ∈ indexes, SelfDelimiting (encode : I.IndexKey → Bytes)) {r : Record}
include hk hI

omit [Debug PK]

theorem prescribeInsert_done (hnone : M (pkey own r) = none) (hno : ∀ I ∈ indexes, ¬ I.Conflict own M r) :
    prescribeInsert own indexes M r = (.done, put (pkey own) M r) :=
  if_neg (by rw [shared_iff_taken hnone]; exact not_or.mpr ⟨not_not.mpr hnone, not_exists_taken hk hI hno⟩)

theorem prescribeInsert_refused (h : M (pkey own r) ≠ none ∨ ∃ I ∈ indexes, I.Conflict own M r) :
    prescribeInsert own indexes M r = (.alreadyExists, M) := by
  by_cases hnone : M (pkey own r) = none
  · have hc := (exists_conflict_iff hk hI r).mp (h.resolve_left (not_not.mpr hnone))
    exact if_pos (Or.inr ((shared_iff_taken hnone).mpr hc))
  · exact if_pos (Or.inl hnone)

theorem prescribeUpdate_done (hsome : M (pkey own r) ≠ none) (hno : ∀ I ∈ indexes, ¬ I.Conflict own M r) :
    prescribeUpdate own indexes M r = (.done, put (pkey own) M r) := by
  rw [prescribeUpdate, if_neg hsome, if_neg (not_exists_taken hk hI hno)]

theorem prescribeUpdate_refused (hsome : M (pkey own r) ≠ none) (hc : ∃ I ∈ indexes, I.Conflict own M r) :
    prescribeUpdate own indexes M r = (.alreadyExists, M) := by
  rw [prescribeUpdate, if_neg hsome, if_pos ((exists_conflict_iff hk hI r).mp hc)]

theorem prescribe_accepted {op : Op Record PO} (h : op.Accepts own indexes M) :
    prescribe own indexes M (.op op) = (.done, op.apply own M) := by
  cases op with
  | insert r => exact prescribeInsert_done hk hI h.1 h.2
  | update r => exact prescribeUpdate_done hk hI h.1 h.2
  | save r =>
    show (if M (pkey own r) ≠ none then _ else _) = _
    split
    · exact prescribeUpdate_done hk hI ‹_› h
    · exact prescribeInsert_done hk hI (not_not.mp ‹_›) h
  | remove pk => rfl

theorem prescribe_refused {op : Op Record PO} {e : Error} (h : op.Refuses own indexes M e) :
    ∃ a, answer (.error e) = some a ∧ prescribe own indexes M (.op op) = (a, M) := by
  cases op with
  | insert r =>
    obtain ⟨⟨key, rfl⟩, hc⟩ := h
    exact ⟨_, rfl, prescribeInsert_refused hk hI hc⟩
  | update r =>
    rcases h with ⟨⟨key, rfl⟩, hnone⟩ | ⟨⟨key, rfl⟩, hsome, hc⟩
    · exact ⟨_, rfl, if_pos hnone⟩
    · exact ⟨_, rfl, prescribeUpdate_refused hk hI hsome hc⟩
  | save r =>
    obtain ⟨⟨key, rfl⟩, hc⟩ := h
    refine ⟨_, rfl, ?_⟩
    show (if M (pkey own r) ≠ none then _ else _) = _
    split
    · exact prescribeUpdate_refused hk hI ‹_› hc
    · exact prescribeInsert_refused hk hI (Or.inr hc)
  | remove pk => exact h.elim

end Answers

/-! ### Simulation -/

theorem refines_op (hk : KeysOk own) (hI : ∀ I ∈ indexes, SelfDelimiting (encode : I.IndexKey → Bytes))
    (hnames : (storeNames indexes).Nodup) (hcodec : TotalCodec Record) (hrep : Rep own indexes M db)
    (op : Op Record PO) :
    (Cmd.exec indexes db (.op op)).1 = some (prescribe own indexes M (.op op)).1 ∧
      Rep own indexes (prescribe own indexes M (.op op)).2 (Cmd.exec indexes db (.op op)).2 := by
  show answer (op.exec indexes noFaults db).1 = _ ∧ Rep _ _ _ (op.exec indexes noFaults db).2
  rcases exec_cases hk hnames hcodec hrep op with ⟨db', h, hacc, hrep'⟩ | ⟨e, h, href⟩
  · rw [h, prescribe_accepted hk hI hacc]
    exact ⟨rfl, hrep'⟩
  · obtain ⟨a, ha, hp⟩ := prescribe_refused hk hI href
    rw [h, hp]
    exact ⟨ha, hrep⟩

theorem refines_get (hk : KeysOk own) (hcodec : TotalCodec Record) (hrep : Rep own indexes M db) (pk : PO) :
    (Cmd.exec indexes db (.get pk)).1 = some (.found (M pk)) ∧
      Rep own indexes M (Cmd.exec indexes db (.get pk)).2 := by
  obtain ⟨s, hget, hc⟩ := get_ok hk hcodec.lawful hrep pk
  rw [Cmd.exec, hget]
  refine ⟨rfl, ?_⟩
  show Rep own indexes M s.committed
  rw [hc]
  exact hrep

/-- One command answers what the map prescribes, and the stores keep standing for the
    map. -/
theorem refines_step (hk : KeysOk own) (hI : ∀ I ∈ indexes, SelfDelimiting (encode : I.IndexKey → Bytes))
    (hnames : (storeNames indexes).Nodup) (hcodec : TotalCodec Record) (hrep : Rep own indexes M db)
    (cmd : Cmd Record PO) :
    (Cmd.exec indexes db cmd).1 = some (prescribe own indexes M cmd).1 ∧
      Rep own indexes (prescribe own indexes M cmd).2 (Cmd.exec indexes db cmd).2 := by
  cases cmd with
  | op op => exact refines_op hk hI hnames hcodec hrep op
  | get pk => exact refines_get hk hcodec hrep pk

theorem refines_run (hk : KeysOk own) (hI : ∀ I ∈ indexes, SelfDelimiting (encode : I.IndexKey → Bytes))
    (hnames : (storeNames indexes).Nodup) (hcodec : TotalCodec Record) (hrep : Rep own indexes M db)
    (cmds : List (Cmd Record PO)) : runAll indexes cmds db = (prescribeAll own indexes cmds M).map some := by
  induction cmds generalizing M db with
  | nil => rfl
  | cons cmd cmds ih =>
    obtain ⟨ha, hrep'⟩ := refines_step hk hI hnames hcodec hrep cmd
    rw [runAll, prescribeAll, List.map_cons, ha, ih hrep']

/-- Every run of commands on an empty collection answers what the map prescribes. -/
theorem collection_refines_map (hk : KeysOk own)
    (hI : ∀ I ∈ indexes, SelfDelimiting (encode : I.IndexKey → Bytes)) (hnames : (storeNames indexes).Nodup)
    (hcodec : TotalCodec Record) (cmds : List (Cmd Record PO)) :
    runAll indexes cmds (emptyDb indexes) = (prescribeAll own indexes cmds fun _ => none).map some :=
  refines_run hk hI hnames hcodec (rep_empty own indexes) cmds

end Refinement

theorem collection_refines_map_users :
    runAll [byEmail, byRegion] [.op (.insert ⟨1, 1, 1⟩), .op (.save ⟨2, 1, 1⟩), .get (⟨1⟩ : Unsigned 1)]
        (emptyDb [byEmail, byRegion]) =
      (prescribeAll id [byEmail, byRegion] [.op (.insert ⟨1, 1, 1⟩), .op (.save ⟨2, 1, 1⟩), .get (⟨1⟩ : Unsigned 1)]
        fun _ => none).map some := by
  refine collection_refines_map (keysOk_unsigned 1) (fun I hI => ?_) (by decide) (fun user => ⟨_, rfl, rfl⟩) _
  rcases List.mem_cons.mp hI with rfl | hI
  · exact (good_unsigned 1).selfDelimiting
  · rw [List.mem_singleton.mp hI]
    exact (good_tup1 (good_unsigned 1)).selfDelimiting

end Collette
