/-
  Collette.Collection.Faults — calls of the backend that fail.

  A program that runs among faults is in the state of the one that runs without, the log
  included, for as long as no call has failed: every call is noted with what it returned,
  and none has returned an error of the backend yet. The first that does ends the program
  with that error, for each is followed by `?`. So two states that differ in their faults
  only (`Calm`) stay such two until one of them errs, through every call (`calm_backend`)
  and by the rules for sequences through every operation, `get` and scan.

  - `faults_surface`: whichever calls fail, a program returns what it returns when none
    does and commits the same stores, or it returns an error of the backend that some
    call had. No answer is made from a call that failed.
-/

import Collette.Scan.Lookup

namespace Collette

open Prog

/-- The state without its faults. -/
def Calm (F : List Event → Option BackendError) (s t : World) : Prop := s.faults = F ∧ t = { s with faults := noFaults }

/-- An error that the backend has in store. -/
def Surfaced (F : List Event → Option BackendError) (e : Error) : Prop := ∃ log b, F log = some b ∧ e = .backend b

/-- It ends as it does without faults, or in one of them. -/
abbrev Surfaces {α : Type} (F : List Event → Option BackendError) (p : Prog World Error α) : Prop :=
  TwinsUnless (Calm F) (Surfaced F) p

section Calls

variable {F : List Event → Option BackendError} {α : Type}

theorem calm_fault : TwinsUnless (Calm F) (fun b => ∃ log, F log = some b) fault := by
  intro s t h
  obtain ⟨rfl, rfl⟩ := h
  cases hf : s.faults s.log with
  | some b => exact Or.inl ⟨b, ⟨s.log, hf⟩, by simp only [fault, hf]⟩
  | none =>
    refine Or.inr ?_
    simp only [fault, hf, noFaults]
    exact ⟨trivial, rfl, rfl⟩

theorem calm_staged (name : String) : Twins (Calm F) (staged name) := by
  intro s t h
  obtain ⟨rfl, rfl⟩ := h
  unfold staged
  cases hst : s.tx.bind (· name) with
  | some store => exact ⟨rfl, rfl, rfl⟩
  | none => exact ⟨rfl, rfl, rfl⟩

theorem calm_stage (name : String) (store : KVStore) : Twins (Calm F) (stage name store) := by
  intro s t h
  obtain ⟨rfl, rfl⟩ := h
  exact ⟨rfl, rfl, rfl⟩

theorem calm_publish : Twins (Calm F) publish := by
  intro s t h
  obtain ⟨rfl, rfl⟩ := h
  unfold publish
  cases htx : s.tx with
  | some staged => exact ⟨rfl, rfl, rfl⟩
  | none => exact ⟨rfl, rfl, by rw [htx]⟩

theorem surfaces_observe (call : Call) {p : Prog World Error α} (h : Surfaces F p) : Surfaces F (observe call p) := by
  intro s t hst
  rcases h s t hst with herr | ⟨hout, hcalm⟩
  · exact Or.inl herr
  · refine Or.inr ⟨hout, hcalm.1, ?_⟩
    show ({ (p t).2 with log := (p t).2.log ++ [⟨call, (p t).1.err⟩] } : World) = _
    rw [hcalm.2, ← hout]
    rfl

theorem surfaces_backend (call : Call) {p : Prog World BackendError α} (h : Twins (Calm F) p) :
    Surfaces F (backend call p) :=
  surfaces_observe call ((calm_fault.bind fun _ => h.unless).mapErr fun b hb => ⟨hb.choose, b, hb.choose_spec, rfl⟩)

theorem surfaces_codec (call : Call) (x : Except CodecError α) : Surfaces F (codec call x) :=
  surfaces_observe call (Twins.ofExcept x).mapErr.unless

theorem surfaces_write : Surfaces F write := by
  refine surfaces_backend .write fun s t h => ?_
  obtain ⟨rfl, rfl⟩ := h
  exact ⟨rfl, rfl, rfl⟩

theorem surfaces_commit : Surfaces F commit := surfaces_backend .commit calm_publish

theorem surfaces_openStore (name : String) : Surfaces F (openStore name) :=
  surfaces_backend _ ((calm_staged name).bind fun _ _ _ _ => Twins.pure _)

theorem surfaces_get (store : WriteStore) (key : Bytes) : Surfaces F (store.get key) :=
  surfaces_backend _ ((calm_staged _).bind fun _ _ _ _ => Twins.pure _)

theorem surfaces_set (store : WriteStore) (key value : Bytes) : Surfaces F (store.set key value) :=
  surfaces_backend _ ((calm_staged _).bind fun _ _ _ _ => calm_stage _ _)

theorem surfaces_remove (store : WriteStore) (key : Bytes) : Surfaces F (store.remove key) :=
  surfaces_backend _ ((calm_staged _).bind fun _ _ _ _ => calm_stage _ _)

theorem surfaces_read : Surfaces F read := by
  refine surfaces_backend .read fun s t h => ?_
  obtain ⟨rfl, rfl⟩ := h
  exact ⟨rfl, rfl, rfl⟩

theorem surfaces_openReadStore (handle : Stores) (name : String) : Surfaces F (openReadStore handle name) :=
  surfaces_backend _ ((Twins.unwrap _).bind fun _ _ _ _ => Twins.pure _)

theorem surfaces_readGet (store : ReadStore) (key : Bytes) : Surfaces F (store.get key) :=
  surfaces_backend _ (Twins.pure _)

theorem surfaces_scan (store : ReadStore) (range : ScanRange) (direction : Direction) :
    Surfaces F (store.scan range direction) := surfaces_backend _ (Twins.unwrap _)

end Calls

section Programs

variable {F : List Event → Option BackendError} {Record PK PO PO' : Type} [Key PK PO]

/-! ## Operations -/

theorem surfaces_indexUpdate (I : Index Record PK) (pk : PK) (old : Option Record) (new : Record) :
    Surfaces F (I.update pk old new) := by
  have hset : ∀ store : WriteStore, Surfaces F (do
      if (← store.get (encode (I.kind.storeKey (I.key new) pk))).isSome then
        Prog.throw (.alreadyExists (Debug.fmt (I.kind.storeKey (I.key new) pk)))
      store.set (encode (I.kind.storeKey (I.key new) pk)) (encode pk)) := fun store =>
    (surfaces_get _ _).bind fun _ =>
      ((TwinsUnless.throw _).bind fun _ => surfaces_set _ _ _).ite (surfaces_set _ _ _)
  refine surfaces_observe _ ((surfaces_openStore _).bind fun store => ?_)
  cases old with
  | some item => exact (TwinsUnless.pure _).ite ((surfaces_remove _ _).bind fun _ => hset store)
  | none => exact hset store

theorem surfaces_updateIndexes (pk : PK) (old : Option Record) (new : Record) (indexes : List (Index Record PK)) :
    Surfaces F (updateIndexes pk old new indexes) := by
  induction indexes with
  | nil => exact TwinsUnless.pure ()
  | cons I tail ih => exact (surfaces_indexUpdate I pk old new).bind fun _ => ih

theorem surfaces_removeIndexes (pk : PK) (item : Record) (indexes : List (Index Record PK)) :
    Surfaces F (removeIndexes pk item indexes) := by
  induction indexes with
  | nil => exact TwinsUnless.pure ()
  | cons I tail ih =>
    exact (surfaces_observe _ ((surfaces_openStore _).bind fun _ => surfaces_remove _ _)).bind fun _ => ih

variable [Item Record PK]

theorem surfaces_decodeRecord (bytes : Option Bytes) :
    Surfaces F (decodeRecord bytes : Prog World Error (Option Record)) := by
  cases bytes with
  | some b => exact (surfaces_codec _ _).bind fun _ => TwinsUnless.pure _
  | none => exact TwinsUnless.pure _

/-- What `insert`, `update` and `save` end with. -/
theorem surfaces_store (indexes : List (Index Record PK)) (store : WriteStore) (old : Option Record) (value : Record) :
    Surfaces F (do
      store.set (encode (Item.key value)) (← codec .toBytes (Item.toBytes value))
      updateIndexes (Item.key value) old value indexes
      commit) :=
  (surfaces_codec _ _).bind fun _ => (surfaces_set _ _ _).bind fun _ =>
    (surfaces_updateIndexes _ _ _ _).bind fun _ => surfaces_commit

theorem surfaces_op [Key PO PO'] [Debug PK] (indexes : List (Index Record PK)) (op : Op Record PO) :
    Surfaces F (op.run indexes) := by
  cases op with
  | insert value =>
    refine surfaces_write.bind fun _ => (surfaces_openStore _).bind fun store => (surfaces_get _ _).bind fun _ => ?_
    exact ((TwinsUnless.throw _).bind fun _ => surfaces_store indexes store none value).ite
      (surfaces_store indexes store none value)
  | update value =>
    refine surfaces_write.bind fun _ => (surfaces_openStore _).bind fun store => (surfaces_get _ _).bind fun _ =>
      (surfaces_decodeRecord _).bind fun old => ?_
    exact ((TwinsUnless.throw _).bind fun _ => surfaces_store indexes store old value).ite
      (surfaces_store indexes store old value)
  | save value =>
    exact surfaces_write.bind fun _ => (surfaces_openStore _).bind fun store => (surfaces_get _ _).bind fun _ =>
      (surfaces_decodeRecord _).bind fun old => surfaces_store indexes store old value
  | remove pk =>
    refine surfaces_write.bind fun _ => (surfaces_openStore _).bind fun store => (surfaces_get _ _).bind fun _ =>
      (surfaces_decodeRecord _).bind fun old => ?_
    cases old with
    | none => exact TwinsUnless.pure _
    | some record =>
      exact (surfaces_remove _ _).bind fun _ => (surfaces_removeIndexes _ _ _).bind fun _ => surfaces_commit

/-! ## Reads -/

omit [Key PK PO] in
theorem surfaces_lookup [Key PO PO'] (pk : PO) : Surfaces F (get Record pk) :=
  surfaces_read.bind fun _ => (surfaces_openReadStore _ _).bind fun _ => (surfaces_readGet _ _).bind fun _ =>
    surfaces_decodeRecord _

theorem surfaces_indexGet {O : Type} (I : Index Record PK) [Key I.IndexOwnedKey O] (handle : Stores)
    (key : I.IndexOwnedKey) : Surfaces F (IndexScan.get I handle key) := by
  refine (surfaces_openReadStore _ _).bind fun _ => (surfaces_readGet _ _).bind fun found => ?_
  cases found with
  | none => exact TwinsUnless.pure _
  | some primaryKey =>
    exact (surfaces_openReadStore _ _).bind fun _ => (surfaces_readGet _ _).bind fun _ => surfaces_decodeRecord _

variable {e : ScanExecutor Record PK}

omit [Item Record PK] in
theorem surfaces_iter (handle : Stores) (scan : Scan e.LogicalKey) : Surfaces F (e.iter handle scan) := by
  refine (Twins.ofExcept _).unless.bind fun c => ?_
  cases e with
  | collection =>
    exact (surfaces_openReadStore _ _).bind fun _ => (surfaces_scan _ _ _).bind fun _ => TwinsUnless.pure _
  | index I =>
    exact (surfaces_openReadStore _ _).bind fun _ => (surfaces_scan _ _ _).bind fun _ =>
      (surfaces_openReadStore _ _).bind fun _ => TwinsUnless.pure _

omit [Key PK PO] in
theorem surfaces_next {it it' : ScanIterator Record} {result : Prog World Error (Entry Record)}
    (h : it.next = some (result, it')) : Surfaces F result := by
  cases it with
  | collection inner =>
    cases inner with
    | nil => cases h
    | cons entry inner =>
      cases h
      exact (surfaces_backend _ (Twins.pure _)).bind fun _ => (surfaces_codec _ _).bind fun _ => TwinsUnless.pure _
  | index inner primaryStore =>
    cases inner with
    | nil => cases h
    | cons entry inner =>
      cases h
      refine (surfaces_backend _ (Twins.pure _)).bind fun _ => (surfaces_readGet _ _).bind fun found => ?_
      cases found with
      | none => exact TwinsUnless.throw _
      | some bytes => exact (surfaces_codec _ _).bind fun _ => TwinsUnless.pure _

omit [Key PK PO] in
theorem surfaces_collect (it : ScanIterator Record) : Surfaces F it.collect := by
  cases hnext : it.next with
  | none =>
    rw [collect_none hnext]
    exact TwinsUnless.pure []
  | some next =>
    obtain ⟨result, it'⟩ := next
    have hless := remaining_next hnext
    rw [collect_some hnext]
    exact (surfaces_next hnext).bind fun _ => (surfaces_collect it').bind fun _ => TwinsUnless.pure _
termination_by it.remaining

theorem surfaces_runScan (scan : Scan e.LogicalKey) : Surfaces F (runScan e scan) :=
  surfaces_read.bind fun _ => (surfaces_iter _ _).bind fun _ => surfaces_collect _

omit [Key PK PO] [Item Record PK] in
/-- From the start of a program. -/
theorem Surfaces.start {α : Type} {p : Prog World Error α} (h : Surfaces F p) (db : Stores) :
    (∃ e, Surfaced F e ∧ (p (World.start F db)).1 = .error e) ∨
      (p (World.start F db)).1 = (p (World.start noFaults db)).1 ∧
        (p (World.start F db)).2.committed = (p (World.start noFaults db)).2.committed := by
  rcases h (World.start F db) (World.start noFaults db) ⟨rfl, rfl⟩ with herr | ⟨hout, -, hcalm⟩
  · exact Or.inl herr
  · exact Or.inr ⟨hout, by rw [hcalm]⟩

end Programs

/-- Whichever calls fail, an operation answers and commits what it does when none fails,
    or returns an error that the backend had; and so it is with what is read. -/
theorem faults_surface {Record PK PO PO' : Type} [Key PK PO] [Key PO PO'] [Debug PK] [Item Record PK]
    (F : List Event → Option BackendError) (db : Stores) :
    (∀ (indexes : List (Index Record PK)) (op : Op Record PO),
      (∃ e, Surfaced F e ∧ (op.exec indexes F db).1 = .error e) ∨
        op.exec indexes F db = op.exec indexes noFaults db) ∧
    (∀ pk : PO, (∃ e, Surfaced F e ∧ (get Record pk (World.start F db)).1 = .error e) ∨
        (get Record pk (World.start F db)).1 = (get Record pk (World.start noFaults db)).1) ∧
    (∀ (O : Type) (I : Index Record PK) [Key I.IndexOwnedKey O] (handle : Stores) (key : I.IndexOwnedKey),
      (∃ e, Surfaced F e ∧ (IndexScan.get I handle key (World.start F db)).1 = .error e) ∨
        (IndexScan.get I handle key (World.start F db)).1 = (IndexScan.get I handle key (World.start noFaults db)).1) ∧
    ∀ (e : ScanExecutor Record PK) (scan : Scan e.LogicalKey),
      (∃ err, Surfaced F err ∧ (runScan e scan (World.start F db)).1 = .error err) ∨
        (runScan e scan (World.start F db)).1 = (runScan e scan (World.start noFaults db)).1 := by
  refine ⟨fun indexes op => ?_, fun pk => ?_, fun O I _ handle key => ?_, fun e scan => ?_⟩
  · exact ((surfaces_op indexes op).start db).imp_right fun h => Prod.ext h.1 h.2
  · exact ((surfaces_lookup pk).start db).imp_right And.left
  · exact ((surfaces_indexGet I handle key).start db).imp_right And.left
  · exact ((surfaces_runScan scan).start db).imp_right And.left

end Collette
