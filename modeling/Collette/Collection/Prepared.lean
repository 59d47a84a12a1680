/-
  Collette.Collection.Prepared — what every operation keeps, and that prepared stores stay
  prepared.

  All an operation does to the committed stores and to its transaction, it does by a few
  calls (`Calls`), which change a store by one key at a time (`StoreCalls`). A preorder
  that those calls step along is one that whole operations step along, whichever of the
  calls fail (`op_steps`, `op_storeSteps`).

  - `reach_prepared`: in every reachable state the main store and the store of every
    index are there, so opening one never panics. No assumption on the codec, on the
    keys or on the names is needed for that.
-/

import Collette.Collection.Model

namespace Collette

open Prog

/-! ## Calls -/

/-- The calls of an operation are steps of `R`, which does not look at the log. -/
structure Calls (R : World → World → Prop) : Prop where
  log : ∀ s log, R s { s with log := log }
  write : ∀ s, R s { s with tx := some s.committed }
  stage : ∀ s t name store, s.tx = some t → R s { s with tx := some (upd t name store) }
  publish : ∀ s t, s.tx = some t → R s { s with committed := t, tx := none }

/-- The same, a store being changed by a `set` or a `remove` of one of its keys. -/
structure StoreCalls (R : World → World → Prop) : Prop where
  log : ∀ s log, R s { s with log := log }
  write : ∀ s, R s { s with tx := some s.committed }
  set : ∀ s t name st key value, s.tx = some t → t name = some st →
    R s { s with tx := some (upd t name (st.insert key value)) }
  remove : ∀ s t name st key, s.tx = some t → t name = some st →
    R s { s with tx := some (upd t name (st.erase key)) }
  publish : ∀ s t, s.tx = some t → R s { s with committed := t, tx := none }

theorem Calls.storeCalls {R : World → World → Prop} (h : Calls R) : StoreCalls R where
  log := h.log
  write := h.write
  set s t name _ _ _ htx _ := h.stage s t name _ htx
  remove s t name _ _ htx _ := h.stage s t name _ htx
  publish := h.publish

section Steps

variable {R : World → World → Prop} [IsPreorder World R] {α : Type} (h : StoreCalls R)
include h

theorem StoreCalls.observe (call : Call) {p : Prog World Error α} (hp : Steps R p) : Steps R (observe call p) :=
  fun s => IsTrans.trans _ _ _ (hp s) (h.log _ _)

omit h in
/-- A change of a store that the transaction sees; where it sees none there is no change. -/
theorem stage_steps {name : String} {f : KVStore → KVStore}
    (hf : ∀ s t st, s.tx = some t → t name = some st → R s { s with tx := some (upd t name (f st)) }) :
    Steps R (staged name >>= fun st => stage name (f st)) := by
  intro s
  cases hst : s.tx.bind (· name) with
  | some st =>
    have hseen : staged name s = (.ok st, s) := by
      unfold staged
      rw [hst]
    obtain ⟨t, htx, hname⟩ := Option.bind_eq_some_iff.mp hst
    rw [bind_ok hseen]
    show R s { s with tx := s.tx.map fun t => upd t name (f st) }
    rw [htx]
    exact hf s t st htx hname
  | none =>
    have hunseen : staged name s = (.panic, s) := by
      unfold staged
      rw [hst]
    rw [bind_panic hunseen]
    exact refl s

theorem StoreCalls.publishStep : Steps R Collette.publish := by
  intro s
  unfold Collette.publish
  cases htx : s.tx with
  | none => exact refl s
  | some t => exact h.publish s t htx

theorem StoreCalls.backend (call : Call) {p : Prog World BackendError α} (hp : Steps R p) :
    Steps R (backend call p) :=
  h.observe call (steps_fault.bind fun _ => hp).mapErr

theorem StoreCalls.codec (call : Call) (x : Except CodecError α) : Steps R (codec call x) :=
  h.observe call (Steps.ofExcept x).mapErr

theorem StoreCalls.begin : Steps R Collette.write := h.backend _ fun s => h.write s

theorem StoreCalls.commit : Steps R Collette.commit := h.backend _ h.publishStep

theorem StoreCalls.openStore (name : String) : Steps R (openStore name) :=
  h.backend _ ((steps_staged name).bind fun _ => Steps.pure _)

theorem StoreCalls.get (store : WriteStore) (key : Bytes) : Steps R (store.get key) :=
  h.backend _ ((steps_staged _).bind fun _ => Steps.pure _)

theorem StoreCalls.setStep (store : WriteStore) (key value : Bytes) : Steps R (store.set key value) :=
  h.backend _ (stage_steps fun s t st => h.set s t store.name st key value)

theorem StoreCalls.removeStep (store : WriteStore) (key : Bytes) : Steps R (store.remove key) :=
  h.backend _ (stage_steps fun s t st => h.remove s t store.name st key)

omit h [IsPreorder World R] in
theorem steps_ite {c : Prop} [Decidable c] {p q : Prog World Error α} (hp : Steps R p) (hq : Steps R q) :
    Steps R (if c then p else q) := by
  split
  · exact hp
  · exact hq

/-! ## Operations -/

variable {Record PK PO PO' : Type} [Key PK PO]

theorem indexUpdate_steps (I : Index Record PK) (pk : PK) (old : Option Record) (new : Record) :
    Steps R (I.update pk old new) := by
  have hset : ∀ store : WriteStore, Steps R (do
      if (← store.get (encode (I.kind.storeKey (I.key new) pk))).isSome then
        Prog.throw (.alreadyExists (Debug.fmt (I.kind.storeKey (I.key new) pk)))
      store.set (encode (I.kind.storeKey (I.key new) pk)) (encode pk)) := fun store =>
    (h.get _ _).bind fun _ => steps_ite ((Steps.throw _).bind fun _ => h.setStep _ _ _) (h.setStep _ _ _)
  refine h.observe _ ((h.openStore _).bind fun store => ?_)
  cases old with
  | some item => exact steps_ite (Steps.pure _) ((h.removeStep _ _).bind fun _ => hset store)
  | none => exact hset store

theorem updateIndexes_steps (pk : PK) (old : Option Record) (new : Record) (indexes : List (Index Record PK)) :
    Steps R (updateIndexes pk old new indexes) := by
  induction indexes with
  | nil => exact Steps.pure ()
  | cons I tail ih => exact (indexUpdate_steps h I pk old new).bind fun _ => ih

theorem removeIndexes_steps (pk : PK) (item : Record) (indexes : List (Index Record PK)) :
    Steps R (removeIndexes pk item indexes) := by
  induction indexes with
  | nil => exact Steps.pure ()
  | cons I tail ih =>
    exact (h.observe _ ((h.openStore _).bind fun _ => h.removeStep _ _)).bind fun _ => ih

variable [Item Record PK]

theorem decodeRecord_steps (bytes : Option Bytes) :
    Steps R (decodeRecord bytes : Prog World Error (Option Record)) := by
  cases bytes with
  | some b => exact (h.codec _ _).bind fun _ => Steps.pure _
  | none => exact Steps.pure _

/-- What `insert`, `update` and `save` end with. -/
theorem store_steps (indexes : List (Index Record PK)) (store : WriteStore) (old : Option Record) (value : Record) :
    Steps R (do
      store.set (encode (Item.key value)) (← codec .toBytes (Item.toBytes value))
      updateIndexes (Item.key value) old value indexes
      commit) :=
  (h.codec _ _).bind fun _ => (h.setStep _ _ _).bind fun _ => (updateIndexes_steps h _ _ _ _).bind fun _ => h.commit

variable [Key PO PO'] [Debug PK]

theorem op_storeSteps (indexes : List (Index Record PK)) (op : Op Record PO) : Steps R (op.run indexes) := by
  cases op with
  | insert value =>
    refine h.begin.bind fun _ => (h.openStore _).bind fun store => (h.get _ _).bind fun _ => ?_
    exact steps_ite ((Steps.throw _).bind fun _ => store_steps h indexes store none value)
      (store_steps h indexes store none value)
  | update value =>
    refine h.begin.bind fun _ => (h.openStore _).bind fun store => (h.get _ _).bind fun _ =>
      (decodeRecord_steps h _).bind fun old => ?_
    exact steps_ite ((Steps.throw _).bind fun _ => store_steps h indexes store old value)
      (store_steps h indexes store old value)
  | save value =>
    exact h.begin.bind fun _ => (h.openStore _).bind fun store => (h.get _ _).bind fun _ =>
      (decodeRecord_steps h _).bind fun old => store_steps h indexes store old value
  | remove pk =>
    refine h.begin.bind fun _ => (h.openStore _).bind fun store => (h.get _ _).bind fun _ =>
      (decodeRecord_steps h _).bind fun old => ?_
    cases old with
    | none => exact Steps.pure _
    | some record => exact (h.removeStep _ _).bind fun _ => (removeIndexes_steps h _ _ _).bind fun _ => h.commit

omit h in
theorem op_steps (h : Calls R) (indexes : List (Index Record PK)) (op : Op Record PO) : Steps R (op.run indexes) :=
  op_storeSteps h.storeCalls indexes op

end Steps

/-! ## Prepared stores -/

/-- The named stores are there. -/
def Prepared (names : List String) (t : Stores) : Prop := ∀ n ∈ names, ∃ st, t n = some st

theorem prepared_upd {names : List String} {t : Stores} (h : Prepared names t) (name : String) (store : KVStore) :
    Prepared names (upd t name store) := by
  intro n hn
  by_cases e : n = name
  · exact ⟨store, by rw [e, upd_self]⟩
  · rw [upd_ne e]
    exact h n hn

theorem prepared_prepare (names : List String) (t : Stores) : Prepared names (prepare t names) := by
  intro n hn
  unfold prepare
  rw [if_pos hn]
  exact ⟨_, rfl⟩

/-- Prepared in the committed stores and in the open transaction. -/
def Ready (names : List String) (s : World) : Prop :=
  Prepared names s.committed ∧ ∀ t, s.tx = some t → Prepared names t

/-- What is prepared stays prepared. -/
def Keeps (names : List String) (s s' : World) : Prop := Ready names s → Ready names s'

instance (names : List String) : IsPreorder World (Keeps names) where
  refl _ h := h
  trans _ _ _ h1 h2 h := h2 (h1 h)

theorem calls_keeps (names : List String) : Calls (Keeps names) where
  log _ _ h := h
  write _ h := ⟨h.1, fun _ ht => Option.some.inj ht ▸ h.1⟩
  stage _ t name store htx h := ⟨h.1, fun _ ht => Option.some.inj ht ▸ prepared_upd (h.2 t htx) name store⟩
  publish _ t htx h := ⟨h.2 t htx, fun _ ht => by cases ht⟩

theorem reach_prepared {Record PK PO PO' : Type} [Key PK PO] [Key PO PO'] [Debug PK] [Item Record PK]
    {indexes : List (Index Record PK)} {db : Stores} (h : Reach indexes db) : Prepared (storeNames indexes) db := by
  induction h with
  | empty => exact prepared_prepare _ _
  | step F op _ ih =>
    refine (op_steps (calls_keeps (storeNames indexes)) indexes op (World.start F _) ⟨ih, fun t ht => ?_⟩).1
    cases ht

end Collette
