/-
  Collette.Collection.Atomicity — a failure leaves the committed state untouched.

  An operation stages everything and commits last. `Quiet` is what all of it before the
  commit satisfies: no commit is called, the committed stores stay, and an error any
  call returns, a backend call, the codec or the update of an index, is what the program
  returns. It composes, so each operation is quiet up to its last call (`Atomic`).

  - `failure_untouched`: in every run of every operation, whichever calls fail, the error
    of a call is the error of the operation; if that call is not the commit, no commit
    is called; and the committed stores are those before. Removing an absent key
    commits nothing either.
-/

import Collette.Collection.Model

namespace Collette

open Prog

variable {α β : Type}

/-- Neither a call nor a change of the committed stores. -/
def Silent (s s' : World) : Prop := s'.log = s.log ∧ s'.committed = s.committed

instance : IsPreorder World Silent where
  refl _ := ⟨rfl, rfl⟩
  trans _ _ _ h1 h2 := ⟨h2.1.trans h1.1, h2.2.trans h1.2⟩

/-- What a run from `s` reports: the calls it made, and the error of any of them. -/
structure Reports (s : World) (r : Outcome Error α × World) (events : List Event) : Prop where
  log : r.2.log = s.log ++ events
  returned : ∀ ev ∈ events, ∀ e, ev.err = some e → r.1 = .error e

/-- Every run reports its calls, none of which is a commit, and commits nothing. -/
def Quiet (p : Prog World Error α) : Prop :=
  ∀ s, ∃ events, Reports s (p s) events ∧ (∀ ev ∈ events, ev.call ≠ .commit) ∧ (p s).2.committed = s.committed

/-- Every run reports its calls; one that fails commits nothing, and does not call
    `commit` after the call that failed. -/
def Atomic (p : Prog World Error α) : Prop :=
  ∀ s, ∃ events, Reports s (p s) events ∧
    (∀ ev ∈ events, ev.call ≠ .commit → ev.err ≠ none → ∀ ev' ∈ events, ev'.call ≠ .commit) ∧
    ∀ e, (p s).1 = .error e → (p s).2.committed = s.committed

/-! ## Composition -/

theorem Reports.nil {s : World} {r : Outcome Error α × World} (h : r.2.log = s.log) : Reports s r [] :=
  ⟨by rw [h, List.append_nil], by simp⟩

/-- After a program that returned, the reports add up: none of its calls failed. -/
theorem Reports.append {s s' : World} {a : α} {r : Outcome Error β × World} {ev1 ev2 : List Event}
    (h1 : Reports s (.ok a, s') ev1) (h2 : Reports s' r ev2) : Reports s r (ev1 ++ ev2) := by
  refine ⟨by rw [h2.log, h1.log, List.append_assoc], fun ev hmem e he => ?_⟩
  rcases List.mem_append.mp hmem with hmem | hmem
  · exact absurd (h1.returned ev hmem e he) (by simp)
  · exact h2.returned ev hmem e he

/-- A run that does not return reports the same to whatever would have come next. -/
theorem Reports.error {s s' : World} {e : Error} {events : List Event}
    (h : Reports s ((.error e : Outcome Error α), s') events) : Reports s ((.error e : Outcome Error β), s') events :=
  ⟨h.log, fun ev hmem e' he => by rw [Outcome.error.inj (h.returned ev hmem e' he)]⟩

theorem Reports.panic {s s' : World} {events : List Event} (h : Reports s ((.panic : Outcome Error α), s') events) :
    Reports s ((.panic : Outcome Error β), s') events :=
  ⟨h.log, fun ev hmem e' he => by cases h.returned ev hmem e' he⟩

theorem Reports.err_eq_none {s s' : World} {a : α} {events : List Event}
    (h : Reports s ((.ok a : Outcome Error α), s') events) {ev : Event} (hmem : ev ∈ events) : ev.err = none := by
  cases he : ev.err with
  | none => rfl
  | some e => exact absurd (h.returned ev hmem e he) (by simp)

theorem Quiet.of_silent {p : Prog World Error α} (h : Steps Silent p) : Quiet p :=
  fun s => ⟨[], Reports.nil (h s).1, by simp, (h s).2⟩

theorem Quiet.pure (a : α) : Quiet (Pure.pure a) := Quiet.of_silent (Steps.pure a)

theorem Quiet.throw (e : Error) : Quiet (Prog.throw e : Prog World Error α) := Quiet.of_silent (Steps.throw e)

theorem Quiet.bind {p : Prog World Error α} {f : α → Prog World Error β} (hp : Quiet p) (hf : ∀ a, Quiet (f a)) :
    Quiet (p >>= f) := by
  intro s
  obtain ⟨ev1, h1, hn1, hc1⟩ := hp s
  rcases bind_cases p f s with ⟨a, s', hr, h⟩ | ⟨e, s', hr, h⟩ | ⟨s', hr, h⟩
  · obtain ⟨ev2, h2, hn2, hc2⟩ := hf a s'
    rw [hr] at h1 hc1
    rw [h]
    refine ⟨ev1 ++ ev2, h1.append h2, fun ev hmem => ?_, hc2.trans hc1⟩
    rcases List.mem_append.mp hmem with hmem | hmem
    · exact hn1 ev hmem
    · exact hn2 ev hmem
  · rw [hr] at h1 hc1
    rw [h]
    exact ⟨ev1, h1.error, hn1, hc1⟩
  · rw [hr] at h1 hc1
    rw [h]
    exact ⟨ev1, h1.panic, hn1, hc1⟩

theorem Quiet.ite {c : Prop} [Decidable c] {p q : Prog World Error α} (hp : Quiet p) (hq : Quiet q) :
    Quiet (if c then p else q) := by
  split
  · exact hp
  · exact hq

theorem Quiet.observe {p : Prog World Error α} {call : Call} (hcall : call ≠ .commit) (hp : Quiet p) :
    Quiet (observe call p) := by
  intro s
  obtain ⟨events, h, hn, hc⟩ := hp s
  refine ⟨events ++ [⟨call, (p s).1.err⟩], ⟨by rw [← List.append_assoc, ← h.log]; rfl, fun ev hmem e he => ?_⟩,
    fun ev hmem => ?_, hc⟩
  · rcases List.mem_append.mp hmem with hmem | hmem
    · exact h.returned ev hmem e he
    · rw [List.mem_singleton.mp hmem] at he
      exact Outcome.err_eq_some.mp he
  · rcases List.mem_append.mp hmem with hmem | hmem
    · exact hn ev hmem
    · rw [List.mem_singleton.mp hmem]; exact hcall

theorem Atomic.of_quiet {p : Prog World Error α} (h : Quiet p) : Atomic p := by
  intro s
  obtain ⟨events, hr, hn, hc⟩ := h s
  exact ⟨events, hr, fun _ _ _ _ => hn, fun _ _ => hc⟩

theorem Atomic.bind {p : Prog World Error α} {f : α → Prog World Error β} (hp : Quiet p) (hf : ∀ a, Atomic (f a)) :
    Atomic (p >>= f) := by
  intro s
  obtain ⟨ev1, h1, hn1, hc1⟩ := hp s
  rcases bind_cases p f s with ⟨a, s', hr, h⟩ | ⟨e, s', hr, h⟩ | ⟨s', hr, h⟩
  · obtain ⟨ev2, h2, hn2, hc2⟩ := hf a s'
    rw [hr] at h1 hc1
    rw [h]
    refine ⟨ev1 ++ ev2, h1.append h2, fun ev hmem hne herr ev' hmem' => ?_, fun e he => (hc2 e he).trans hc1⟩
    rcases List.mem_append.mp hmem with hmem | hmem
    · exact absurd (h1.err_eq_none hmem) herr
    · rcases List.mem_append.mp hmem' with hmem' | hmem'
      · exact hn1 ev' hmem'
      · exact hn2 ev hmem hne herr ev' hmem'
  · rw [hr] at h1 hc1
    rw [h]
    exact ⟨ev1, h1.error, fun _ _ _ _ => hn1, fun _ _ => hc1⟩
  · rw [hr] at h1 hc1
    rw [h]
    exact ⟨ev1, h1.panic, fun _ _ _ _ => hn1, fun _ _ => hc1⟩

theorem Atomic.ite {c : Prop} [Decidable c] {p q : Prog World Error α} (hp : Atomic p) (hq : Atomic q) :
    Atomic (if c then p else q) := by
  split
  · exact hp
  · exact hq

/-! ## Calls -/

theorem silent_stage (name : String) (store : KVStore) : Steps Silent (stage name store) := fun _ => ⟨rfl, rfl⟩

theorem quiet_backend {p : Prog World BackendError α} {call : Call} (hcall : call ≠ .commit) (hp : Steps Silent p) :
    Quiet (backend call p) :=
  Quiet.observe hcall (Quiet.of_silent (steps_fault.bind fun _ => hp).mapErr)

theorem quiet_codec {call : Call} (hcall : call ≠ .commit) (x : Except CodecError α) : Quiet (codec call x) :=
  Quiet.observe hcall (Quiet.of_silent (Steps.ofExcept x).mapErr)

theorem quiet_write : Quiet write := quiet_backend (by simp) fun _ => ⟨rfl, rfl⟩

theorem quiet_openStore (name : String) : Quiet (openStore name) :=
  quiet_backend (by simp) ((steps_staged name).bind fun _ => Steps.pure _)

theorem quiet_get (store : WriteStore) (key : Bytes) : Quiet (store.get key) :=
  quiet_backend (by simp) ((steps_staged _).bind fun _ => Steps.pure _)

theorem quiet_set (store : WriteStore) (key value : Bytes) : Quiet (store.set key value) :=
  quiet_backend (by simp) ((steps_staged _).bind fun _ => silent_stage _ _)

theorem quiet_remove (store : WriteStore) (key : Bytes) : Quiet (store.remove key) :=
  quiet_backend (by simp) ((steps_staged _).bind fun _ => silent_stage _ _)

/-- `commit` either fails before it publishes or does not fail. -/
theorem commit_cases (s : World) :
    (∃ e s', commit s = (.error e, s') ∧ s'.committed = s.committed ∧ s'.log = s.log ++ [⟨.commit, some e⟩]) ∨
    ∃ o s', commit s = (o, s') ∧ o.err = none ∧ s'.log = s.log ++ [⟨.commit, none⟩] := by
  unfold commit backend observe mapErr
  cases hf : s.faults s.log with
  | some e =>
    have : (fault >>= fun _ => publish) s = (.error e, s) := bind_error (by unfold fault; rw [hf])
    rw [this]
    exact Or.inl ⟨_, _, rfl, rfl, rfl⟩
  | none =>
    have : (fault >>= fun _ => publish) s = publish s := bind_ok (by unfold fault; rw [hf])
    rw [this]
    right
    unfold publish
    cases s.tx with
    | some t => exact ⟨_, _, rfl, rfl, rfl⟩
    | none => exact ⟨_, _, rfl, rfl, rfl⟩

theorem atomic_commit : Atomic commit := by
  intro s
  rcases commit_cases s with ⟨e, s', h, hc, hlog⟩ | ⟨o, s', h, ho, hlog⟩
  · rw [h]
    refine ⟨_, ⟨hlog, fun ev hmem e' he => ?_⟩, fun ev hmem hne => ?_, fun _ _ => hc⟩
    · rw [List.mem_singleton.mp hmem] at he
      cases he; rfl
    · rw [List.mem_singleton.mp hmem] at hne
      exact absurd rfl hne
  · rw [h]
    refine ⟨_, ⟨hlog, fun ev hmem e' he => ?_⟩, fun ev hmem hne => ?_, fun e he => ?_⟩
    · rw [List.mem_singleton.mp hmem] at he
      cases he
    · rw [List.mem_singleton.mp hmem] at hne
      exact absurd rfl hne
    · rw [Outcome.err_eq_some.mpr he] at ho
      cases ho

/-! ## Operations -/

section Operations

variable {Record PK PO PO' : Type} [Key PK PO]

theorem quiet_indexUpdate (I : Index Record PK) (pk : PK) (old : Option Record) (new : Record) :
    Quiet (I.update pk old new) := by
  have hset : ∀ store : WriteStore, Quiet (do
      if (← store.get (encode (I.kind.storeKey (I.key new) pk))).isSome then
        Prog.throw (.alreadyExists (Debug.fmt (I.kind.storeKey (I.key new) pk)))
      store.set (encode (I.kind.storeKey (I.key new) pk)) (encode pk)) := fun store =>
    (quiet_get _ _).bind fun _ => Quiet.ite ((Quiet.throw _).bind fun _ => quiet_set _ _ _) (quiet_set _ _ _)
  refine Quiet.observe (by simp) ((quiet_openStore _).bind fun store => ?_)
  cases old with
  | some item => exact Quiet.ite (Quiet.pure _) ((quiet_remove _ _).bind fun _ => hset store)
  | none => exact hset store

theorem quiet_indexRemove (I : Index Record PK) (pk : PK) (item : Record) : Quiet (I.remove pk item) :=
  Quiet.observe (by simp) ((quiet_openStore _).bind fun _ => quiet_remove _ _)

theorem quiet_updateIndexes (pk : PK) (old : Option Record) (new : Record) (indexes : List (Index Record PK)) :
    Quiet (updateIndexes pk old new indexes) := by
  induction indexes with
  | nil => exact Quiet.pure ()
  | cons I tail ih => exact (quiet_indexUpdate I pk old new).bind fun _ => ih

theorem quiet_removeIndexes (pk : PK) (item : Record) (indexes : List (Index Record PK)) :
    Quiet (removeIndexes pk item indexes) := by
  induction indexes with
  | nil => exact Quiet.pure ()
  | cons I tail ih => exact (quiet_indexRemove I pk item).bind fun _ => ih

variable [Item Record PK]

theorem quiet_decodeRecord (bytes : Option Bytes) : Quiet (decodeRecord bytes : Prog World Error (Option Record)) := by
  cases bytes with
  | some b => exact (quiet_codec (by simp) _).bind fun _ => Quiet.pure _
  | none => exact Quiet.pure _

/-- What `insert`, `update` and `save` end with. -/
theorem atomic_store (indexes : List (Index Record PK)) (store : WriteStore) (old : Option Record) (value : Record) :
    Atomic (do
      store.set (encode (Item.key value)) (← codec .toBytes (Item.toBytes value))
      updateIndexes (Item.key value) old value indexes
      commit) :=
  Atomic.bind (quiet_codec (by simp) _) fun _ => Atomic.bind (quiet_set _ _ _) fun _ =>
    Atomic.bind (quiet_updateIndexes _ _ _ _) fun _ => atomic_commit

theorem atomic_save (indexes : List (Index Record PK)) (value : Record) : Atomic (save indexes value) :=
  Atomic.bind quiet_write fun _ => Atomic.bind (quiet_openStore _) fun _ => Atomic.bind (quiet_get _ _) fun _ =>
    Atomic.bind (quiet_decodeRecord _) fun old => atomic_store indexes _ old value

variable [Key PO PO']

theorem atomic_remove (indexes : List (Index Record PK)) (pk : PO) : Atomic (remove indexes pk) := by
  refine Atomic.bind quiet_write fun _ => Atomic.bind (quiet_openStore _) fun _ => Atomic.bind (quiet_get _ _) fun _ =>
    Atomic.bind (quiet_decodeRecord _) fun old => ?_
  cases old with
  | none => exact Atomic.of_quiet (Quiet.pure ())
  | some record =>
    exact Atomic.bind (quiet_remove _ _) fun _ => Atomic.bind (quiet_removeIndexes _ _ _) fun _ => atomic_commit

/-- `remove` up to the match on the record. -/
def removeLookup (Record : Type) {PK : Type} [Item Record PK] (pk : PO) :
    Prog World Error (WriteStore × Option Record) := do
  write
  let store ← openStore MAIN_STORE
  let record ← decodeRecord (← store.get (encode pk))
  pure (store, record)

def removeFound (indexes : List (Index Record PK)) (pk : PO) : WriteStore × Option Record → Prog World Error Unit
  | (_, none) => pure ()
  | (store, some record) => do
    store.remove (encode pk)
    removeIndexes (Item.key record) record indexes
    commit

theorem remove_eq (indexes : List (Index Record PK)) (pk : PO) :
    remove indexes pk = removeLookup Record pk >>= removeFound indexes pk := by
  simp only [removeLookup, bind_assoc]
  refine congrArg (write >>= ·) (funext fun _ => congrArg (openStore MAIN_STORE >>= ·) (funext fun store =>
    congrArg (store.get (encode pk) >>= ·) (funext fun bytes =>
      congrArg (decodeRecord bytes >>= ·) (funext fun r => ?_))))
  cases r <;> rfl

/-- Where the store has no record, `remove` ends without a commit. -/
theorem quiet_remove_absent (indexes : List (Index Record PK)) (pk : PO) (F : List Event → Option BackendError)
    {db : Stores} {st : KVStore} (hst : db MAIN_STORE = some st) (habs : st[encode pk]? = none) :
    ∃ events, Reports (World.start F db) (remove indexes pk (World.start F db)) events ∧
      (∀ ev ∈ events, ev.call ≠ .commit) ∧ (remove indexes pk (World.start F db)).2.committed = db := by
  have hquiet : Quiet (removeLookup Record pk) :=
    quiet_write.bind fun _ => (quiet_openStore _).bind fun _ => (quiet_get _ _).bind fun _ =>
      (quiet_decodeRecord _).bind fun _ => Quiet.pure _
  have hE : Tolerates F fun _ => True := fun _ _ _ => trivial
  have hnone :
      Triple (Idle F db) (removeLookup Record pk) (fun found _ => found.2 = none) (Failed db fun _ => True) := by
    refine (write_triple hE).bind fun _ => Triple.bind_eq (openStore_triple hE hst) ?_
    refine Triple.bind_eq (storeGet_triple hE hst _) ?_
    rw [habs]
    exact Triple.bind_eq (Triple.pure fun _ hs => ⟨rfl, hs⟩) (Triple.pure fun _ _ => rfl)
  obtain ⟨events, hr, hn, hc⟩ := hquiet (World.start F db)
  have hpost := hnone (World.start F db) ⟨rfl, rfl⟩
  rw [remove_eq]
  rcases bind_cases (removeLookup Record pk) (removeFound indexes pk) (World.start F db) with
    ⟨⟨store, record⟩, s', h1, h2⟩ | ⟨e, s', h1, h2⟩ | ⟨s', h1, h2⟩
  · rw [h1] at hr hc hpost
    obtain rfl : record = none := hpost
    rw [h2]
    exact ⟨events, ⟨hr.log, fun ev hmem e he => absurd (hr.returned ev hmem e he) (by simp)⟩, hn, hc⟩
  · rw [h1] at hr hc
    rw [h2]
    exact ⟨events, hr.error, hn, hc⟩
  · rw [h1] at hpost
    exact hpost.elim

variable [Debug PK]

theorem atomic_insert (indexes : List (Index Record PK)) (value : Record) : Atomic (insert indexes value) :=
  Atomic.bind quiet_write fun _ => Atomic.bind (quiet_openStore _) fun _ => Atomic.bind (quiet_get _ _) fun _ =>
    Atomic.ite (Atomic.bind (Quiet.throw _) fun _ => atomic_store indexes _ none value)
      (atomic_store indexes _ none value)

theorem atomic_update (indexes : List (Index Record PK)) (value : Record) : Atomic (update indexes value) :=
  Atomic.bind quiet_write fun _ => Atomic.bind (quiet_openStore _) fun _ => Atomic.bind (quiet_get _ _) fun _ =>
    Atomic.bind (quiet_decodeRecord _) fun old =>
      Atomic.ite (Atomic.bind (Quiet.throw _) fun _ => atomic_store indexes _ old value)
        (atomic_store indexes _ old value)

theorem atomic_op (indexes : List (Index Record PK)) (op : Op Record PO) : Atomic (op.run indexes) := by
  cases op with
  | insert value => exact atomic_insert indexes value
  | update value => exact atomic_update indexes value
  | save value => exact atomic_save indexes value
  | remove pk => exact atomic_remove indexes pk

/-- In every run of every operation, whichever calls fail: the error of a call is the
    error of the operation; unless it is the commit that fails, no commit is called; and
    the committed stores are those before. Removing an absent key commits nothing. -/
theorem failure_untouched (indexes : List (Index Record PK)) (op : Op Record PO)
    (F : List Event → Option BackendError) (db : Stores) :
    (∀ ev ∈ (op.run indexes (World.start F db)).2.log, ∀ e, ev.err = some e →
      (op.run indexes (World.start F db)).1 = .error e ∧
      (ev.call ≠ .commit → ∀ ev' ∈ (op.run indexes (World.start F db)).2.log, ev'.call ≠ .commit)) ∧
    (∀ e, (op.run indexes (World.start F db)).1 = .error e → (op.exec indexes F db).2 = db) ∧
    (∀ pk st, op = .remove pk → db MAIN_STORE = some st → st[encode pk]? = none →
      (op.exec indexes F db).2 = db ∧ ∀ ev ∈ (op.run indexes (World.start F db)).2.log, ev.call ≠ .commit) := by
  obtain ⟨events, hr, hcommit, hc⟩ := atomic_op indexes op (World.start F db)
  have hlog : (op.run indexes (World.start F db)).2.log = events := hr.log
  rw [hlog]
  refine ⟨fun ev hmem e he => ⟨hr.returned ev hmem e he, fun hne => ?_⟩, hc, fun pk st hop hst habs => ?_⟩
  · exact hcommit ev hmem hne (by simp [he])
  · subst hop
    obtain ⟨events', hr', hn', hc'⟩ := quiet_remove_absent indexes pk F hst habs
    refine ⟨hc', ?_⟩
    rw [← hlog, show ((Op.remove pk).run indexes (World.start F db)).2.log = events' from hr'.log]
    exact hn'

end Operations

end Collette
