/-
  Collette.Collection.Scripts — the operations of a collection, call by call
  (`collection.rs`, `index.rs`, `index_registry.rs`).

  An operation was modelled as a program over the stores of its namespace, all of it at
  once. Here it is the script of the calls it makes through its handle, so that other
  threads may take theirs in between (`Collette.Store.Jobs`). The two say the same of
  the source: run alone, the script ends as the program does over a backend that reports
  no errors, and publishes the same (`opJob_run`, `getJob_run`, `scanJob_run`).

  The relation is `InHandle`: the transaction of the program is the handle of the script.
-/

import Collette.Scan.Lookup
import Collette.Store.Jobs

namespace Collette.Scripts

open Memory Jobs Prog

/-! ## Calls -/

abbrev TxScript := Script TxCall Reply Error

abbrev ReadScript := Script ReadCall Reply Error

/-- The answers a call can have, as the values the source gets; any other is a panic. -/
def unit : Reply → Option Unit
  | .done => some ()
  | _ => none

def value : Reply → Option (Option Bytes)
  | .value v => some v
  | _ => none

def entries : Reply → Option (List (Bytes × Bytes))
  | .entries l => some l
  | _ => none

def openStore (name : String) : TxScript Unit := Script.ask (.openStore name) unit

def get (name : String) (key : Bytes) : TxScript (Option Bytes) := Script.ask (.get name key) value

def set (name : String) (key v : Bytes) : TxScript Unit := Script.ask (.set name key v) unit

def remove (name : String) (key : Bytes) : TxScript Unit := Script.ask (.remove name key) unit

def commit : TxScript Unit := Script.ask .commit unit

def openReadStore (slot : Nat) (name : String) : ReadScript Unit := Script.ask (.openStore slot name) unit

def readGet (slot : Nat) (key : Bytes) : ReadScript (Option Bytes) := Script.ask (.get slot key) value

def readScan (slot : Nat) (range : ScanRange) (direction : Direction) : ReadScript (List (Bytes × Bytes)) :=
  Script.ask (.scan slot range direction) entries

/-- A codec call: none of the backend's. -/
def codec {ι ρ α : Type} (x : Except CodecError α) : Script ι ρ Error α := Script.ofExcept (x.mapError .codec)

/-! ## Operations -/

section Operations

variable {Record PK PO PO' : Type} [Key PK PO] [Debug PK] [Item Record PK]

def decodeRecord {ι ρ : Type} (bytes : Option Bytes) : Script ι ρ Error (Option Record) :=
  match bytes with
  | some bytes => do
    let record ← codec (Item.fromBytes bytes)
    pure (some record)
  | none => pure none

omit [Debug PK] [Item Record PK] in
def indexUpdate (I : Index Record PK) (pk : PK) (old : Option Record) (new : Record) : TxScript Unit := do
  let newSkey := I.kind.storeKey (I.key new) pk
  openStore I.NAME
  if let some item := old then
    let oldSkey := I.kind.storeKey (I.key item) pk
    if oldSkey = newSkey then
      return ()
    remove I.NAME (encode oldSkey)
  let skey := encode newSkey
  if (← get I.NAME skey).isSome then
    Script.throw (.alreadyExists (Debug.fmt newSkey))
  set I.NAME skey (encode pk)

omit [Debug PK] [Item Record PK] in
def indexRemove (I : Index Record PK) (pk : PK) (item : Record) : TxScript Unit := do
  openStore I.NAME
  let skey := I.kind.storeKey (I.key item) pk
  remove I.NAME (encode skey)

omit [Debug PK] [Item Record PK] in
def updateIndexes (pk : PK) (old : Option Record) (new : Record) : List (Index Record PK) → TxScript Unit
  | [] => pure ()
  | I :: tail => do
    indexUpdate I pk old new
    updateIndexes pk old new tail

omit [Debug PK] [Item Record PK] in
def removeIndexes (pk : PK) (item : Record) : List (Index Record PK) → TxScript Unit
  | [] => pure ()
  | I :: tail => do
    indexRemove I pk item
    removeIndexes pk item tail

def insert (indexes : List (Index Record PK)) (record : Record) : TxScript Unit := do
  let pk := Item.key record
  let encPk := encode pk
  openStore MAIN_STORE
  if (← get MAIN_STORE encPk).isSome then
    Script.throw (.alreadyExists (Debug.fmt pk))
  set MAIN_STORE encPk (← codec (Item.toBytes record))
  updateIndexes pk none record indexes
  commit

def update (indexes : List (Index Record PK)) (record : Record) : TxScript Unit := do
  let pk := Item.key record
  let encPk := encode pk
  openStore MAIN_STORE
  let old ← decodeRecord (← get MAIN_STORE encPk)
  if old.isNone then
    Script.throw (.notFound (Debug.fmt pk))
  set MAIN_STORE encPk (← codec (Item.toBytes record))
  updateIndexes pk old record indexes
  commit

def save (indexes : List (Index Record PK)) (record : Record) : TxScript Unit := do
  let pk := Item.key record
  let encPk := encode pk
  openStore MAIN_STORE
  let old ← decodeRecord (← get MAIN_STORE encPk)
  set MAIN_STORE encPk (← codec (Item.toBytes record))
  updateIndexes pk old record indexes
  commit

variable [Key PO PO']

omit [Debug PK] in
def removeRecord (indexes : List (Index Record PK)) (pk : PO) : TxScript Unit := do
  openStore MAIN_STORE
  match ← decodeRecord (← get MAIN_STORE (encode pk)) with
  | none => return ()
  | some record =>
    remove MAIN_STORE (encode pk)
    removeIndexes (Item.key record) record indexes
    commit

def opScript (indexes : List (Index Record PK)) : Op Record PO → TxScript Unit
  | .insert record => insert indexes record
  | .update record => update indexes record
  | .save record => save indexes record
  | .remove pk => removeRecord indexes pk

end Operations

/-! ## Calls of the script and of the program -/

/-- The program's transaction is the handle, over one published map. -/
structure InHandle (s : NamespacedState × Phase) (world : World) : Prop where
  faults : world.faults = noFaults
  committed : world.committed = s.1.stores
  live : ∃ staged, world.tx = some staged ∧ s.2 = .live staged

/-- The two have published the same. -/
def SamePublished (s : NamespacedState × Phase) (world : World) : Prop := world.committed = s.1.stores

section Rules

variable {σ ι α β : Type} {m : Machine σ ι Reply} {P : σ → World → Prop} {Q : α → β → σ → World → Prop}
  {E : σ → World → Prop}

theorem observe_plays {q : Script ι Reply Error α} {p : Prog World Error β} (call : Call)
    (h : Script.Plays m P Q E q p) (hQ : ∀ a b s world log, Q a b s world → Q a b s { world with log := log })
    (hE : ∀ s world log, E s world → E s { world with log := log }) : Script.Plays m P Q E q (observe call p) := by
  intro s world hs
  obtain ⟨⟨o, s'⟩, hexec, halike⟩ := h s world hs
  refine ⟨_, hexec, ?_⟩
  unfold observe
  cases hp : p world with
  | mk o' world' =>
    rw [hp] at halike
    cases o <;> cases o' <;> try exact halike.elim
    · exact hQ _ _ _ _ _ halike
    · exact ⟨halike.1, hE _ _ _ halike.2⟩
    · exact hE _ _ _ halike

/-- A backend call that reports no error: what the machine answers is what the program
    returns, or no answer at all and its panic. -/
theorem backend_plays {c : ι} {f : Reply → Option α} {p : Prog World BackendError β} (call : Call)
    (hP : ∀ s world, P s world → world.faults = noFaults)
    (h : ∀ s world, P s world → ∃ s' r, m s c = some (s', r) ∧
      ((∃ a b world', f r = some a ∧ p world = (.ok b, world') ∧ Q a b s' world') ∨
        ∃ world', f r = none ∧ p world = (.panic, world') ∧ E s' world'))
    (hQ : ∀ a b s world log, Q a b s world → Q a b s { world with log := log })
    (hE : ∀ s world log, E s world → E s { world with log := log }) :
    Script.Plays m P Q E (Script.ask c f) (backend call p) := by
  refine observe_plays call (Script.Plays.ask fun s world hs => ?_) hQ hE
  obtain ⟨s', r, hstep, hanswer⟩ := h s world hs
  have hfault : fault world = (.ok (), world) := by
    unfold fault
    rw [hP s world hs]
    rfl
  refine ⟨s', r, hstep, ?_⟩
  unfold Prog.mapErr
  rw [bind_ok hfault]
  rcases hanswer with ⟨a, b, world', hf, hp, hq⟩ | ⟨world', hf, hp, he⟩
  · rw [hf, hp]
    exact hq
  · rw [hf, hp]
    exact he

theorem codec_plays {Q : α → α → σ → World → Prop} (call : Call) (x : Except CodecError α)
    (hok : ∀ a s world, P s world → Q a a s world) (herr : ∀ s world, P s world → E s world)
    (hQ : ∀ a b s world log, Q a b s world → Q a b s { world with log := log })
    (hE : ∀ s world log, E s world → E s { world with log := log }) :
    Script.Plays m P Q E (codec x) (Collette.codec call x) := by
  refine observe_plays call ?_ hQ hE
  cases x with
  | ok a => exact Script.Plays.pure (hok a)
  | error e => exact fun s world hs => ⟨_, rfl, rfl, herr s world hs⟩

end Rules

/-! ### Of a transaction -/

section Transactions

variable {α β : Type}

theorem InHandle.setLog {s : NamespacedState × Phase} {world : World} (h : InHandle s world) (log : List Event) :
    InHandle s { world with log := log } := ⟨h.faults, h.committed, h.live⟩

theorem InHandle.same {s : NamespacedState × Phase} {world : World} (h : InHandle s world) : SamePublished s world :=
  h.committed

/-- The returned values are related by `V`, and the transaction goes on. -/
def After (V : α → β → Prop) : α → β → NamespacedState × Phase → World → Prop := fun a b s world =>
  V a b ∧ InHandle s world

/-- A call on a store of the handle, which may stage another version of it. -/
theorem staged_plays {V : α → β → Prop} {c : TxCall} {name : String} {f : Reply → Option α}
    {g : KVStore → Prog World BackendError β} (call : Call) (hpanic : f .panic = none)
    (hnone : ∀ space t, t name = none → txStep (space, .live t) c = some ((space, .live t), .panic))
    (hsome : ∀ space t store, t name = some store → ∃ t' r a b,
      txStep (space, .live t) c = some ((space, .live t'), r) ∧ f r = some a ∧ V a b ∧
        ∀ world, world.tx = some t → g store world = (.ok b, { world with tx := some t' })) :
    Script.Plays txStep InHandle (After V) SamePublished (Script.ask c f) (backend call (staged name >>= g)) := by
  refine backend_plays _ (fun _ _ h => h.faults) (fun s world hs => ?_)
    (fun _ _ _ _ log h => ⟨h.1, h.2.setLog log⟩) fun _ _ _ h => h
  obtain ⟨space, phase⟩ := s
  obtain ⟨hfaults, hcommitted, t, htx, rfl⟩ := hs
  cases hname : t name with
  | none =>
    have hstaged : staged name world = (.panic, world) := by
      unfold staged
      rw [htx, Option.bind_some, hname]
    exact ⟨_, _, hnone space t hname, Or.inr ⟨world, hpanic, bind_panic hstaged, hcommitted⟩⟩
  | some store =>
    have hstaged : staged name world = (.ok store, world) := by
      unfold staged
      rw [htx, Option.bind_some, hname]
    obtain ⟨t', r, a, b, hstep, hr, hV, hg⟩ := hsome space t store hname
    refine ⟨_, _, hstep, Or.inl ⟨a, b, { world with tx := some t' }, hr, ?_, hV, hfaults, hcommitted, t', rfl,
      rfl⟩⟩
    rw [bind_ok hstaged]
    exact hg world htx

theorem stage_eq {t : Stores} {world : World} (htx : world.tx = some t) (name : String) (store : KVStore) :
    stage name store world = (.ok (), { world with tx := some (upd t name store) }) := by
  show (Outcome.ok (), { world with tx := world.tx.map fun t => upd t name store }) = _
  rw [htx]
  rfl

theorem openStore_plays (name : String) :
    Script.Plays txStep InHandle (After fun (_ : Unit) store => store = ⟨name⟩) SamePublished (openStore name)
      (Collette.openStore name) := by
  refine staged_plays _ rfl (fun space t hname => ?_) fun space t store hname => ?_
  · simp [txStep, TxCall.call, writeStep, withStaged, hname]
  · refine ⟨t, .done, (), ⟨name⟩, ?_, rfl, rfl, fun world htx => ?_⟩
    · simp [txStep, TxCall.call, writeStep, withStaged, hname]
    · rw [← htx]
      rfl

theorem get_plays (name : String) (key : Bytes) :
    Script.Plays txStep InHandle (After fun v v' => v = v') SamePublished (get name key)
      (WriteStore.get ⟨name⟩ key) := by
  refine staged_plays _ rfl (fun space t hname => ?_) fun space t store hname => ?_
  · simp [txStep, TxCall.call, writeStep, withStaged, hname]
  · refine ⟨t, getReply store key, store[key]?, store[key]?, ?_, rfl, rfl, fun world htx => ?_⟩
    · simp [txStep, TxCall.call, writeStep, withStaged, hname]
    · rw [← htx]
      rfl

theorem set_plays (name : String) (key v : Bytes) :
    Script.Plays txStep InHandle (After fun _ _ => True) SamePublished (set name key v)
      (WriteStore.set ⟨name⟩ key v) := by
  refine staged_plays _ rfl (fun space t hname => ?_) fun space t store hname => ?_
  · simp [txStep, TxCall.call, writeStep, withStaged, hname]
  · refine ⟨upd t name (store.insert key v), .done, (), (), ?_, rfl, trivial, fun world htx => stage_eq htx name _⟩
    simp [txStep, TxCall.call, writeStep, withStaged, hname]

theorem remove_plays (name : String) (key : Bytes) :
    Script.Plays txStep InHandle (After fun _ _ => True) SamePublished (remove name key)
      (WriteStore.remove ⟨name⟩ key) := by
  refine staged_plays _ rfl (fun space t hname => ?_) fun space t store hname => ?_
  · simp [txStep, TxCall.call, writeStep, withStaged, hname]
  · refine ⟨upd t name (store.erase key), .done, (), (), ?_, rfl, trivial, fun world htx => stage_eq htx name _⟩
    simp [txStep, TxCall.call, writeStep, withStaged, hname]

/-- A commit is the last call: what is staged is published. -/
theorem commit_plays :
    Script.Plays txStep InHandle (fun _ _ => SamePublished) SamePublished commit Collette.commit := by
  refine backend_plays _ (fun _ _ h => h.faults) (fun s world hs => ?_) (fun _ _ _ _ _ h => h) fun _ _ _ h => h
  obtain ⟨space, phase⟩ := s
  obtain ⟨hfaults, hcommitted, t, htx, rfl⟩ := hs
  refine ⟨_, .done, rfl, Or.inl ⟨(), (), { world with committed := t, tx := none }, rfl, ?_, rfl⟩⟩
  unfold publish
  rw [htx]

/-- A codec call during a transaction. -/
theorem txCodec_plays (call : Call) (x : Except CodecError α) :
    Script.Plays txStep InHandle (After fun a b : α => a = b) SamePublished (codec x) (Collette.codec call x) :=
  codec_plays call x (fun _ _ _ h => ⟨rfl, h⟩) (fun _ _ h => h.same) (fun _ _ _ _ log h => ⟨h.1, h.2.setLog log⟩)
    fun _ _ _ h => h

end Transactions

/-! ## Operations -/

section Ops

variable {Record PK PO PO' : Type} [Key PK PO]

/-- A transaction that goes on where the program does. -/
abbrev GoesOn (q : TxScript Unit) (p : Prog World Error Unit) : Prop :=
  Script.Plays txStep InHandle (After fun _ _ => True) SamePublished q p

/-- A transaction that ends where the program does. -/
abbrev Ends (q : TxScript Unit) (p : Prog World Error Unit) : Prop :=
  Script.Plays txStep InHandle (fun _ _ => SamePublished) SamePublished q p

/-- What goes on, and what comes after it. -/
theorem GoesOn.then {q q' : TxScript Unit} {p p' : Prog World Error Unit} {R : Unit → Unit → _ → _ → Prop}
    (h : GoesOn q p) (h' : Script.Plays txStep InHandle R SamePublished q' p') :
    Script.Plays txStep InHandle R SamePublished (q >>= fun _ => q') (p >>= fun _ => p') :=
  h.bind fun _ _ => h'.conseq (fun _ _ hs => hs.2) (fun _ _ _ _ h => h) fun _ _ h => h

/-- A call whose value both sides go on with. -/
theorem same_bind {α β γ : Type} {q : TxScript α} {p : Prog World Error α} {f : α → TxScript β}
    {g : α → Prog World Error γ} {R : β → γ → _ → _ → Prop}
    (h : Script.Plays txStep InHandle (After fun a b => a = b) SamePublished q p)
    (hf : ∀ a, Script.Plays txStep InHandle R SamePublished (f a) (g a)) :
    Script.Plays txStep InHandle R SamePublished (q >>= f) (p >>= g) := by
  refine h.bind fun a b s world hs => ?_
  obtain ⟨rfl, hs⟩ := hs
  exact hf a s world hs

/-- Opening a store, which the program then goes on with. -/
theorem openStore_bind {β γ : Type} {q : TxScript β} {g : WriteStore → Prog World Error γ} {R : β → γ → _ → _ → Prop}
    (name : String) (h : Script.Plays txStep InHandle R SamePublished q (g ⟨name⟩)) :
    Script.Plays txStep InHandle R SamePublished (openStore name >>= fun _ => q) (Collette.openStore name >>= g) := by
  refine (openStore_plays name).bind fun _ store s world hs => ?_
  obtain ⟨rfl, hs⟩ := hs
  exact h s world hs

theorem throw_plays {β γ : Type} {R : β → γ → _ → _ → Prop} (e : Error) :
    Script.Plays txStep InHandle R SamePublished (Script.throw e) (Prog.throw e) :=
  Script.Plays.throw e fun _ _ h => h.same

/-- Both sides stop with an error where the condition holds. -/
theorem throw_if {R : Unit → Unit → _ → _ → Prop} {c : Prop} [Decidable c] {e : Error} {q : TxScript Unit}
    {p : Prog World Error Unit} (h : Script.Plays txStep InHandle R SamePublished q p) :
    Script.Plays txStep InHandle R SamePublished (if c then Script.throw e >>= fun (_ : Unit) => q else q)
      (if c then Prog.throw e >>= fun (_ : Unit) => p else p) := by
  split
  · exact (throw_plays (R := fun (_ : Unit) (_ : Unit) _ _ => False) e).bind fun _ _ _ _ h => h.elim
  · exact h

theorem indexUpdate_plays (I : Index Record PK) (pk : PK) (old : Option Record) (new : Record) :
    GoesOn (indexUpdate I pk old new) (I.update pk old new) := by
  -- What is left once the old entry is out of the way.
  have hset : GoesOn
      (do
        if (← get I.NAME (encode (I.kind.storeKey (I.key new) pk))).isSome then
          Script.throw (.alreadyExists (Debug.fmt (I.kind.storeKey (I.key new) pk)))
        set I.NAME (encode (I.kind.storeKey (I.key new) pk)) (encode pk))
      (do
        if (← WriteStore.get ⟨I.NAME⟩ (encode (I.kind.storeKey (I.key new) pk))).isSome then
          Prog.throw (.alreadyExists (Debug.fmt (I.kind.storeKey (I.key new) pk)))
        WriteStore.set ⟨I.NAME⟩ (encode (I.kind.storeKey (I.key new) pk)) (encode pk)) :=
    same_bind (get_plays _ _) fun v => throw_if (set_plays _ _ _)
  refine observe_plays _ (openStore_bind _ ?_) (fun _ _ _ _ log h => ⟨h.1, h.2.setLog log⟩) fun _ _ _ h => h
  cases old with
  | none => exact hset
  | some item =>
    show Script.Plays _ _ _ _
      (if I.kind.storeKey (I.key item) pk = I.kind.storeKey (I.key new) pk then _ else _)
      (if I.kind.storeKey (I.key item) pk = I.kind.storeKey (I.key new) pk then _ else _)
    split
    · exact Script.Plays.pure fun _ _ h => ⟨trivial, h⟩
    · exact GoesOn.then (remove_plays _ _) hset

theorem updateIndexes_plays (pk : PK) (old : Option Record) (new : Record) (indexes : List (Index Record PK)) :
    GoesOn (updateIndexes pk old new indexes) (Collette.updateIndexes pk old new indexes) := by
  induction indexes with
  | nil => exact Script.Plays.pure fun _ _ h => ⟨trivial, h⟩
  | cons I tail ih => exact (indexUpdate_plays I pk old new).then ih

theorem indexRemove_plays (I : Index Record PK) (pk : PK) (item : Record) :
    GoesOn (indexRemove I pk item) (I.remove pk item) :=
  observe_plays _ (openStore_bind _ (remove_plays _ _)) (fun _ _ _ _ log h => ⟨h.1, h.2.setLog log⟩) fun _ _ _ h => h

theorem removeIndexes_plays (pk : PK) (item : Record) (indexes : List (Index Record PK)) :
    GoesOn (removeIndexes pk item indexes) (Collette.removeIndexes pk item indexes) := by
  induction indexes with
  | nil => exact Script.Plays.pure fun _ _ h => ⟨trivial, h⟩
  | cons I tail ih => exact (indexRemove_plays I pk item).then ih

variable [Item Record PK]

theorem decodeRecord_plays (bytes : Option Bytes) :
    Script.Plays txStep InHandle (After fun a b : Option Record => a = b) SamePublished (decodeRecord bytes)
      (Collette.decodeRecord bytes) := by
  cases bytes with
  | none => exact Script.Plays.pure fun _ _ h => ⟨rfl, h⟩
  | some b => exact same_bind (txCodec_plays _ _) fun r => Script.Plays.pure fun _ _ h => ⟨rfl, h⟩

/-- What `insert`, `update` and `save` end with. -/
theorem store_plays (indexes : List (Index Record PK)) (old : Option Record) (record : Record) : Ends
    (do
      set MAIN_STORE (encode (Item.key record)) (← codec (Item.toBytes record))
      updateIndexes (Item.key record) old record indexes
      commit)
    (do
      WriteStore.set ⟨MAIN_STORE⟩ (encode (Item.key record)) (← Collette.codec .toBytes (Item.toBytes record))
      Collette.updateIndexes (Item.key record) old record indexes
      Collette.commit) :=
  same_bind (txCodec_plays _ _) fun _ =>
    GoesOn.then (set_plays _ _ _) ((updateIndexes_plays _ _ _ _).then commit_plays)

variable [Debug PK] [Key PO PO']

/-- An operation but for the opening of its handle. -/
theorem op_plays (indexes : List (Index Record PK)) (op : Op Record PO) :
    ∃ body, op.run indexes = (Collette.write >>= fun _ => body) ∧ Ends (opScript indexes op) body := by
  cases op with
  | insert record =>
    exact ⟨_, rfl, openStore_bind _ (same_bind (get_plays _ _) fun v => throw_if (store_plays indexes none record))⟩
  | update record =>
    exact ⟨_, rfl, openStore_bind _ (same_bind (get_plays _ _) fun v => same_bind (decodeRecord_plays v) fun old =>
      throw_if (store_plays indexes old record))⟩
  | save record =>
    exact ⟨_, rfl, openStore_bind _ (same_bind (get_plays _ _) fun v => same_bind (decodeRecord_plays v) fun old =>
      store_plays indexes old record)⟩
  | remove pk =>
    refine ⟨_, rfl, openStore_bind _ (same_bind (get_plays _ _) fun v => same_bind (decodeRecord_plays v)
      fun old => ?_)⟩
    cases old with
    | none => exact Script.Plays.pure fun _ _ h => h.same
    | some record =>
      exact GoesOn.then (remove_plays _ _) ((removeIndexes_plays _ _ _).then commit_plays)

/-! ## Transactions -/

/-- An operation on stores with a handle on them. -/
theorem op_exec (indexes : List (Index Record PK)) (op : Op Record PO) (db : Stores) :
    ∃ x, (opScript indexes op).exec txStep (opened db) = some x ∧ x.1 = (op.exec indexes noFaults db).1 ∧
      x.2.1.stores = (op.exec indexes noFaults db).2 := by
  obtain ⟨body, hrun, hplays⟩ := op_plays indexes op
  obtain ⟨world, hwrite, hin⟩ : ∃ world, Collette.write (World.start noFaults db) = (.ok (), world) ∧
      InHandle (opened db) world := ⟨_, rfl, rfl, rfl, db, rfl, rfl⟩
  have hexec : op.run indexes (World.start noFaults db) = body world := by rw [hrun, bind_ok hwrite]
  obtain ⟨⟨o, s⟩, hx, halike⟩ := hplays (opened db) world hin
  refine ⟨_, hx, ?_⟩
  unfold Op.exec
  rw [hexec]
  cases hbody : body world with
  | mk o' world' =>
    rw [hbody] at halike
    cases o <;> cases o' <;> try exact halike.elim
    · exact ⟨rfl, halike.symm⟩
    · exact ⟨congrArg _ halike.1, halike.2.symm⟩
    · exact ⟨rfl, halike.symm⟩

/-- What a call of a collection returns. -/
inductive Result (Record : Type) where
  | done
  | found (record : Option Record)
  | entries (l : List (Entry Record))

def opTx (indexes : List (Index Record PK)) (op : Op Record PO) : Tx (Result Record) where
  script := opScript indexes op >>= fun _ => pure .done
  ends stores := by
    obtain ⟨x, hx, -⟩ := op_exec indexes op stores
    rw [Script.exec_map, hx]
    rfl

theorem opTx_run (indexes : List (Index Record PK)) (op : Op Record PO) (db : Stores) :
    (opTx indexes op).run db =
      ((op.exec indexes noFaults db).1.map fun _ => .done, (op.exec indexes noFaults db).2) := by
  obtain ⟨x, hx, ho, hs⟩ := op_exec indexes op db
  have hexec : (opTx indexes op).script.exec txStep (opened db) = some (x.1.map fun _ => .done, x.2) := by
    show (opScript indexes op >>= fun _ => pure Result.done).exec txStep (opened db) = _
    rw [Script.exec_map, hx]
    rfl
  rw [Tx.run_eq _ hexec, ho, hs]

end Ops

/-! ## Queries -/

/-- The program reads the snapshot of the handle, where these stores are open. -/
structure Reading (handle : Stores) (opened : Nat → Option KVStore) (s : Snapshot) (world : World) : Prop where
  faults : world.faults = noFaults
  snapshot : s = ⟨handle, opened⟩

theorem Reading.setLog {handle : Stores} {opened : Nat → Option KVStore} {s : Snapshot} {world : World}
    (h : Reading handle opened s world) (log : List Event) : Reading handle opened s { world with log := log } :=
  ⟨h.faults, h.snapshot⟩

section Queries

variable {α β γ : Type} {handle : Stores} {opened : Nat → Option KVStore}

/-- From the stores open, both sides end with one value. -/
abbrev Answers (handle : Stores) (opened : Nat → Option KVStore) (q : ReadScript α) (p : Prog World Error α) : Prop :=
  Script.Plays readStep (Reading handle opened) (fun a b _ _ => a = b) (fun _ _ => True) q p

/-- A call whose value both sides go on with. -/
theorem read_bind {q : ReadScript α} {p : Prog World Error α} {f : α → ReadScript β} {g : α → Prog World Error β}
    (h : Script.Plays readStep (Reading handle opened) (fun a b s world => a = b ∧ Reading handle opened s world)
      (fun _ _ => True) q p) (hf : ∀ a, Answers handle opened (f a) (g a)) :
    Answers handle opened (q >>= f) (p >>= g) := by
  refine h.bind fun a b s world hs => ?_
  obtain ⟨rfl, hs⟩ := hs
  exact hf a s world hs

theorem answers_pure (a : α) : Answers handle opened (pure a) (pure a) := Script.Plays.pure fun _ _ _ => rfl

theorem answers_throw (e : Error) : Answers handle opened (Script.throw e : ReadScript α) (Prog.throw e) :=
  Script.Plays.throw e fun _ _ _ => trivial

theorem readCodec_plays (call : Call) (x : Except CodecError α) :
    Script.Plays readStep (Reading handle opened) (fun a b s world => a = b ∧ Reading handle opened s world)
      (fun _ _ => True) (codec x) (Collette.codec call x) :=
  codec_plays call x (fun _ _ _ h => ⟨rfl, h⟩) (fun _ _ _ => trivial) (fun _ _ _ _ log h => ⟨h.1, h.2.setLog log⟩)
    fun _ _ _ h => h

/-- Opening a store in a slot not used yet. -/
theorem openReadStore_bind {slot : Nat} {q : ReadScript α} {g : ReadStore → Prog World Error α} (name : String)
    (hslot : opened slot = none)
    (h : ∀ store, Answers handle (Function.update opened slot (some store)) q (g ⟨store⟩)) :
    Answers handle opened (openReadStore slot name >>= fun _ => q) (Collette.openReadStore handle name >>= g) := by
  have hopen : Script.Plays readStep (Reading handle opened)
      (fun (_ : Unit) (store : ReadStore) s world =>
        Reading handle (Function.update opened slot (some store.store)) s world)
      (fun _ _ => True) (openReadStore slot name) (Collette.openReadStore handle name) := by
    refine backend_plays _ (fun _ _ h => h.faults) (fun s world hs => ?_) (fun _ _ _ _ log h => h.setLog log)
      fun _ _ _ h => h
    obtain ⟨hfaults, rfl⟩ := hs
    cases hname : handle name with
    | none =>
      refine ⟨⟨handle, opened⟩, .panic, ?_, Or.inr ⟨world, rfl, bind_panic rfl, trivial⟩⟩
      simp only [readStep, hslot, hname]
      rfl
    | some store =>
      refine ⟨⟨handle, Function.update opened slot (some store)⟩, .done, ?_,
        Or.inl ⟨(), ⟨store⟩, world, rfl, bind_ok rfl, hfaults, rfl⟩⟩
      simp only [readStep, hslot, hname]
      rfl
  exact hopen.bind fun _ store => h store.store

theorem readGet_plays {slot : Nat} {store : KVStore} (hslot : opened slot = some store) (key : Bytes) :
    Script.Plays readStep (Reading handle opened) (fun a b s world => a = b ∧ Reading handle opened s world)
      (fun _ _ => True) (readGet slot key) (ReadStore.get ⟨store⟩ key) := by
  refine backend_plays _ (fun _ _ h => h.faults) (fun s world hs => ?_) (fun _ _ _ _ log h => ⟨h.1, h.2.setLog log⟩)
    fun _ _ _ h => h
  obtain ⟨hfaults, rfl⟩ := hs
  refine ⟨⟨handle, opened⟩, getReply store key, ?_,
    Or.inl ⟨store[key]?, store[key]?, world, rfl, rfl, rfl, hfaults, rfl⟩⟩
  simp only [readStep, hslot, Option.map_some]

theorem readScan_plays {slot : Nat} {store : KVStore} (hslot : opened slot = some store) (range : ScanRange)
    (direction : Direction) :
    Script.Plays readStep (Reading handle opened) (fun a b s world => a = b ∧ Reading handle opened s world)
      (fun _ _ => True) (readScan slot range direction) (ReadStore.scan ⟨store⟩ range direction) := by
  refine backend_plays _ (fun _ _ h => h.faults) (fun s world hs => ?_) (fun _ _ _ _ log h => ⟨h.1, h.2.setLog log⟩)
    fun _ _ _ h => h
  obtain ⟨hfaults, rfl⟩ := hs
  have hstep : readStep ⟨handle, opened⟩ (.scan slot range direction) =
      some (⟨handle, opened⟩, scanReply store range direction) := by
    simp only [readStep, hslot, Option.map_some]
  refine ⟨_, _, hstep, ?_⟩
  unfold scanReply
  cases hscan : store.scan range direction with
  | none => exact Or.inr ⟨world, rfl, rfl, trivial⟩
  | some l => exact Or.inl ⟨l, l, world, rfl, rfl, rfl, hfaults, rfl⟩

/-- A step of the backend's iterator, over entries it has already. -/
theorem next_bind {a : β} {q : ReadScript α} {g : β → Prog World Error α} (h : Answers handle opened q (g a)) :
    Answers handle opened q (backend .next (pure a) >>= g) := by
  intro s world hs
  obtain ⟨log, hnext⟩ : ∃ log, backend .next (pure a) world = (.ok a, { world with log := log }) := by
    refine ⟨world.log ++ [⟨.next, none⟩], ?_⟩
    have hfault : fault world = (.ok (), world) := by
      unfold fault
      rw [hs.faults]
      rfl
    show observe .next ((fault >>= fun _ => pure a).mapErr Error.backend) world = _
    unfold observe Prog.mapErr
    rw [bind_ok hfault]
    rfl
  rw [bind_ok hnext]
  exact h s _ (hs.setLog log)

end Queries

/-- A query of a collection, call by call and at once. -/
structure ReadOp (α : Type) where
  script : ReadScript α
  prog : Stores → Prog World Error α
  plays : ∀ handle, Answers handle (fun _ => none) script (prog handle)

section ReadOps

variable {α β : Type} {handle : Stores} {opened : Nat → Option KVStore}

theorem outcome_eq {σ τ : Type} {E : σ → τ → Prop} {x : Outcome Error α × σ} {y : Outcome Error α × τ}
    (h : Script.Alike (fun a b _ _ => a = b) E x y) : x.1 = y.1 := by
  obtain ⟨o, s⟩ := x
  obtain ⟨o', t⟩ := y
  cases o <;> cases o' <;> try exact h.elim
  · exact congrArg _ h
  · exact congrArg _ h.1
  · rfl

/-- The query alone, on any snapshot, ends as the program does. -/
theorem ReadOp.exec (q : ReadOp α) (handle : Stores) {world : World} (hw : world.faults = noFaults) :
    ∃ s, q.script.exec readStep ⟨handle, fun _ => none⟩ = some ((q.prog handle world).1, s) := by
  obtain ⟨⟨o, s⟩, hx, halike⟩ := q.plays handle ⟨handle, fun _ => none⟩ world ⟨hw, rfl⟩
  exact ⟨s, by rw [hx, ← outcome_eq halike]⟩

def ReadOp.query (q : ReadOp α) : Query α where
  script := q.script
  ends stores := by
    obtain ⟨s, hs⟩ := q.exec stores (show (World.start noFaults stores).faults = noFaults from rfl)
    rw [hs]
    rfl

theorem ReadOp.query_run (q : ReadOp α) (handle : Stores) {world : World} (hw : world.faults = noFaults) :
    q.query.run handle = (q.prog handle world).1 := by
  obtain ⟨s, hs⟩ := q.exec handle hw
  exact q.query.run_eq hs

def ReadOp.map (f : α → β) (q : ReadOp α) : ReadOp β where
  script := q.script >>= fun a => pure (f a)
  prog handle := q.prog handle >>= fun a => pure (f a)
  plays handle := (q.plays handle).bind fun _ _ => Script.Plays.pure fun _ _ h => congrArg f h

theorem prog_map (p : Prog World Error α) (f : α → β) (world : World) :
    ((p >>= fun a => pure (f a)) world).1 = (p world).1.map f := by
  rcases bind_cases p (fun a => pure (f a)) world with ⟨a, s, h1, h2⟩ | ⟨e, s, h1, h2⟩ | ⟨s, h1, h2⟩
  · rw [h1, h2]
    rfl
  · rw [h1, h2]
    rfl
  · rw [h1, h2]
    rfl

/-! ### Those there are -/

variable {Record PK PO PO' O : Type} [Key PK PO] [Item Record PK]

theorem readDecode_plays (bytes : Option Bytes) : Script.Plays readStep (Reading handle opened)
    (fun (a b : Option Record) s world => a = b ∧ Reading handle opened s world) (fun _ _ => True)
    (decodeRecord bytes) (Collette.decodeRecord bytes) := by
  cases bytes with
  | none => exact Script.Plays.pure fun _ _ h => ⟨rfl, h⟩
  | some b =>
    refine (readCodec_plays _ _).bind fun r r' => Script.Plays.pure fun s world h => ?_
    exact ⟨by rw [h.1], h.2⟩

theorem readDecode_answers (bytes : Option Bytes) :
    Answers (α := Option Record) handle opened (decodeRecord bytes) (Collette.decodeRecord bytes) :=
  (readDecode_plays bytes).conseq (fun _ _ h => h) (fun _ _ _ _ h => h.1) fun _ _ h => h

/-- `Collection::get`, on its handle. -/
def getRead [Key PO PO'] (Record : Type) {PK : Type} [Item Record PK] (pk : PO) : ReadOp (Option Record) where
  script := do
    openReadStore 0 MAIN_STORE
    decodeRecord (← readGet 0 (encode pk))
  prog handle := do
    let store ← Collette.openReadStore handle MAIN_STORE
    Collette.decodeRecord (← store.get (encode pk))
  plays _ := openReadStore_bind _ rfl fun _ => read_bind (readGet_plays (Function.update_self _ _ _) _)
    readDecode_answers

omit [Key PK PO] in
theorem getRead_run [Key PO PO'] (pk : PO) (db : Stores) :
    (getRead Record pk).query.run db = (Collette.get Record pk (World.start noFaults db)).1 := by
  obtain ⟨world, hread, hw⟩ : ∃ world, Collette.read (World.start noFaults db) = (.ok db, world) ∧
      world.faults = noFaults := ⟨_, rfl, rfl⟩
  rw [(getRead Record pk).query_run db hw]
  exact congrArg Prod.fst (bind_ok hread).symm

/-! ### Scans -/

/-- What a scan of the primary store yields. -/
def collectMain : List (Bytes × Bytes) → ReadScript (List (Entry Record))
  | [] => pure []
  | (key, bytes) :: inner => do
    let record ← codec (Item.fromBytes bytes)
    let l ← collectMain inner
    pure (⟨record, .key key⟩ :: l)

/-- What a scan of an index yields, the primary store being open in `slot`. -/
def collectIndex (slot : Nat) : List (Bytes × Bytes) → ReadScript (List (Entry Record))
  | [] => pure []
  | (key, primaryKey) :: inner => do
    match ← readGet slot primaryKey with
    | none => Script.throw (.unexpected s!"primary key from index not found: {primaryKey}")
    | some bytes =>
      let record ← codec (Item.fromBytes bytes)
      let l ← collectIndex slot inner
      pure (⟨record, .key key⟩ :: l)

/-- One more entry before those the rest yields. -/
theorem cons_answers {q : ReadScript (List α)} {p : Prog World Error (List α)} (h : Answers handle opened q p) (a : α) :
    Answers handle opened (q >>= fun l => pure (a :: l)) (p >>= fun l => pure (a :: l)) :=
  h.bind fun _ _ => Script.Plays.pure fun _ _ hl => congrArg (a :: ·) hl

theorem collectMain_answers (inner : List (Bytes × Bytes)) :
    Answers handle opened (collectMain inner : ReadScript (List (Entry Record)))
      (ScanIterator.collection inner).collect := by
  induction inner with
  | nil =>
    rw [collect_none rfl]
    exact answers_pure []
  | cons entry inner ih =>
    obtain ⟨key, bytes⟩ := entry
    rw [collect_some rfl, Prog.bind_assoc]
    refine next_bind ?_
    show Answers _ _ _ (Collette.codec _ _ >>= _ >>= _)
    rw [Prog.bind_assoc]
    exact read_bind (readCodec_plays _ _) fun record => cons_answers ih _

theorem collectIndex_answers {slot : Nat} {main : KVStore} (hslot : opened slot = some main)
    (inner : List (Bytes × Bytes)) :
    Answers handle opened (collectIndex slot inner : ReadScript (List (Entry Record)))
      (ScanIterator.index inner ⟨main⟩).collect := by
  induction inner with
  | nil =>
    rw [collect_none rfl]
    exact answers_pure []
  | cons entry inner ih =>
    obtain ⟨key, primaryKey⟩ := entry
    rw [collect_some rfl, Prog.bind_assoc]
    refine next_bind ?_
    show Answers _ _ _ (ReadStore.get _ _ >>= _ >>= _)
    rw [Prog.bind_assoc]
    refine read_bind (readGet_plays hslot primaryKey) fun v => ?_
    cases v with
    | none =>
      show Answers _ _ _ (Prog.throw _ >>= _)
      exact answers_throw _
    | some bytes =>
      show Answers _ _ _ (Collette.codec _ _ >>= _ >>= _)
      rw [Prog.bind_assoc]
      exact read_bind (readCodec_plays _ _) fun record => cons_answers ih _

/-- `Scan::iter` on the handle of the scan, and all that it yields. -/
def scanRead (e : ScanExecutor Record PK) (scan : Scan e.LogicalKey) : ReadOp (List (Entry Record)) where
  script := do
    let compiled ← Script.ofExcept scan.compile
    match e with
    | .collection =>
      openReadStore 0 MAIN_STORE
      collectMain (← readScan 0 compiled.range compiled.direction)
    | .index I =>
      openReadStore 0 I.NAME
      let inner ← readScan 0 compiled.range compiled.direction
      openReadStore 1 MAIN_STORE
      collectIndex 1 inner
  prog handle := do
    let it ← e.iter handle scan
    it.collect
  plays handle := by
    have hassoc : (e.iter handle scan >>= fun it => it.collect) = Prog.ofExcept scan.compile >>= fun compiled =>
        e.open handle compiled.range compiled.direction >>= fun it => it.collect := Prog.bind_assoc _ _ _
    rw [hassoc]
    cases scan.compile with
    | error e => exact answers_throw e
    | ok compiled =>
      cases e with
      | collection =>
        show Answers _ _ _ ((Collette.openReadStore _ _ >>= fun store => store.scan _ _ >>= fun inner =>
          pure (ScanIterator.collection inner)) >>= fun it => it.collect)
        rw [Prog.bind_assoc]
        refine openReadStore_bind _ rfl fun store => ?_
        rw [Prog.bind_assoc]
        exact read_bind (readScan_plays (Function.update_self _ _ _) _ _) collectMain_answers
      | index I =>
        show Answers _ _ _ ((Collette.openReadStore _ _ >>= fun store => store.scan _ _ >>= fun inner =>
          Collette.openReadStore _ _ >>= fun main => pure (ScanIterator.index inner main)) >>= fun it => it.collect)
        rw [Prog.bind_assoc]
        refine openReadStore_bind _ rfl fun store => ?_
        rw [Prog.bind_assoc]
        refine read_bind (readScan_plays (Function.update_self _ _ _) _ _) fun inner => ?_
        rw [Prog.bind_assoc]
        exact openReadStore_bind _ rfl fun main => collectIndex_answers (Function.update_self _ _ _) inner

end ReadOps

end Collette.Scripts
