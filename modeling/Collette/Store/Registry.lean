/-
  Collette.Store.Registry — calls of the redb backend step by step, any number at a time
  (`prepare`, `read`, `write` and the handles' `open_store` in `backend/redb.rs`).

  Actors. A prepare creates its tables in a write transaction, commits it, and then takes
  the registry's write lock, copies the registry with its own part replaced, and puts the
  copy in place. A read or a write copies the registry under the read lock and then
  begins its transaction; it still has the read lock then, which these steps give up with
  the copy, and that only lets more happen in between. The actors share the database, the
  one write transaction that may be open, the registry and its lock (`Shared`); a step of
  an actor is a function of these and of where the actor is.

  The database is what redb is assumed to be: `begin_write` waits while a write
  transaction is open, no table is dropped, and a read transaction sees the tables that
  were committed when it began.

  A step changes what others may rely on in few ways (`Leaves`): the database only gains
  tables, and the open transaction, or the registry under the lock, is its owner's alone.

  - `step_sound`: so every step keeps where each actor stands (`PrepareOk`, `ReaderOk`,
    `WriterOk`), with tables before their names at every point.
  - `prepared_opens`: in every state of every interleaving the tables in the registry, and
    in the registry copy of every live handle, are there for those who see it; `open_store`
    finds the table of every store in the handle's registry; and registered is, for each
    namespace, what its last published prepare lists.
-/

import Collette.Prog.Family
import Collette.Store.Redb

namespace Collette.Registry

open Redb (PreparedTables tableName openTable register registered lastListed)

/-! ## What the actors share -/

inductive Owner where
  | prepare (p : Nat)
  | write (w : Nat)
  deriving DecidableEq, Repr

structure Shared where
  db : Stores
  /-- The open write transaction: whose, and the tables in it. -/
  txn : Option (Owner × Stores)
  tables : PreparedTables
  /-- The prepare that has the registry's write lock. -/
  lock : Option Nat

/-- The tables of the owner's transaction. -/
def Shared.transaction (sh : Shared) (o : Owner) : Option Stores :=
  match sh.txn with
  | some (o', write) => if o' = o then some write else none
  | none => none

/-- `begin_write`: waits while a write transaction is open. -/
def Shared.beginWrite (sh : Shared) (o : Owner) : Option Shared :=
  match sh.txn with
  | none => some { sh with txn := some (o, sh.db) }
  | some _ => none

/-- A change to the tables of the owner's transaction. -/
def Shared.stage (sh : Shared) (o : Owner) (f : Stores → Stores) : Option Shared :=
  (sh.transaction o).map fun write => { sh with txn := some (o, f write) }

def Shared.commit (sh : Shared) (o : Owner) : Option Shared :=
  (sh.transaction o).map fun write => { sh with db := write, txn := none }

/-- The owner's transaction is dropped. -/
def Shared.abort (sh : Shared) (o : Owner) : Option Shared :=
  (sh.transaction o).map fun _ => { sh with txn := none }

inductive Ans where
  | done
  /-- `prepare` returns, its stores registered. -/
  | published (ns : String) (names : List String)
  /-- `prepare` returns the error of a call. -/
  | failed
  /-- `TableError::TableDoesNotExist`. -/
  | tableDoesNotExist
  /-- The store has not been prepared. -/
  | panic
  deriving DecidableEq, Repr

/-! ## `prepare` -/

inductive PreparePhase where
  | called
  /-- In its transaction, with these stores' tables still to open. -/
  | creating (rest : List String)
  | committed
  | locked
  /-- The registry is copied and edited. -/
  | edited (next : PreparedTables)
  | returned

structure Prepare where
  ns : String
  names : List String
  phase : PreparePhase

inductive PrepareEv where
  | call (ns : String) (names : List String)
  | beginWrite
  | openTable
  | commit
  /-- A call of redb fails, and a transaction that is open is dropped. -/
  | fail
  | lock
  | edit
  | publish
  deriving DecidableEq, Repr

def prepareStep (sh : Shared) (p : Nat) (c : Option Prepare) (e : PrepareEv) : Option (Shared × Prepare × Ans) :=
  match c, e with
  | none, .call ns names => some (sh, ⟨ns, names, .called⟩, .done)
  | some ⟨ns, names, .called⟩, .beginWrite =>
    (sh.beginWrite (.prepare p)).map fun sh => (sh, ⟨ns, names, .creating names⟩, .done)
  | some ⟨ns, names, .called⟩, .fail => some (sh, ⟨ns, names, .returned⟩, .failed)
  | some ⟨ns, names, .creating (name :: rest)⟩, .openTable =>
    (sh.stage (.prepare p) fun write => openTable write (tableName ns name)).map fun sh =>
      (sh, ⟨ns, names, .creating rest⟩, .done)
  | some ⟨ns, names, .creating []⟩, .commit =>
    (sh.commit (.prepare p)).map fun sh => (sh, ⟨ns, names, .committed⟩, .done)
  | some ⟨ns, names, .creating _⟩, .fail =>
    (sh.abort (.prepare p)).map fun sh => (sh, ⟨ns, names, .returned⟩, .failed)
  | some ⟨ns, names, .committed⟩, .lock =>
    match sh.lock with
    | none => some ({ sh with lock := some p }, ⟨ns, names, .locked⟩, .done)
    | some _ => none
  | some ⟨ns, names, .locked⟩, .edit => some (sh, ⟨ns, names, .edited (register sh.tables ns names)⟩, .done)
  | some ⟨ns, names, .edited next⟩, .publish =>
    some ({ sh with tables := next, lock := none }, ⟨ns, names, .returned⟩, .published ns names)
  | _, _ => none

/-! ## `read` -/

structure Reader where
  ns : String
  tables : PreparedTables
  /-- The tables as the transaction sees them, once it has begun. -/
  read : Option Stores

inductive ReadEv where
  | call (ns : String)
  | beginRead
  | openStore (name : String)
  deriving DecidableEq, Repr

/-- Copying the registry takes the read lock, which a writer keeps out. -/
def readStep (sh : Shared) (c : Option Reader) (e : ReadEv) : Option (Reader × Ans) :=
  match c, e with
  | none, .call ns =>
    match sh.lock with
    | none => some (⟨ns, sh.tables, none⟩, .done)
    | some _ => none
  | some ⟨ns, tables, none⟩, .beginRead => some (⟨ns, tables, some sh.db⟩, .done)
  | some ⟨ns, tables, some read⟩, .openStore name =>
    match tables (ns, name) with
    | some table =>
      match read table with
      | some _ => some (⟨ns, tables, some read⟩, .done)
      | none => some (⟨ns, tables, some read⟩, .tableDoesNotExist)
    | none => some (⟨ns, tables, some read⟩, .panic)
  | _, _ => none

/-! ## `write` -/

inductive WritePhase where
  | copied
  | live
  | ended
  deriving DecidableEq, Repr

structure Writer where
  ns : String
  tables : PreparedTables
  phase : WritePhase

inductive WriteEv where
  | call (ns : String)
  | beginWrite
  | openStore (name : String)
  | set (name : String) (key value : Bytes)
  | remove (name : String) (key : Bytes)
  | commit
  | drop
  deriving DecidableEq, Repr

/-- Open the table in a write transaction, which creates a missing one, and do `f` with it. -/
def onTable (f : KVStore → KVStore) (table : String) (write : Stores) : Stores :=
  let write := openTable write table
  upd write table (f ((write table).getD ∅))

/-- A call on a store of the handle. -/
def withTable (sh : Shared) (w : Nat) (ns : String) (tables : PreparedTables) (name : String) (f : KVStore → KVStore) :
    Option (Shared × Writer × Ans) :=
  match tables (ns, name) with
  | some table => (sh.stage (.write w) (onTable f table)).map fun sh => (sh, ⟨ns, tables, .live⟩, .done)
  | none => some (sh, ⟨ns, tables, .live⟩, .panic)

def writeStep (sh : Shared) (w : Nat) (c : Option Writer) (e : WriteEv) : Option (Shared × Writer × Ans) :=
  match c, e with
  | none, .call ns =>
    match sh.lock with
    | none => some (sh, ⟨ns, sh.tables, .copied⟩, .done)
    | some _ => none
  | some ⟨ns, tables, .copied⟩, .beginWrite =>
    (sh.beginWrite (.write w)).map fun sh => (sh, ⟨ns, tables, .live⟩, .done)
  | some ⟨ns, tables, .live⟩, .openStore name => withTable sh w ns tables name fun table => table
  | some ⟨ns, tables, .live⟩, .set name key value => withTable sh w ns tables name fun table => table.insert key value
  | some ⟨ns, tables, .live⟩, .remove name key => withTable sh w ns tables name fun table => table.erase key
  | some ⟨ns, tables, .live⟩, .commit => (sh.commit (.write w)).map fun sh => (sh, ⟨ns, tables, .ended⟩, .done)
  | some ⟨ns, tables, .live⟩, .drop => (sh.abort (.write w)).map fun sh => (sh, ⟨ns, tables, .ended⟩, .done)
  | _, _ => none

/-! ## Interleavings -/

structure St where
  shared : Shared
  prepares : Nat → Option Prepare
  readers : Nat → Option Reader
  writers : Nat → Option Writer

inductive Ev where
  | prepare (p : Nat) (e : PrepareEv)
  | read (r : Nat) (e : ReadEv)
  | write (w : Nat) (e : WriteEv)
  deriving DecidableEq, Repr

def step : Machine St Ev Ans := fun s e =>
  match e with
  | .prepare p e => (prepareStep s.shared p (s.prepares p) e).map fun (shared, c, a) =>
    ({ s with shared := shared, prepares := Function.update s.prepares p (some c) }, a)
  | .read r e => (readStep s.shared (s.readers r) e).map fun (c, a) =>
    ({ s with readers := Function.update s.readers r (some c) }, a)
  | .write w e => (writeStep s.shared w (s.writers w) e).map fun (shared, c, a) =>
    ({ s with shared := shared, writers := Function.update s.writers w (some c) }, a)

/-- A backend over an existing database (`from_database`): nothing is prepared. -/
def fromDatabase (db : Stores) : St := ⟨⟨db, none, fun _ => none, none⟩, fun _ => none, fun _ => none, fun _ => none⟩

/-- The prepares that returned with their stores registered, the first one first. -/
def published : Trace Ev Ans → List (String × List String)
  | [] => []
  | (_, .published ns names) :: tr => published tr ++ [(ns, names)]
  | _ :: tr => published tr

/-! ## What the database has -/

/-- Every table of the registry is there. -/
def Covers (db : Stores) (tables : PreparedTables) : Prop := ∀ k name, tables k = some name → (db name).isSome = true

/-- Every table of the one is in the other. -/
def Within (db db' : Stores) : Prop := ∀ name, (db name).isSome = true → (db' name).isSome = true

theorem within_refl (db : Stores) : Within db db := fun _ h => h

theorem Within.trans {db db' db'' : Stores} (h : Within db db') (h' : Within db' db'') : Within db db'' :=
  fun name hname => h' name (h name hname)

theorem Covers.mono {db db' : Stores} {tables : PreparedTables} (h : Covers db tables) (hw : Within db db') :
    Covers db' tables := fun k name hk => hw name (h k name hk)

theorem covers_register {db : Stores} {tables : PreparedTables} {ns : String} {names : List String}
    (h : Covers db tables) (hcreated : ∀ n ∈ names, (db (tableName ns n)).isSome = true) :
    Covers db (register tables ns names) := by
  intro k name hk
  obtain ⟨ns', n⟩ := k
  rcases Redb.register_eq_some.mp hk with ⟨-, hn, rfl⟩ | ⟨-, hold⟩
  · exact hcreated n hn
  · exact h _ _ hold

theorem within_openTable (write : Stores) (table : String) : Within write (openTable write table) := by
  intro name h
  obtain ⟨t, ht⟩ := Option.isSome_iff_exists.mp h
  rw [Redb.openTable_of_some ht]
  rfl

theorem within_onTable (f : KVStore → KVStore) (table : String) (write : Stores) :
    Within write (onTable f table write) := by
  intro name h
  unfold onTable
  by_cases hname : name = table
  · rw [hname, upd_self]
    rfl
  · rw [upd_ne hname]
    exact within_openTable write table name h

/-! ## What a step leaves to others -/

structure Shared.Ok (sh : Shared) : Prop where
  tables : Covers sh.db sh.tables
  txn : ∀ o write, sh.txn = some (o, write) → Within sh.db write

/-- What the others may rely on across a step of `o`: no table goes, a transaction of
    another stays as it is, and so does the registry while another has the lock. -/
structure Leaves (o : Owner) (sh sh' : Shared) : Prop where
  db : Within sh.db sh'.db
  txn : ∀ o' write, o' ≠ o → sh.txn = some (o', write) → sh'.txn = some (o', write)
  lock : ∀ p, .prepare p ≠ o → sh.lock = some p → sh'.lock = some p ∧ sh'.tables = sh.tables

/-- A step of the transaction: the registry and its lock are as before. -/
structure Moves (o : Owner) (sh sh' : Shared) : Prop where
  ok : sh'.Ok
  leaves : Leaves o sh sh'
  tables : sh'.tables = sh.tables
  lock : sh'.lock = sh.lock

section Transactions

variable {sh sh' : Shared} {o : Owner}

theorem leaves_refl (o : Owner) (sh : Shared) : Leaves o sh sh :=
  ⟨within_refl _, fun _ _ _ h => h, fun _ _ h => ⟨h, rfl⟩⟩

theorem transaction_eq_some {write : Stores} : sh.transaction o = some write ↔ sh.txn = some (o, write) := by
  unfold Shared.transaction
  cases htxn : sh.txn with
  | none => simp
  | some t =>
    obtain ⟨o', write'⟩ := t
    by_cases ho : o' = o
    · simp [ho]
    · simp [ho]

theorem beginWrite_moves (h : sh.beginWrite o = some sh') (hsh : sh.Ok) :
    Moves o sh sh' ∧ sh'.txn = some (o, sh.db) := by
  unfold Shared.beginWrite at h
  split at h
  · rename_i hfree
    cases h
    refine ⟨⟨⟨hsh.tables, fun o' write ht => ?_⟩,
      ⟨within_refl _, fun o' write _ ht => ?_, fun _ _ hl => ⟨hl, rfl⟩⟩, rfl, rfl⟩, rfl⟩
    · cases ht
      exact within_refl _
    · rw [hfree] at ht
      cases ht
  · cases h

theorem stage_moves {f : Stores → Stores} (h : sh.stage o f = some sh') (hsh : sh.Ok)
    (hf : ∀ write, Within write (f write)) :
    Moves o sh sh' ∧ ∃ write, sh.txn = some (o, write) ∧ sh'.txn = some (o, f write) := by
  obtain ⟨write, hwrite, rfl⟩ := Option.map_eq_some_iff.mp h
  have htxn := transaction_eq_some.mp hwrite
  refine ⟨⟨⟨hsh.tables, fun o' write' ht => ?_⟩, ⟨within_refl _, fun o' write' hne ht => ?_, fun _ _ hl => ⟨hl, rfl⟩⟩,
    rfl, rfl⟩, write, htxn, rfl⟩
  · cases ht
    exact (hsh.txn o write htxn).trans (hf write)
  · rw [htxn] at ht
    cases ht
    exact absurd rfl hne

theorem commit_moves (h : sh.commit o = some sh') (hsh : sh.Ok) : Moves o sh sh' ∧ sh.txn = some (o, sh'.db) := by
  obtain ⟨write, hwrite, rfl⟩ := Option.map_eq_some_iff.mp h
  have htxn := transaction_eq_some.mp hwrite
  have hwithin := hsh.txn o write htxn
  refine ⟨⟨⟨hsh.tables.mono hwithin, nofun⟩, ⟨hwithin, fun o' write' hne ht => ?_, fun _ _ hl => ⟨hl, rfl⟩⟩, rfl, rfl⟩,
    htxn⟩
  rw [htxn] at ht
  cases ht
  exact absurd rfl hne

theorem abort_moves (h : sh.abort o = some sh') (hsh : sh.Ok) : Moves o sh sh' := by
  obtain ⟨write, hwrite, rfl⟩ := Option.map_eq_some_iff.mp h
  have htxn := transaction_eq_some.mp hwrite
  refine ⟨⟨hsh.tables, nofun⟩, ⟨within_refl _, fun o' write' hne ht => ?_, fun _ _ hl => ⟨hl, rfl⟩⟩, rfl, rfl⟩
  rw [htxn] at ht
  cases ht
  exact absurd rfl hne

end Transactions

/-! ## Where an actor stands -/

/-- The tables of the prepare's stores are there. -/
def Created (db : Stores) (ns : String) (names : List String) : Prop :=
  ∀ n ∈ names, (db (tableName ns n)).isSome = true

/-- The tables are there once committed, and so before the registry names them. -/
def PrepareOk (sh : Shared) (p : Nat) (c : Prepare) : Prop :=
  match c.phase with
  | .called => True
  | .creating rest => ∃ write, sh.txn = some (.prepare p, write) ∧
      ∀ n ∈ c.names, n ∈ rest ∨ (write (tableName c.ns n)).isSome = true
  | .committed => Created sh.db c.ns c.names
  | .locked => Created sh.db c.ns c.names ∧ sh.lock = some p
  | .edited next => Created sh.db c.ns c.names ∧ sh.lock = some p ∧ next = register sh.tables c.ns c.names
  | .returned => True

/-- The handle sees the tables of its copy of the registry; until it has its transaction,
    the database has them. -/
def ReaderOk (sh : Shared) (c : Reader) : Prop := Covers (c.read.getD sh.db) c.tables

def WriterOk (sh : Shared) (w : Nat) (c : Writer) : Prop :=
  match c.phase with
  | .copied => Covers sh.db c.tables
  | .live => ∃ write, sh.txn = some (.write w, write) ∧ Covers write c.tables
  | .ended => True

section Actors

variable {sh sh' : Shared} {o : Owner} {a : Ans}

theorem Created.mono {db db' : Stores} {ns : String} {names : List String} (h : Created db ns names)
    (hw : Within db db') : Created db' ns names := fun n hn => hw _ (h n hn)

theorem PrepareOk.stable {p : Nat} {c : Prepare} (h : PrepareOk sh p c) (hl : Leaves o sh sh') (ho : .prepare p ≠ o) :
    PrepareOk sh' p c := by
  obtain ⟨ns, names, phase⟩ := c
  cases phase with
  | called => trivial
  | creating rest =>
    obtain ⟨write, htxn, hrest⟩ := h
    exact ⟨write, hl.txn _ _ ho htxn, hrest⟩
  | committed => exact Created.mono h hl.db
  | locked => exact ⟨h.1.mono hl.db, (hl.lock p ho h.2).1⟩
  | edited next =>
    obtain ⟨hcreated, hlock, hnext⟩ := h
    obtain ⟨hlock', htables⟩ := hl.lock p ho hlock
    exact ⟨hcreated.mono hl.db, hlock', by rw [htables]; exact hnext⟩
  | returned => trivial

theorem ReaderOk.stable {c : Reader} (h : ReaderOk sh c) (hl : Leaves o sh sh') : ReaderOk sh' c := by
  obtain ⟨ns, tables, read⟩ := c
  cases read with
  | none => exact Covers.mono h hl.db
  | some read => exact h

theorem WriterOk.stable {w : Nat} {c : Writer} (h : WriterOk sh w c) (hl : Leaves o sh sh') (ho : .write w ≠ o) :
    WriterOk sh' w c := by
  obtain ⟨ns, tables, phase⟩ := c
  cases phase with
  | copied => exact Covers.mono h hl.db
  | live =>
    obtain ⟨write, htxn, hcovers⟩ := h
    exact ⟨write, hl.txn _ _ ho htxn, hcovers⟩
  | ended => trivial

/-- The registry changes by a prepare that returns, to what that prepare lists. -/
def Registers (sh sh' : Shared) : Ans → Prop
  | .published ns names => sh'.tables = register sh.tables ns names
  | _ => sh'.tables = sh.tables

/-- A step of `o` keeps what holds of the shared state. -/
structure Sound (o : Owner) (sh sh' : Shared) (a : Ans) : Prop where
  ok : sh'.Ok
  leaves : Leaves o sh sh'
  registers : Registers sh sh' a
  found : a ≠ .tableDoesNotExist

theorem Moves.sound (h : Moves o sh sh') : Sound o sh sh' .done := ⟨h.ok, h.leaves, h.tables, nofun⟩

theorem prepareStep_sound {p : Nat} {c : Option Prepare} {c' : Prepare} {e : PrepareEv}
    (h : prepareStep sh p c e = some (sh', c', a)) (hsh : sh.Ok) (hc : ∀ c0, c = some c0 → PrepareOk sh p c0) :
    Sound (.prepare p) sh sh' a ∧ PrepareOk sh' p c' := by
  have hsame : ∀ a, a = .done ∨ a = .failed → Sound (.prepare p) sh sh a := by
    rintro a (rfl | rfl) <;> exact ⟨hsh, leaves_refl _ _, rfl, nofun⟩
  unfold prepareStep at h
  split at h
  · -- `call`
    cases h
    exact ⟨hsame _ (.inl rfl), trivial⟩
  · -- `beginWrite`
    obtain ⟨sh1, hbegin, h⟩ := Option.map_eq_some_iff.mp h
    cases h
    obtain ⟨hmoves, htxn⟩ := beginWrite_moves hbegin hsh
    exact ⟨hmoves.sound, _, htxn, fun n hn => Or.inl hn⟩
  · cases h
    exact ⟨hsame _ (.inr rfl), trivial⟩
  · -- `openTable`: one table fewer to open
    rename_i ns names name rest
    obtain ⟨sh1, hstage, h⟩ := Option.map_eq_some_iff.mp h
    cases h
    obtain ⟨hmoves, write, htxn, htxn'⟩ := stage_moves hstage hsh fun write => within_openTable write _
    obtain ⟨write', htxn'', hrest⟩ := hc _ rfl
    obtain rfl : write' = write := by
      rw [htxn] at htxn''
      cases htxn''
      rfl
    refine ⟨hmoves.sound, _, htxn', fun n hn => ?_⟩
    rcases hrest n hn with hmem | hopen
    · rcases List.mem_cons.mp hmem with rfl | hmem
      · exact Or.inr (Redb.openTable_isSome _ _)
      · exact Or.inl hmem
    · exact Or.inr (within_openTable _ _ _ hopen)
  · -- `commit`: all are open
    obtain ⟨sh1, hcommit, h⟩ := Option.map_eq_some_iff.mp h
    cases h
    obtain ⟨hmoves, htxn⟩ := commit_moves hcommit hsh
    obtain ⟨write, htxn', hopen⟩ := hc _ rfl
    rw [htxn] at htxn'
    cases htxn'
    exact ⟨hmoves.sound, fun n hn => (hopen n hn).resolve_left List.not_mem_nil⟩
  · obtain ⟨sh1, habort, h⟩ := Option.map_eq_some_iff.mp h
    cases h
    have hmoves := abort_moves habort hsh
    exact ⟨⟨hmoves.ok, hmoves.leaves, hmoves.tables, nofun⟩, trivial⟩
  · -- `lock`
    split at h
    · rename_i hfree
      cases h
      refine ⟨⟨⟨hsh.tables, hsh.txn⟩, ⟨within_refl _, fun _ _ _ ht => ht, fun p' _ hl => ?_⟩, rfl, nofun⟩,
        hc _ rfl, rfl⟩
      rw [hfree] at hl
      cases hl
    · cases h
  · -- `edit`: nobody else publishes until this prepare does
    cases h
    obtain ⟨hcreated, hlock⟩ := hc _ rfl
    exact ⟨hsame _ (.inl rfl), hcreated, hlock, rfl⟩
  · -- `publish`
    cases h
    obtain ⟨hcreated, hlock, hnext⟩ := hc _ rfl
    refine ⟨⟨⟨?_, hsh.txn⟩, ⟨within_refl _, fun _ _ _ ht => ht, fun p' hne hl => ?_⟩, hnext, nofun⟩, trivial⟩
    · show Covers sh.db _
      rw [hnext]
      exact covers_register hsh.tables hcreated
    · rw [hlock] at hl
      cases hl
      exact absurd rfl hne
  · cases h

theorem readStep_sound {c : Option Reader} {c' : Reader} {e : ReadEv} (h : readStep sh c e = some (c', a)) (hsh : sh.Ok)
    (hc : ∀ c0, c = some c0 → ReaderOk sh c0) :
    ReaderOk sh c' ∧ Registers sh sh a ∧ a ≠ .tableDoesNotExist := by
  unfold readStep at h
  split at h
  · split at h
    · cases h
      exact ⟨hsh.tables, rfl, nofun⟩
    · cases h
  · -- `beginRead`: the copy was made before
    cases h
    have hcovers := hc _ rfl
    exact ⟨hcovers, rfl, nofun⟩
  · -- `openStore`
    have hcovers := hc _ rfl
    split at h
    · rename_i htable
      split at h
      · cases h
        exact ⟨hcovers, rfl, nofun⟩
      · rename_i hmissing
        have hthere := hcovers _ _ htable
        rw [Option.getD_some, hmissing] at hthere
        cases hthere
    · cases h
      exact ⟨hcovers, rfl, nofun⟩
  · cases h

theorem withTable_sound {w : Nat} {ns : String} {tables : PreparedTables} {name : String} {f : KVStore → KVStore}
    {c' : Writer} (h : withTable sh w ns tables name f = some (sh', c', a)) (hsh : sh.Ok)
    (hc : WriterOk sh w ⟨ns, tables, .live⟩) : Sound (.write w) sh sh' a ∧ WriterOk sh' w c' := by
  unfold withTable at h
  split at h
  · obtain ⟨sh1, hstage, h⟩ := Option.map_eq_some_iff.mp h
    cases h
    obtain ⟨hmoves, write, htxn, htxn'⟩ := stage_moves hstage hsh (within_onTable f _)
    obtain ⟨write', htxn'', hcovers⟩ := hc
    rw [htxn] at htxn''
    cases htxn''
    exact ⟨hmoves.sound, _, htxn', hcovers.mono (within_onTable f _ _)⟩
  · cases h
    exact ⟨⟨hsh, leaves_refl _ _, rfl, nofun⟩, hc⟩

theorem writeStep_sound {w : Nat} {c : Option Writer} {c' : Writer} {e : WriteEv}
    (h : writeStep sh w c e = some (sh', c', a)) (hsh : sh.Ok) (hc : ∀ c0, c = some c0 → WriterOk sh w c0) :
    Sound (.write w) sh sh' a ∧ WriterOk sh' w c' := by
  unfold writeStep at h
  split at h
  · split at h
    · cases h
      exact ⟨⟨hsh, leaves_refl _ _, rfl, nofun⟩, hsh.tables⟩
    · cases h
  · -- `beginWrite`: the copy was made before
    obtain ⟨sh1, hbegin, h⟩ := Option.map_eq_some_iff.mp h
    cases h
    obtain ⟨hmoves, htxn⟩ := beginWrite_moves hbegin hsh
    exact ⟨hmoves.sound, _, htxn, hc _ rfl⟩
  · exact withTable_sound h hsh (hc _ rfl)
  · exact withTable_sound h hsh (hc _ rfl)
  · exact withTable_sound h hsh (hc _ rfl)
  · obtain ⟨sh1, hcommit, h⟩ := Option.map_eq_some_iff.mp h
    cases h
    exact ⟨(commit_moves hcommit hsh).1.sound, trivial⟩
  · obtain ⟨sh1, habort, h⟩ := Option.map_eq_some_iff.mp h
    cases h
    exact ⟨(abort_moves habort hsh).sound, trivial⟩
  · cases h

end Actors

/-! ## Every interleaving -/

structure Inv (s : St) : Prop where
  shared : s.shared.Ok
  prepares : ∀ p c, s.prepares p = some c → PrepareOk s.shared p c
  readers : ∀ r c, s.readers r = some c → ReaderOk s.shared c
  writers : ∀ w c, s.writers w = some c → WriterOk s.shared w c

theorem step_sound {s s' : St} {e : Ev} {a : Ans} (h : step s e = some (s', a)) (hs : Inv s) :
    Inv s' ∧ Registers s.shared s'.shared a ∧ a ≠ .tableDoesNotExist := by
  cases e with
  | prepare p e =>
    obtain ⟨⟨sh, c, a'⟩, hstep, h⟩ := Option.map_eq_some_iff.mp h
    cases h
    obtain ⟨hsound, hc⟩ := prepareStep_sound hstep hs.shared (hs.prepares p)
    refine ⟨⟨hsound.ok, ?_, ?_, ?_⟩, hsound.registers, hsound.found⟩
    · exact forall_update (P := PrepareOk sh) hc fun p' c' hne hp =>
        (hs.prepares p' c' hp).stable hsound.leaves fun heq => hne (Owner.prepare.inj heq)
    · exact fun r c' hr => (hs.readers r c' hr).stable hsound.leaves
    · exact fun w c' hw => (hs.writers w c' hw).stable hsound.leaves nofun
  | read r e =>
    obtain ⟨⟨c, a'⟩, hstep, h⟩ := Option.map_eq_some_iff.mp h
    cases h
    obtain ⟨hc, hregisters, hfound⟩ := readStep_sound hstep hs.shared (hs.readers r)
    refine ⟨⟨hs.shared, hs.prepares, ?_, hs.writers⟩, hregisters, hfound⟩
    exact forall_update (P := fun _ => ReaderOk s.shared) hc fun r' c' _ hr => hs.readers r' c' hr
  | write w e =>
    obtain ⟨⟨sh, c, a'⟩, hstep, h⟩ := Option.map_eq_some_iff.mp h
    cases h
    obtain ⟨hsound, hc⟩ := writeStep_sound hstep hs.shared (hs.writers w)
    refine ⟨⟨hsound.ok, ?_, ?_, ?_⟩, hsound.registers, hsound.found⟩
    · exact fun p c' hp => (hs.prepares p c' hp).stable hsound.leaves nofun
    · exact fun r c' hr => (hs.readers r c' hr).stable hsound.leaves
    · exact forall_update (P := WriterOk sh) hc fun w' c' hne hw =>
        (hs.writers w' c' hw).stable hsound.leaves fun heq => hne (Owner.write.inj heq)

theorem registers_published {sh sh' : Shared} {e : Ev} {a : Ans} {tr : Trace Ev Ans} (h : Registers sh sh' a)
    (htables : sh.tables = registered (published tr)) : sh'.tables = registered (published ((e, a) :: tr)) := by
  cases a with
  | published ns names =>
    rw [published, Redb.registered_concat, ← htables]
    exact h
  | _ =>
    rw [published]
    · exact h.trans htables
    · nofun

theorem inv_of_run {db : Stores} {tr : Trace Ev Ans} {s : St} (h : Run step (fromDatabase db) tr s) :
    Inv s ∧ s.shared.tables = registered (published tr) ∧ ∀ x ∈ tr, x.2 ≠ .tableDoesNotExist := by
  refine h.invariant (I := fun tr s => Inv s ∧ s.shared.tables = registered (published tr) ∧
    ∀ x ∈ tr, x.2 ≠ .tableDoesNotExist) ?_ fun tr s e s' a _ hinv hstep => ?_
  · exact ⟨⟨⟨nofun, nofun⟩, nofun, nofun, nofun⟩, rfl, nofun⟩
  · obtain ⟨hs, htables, hfound⟩ := hinv
    obtain ⟨hs', hregisters, ha⟩ := step_sound hstep hs
    refine ⟨hs', registers_published hregisters htables, fun x hx => ?_⟩
    rcases List.mem_cons.mp hx with rfl | hx
    · exact ha
    · exact hfound x hx

theorem openRead_done {s : St} {r : Nat} {ns : String} {tables : PreparedTables} {read : Stores}
    (h : s.readers r = some ⟨ns, tables, some read⟩) (hcovers : Covers read tables) {name table : String}
    (htable : tables (ns, name) = some table) : ∃ s', step s (.read r (.openStore name)) = some (s', .done) := by
  obtain ⟨store, hstore⟩ := Option.isSome_iff_exists.mp (hcovers _ _ htable)
  exact ⟨_, by simp only [step, h, readStep, htable, hstore, Option.map_some]; rfl⟩

theorem openWrite_done {s : St} {w : Nat} {ns : String} {tables : PreparedTables} {write : Stores}
    (h : s.writers w = some ⟨ns, tables, .live⟩) (htxn : s.shared.txn = some (.write w, write)) {name table : String}
    (htable : tables (ns, name) = some table) : ∃ s', step s (.write w (.openStore name)) = some (s', .done) := by
  have htransaction := transaction_eq_some.mpr htxn
  exact ⟨_, by simp only [step, h, writeStep, withTable, htable, Shared.stage, htransaction, Option.map_some]; rfl⟩

/-- In every state of every interleaving of prepares, reads and writes, each step by step:
    the tables of the registry are committed, and those of the copy of every live handle
    are there for its transaction, so opening a store of the handle's registry finds its
    table, and none was ever missing; and registered are, for each namespace, the stores
    that its last published prepare lists, whatever other namespaces have published. -/
theorem prepared_opens {db : Stores} {tr : Trace Ev Ans} {s : St} (h : Run step (fromDatabase db) tr s) :
    Covers s.shared.db s.shared.tables ∧
    (∀ r ns tables read, s.readers r = some ⟨ns, tables, some read⟩ → Covers read tables ∧
      ∀ name table, tables (ns, name) = some table → ∃ s', step s (.read r (.openStore name)) = some (s', .done)) ∧
    (∀ w ns tables, s.writers w = some ⟨ns, tables, .live⟩ → ∃ write,
      s.shared.txn = some (.write w, write) ∧ Covers write tables ∧
      ∀ name table, tables (ns, name) = some table → ∃ s', step s (.write w (.openStore name)) = some (s', .done)) ∧
    (∀ x ∈ tr, x.2 ≠ .tableDoesNotExist) ∧
    ∀ ns n name, s.shared.tables (ns, n) = some name ↔
      tableName ns n = name ∧ ∃ names, lastListed ns (published tr) = some names ∧ n ∈ names := by
  obtain ⟨hs, htables, hfound⟩ := inv_of_run h
  refine ⟨hs.shared.tables, fun r ns tables read hr => ?_, fun w ns tables hw => ?_, hfound, fun ns n name => ?_⟩
  · have hcovers : Covers read tables := hs.readers r _ hr
    exact ⟨hcovers, fun name table htable => openRead_done hr hcovers htable⟩
  · obtain ⟨write, htxn, hcovers⟩ := hs.writers w _ hw
    exact ⟨write, htxn, hcovers, fun name table htable => openWrite_done hw htxn htable⟩
  · rw [htables]
    exact Redb.registered_eq_some

/-! ## A step by its event -/

section Steps

/-- What each event does for the prepare `p`. -/
inductive PrepareSteps (sh : Shared) (p : Nat) : Option Prepare → PrepareEv → Shared → Prepare → Prop
  | call (ns : String) (names : List String) : PrepareSteps sh p none (.call ns names) sh ⟨ns, names, .called⟩
  | beginWrite (ns : String) (names : List String) : sh.txn = none →
      PrepareSteps sh p (some ⟨ns, names, .called⟩) .beginWrite { sh with txn := some (.prepare p, sh.db) }
        ⟨ns, names, .creating names⟩
  | fails (ns : String) (names : List String) :
      PrepareSteps sh p (some ⟨ns, names, .called⟩) .fail sh ⟨ns, names, .returned⟩
  | openTable (ns : String) (names : List String) (name : String) (rest : List String) (write : Stores) :
      sh.txn = some (.prepare p, write) → PrepareSteps sh p (some ⟨ns, names, .creating (name :: rest)⟩) .openTable
        { sh with txn := some (.prepare p, openTable write (tableName ns name)) } ⟨ns, names, .creating rest⟩
  | commit (ns : String) (names : List String) (write : Stores) : sh.txn = some (.prepare p, write) →
      PrepareSteps sh p (some ⟨ns, names, .creating []⟩) .commit { sh with db := write, txn := none }
        ⟨ns, names, .committed⟩
  | aborts (ns : String) (names rest : List String) (write : Stores) : sh.txn = some (.prepare p, write) →
      PrepareSteps sh p (some ⟨ns, names, .creating rest⟩) .fail { sh with txn := none } ⟨ns, names, .returned⟩
  | lock (ns : String) (names : List String) : sh.lock = none →
      PrepareSteps sh p (some ⟨ns, names, .committed⟩) .lock { sh with lock := some p } ⟨ns, names, .locked⟩
  | edit (ns : String) (names : List String) : PrepareSteps sh p (some ⟨ns, names, .locked⟩) .edit sh
      ⟨ns, names, .edited (register sh.tables ns names)⟩
  | publish (ns : String) (names : List String) (next : PreparedTables) :
      PrepareSteps sh p (some ⟨ns, names, .edited next⟩) .publish { sh with tables := next, lock := none }
        ⟨ns, names, .returned⟩

inductive ReadSteps (sh : Shared) : Option Reader → ReadEv → Reader → Prop
  | call (ns : String) : sh.lock = none → ReadSteps sh none (.call ns) ⟨ns, sh.tables, none⟩
  | beginRead (ns : String) (tables : PreparedTables) :
      ReadSteps sh (some ⟨ns, tables, none⟩) .beginRead ⟨ns, tables, some sh.db⟩
  | openStore (ns : String) (tables : PreparedTables) (read : Stores) (name : String) :
      ReadSteps sh (some ⟨ns, tables, some read⟩) (.openStore name) ⟨ns, tables, some read⟩

/-- The events of a handle on its stores. -/
def WriteEv.isUse : WriteEv → Bool
  | .openStore _ | .set _ _ _ | .remove _ _ => true
  | _ => false

inductive WriteSteps (sh : Shared) (w : Nat) : Option Writer → WriteEv → Shared → Writer → Prop
  | call (ns : String) : sh.lock = none → WriteSteps sh w none (.call ns) sh ⟨ns, sh.tables, .copied⟩
  | beginWrite (ns : String) (tables : PreparedTables) : sh.txn = none →
      WriteSteps sh w (some ⟨ns, tables, .copied⟩) .beginWrite { sh with txn := some (.write w, sh.db) }
        ⟨ns, tables, .live⟩
  | use (ns : String) (tables : PreparedTables) (e : WriteEv) (write write' : Stores) : e.isUse = true →
      sh.txn = some (.write w, write) →
      WriteSteps sh w (some ⟨ns, tables, .live⟩) e { sh with txn := some (.write w, write') } ⟨ns, tables, .live⟩
  | panics (ns : String) (tables : PreparedTables) (e : WriteEv) : e.isUse = true →
      WriteSteps sh w (some ⟨ns, tables, .live⟩) e sh ⟨ns, tables, .live⟩
  | commit (ns : String) (tables : PreparedTables) (write : Stores) : sh.txn = some (.write w, write) →
      WriteSteps sh w (some ⟨ns, tables, .live⟩) .commit { sh with db := write, txn := none } ⟨ns, tables, .ended⟩
  | drop (ns : String) (tables : PreparedTables) (write : Stores) : sh.txn = some (.write w, write) →
      WriteSteps sh w (some ⟨ns, tables, .live⟩) .drop { sh with txn := none } ⟨ns, tables, .ended⟩

variable {sh sh' : Shared} {ns name : String} {tables : PreparedTables}

variable {o : Owner}

theorem beginWrite_eq_some : sh.beginWrite o = some sh' ↔ sh.txn = none ∧ sh' = { sh with txn := some (o, sh.db) } := by
  unfold Shared.beginWrite
  cases sh.txn with
  | none => simp [eq_comm]
  | some t => simp

theorem map_transaction_eq_some {α : Type} {f : Stores → α} {x : α} :
    (sh.transaction o).map f = some x ↔ ∃ write, sh.txn = some (o, write) ∧ f write = x := by
  simp only [Option.map_eq_some_iff, transaction_eq_some]

theorem prepareStep_steps {p : Nat} {c : Option Prepare} {c' : Prepare} {e : PrepareEv} {a : Ans}
    (h : prepareStep sh p c e = some (sh', c', a)) : PrepareSteps sh p c e sh' c' := by
  unfold prepareStep at h
  split at h
  · cases h
    exact .call _ _
  · obtain ⟨sh1, hbegin, h⟩ := Option.map_eq_some_iff.mp h
    cases h
    obtain ⟨hfree, rfl⟩ := beginWrite_eq_some.mp hbegin
    exact .beginWrite _ _ hfree
  · cases h
    exact .fails _ _
  · obtain ⟨sh1, hstage, h⟩ := Option.map_eq_some_iff.mp h
    cases h
    obtain ⟨write, htxn, rfl⟩ := map_transaction_eq_some.mp hstage
    exact .openTable _ _ _ _ _ htxn
  · obtain ⟨sh1, hcommit, h⟩ := Option.map_eq_some_iff.mp h
    cases h
    obtain ⟨write, htxn, rfl⟩ := map_transaction_eq_some.mp hcommit
    exact .commit _ _ _ htxn
  · obtain ⟨sh1, habort, h⟩ := Option.map_eq_some_iff.mp h
    cases h
    obtain ⟨write, htxn, rfl⟩ := map_transaction_eq_some.mp habort
    exact .aborts _ _ _ _ htxn
  · split at h
    · rename_i hfree
      cases h
      exact .lock _ _ hfree
    · cases h
  · cases h
    exact .edit _ _
  · cases h
    exact .publish _ _ _
  · cases h

theorem readStep_steps {c : Option Reader} {c' : Reader} {e : ReadEv} {a : Ans}
    (h : readStep sh c e = some (c', a)) : ReadSteps sh c e c' := by
  unfold readStep at h
  split at h
  · split at h
    · rename_i hfree
      cases h
      exact .call _ hfree
    · cases h
  · cases h
    exact .beginRead _ _
  · split at h
    · split at h
      all_goals
        cases h
        exact .openStore _ _ _ _
    · cases h
      exact .openStore _ _ _ _
  · cases h

theorem withTable_steps {w : Nat} {f : KVStore → KVStore} {c' : Writer} {e : WriteEv} {a : Ans}
    (h : withTable sh w ns tables name f = some (sh', c', a)) (he : e.isUse = true) :
    WriteSteps sh w (some ⟨ns, tables, .live⟩) e sh' c' := by
  unfold withTable at h
  split at h
  · obtain ⟨sh1, hstage, h⟩ := Option.map_eq_some_iff.mp h
    cases h
    obtain ⟨write, htxn, rfl⟩ := map_transaction_eq_some.mp hstage
    exact .use _ _ _ _ _ he htxn
  · cases h
    exact .panics _ _ _ he

theorem writeStep_steps {w : Nat} {c : Option Writer} {c' : Writer} {e : WriteEv} {a : Ans}
    (h : writeStep sh w c e = some (sh', c', a)) : WriteSteps sh w c e sh' c' := by
  unfold writeStep at h
  split at h
  · split at h
    · rename_i hfree
      cases h
      exact .call _ hfree
    · cases h
  · obtain ⟨sh1, hbegin, h⟩ := Option.map_eq_some_iff.mp h
    cases h
    obtain ⟨hfree, rfl⟩ := beginWrite_eq_some.mp hbegin
    exact .beginWrite _ _ hfree
  · exact withTable_steps h rfl
  · exact withTable_steps h rfl
  · exact withTable_steps h rfl
  · obtain ⟨sh1, hcommit, h⟩ := Option.map_eq_some_iff.mp h
    cases h
    obtain ⟨write, htxn, rfl⟩ := map_transaction_eq_some.mp hcommit
    exact .commit _ _ _ htxn
  · obtain ⟨sh1, habort, h⟩ := Option.map_eq_some_iff.mp h
    cases h
    obtain ⟨write, htxn, rfl⟩ := map_transaction_eq_some.mp habort
    exact .drop _ _ _ htxn
  · cases h

/-- What each event does to what is shared and to its actor. -/
inductive Steps (s : St) : Ev → St → Prop
  | prepare (p : Nat) (e : PrepareEv) (sh : Shared) (c : Prepare) : PrepareSteps s.shared p (s.prepares p) e sh c →
      Steps s (.prepare p e) { s with shared := sh, prepares := Function.update s.prepares p (some c) }
  | read (r : Nat) (e : ReadEv) (c : Reader) : ReadSteps s.shared (s.readers r) e c →
      Steps s (.read r e) { s with readers := Function.update s.readers r (some c) }
  | write (w : Nat) (e : WriteEv) (sh : Shared) (c : Writer) : WriteSteps s.shared w (s.writers w) e sh c →
      Steps s (.write w e) { s with shared := sh, writers := Function.update s.writers w (some c) }

theorem step_steps {s s' : St} {e : Ev} {a : Ans} (h : step s e = some (s', a)) : Steps s e s' := by
  cases e with
  | prepare p e =>
    obtain ⟨⟨sh, c, a'⟩, hstep, h⟩ := Option.map_eq_some_iff.mp h
    cases h
    exact .prepare _ _ _ _ (prepareStep_steps hstep)
  | read r e =>
    obtain ⟨⟨c, a'⟩, hstep, h⟩ := Option.map_eq_some_iff.mp h
    cases h
    exact .read _ _ _ (readStep_steps hstep)
  | write w e =>
    obtain ⟨⟨sh, c, a'⟩, hstep, h⟩ := Option.map_eq_some_iff.mp h
    cases h
    exact .write _ _ _ _ (writeStep_steps hstep)

/-! A step that an event can take its actor is taken. -/

theorem prepareStep_of_steps {p : Nat} {c : Option Prepare} {c' : Prepare} {e : PrepareEv}
    (h : PrepareSteps sh p c e sh' c') : ∃ a, prepareStep sh p c e = some (sh', c', a) := by
  cases h with
  | call | fails | edit | publish => exact ⟨_, rfl⟩
  | beginWrite ns names hfree => exact ⟨_, by simp only [prepareStep, Shared.beginWrite, hfree]; rfl⟩
  | openTable ns names name rest write htxn =>
    exact ⟨_, by simp only [prepareStep, Shared.stage, transaction_eq_some.mpr htxn]; rfl⟩
  | commit ns names write htxn =>
    exact ⟨_, by simp only [prepareStep, Shared.commit, transaction_eq_some.mpr htxn]; rfl⟩
  | aborts ns names rest write htxn =>
    exact ⟨_, by simp only [prepareStep, Shared.abort, transaction_eq_some.mpr htxn]; rfl⟩
  | lock ns names hfree => exact ⟨_, by simp only [prepareStep, hfree]; rfl⟩

theorem step_prepares {s : St} {p : Nat} {c c' : Prepare} {e : PrepareEv} (hp : s.prepares p = some c)
    (h : PrepareSteps s.shared p (some c) e sh' c') : ∃ s' a, step s (.prepare p e) = some (s', a) := by
  obtain ⟨a, hstep⟩ := prepareStep_of_steps h
  exact ⟨_, a, by simp only [step, hp, hstep]; rfl⟩

theorem step_reads {s : St} {r : Nat} (ns : String) (hr : s.readers r = none) (hfree : s.shared.lock = none) :
    ∃ s' a, step s (.read r (.call ns)) = some (s', a) :=
  ⟨_, _, by simp only [step, hr, readStep, hfree]; rfl⟩

theorem step_beginsRead {s : St} {r : Nat} {ns : String} {tables : PreparedTables}
    (hr : s.readers r = some ⟨ns, tables, none⟩) : ∃ s' a, step s (.read r .beginRead) = some (s', a) :=
  ⟨_, _, by simp only [step, hr, readStep]; rfl⟩

theorem step_writes {s : St} {w : Nat} (ns : String) (hw : s.writers w = none) (hfree : s.shared.lock = none) :
    ∃ s' a, step s (.write w (.call ns)) = some (s', a) :=
  ⟨_, _, by simp only [step, hw, writeStep, hfree]; rfl⟩

theorem step_beginsWrite {s : St} {w : Nat} {ns : String} {tables : PreparedTables}
    (hw : s.writers w = some ⟨ns, tables, .copied⟩) (hfree : s.shared.txn = none) :
    ∃ s' a, step s (.write w .beginWrite) = some (s', a) :=
  ⟨_, _, by simp only [step, hw, writeStep, Shared.beginWrite, hfree]; rfl⟩

theorem step_commits {s : St} {w : Nat} {ns : String} {tables : PreparedTables} {write : Stores}
    (hw : s.writers w = some ⟨ns, tables, .live⟩) (htxn : s.shared.txn = some (.write w, write)) :
    ∃ s' a, step s (.write w .commit) = some (s', a) :=
  ⟨_, _, by simp only [step, hw, writeStep, Shared.commit, transaction_eq_some.mpr htxn]; rfl⟩

end Steps

/-- Two prepares, one inside the other: `orders` is published while `users` is under way;
    then a read and a write of `orders`. -/
def nestedPrepares : Trace Ev Ans :=
  [(.write 0 .beginWrite, .done), (.write 0 (.call "orders"), .done), (.read 0 .beginRead, .done),
    (.read 0 (.call "orders"), .done), (.prepare 0 .publish, .published "users" ["__main"]), (.prepare 0 .edit, .done),
    (.prepare 0 .lock, .done), (.prepare 1 .publish, .published "orders" ["__main"]), (.prepare 1 .edit, .done),
    (.prepare 1 .lock, .done), (.prepare 1 .commit, .done), (.prepare 1 .openTable, .done),
    (.prepare 1 .beginWrite, .done), (.prepare 1 (.call "orders" ["__main"]), .done), (.prepare 0 .commit, .done),
    (.prepare 0 .openTable, .done), (.prepare 0 .beginWrite, .done), (.prepare 0 (.call "users" ["__main"]), .done)]

theorem run_nestedPrepares : ∃ s tables read tables', Run step (fromDatabase fun _ => none) nestedPrepares s ∧
    s.readers 0 = some ⟨"orders", tables, some read⟩ ∧
    tables ("orders", "__main") = some (tableName "orders" "__main") ∧
    s.writers 0 = some ⟨"orders", tables', .live⟩ ∧
    tables' ("orders", "__main") = some (tableName "orders" "__main") :=
  ⟨_, _, _, _, .step (.step (.step (.step (.step (.step (.step (.step (.step (.step (.step (.step (.step (.step (.step
    (.step (.step (.step .nil rfl) rfl) rfl) rfl) rfl) rfl) rfl) rfl) rfl) rfl) rfl) rfl) rfl) rfl) rfl) rfl) rfl) rfl,
    rfl, rfl, rfl, rfl⟩

/-- `orders` is still registered, and both handles open it. -/
theorem prepared_opens_nested : ∃ s, Run step (fromDatabase fun _ => none) nestedPrepares s ∧
    s.shared.tables ("orders", "__main") = some (tableName "orders" "__main") ∧
    (∃ s', step s (.read 0 (.openStore "__main")) = some (s', .done)) ∧
    ∃ s', step s (.write 0 (.openStore "__main")) = some (s', .done) := by
  obtain ⟨s, tables, read, tables', hrun, hreader, htable, hwriter, htable'⟩ := run_nestedPrepares
  obtain ⟨-, hreaders, hwriters, -, hregistered⟩ := prepared_opens hrun
  obtain ⟨-, hreads⟩ := hreaders 0 _ _ _ hreader
  obtain ⟨write, -, -, hwrites⟩ := hwriters 0 _ _ hwriter
  exact ⟨s, hrun, (hregistered "orders" "__main" _).mpr ⟨rfl, ["__main"], by decide, by decide⟩,
    hreads _ _ htable, hwrites _ _ htable'⟩

end Collette.Registry
