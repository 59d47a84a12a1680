/-
  Collette.Store.Redb — the redb multistore (`backend/redb.rs`), and the requests a client
  makes of a multistore, one at a time (`store.rs`).

  The database is what redb is assumed to be: named tables ordered by key, of which a
  read transaction sees what was committed when it began. There is one write
  transaction at a time: `begin_write` waits. It works on a copy that its commit
  publishes; opening a table in it creates a missing one and leaves the contents of one
  there is. What a table's range is, of bounds that are not inverted, is a hypothesis of
  the theorems that need it (`range`).

  Over it the backend keeps a registry of the prepared stores, each with the name of its
  table, copied by the handles; `prepare` replaces the namespace's part of the registry
  and deletes no table.
-/

import Collette.Store.Memory
import Collette.Key.Scalars

namespace Collette

inductive Request where
  | prepare (ns : String) (names : List String)
  | read (r : Nat) (ns : String)
  | openStore (q r : Nat) (name : String)
  | get (q : Nat) (key : Bytes)
  | scan (q : Nat) (range : ScanRange) (direction : Direction)
  | write (w : Nat) (ns : String)
  | openStaged (w : Nat) (name : String)
  | getStaged (w : Nat) (name : String) (key : Bytes)
  | scanStaged (w : Nat) (name : String) (range : ScanRange) (direction : Direction)
  | set (w : Nat) (name : String) (key value : Bytes)
  | remove (w : Nat) (name : String) (key : Bytes)
  | commit (w : Nat)
  | drop (w : Nat)
  deriving DecidableEq, Repr

namespace Redb

/-! ## Table names -/

def HEX : List Char := "0123456789abcdef".toList

def pushHex (bytes : Bytes) : List Char :=
  bytes.flatMap fun (byte : UInt8) => [HEX.getD (byte >>> 4).toNat ' ', HEX.getD (byte &&& 0x0f).toNat ' ']

def tableName (ns store : String) : String := String.ofList (pushHex (asBytes ns) ++ ':' :: pushHex (asBytes store))

theorem hex_injective : ∀ i < 16, ∀ j < 16, HEX.getD i ' ' = HEX.getD j ' ' → i = j := by decide

theorem hex_ne_colon : ∀ i < 16, HEX.getD i ' ' ≠ ':' := by decide

theorem high_low (byte : UInt8) : (byte >>> 4).toNat = byte.toNat / 16 ∧ (byte &&& 0x0f).toNat = byte.toNat % 16 := by
  constructor
  · rw [UInt8.toNat_shiftRight]
    exact Nat.shiftRight_eq_div_pow _ _
  · rw [UInt8.toNat_and]
    exact Nat.and_two_pow_sub_one_eq_mod _ 4

theorem pushHex_cons (byte : UInt8) (bytes : Bytes) :
    pushHex (byte :: bytes) =
      HEX.getD (byte.toNat / 16) ' ' :: HEX.getD (byte.toNat % 16) ' ' :: pushHex bytes := by
  obtain ⟨hhigh, hlow⟩ := high_low byte
  unfold pushHex
  rw [List.flatMap_cons, hhigh, hlow]
  rfl

theorem pushHex_injective : Function.Injective pushHex := by
  intro l
  induction l with
  | nil =>
    intro l' h
    cases l' with
    | nil => rfl
    | cons byte' l' => rw [pushHex_cons] at h; cases h
  | cons byte l ih =>
    intro l' h
    cases l' with
    | nil => rw [pushHex_cons] at h; cases h
    | cons byte' l' =>
      rw [pushHex_cons, pushHex_cons] at h
      simp only [List.cons.injEq] at h
      obtain ⟨hhigh, hlow, hrest⟩ := h
      have hb := UInt8.toNat_lt byte
      have hb' := UInt8.toNat_lt byte'
      have h1 := hex_injective _ (by omega) _ (by omega) hhigh
      have h2 := hex_injective _ (by omega) _ (by omega) hlow
      have hbyte : byte = byte' := UInt8.toNat_inj.mp (by omega)
      rw [hbyte, ih hrest]

theorem colon_notMem_pushHex (bytes : Bytes) : ':' ∉ pushHex bytes := by
  induction bytes with
  | nil => exact List.not_mem_nil
  | cons byte bytes ih =>
    have hb := UInt8.toNat_lt byte
    rw [pushHex_cons]
    simp only [List.mem_cons, not_or]
    exact ⟨(hex_ne_colon _ (by omega)).symm, (hex_ne_colon _ (by omega)).symm, ih⟩

/-- Stores have tables of their own. -/
theorem tableName_injective {ns ns' store store' : String} (h : tableName ns store = tableName ns' store') :
    ns = ns' ∧ store = store' := by
  unfold tableName at h
  have hchars := String.ofList_injective h
  rw [List.append_cons_inj_of_notMem (colon_notMem_pushHex _) (colon_notMem_pushHex _)] at hchars
  obtain ⟨hns, -, hstore⟩ := hchars
  exact ⟨asBytes_injective (pushHex_injective hns), asBytes_injective (pushHex_injective hstore)⟩

example : tableName "users" "__main" = "7573657273:5f5f6d61696e" := by decide

/-! ## The backend -/

/-- The prepared stores, by namespace and name, and their tables. -/
abbrev PreparedTables := String × String → Option String

structure ReadHandle where
  ns : String
  tables : PreparedTables
  /-- The tables as committed when the transaction began. -/
  read : Stores

structure WriteHandle where
  ns : String
  tables : PreparedTables
  /-- The transaction's tables; `none` once it ended. -/
  write : Option Stores

structure St where
  db : Stores
  /-- A write transaction is open. -/
  writing : Bool
  tables : PreparedTables
  readers : Nat → Option ReadHandle
  opened : Nat → Option KVStore
  writers : Nat → Option WriteHandle

/-- `open_table` in a write transaction: the tables after it. -/
def openTable (tables : Stores) (name : String) : Stores :=
  match tables name with
  | some _ => tables
  | none => upd tables name ∅

theorem openTable_of_some {tables : Stores} {t : String} {table : KVStore} (h : tables t = some table) (name : String) :
    openTable tables name t = some table := by
  unfold openTable
  cases hname : tables name with
  | some _ => exact h
  | none =>
    have hne : t ≠ name := fun heq => by
      rw [heq, hname] at h
      cases h
    simp only [upd_ne hne, h]

theorem openTable_of_none {tables : Stores} {name : String} (h : tables name = none) :
    openTable tables name name = some ∅ := by
  unfold openTable
  rw [h]
  exact upd_self _ _ _

theorem openTable_isSome (tables : Stores) (name : String) : (openTable tables name name).isSome = true := by
  cases h : tables name with
  | none => rw [openTable_of_none h]; rfl
  | some table => rw [openTable_of_some h]; rfl

/-- The registry after `prepare`. -/
def register (tables : PreparedTables) (ns : String) (names : List String) : PreparedTables := fun (ns', store) =>
  if ns' = ns then if store ∈ names then some (tableName ns store) else none
  else tables (ns', store)

theorem register_eq_some {tables : PreparedTables} {ns ns' store name : String} {names : List String} :
    register tables ns names (ns', store) = some name ↔
      ns' = ns ∧ store ∈ names ∧ tableName ns store = name ∨ ns' ≠ ns ∧ tables (ns', store) = some name := by
  by_cases hns : ns' = ns
  · by_cases hstore : store ∈ names
    · simp [register, hns, hstore]
    · simp [register, hns, hstore]
  · simp [register, hns]

/-- The registry after the prepares, one after another. -/
def registered (prepares : List (String × List String)) : PreparedTables :=
  prepares.foldl (fun tables p => register tables p.1 p.2) fun _ => none

theorem registered_concat (prepares : List (String × List String)) (ns : String) (names : List String) :
    registered (prepares ++ [(ns, names)]) = register (registered prepares) ns names := List.foldl_concat _ _ _ _

/-- What the last prepare of the namespace lists. -/
def lastListed (ns : String) (prepares : List (String × List String)) : Option (List String) :=
  (prepares.reverse.find? (·.1 = ns)).map (·.2)

theorem lastListed_concat (ns ns' : String) (prepares : List (String × List String)) (names : List String) :
    lastListed ns (prepares ++ [(ns', names)]) = if ns' = ns then some names else lastListed ns prepares := by
  unfold lastListed
  rw [List.reverse_concat, List.find?_cons]
  by_cases hns : ns' = ns
  · simp [hns]
  · simp [hns]

/-- Registered are the stores that the last prepare of their namespace lists, each with
    the table its name gives. -/
theorem registered_eq_some {prepares : List (String × List String)} {ns store name : String} :
    registered prepares (ns, store) = some name ↔
      tableName ns store = name ∧ ∃ names, lastListed ns prepares = some names ∧ store ∈ names := by
  induction prepares using List.reverseRecOn with
  | nil => simp [registered, lastListed]
  | append_singleton prepares p ih =>
    obtain ⟨ns', names⟩ := p
    rw [registered_concat, register_eq_some, lastListed_concat, ih]
    by_cases hns : ns = ns'
    · subst hns
      simp [and_comm]
    · simp [hns, Ne.symm hns]

/-- Table names are injective; so whatever was prepared, no two stores share a table. -/
theorem tables_separate :
    (∀ ns ns' store store', tableName ns store = tableName ns' store' → ns = ns' ∧ store = store') ∧
      ∀ (prepares : List (String × List String)) (k k' : String × String) (name : String),
        registered prepares k = some name → registered prepares k' = some name → k = k' := by
  refine ⟨fun _ _ _ _ => tableName_injective, fun prepares k k' name h h' => ?_⟩
  obtain ⟨hns, hstore⟩ := tableName_injective ((registered_eq_some.mp h).1.trans (registered_eq_some.mp h').1.symm)
  exact Prod.ext hns hstore

/-- The index's store has not got the main store's table. -/
theorem tables_separate_users :
    registered [("users", ["__main", "by_email"])] ("users", "by_email") ≠ some "7573657273:5f5f6d61696e" := fun h =>
  absurd (tables_separate.2 [("users", ["__main", "by_email"])] ("users", "__main") _ _ (by decide) h) (by decide)

variable (range : KVStore → ScanRange → List (Bytes × Bytes))

/-- A table's range, in the scan's direction (`DirectedRange`). -/
def tableScan (table : KVStore) (bounds : ScanRange) : Direction → Reply
  | .leftToRight => .entries (range table bounds)
  | .rightToLeft => .entries (range table bounds).reverse

/-- A call on a store of the write handle `w`: open its table, and do `f` with it. -/
def withTable (s : St) (w : Nat) (name : String) (f : KVStore → KVStore × Reply) : Option (St × Reply) :=
  match s.writers w with
  | some ⟨ns, tables, some write⟩ =>
    match tables (ns, name) with
    | some table =>
      let write := openTable write table
      let r := f ((write table).getD ∅)
      some ({ s with writers := Function.update s.writers w (some ⟨ns, tables, some (upd write table r.1)⟩) }, r.2)
    | none => some (s, .panic)
  | _ => none

/-- The end of the write transaction of `w`, the database being `db` from then on. -/
def finish (s : St) (w : Nat) (db : Stores → Stores) : Option (St × Reply) :=
  match s.writers w with
  | some ⟨ns, tables, some write⟩ =>
    some ({ s with
      db := db write
      writing := false
      writers := Function.update s.writers w (some ⟨ns, tables, none⟩) }, .done)
  | _ => none

def call : Machine St Request Reply := fun s request =>
  match request with
  | .prepare ns names =>
    if s.writing then none
    else some ({ s with
      db := (names.map (tableName ns)).foldl openTable s.db
      tables := register s.tables ns names }, .done)
  | .read r ns =>
    if (s.readers r).isSome then none
    else some ({ s with readers := Function.update s.readers r (some ⟨ns, s.tables, s.db⟩) }, .done)
  | .openStore q r name =>
    match s.readers r with
    | some ⟨ns, tables, read⟩ =>
      if (s.opened q).isSome then none
      else match tables (ns, name) with
      | some table =>
        match read table with
        | some store => some ({ s with opened := Function.update s.opened q (some store) }, .done)
        | none => some (s, .error ⟨"Table does not exist"⟩)
      | none => some (s, .panic)
    | none => none
  | .get q key => (s.opened q).map fun table => (s, getReply table key)
  | .scan q bounds direction => (s.opened q).map fun table => (s, tableScan range table bounds direction)
  | .write w ns =>
    if s.writing ∨ (s.writers w).isSome then none
    else some ({ s with
      writing := true
      writers := Function.update s.writers w (some ⟨ns, s.tables, some s.db⟩) }, .done)
  | .openStaged w name => withTable s w name fun table => (table, .done)
  | .getStaged w name key => withTable s w name fun table => (table, getReply table key)
  | .scanStaged w name bounds direction =>
    withTable s w name fun table => (table, tableScan range table bounds direction)
  | .set w name key value => withTable s w name fun table => (table.insert key value, .done)
  | .remove w name key => withTable s w name fun table => (table.erase key, .done)
  | .commit w => finish s w fun write => write
  | .drop w => finish s w fun _ => s.db

/-- `RedbMultiStore::create`. -/
def create : St := ⟨fun _ => none, false, fun _ => none, fun _ => none, fun _ => none, fun _ => none⟩

end Redb

end Collette
