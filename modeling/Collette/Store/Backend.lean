/-
  Collette.Store.Backend — the multistore backend (`store.rs`, `backend/memory.rs`) and
  the errors it and the collection report (`error.rs`).

  One namespace: named ordered stores, of which a commit publishes a new version. A
  write transaction stages its changes in a copy of the committed stores (`tx`); only
  `commit` publishes it, and a transaction dropped before leaves no trace. A read handle
  is a snapshot of the committed stores.

  Every call may instead report an error: which ones do is up to `faults`, which sees
  the calls so far, so a theorem over all `faults` covers every backend that fails
  calls as it likes and publishes by a successful commit only. With no faults this is
  the in-memory backend. A store that was not prepared is `unwrap`ped there: a panic.

  `log` lists the calls an operation made with the error each returned, to the
  collection's error type (`.map_err(Error::backend)?`). Nothing reads it but `faults`.
-/

import Collette.Bounds.Encoders
import Collette.Prog.Hoare

namespace Collette

/-- The type-erased backend error. -/
structure BackendError where
  source : String
  deriving DecidableEq, Repr

/-- The type-erased codec error. -/
structure CodecError where
  source : String
  deriving DecidableEq, Repr

inductive Error where
  | alreadyExists (key : String)
  | notFound (key : String)
  | cursorOutOfBounds
  | backend (e : BackendError)
  | codec (e : CodecError)
  | unexpected (message : String)
  deriving DecidableEq, Repr

inductive Direction where
  | leftToRight
  | rightToLeft
  deriving DecidableEq, Repr

abbrev KVStore := Std.TreeMap Bytes Bytes

abbrev Stores := String → Option KVStore

def upd (stores : Stores) (name : String) (store : KVStore) : Stores := fun n =>
  if n = name then some store else stores n

@[simp] theorem upd_self (stores : Stores) (name : String) (store : KVStore) :
    upd stores name store name = some store := if_pos rfl

theorem upd_ne {n name : String} (h : n ≠ name) (stores : Stores) (store : KVStore) :
    upd stores name store n = stores n := if_neg h

/-- `MultiStore::prepare`: exactly the named stores, keeping those there are. -/
def prepare (stores : Stores) (names : List String) : Stores := fun n =>
  if n ∈ names then some ((stores n).getD ∅) else none

/-- `BTreeMap::range`, in the scan's direction; `none` is its panic. That an empty map
    does not look at the bounds is an assumption: a map that never had an entry does not,
    one emptied by `remove` does. The empty store of `scan_panics_iff` rests on it. -/
def KVStore.scan (store : KVStore) (range : ScanRange) (direction : Direction) : Option (List (Bytes × Bytes)) :=
  if store.isEmpty ∨ RangeOk range then
    let entries := store.toList.filter fun entry => contains range entry.1
    match direction with
    | .leftToRight => some entries
    | .rightToLeft => some entries.reverse
  else none

/-! ## Calls -/

inductive Call where
  | read
  | write
  | openStore (name : String)
  | get (key : Bytes)
  | set (key value : Bytes)
  | remove (key : Bytes)
  | scan (range : ScanRange) (direction : Direction)
  | next
  | commit
  | toBytes
  | fromBytes (bytes : Bytes)
  | indexUpdate (name : String)
  | indexRemove (name : String)
  deriving DecidableEq, Repr

structure Event where
  call : Call
  err : Option Error
  deriving DecidableEq, Repr

structure World where
  committed : Stores
  tx : Option Stores
  log : List Event
  faults : List Event → Option BackendError

/-- An operation starts with no transaction open. -/
def World.start (faults : List Event → Option BackendError) (db : Stores) : World := ⟨db, none, [], faults⟩

def noFaults : List Event → Option BackendError := fun _ => none

def Outcome.err {α : Type} : Outcome Error α → Option Error
  | .error e => some e
  | _ => none

theorem Outcome.err_eq_some {α : Type} {o : Outcome Error α} {e : Error} : o.err = some e ↔ o = .error e := by
  cases o <;> simp [Outcome.err]

/-- `p`, noted in the log with the error it returns. -/
def observe {α : Type} (call : Call) (p : Prog World Error α) : Prog World Error α := fun s =>
  let r := p s
  (r.1, { r.2 with log := r.2.log ++ [⟨call, r.1.err⟩] })

def fault : Prog World BackendError Unit := fun s =>
  match s.faults s.log with
  | some e => (.error e, s)
  | none => (.ok (), s)

/-- A backend call and the `.map_err(Error::backend)?` after it. -/
def backend {α : Type} (call : Call) (p : Prog World BackendError α) : Prog World Error α :=
  observe call ((fault >>= fun _ => p).mapErr Error.backend)

/-- A codec call and the `.map_err(Error::codec)?` after it. -/
def codec {α : Type} (call : Call) (x : Except CodecError α) : Prog World Error α :=
  observe call ((Prog.ofExcept x).mapErr Error.codec)

/-! ## Write transactions -/

/-- A store of the open transaction. -/
structure WriteStore where
  name : String

/-- What the transaction sees of the store. -/
def staged (name : String) : Prog World BackendError KVStore := fun s =>
  match s.tx.bind (· name) with
  | some store => (.ok store, s)
  | none => (.panic, s)

def stage (name : String) (store : KVStore) : Prog World BackendError Unit :=
  Prog.modify fun s => { s with tx := s.tx.map fun t => upd t name store }

def write : Prog World Error Unit := backend .write (Prog.modify fun s => { s with tx := some s.committed })

def openStore (name : String) : Prog World Error WriteStore :=
  backend (.openStore name) do
    let _ ← staged name
    pure ⟨name⟩

def WriteStore.get (store : WriteStore) (key : Bytes) : Prog World Error (Option Bytes) :=
  backend (.get key) do
    let st ← staged store.name
    pure st[key]?

def WriteStore.set (store : WriteStore) (key value : Bytes) : Prog World Error Unit :=
  backend (.set key value) do
    let st ← staged store.name
    stage store.name (st.insert key value)

def WriteStore.remove (store : WriteStore) (key : Bytes) : Prog World Error Unit :=
  backend (.remove key) do
    let st ← staged store.name
    stage store.name (st.erase key)

/-- The staged stores replace the committed ones, and the transaction is over. -/
def publish : Prog World BackendError Unit := fun s =>
  match s.tx with
  | some t => (.ok (), { s with committed := t, tx := none })
  | none => (.panic, s)

def commit : Prog World Error Unit := backend .commit publish

/-! ## Snapshots -/

structure ReadStore where
  store : KVStore

def read : Prog World Error Stores := backend .read fun s => (.ok s.committed, s)

/-- `MultiStoreReadHandle::open_store` on a snapshot. -/
def openReadStore (handle : Stores) (name : String) : Prog World Error ReadStore :=
  backend (.openStore name) do
    let store ← Prog.unwrap (handle name)
    pure ⟨store⟩

def ReadStore.get (store : ReadStore) (key : Bytes) : Prog World Error (Option Bytes) :=
  backend (.get key) (pure store.store[key]?)

def ReadStore.scan (store : ReadStore) (range : ScanRange) (direction : Direction) :
    Prog World Error (List (Bytes × Bytes)) :=
  backend (.scan range direction) (Prog.unwrap (store.store.scan range direction))

/-! ## What one call does -/

/-- Neither of these changes anything. -/
theorem steps_fault {R : World → World → Prop} [IsPreorder World R] : Prog.Steps R fault := by
  intro s
  unfold fault
  split <;> exact refl s

theorem steps_staged {R : World → World → Prop} [IsPreorder World R] (name : String) : Prog.Steps R (staged name) := by
  intro s
  unfold staged
  split <;> exact refl s

/-- No transaction, over the committed stores `c`. -/
structure Idle (F : List Event → Option BackendError) (c : Stores) (s : World) : Prop where
  faults : s.faults = F
  committed : s.committed = c

/-- Inside a transaction over the committed stores `c`, its stores being `t`. -/
structure InTx (F : List Event → Option BackendError) (c t : Stores) (s : World) : Prop where
  faults : s.faults = F
  committed : s.committed = c
  tx : s.tx = some t

/-- An error in `E`, the committed stores still being `c`. -/
def Failed (c : Stores) (E : Error → Prop) (e : Error) (s : World) : Prop := s.committed = c ∧ E e

/-- `E` holds of the backend errors there are. -/
def Tolerates (F : List Event → Option BackendError) (E : Error → Prop) : Prop :=
  ∀ log e, F log = some e → E (.backend e)

section Calls

open Prog

variable {α : Type} {F : List Event → Option BackendError} {c t : Stores} {E : Error → Prop}

/-- Whatever holds of the end of a program and does not look at the log holds of it
    observed. -/
theorem observe_triple {P : World → Prop} {Q : α → World → Prop} {p : Prog World Error α} (call : Call)
    (h : Triple P p Q (Failed c E)) (hQ : ∀ a s log, Q a s → Q a { s with log := log }) :
    Triple P (observe call p) Q (Failed c E) := by
  intro s hs
  have hpost := h s hs
  unfold observe
  cases hr : p s with
  | mk o s' =>
    rw [hr] at hpost
    cases o with
    | ok a => exact hQ a s' _ hpost
    | error e => exact hpost
    | panic => exact hpost

theorem backend_triple {P : World → Prop} {Q : α → World → Prop} {p : Prog World BackendError α} (call : Call)
    (hE : Tolerates F E) (hF : ∀ s, P s → Idle F c s) (h : Triple P p Q fun _ _ => False)
    (hQ : ∀ a s log, Q a s → Q a { s with log := log }) : Triple P (backend call p) Q (Failed c E) := by
  refine observe_triple call (Triple.mapErr ?_) hQ
  refine Triple.bind (Q := fun _ => P) ?_ fun _ => h.conseq (fun _ hs => hs) (fun _ _ hq => hq) fun _ _ he => he.elim
  intro s hs
  obtain ⟨hfaults, hc⟩ := hF s hs
  unfold fault
  cases hf : s.faults s.log with
  | none => exact hs
  | some e => exact ⟨hc, hE s.log e (hfaults ▸ hf)⟩

theorem InTx.idle {s : World} (h : InTx F c t s) : Idle F c s := ⟨h.faults, h.committed⟩

theorem InTx.setLog {s : World} (h : InTx F c t s) (log : List Event) : InTx F c t { s with log := log } :=
  ⟨h.faults, h.committed, h.tx⟩

theorem staged_triple {n : String} {st : KVStore} (hn : t n = some st) :
    Triple (InTx F c t) (staged n) (fun a s => a = st ∧ InTx F c t s) fun _ _ => False := by
  intro s hs
  have : s.tx.bind (· n) = some st := by rw [hs.tx]; exact hn
  unfold staged
  rw [this]
  exact ⟨rfl, hs⟩

theorem stage_triple (n : String) (st : KVStore) :
    Triple (InTx F c t) (stage n st) (fun _ => InTx F c (upd t n st)) fun _ _ => False :=
  Triple.modify fun s hs => ⟨hs.faults, hs.committed, by simp [hs.tx]⟩

variable (hE : Tolerates F E)
include hE

theorem write_triple : Triple (Idle F c) write (fun _ => InTx F c c) (Failed c E) :=
  backend_triple .write hE (fun _ hs => hs)
    (Triple.modify fun s hs => ⟨hs.faults, hs.committed, by rw [hs.committed]⟩) fun _ _ log h => h.setLog log

theorem openStore_triple {n : String} {st : KVStore} (hn : t n = some st) :
    Triple (InTx F c t) (openStore n) (fun a s => a = ⟨n⟩ ∧ InTx F c t s) (Failed c E) :=
  backend_triple _ hE (fun _ hs => hs.idle) (Triple.bind_eq (staged_triple hn) (Triple.pure fun _ hs => ⟨rfl, hs⟩))
    fun _ _ log h => ⟨h.1, h.2.setLog log⟩

theorem storeGet_triple {n : String} {st : KVStore} (hn : t n = some st) (k : Bytes) :
    Triple (InTx F c t) (WriteStore.get ⟨n⟩ k) (fun a s => a = st[k]? ∧ InTx F c t s) (Failed c E) :=
  backend_triple _ hE (fun _ hs => hs.idle) (Triple.bind_eq (staged_triple hn) (Triple.pure fun _ hs => ⟨rfl, hs⟩))
    fun _ _ log h => ⟨h.1, h.2.setLog log⟩

theorem storeSet_triple {n : String} {st : KVStore} (hn : t n = some st) (k v : Bytes) :
    Triple (InTx F c t) (WriteStore.set ⟨n⟩ k v) (fun _ => InTx F c (upd t n (st.insert k v))) (Failed c E) :=
  backend_triple _ hE (fun _ hs => hs.idle) (Triple.bind_eq (staged_triple hn) (stage_triple n _))
    fun _ _ log h => h.setLog log

theorem storeRemove_triple {n : String} {st : KVStore} (hn : t n = some st) (k : Bytes) :
    Triple (InTx F c t) (WriteStore.remove ⟨n⟩ k) (fun _ => InTx F c (upd t n (st.erase k))) (Failed c E) :=
  backend_triple _ hE (fun _ hs => hs.idle) (Triple.bind_eq (staged_triple hn) (stage_triple n _))
    fun _ _ log h => h.setLog log

theorem commit_triple : Triple (InTx F c t) commit (fun _ s => s.committed = t) (Failed c E) := by
  refine backend_triple _ hE (fun _ hs => hs.idle) (fun s hs => ?_) fun _ _ log h => h
  unfold publish
  rw [hs.tx]
  rfl

theorem read_triple : Triple (Idle F c) read (fun a s => a = c ∧ Idle F c s) (Failed c E) :=
  backend_triple _ hE (fun _ hs => hs) (fun _ hs => ⟨hs.committed, hs⟩) fun _ _ _ h => ⟨h.1, h.2.1, h.2.2⟩

theorem openReadStore_triple {n : String} {st : KVStore} (hn : t n = some st) :
    Triple (Idle F c) (openReadStore t n) (fun a s => a = ⟨st⟩ ∧ Idle F c s) (Failed c E) := by
  refine backend_triple _ hE (fun _ hs => hs) ?_ fun _ _ _ h => ⟨h.1, h.2.1, h.2.2⟩
  rw [hn]
  exact Triple.pure fun _ hs => ⟨rfl, hs⟩

theorem readGet_triple (st : KVStore) (k : Bytes) :
    Triple (Idle F c) (ReadStore.get ⟨st⟩ k) (fun a s => a = st[k]? ∧ Idle F c s) (Failed c E) :=
  backend_triple _ hE (fun _ hs => hs) (Triple.pure fun _ hs => ⟨rfl, hs⟩) fun _ _ _ h => ⟨h.1, h.2.1, h.2.2⟩

omit hE in
theorem codec_triple (call : Call) (x : Except CodecError α) (hc : ∀ e, x = .error e → E (.codec e)) {P : World → Prop}
    (hP : ∀ s, P s → Idle F c s) (hlog : ∀ s log, P s → P { s with log := log }) :
    Triple P (codec call x) (fun a s => x = .ok a ∧ P s) (Failed c E) := by
  refine observe_triple call (Triple.mapErr ?_) fun a s log h => ⟨h.1, hlog s log h.2⟩
  exact Triple.ofExcept (fun a ha s hs => ⟨ha, hs⟩) fun e he s hs => ⟨(hP s hs).committed, hc e he⟩

end Calls

section Returns

open Prog

variable {α : Type} {φ : α → Prop}

theorem observe_returns {p : Prog World Error α} (call : Call) (h : Returns p φ) : Returns (observe call p) φ :=
  fun s a ha => h s a ha

theorem backend_returns {p : Prog World BackendError α} (call : Call) (h : Returns p φ) :
    Returns (backend call p) φ := by
  have hfault : Returns fault fun _ => True := fun _ _ _ => trivial
  exact observe_returns call (hfault.bind fun _ _ => h).mapErr

theorem codec_returns (call : Call) {x : Except CodecError α} (h : ∀ a, x = .ok a → φ a) : Returns (codec call x) φ :=
  observe_returns call (Returns.ofExcept h).mapErr

theorem openReadStore_returns (handle : Stores) (name : String) :
    Returns (openReadStore handle name) fun store => handle name = some store.store :=
  backend_returns _ ((Returns.unwrap fun _ h => h).bind fun _ h => Returns.pure h)

theorem readGet_returns (store : ReadStore) (key : Bytes) :
    Returns (store.get key) fun bytes => bytes = store.store[key]? :=
  backend_returns _ (Returns.pure rfl)

theorem readScan_returns (store : ReadStore) (range : ScanRange) (direction : Direction) :
    Returns (store.scan range direction) fun entries => store.store.scan range direction = some entries :=
  backend_returns _ (Returns.unwrap fun _ h => h)

end Returns

end Collette
