/-
  Collette.Store.Jobs — threads that use the in-memory backend, each by one handle at a
  time (`store.rs` over `backend/memory.rs`).

  A job is what a caller does with a handle between opening and dropping it: a
  transaction, whose calls go through a write handle and end with `commit` or without, or
  a query, whose calls go through a read handle. A thread runs its jobs call by call, and
  between any two calls other threads take theirs: `poolStep`. Panics and errors end the
  job, and drop the handle on the way out like every return does.

  `serve` is what a job does when it is alone: it answers from the published stores of
  its namespace and publishes what it commits. `jobs_linearizable`: however the calls of
  the threads interleave, what is seen of them is what is seen when each job is served
  at once, at some instant between its call and its return. That instant is the commit,
  or the drop of a handle that never commits, or the read of the snapshot.

  - `At`: where a thread is, and what the rest of its job comes to.
  - `advance_cases`: one call of one thread. The published stores change only by a thread
    that has the permit of the namespace, so nothing that another is at changes.
-/

import Collette.Prog.Object
import Collette.Prog.Script
import Collette.Store.Memory

namespace Collette.Jobs

open Memory

variable {T ω α : Type}

/-! ## Jobs -/

/-- A call through a write handle. -/
inductive TxCall where
  | openStore (name : String)
  | get (name : String) (key : Bytes)
  | scan (name : String) (range : ScanRange) (direction : Direction)
  | set (name : String) (key value : Bytes)
  | remove (name : String) (key : Bytes)
  | commit
  deriving DecidableEq, Repr

def TxCall.call : TxCall → WriteCall
  | .openStore name => .openStore name
  | .get name key => .get name key
  | .scan name range direction => .scan name range direction
  | .set name key value => .set name key value
  | .remove name key => .remove name key
  | .commit => .commit

/-- A write handle by itself, with its namespace. -/
def txStep : Machine (NamespacedState × Phase) TxCall Reply := fun s c =>
  (writeStep s.1 s.2 c.call).map fun r => ((r.1, r.2.1), r.2.2)

/-- A call through a read handle. The stores opened from it are told apart by slots. -/
inductive ReadCall where
  | openStore (slot : Nat) (name : String)
  | get (slot : Nat) (key : Bytes)
  | scan (slot : Nat) (range : ScanRange) (direction : Direction)
  deriving DecidableEq, Repr

/-- The call of the read handle `r`. -/
def ReadCall.ev (r : Nat) : ReadCall → Ev
  | .openStore slot name => .openStore (Nat.pair r slot) r name
  | .get slot key => .get (Nat.pair r slot) key
  | .scan slot range direction => .scan (Nat.pair r slot) range direction

structure Snapshot where
  stores : Stores
  opened : Nat → Option KVStore

/-- A read handle by itself. -/
def readStep : Machine Snapshot ReadCall Reply := fun s c =>
  match c with
  | .openStore slot name =>
    if (s.opened slot).isSome then none
    else match s.stores name with
    | some store => some ({ s with opened := Function.update s.opened slot (some store) }, .done)
    | none => some (s, .panic)
  | .get slot key => (s.opened slot).map fun store => (s, getReply store key)
  | .scan slot range direction => (s.opened slot).map fun store => (s, scanReply store range direction)

/-- A write handle just opened, with the permit. -/
def opened (stores : Stores) : NamespacedState × Phase := (⟨stores, true⟩, .live stores)

/-- A script that ends: `commit` takes the handle, so there is no call after it. -/
structure Tx (α : Type) where
  script : Script TxCall Reply Error α
  ends : ∀ stores, (script.exec txStep (opened stores)).isSome

structure Query (α : Type) where
  script : Script ReadCall Reply Error α
  ends : ∀ stores, (script.exec readStep ⟨stores, fun _ => none⟩).isSome

inductive Job (α : Type) where
  | write (ns : String) (tx : Tx α)
  | read (ns : String) (query : Query α)

/-- The transaction alone: how it ends, and what is published then. -/
def Tx.run (tx : Tx α) (stores : Stores) : Outcome Error α × Stores :=
  let x := (tx.script.exec txStep (opened stores)).get (tx.ends stores)
  (x.1, x.2.1.stores)

def Query.run (query : Query α) (stores : Stores) : Outcome Error α :=
  ((query.script.exec readStep ⟨stores, fun _ => none⟩).get (query.ends stores)).1

/-- The backend with each job done at once. A namespace never prepared is a panic. -/
def serve (job : ω → Job α) : Object (String → Option Stores) ω (Outcome Error α) := fun published op =>
  match job op with
  | .write ns tx =>
    match published ns with
    | some stores => ((tx.run stores).1, Function.update published ns (some (tx.run stores).2))
    | none => (.panic, published)
  | .read ns query =>
    match published ns with
    | some stores => (query.run stores, published)
    | none => (.panic, published)

/-! ## Threads -/

inductive Stage (α : Type) where
  /-- The backend not called yet. -/
  | called
  /-- In `write`, at the gate, then with the permit. -/
  | waiting
  | permitted
  | writing (rest : Script TxCall Reply Error α)
  | reading (rest : Script ReadCall Reply Error α)
  | ended (o : Outcome Error α)

structure Thread (ω α : Type) where
  op : ω
  /-- The name of the handle the job opens. -/
  name : Nat
  stage : Stage α

structure Pool (T ω α : Type) where
  mem : St
  threads : T → Option (Thread ω α)
  /-- The names from here on are unused. -/
  next : Nat

inductive PoolEv (ω : Type) where
  | call (op : ω)
  | step
  | ret

/-- The next call of a thread. -/
def advance (job : ω → Job α) (mem : St) (th : Thread ω α) : Option (St × Stage α) :=
  match th.stage, job th.op with
  | .called, .write ns _ =>
    (step mem (.write th.name ns)).map fun x => (x.1, if x.2 = .done then .waiting else .ended .panic)
  | .called, .read ns query =>
    (step mem (.read th.name ns)).map fun x => (x.1, if x.2 = .done then .reading query.script else .ended .panic)
  | .waiting, _ => (step mem (.writer th.name .acquire)).map fun x => (x.1, .permitted)
  | .permitted, .write _ tx => (step mem (.writer th.name .snapshot)).map fun x => (x.1, .writing tx.script)
  | .writing (.call c k), _ => (step mem (.writer th.name c.call)).map fun x => (x.1, .writing (k x.2))
  | .writing (.ended o), _ => (step mem (.writer th.name .drop)).map fun x => (x.1, .ended o)
  | .reading (.call c k), _ => (step mem (c.ev th.name)).map fun x => (x.1, .reading (k x.2))
  | .reading (.ended o), _ => some (mem, .ended o)
  | _, _ => none

/-- A thread has made a call. -/
def Pool.moved [DecidableEq T] (p : Pool T ω α) (t : T) (th : Thread ω α) (x : St × Stage α) : Pool T ω α :=
  { p with mem := x.1, threads := Function.update p.threads t (some { th with stage := x.2 }) }

def poolStep [DecidableEq T] (job : ω → Job α) :
    Machine (Pool T ω α) (T × PoolEv ω) (Option (CallEv ω (Outcome Error α))) := fun p e =>
  match e.2, p.threads e.1 with
  | .call op, none =>
    let th : Thread ω α := ⟨op, p.next, .called⟩
    some ({ p with threads := Function.update p.threads e.1 (some th), next := p.next + 1 }, some (.call op))
  | .step, some th =>
    (advance job p.mem th).map fun x => (p.moved e.1 th x, none)
  | .ret, some ⟨op, _, .ended o⟩ =>
    some ({ p with threads := Function.update p.threads e.1 none }, some (.ret op o))
  | _, _ => none

/-- A backend with no handle open, and no thread in a job. -/
def pool (mem : St) : Pool T ω α := ⟨mem, fun _ => none, 0⟩

/-! ## One thread -/

section Thread

variable {job : ω → Job α} {mem mem' : St} {th : Thread ω α} {op : ω} {n : Nat}

/-- Nothing has changed of other handles than `n`. -/
structure Moves (n : Nat) (mem mem' : St) : Prop where
  writers : ∀ w, w ≠ n → mem'.writers w = mem.writers w
  readers : ∀ r, r ≠ n → mem'.readers r = mem.readers r
  opened : ∀ r slot, r ≠ n → mem'.opened (Nat.pair r slot) = mem.opened (Nat.pair r slot)

/-- Where a thread is, and whether its job is taken yet. A transaction not taken ends
    as the whole of its script does over what is published. -/
inductive At (job : ω → Job α) (mem : St) : Thread ω α → Object.Status ω (Outcome Error α) → Prop
  | called (op : ω) (n : Nat) : mem.writers n = none → mem.readers n = none →
      (∀ slot, mem.opened (Nat.pair n slot) = none) → At job mem ⟨op, n, .called⟩ (.called op)
  | waiting {op : ω} {n : Nat} {ns : String} {tx : Tx α} : job op = .write ns tx →
      mem.writers n = some ⟨ns, .waiting⟩ → At job mem ⟨op, n, .waiting⟩ (.called op)
  | permitted {op : ω} {n : Nat} {ns : String} {tx : Tx α} : job op = .write ns tx →
      mem.writers n = some ⟨ns, .permitted⟩ → At job mem ⟨op, n, .permitted⟩ (.called op)
  | live {op : ω} {n : Nat} {ns : String} {tx : Tx α} {staged stores : Stores} {rest : Script TxCall Reply Error α} :
      job op = .write ns tx → mem.writers n = some ⟨ns, .live staged⟩ → mem.published ns = some stores →
      rest.exec txStep (⟨stores, true⟩, .live staged) = tx.script.exec txStep (Jobs.opened stores) →
      At job mem ⟨op, n, .writing rest⟩ (.called op)
  | published {op : ω} {n : Nat} {ns : String} {o : Outcome Error α} : mem.writers n = some ⟨ns, .published⟩ →
      At job mem ⟨op, n, .writing (.ended o)⟩ (.taken op o)
  | reading {op : ω} {n : Nat} {snap snap' : Snapshot} {rest : Script ReadCall Reply Error α} {o : Outcome Error α} :
      mem.readers n = some snap.stores → (∀ slot, mem.opened (Nat.pair n slot) = snap.opened slot) →
      rest.exec readStep snap = some (o, snap') → At job mem ⟨op, n, .reading rest⟩ (.taken op o)
  | ended {op : ω} {n : Nat} {o : Outcome Error α} : At job mem ⟨op, n, .ended o⟩ (.taken op o)

/-- A thread is where it was, as long as its own handle is, and the stores published in
    the namespace it has the permit of. -/
theorem At.frame {st : Object.Status ω (Outcome Error α)} (h : At job mem th st)
    (hw : mem'.writers th.name = mem.writers th.name) (hr : mem'.readers th.name = mem.readers th.name)
    (ho : ∀ slot, mem'.opened (Nat.pair th.name slot) = mem.opened (Nat.pair th.name slot))
    (hpub : ∀ ns, mem.Holds th.name ns → mem'.published ns = mem.published ns) : At job mem' th st := by
  cases h with
  | called op n h1 h2 h3 =>
    exact At.called op n (hw.trans h1) (hr.trans h2) fun slot => (ho slot).trans (h3 slot)
  | waiting h1 h2 => exact At.waiting h1 (hw.trans h2)
  | permitted h1 h2 => exact At.permitted h1 (hw.trans h2)
  | live h1 h2 h3 h4 => exact At.live h1 (hw.trans h2) ((hpub _ ⟨_, h2, rfl⟩).trans h3) h4
  | published h1 => exact At.published (hw.trans h1)
  | reading h1 h2 h3 => exact At.reading (hr.trans h1) (fun slot => (ho slot).trans (h2 slot)) h3
  | ended => exact At.ended

/-! ### Alone -/

theorem txStep_eq_some {s : NamespacedState × Phase} {c : TxCall} {s' : NamespacedState × Phase} {a : Reply} :
    txStep s c = some (s', a) ↔ writeStep s.1 s.2 c.call = some (s'.1, s'.2, a) := by
  unfold txStep
  rw [Option.map_eq_some_iff]
  constructor
  · intro ⟨r, hr, h⟩
    cases h
    exact hr
  · intro h
    exact ⟨_, h, rfl⟩

/-- After its commit a script is at its end. -/
theorem ended_of_published {space : NamespacedState} {rest : Script TxCall Reply Error α}
    {x : Outcome Error α × NamespacedState × Phase} (h : rest.exec txStep (space, .published) = some x) :
    rest = .ended x.1 ∧ x.2 = (space, .published) := by
  cases rest with
  | ended o =>
    cases h
    exact ⟨rfl, rfl⟩
  | call c k =>
    obtain ⟨s', a, hstep, -⟩ := Script.call_of_exec h
    rw [txStep_eq_some] at hstep
    cases c <;> cases hstep

/-- A call that does not commit leaves the handle live and the namespace as it was. -/
theorem live_of_writeStep {space space' : NamespacedState} {staged : Stores} {phase' : Phase} {c : TxCall} {a : Reply}
    (h : writeStep space (.live staged) c.call = some (space', phase', a)) (hc : c ≠ .commit) :
    space' = space ∧ ∃ staged', phase' = .live staged' := by
  cases c with
  | commit => exact absurd rfl hc
  | openStore name | get name key | scan name range direction | set name key value | remove name key =>
    simp only [TxCall.call, writeStep, Option.some.injEq, withStaged] at h
    split at h
    · cases h
      exact ⟨rfl, _, rfl⟩
    · cases h
      exact ⟨rfl, _, rfl⟩

theorem Tx.run_eq (tx : Tx α) {stores : Stores} {x : Outcome Error α × NamespacedState × Phase}
    (h : tx.script.exec txStep (opened stores) = some x) : tx.run stores = (x.1, x.2.1.stores) := by
  unfold Tx.run
  simp only [h, Option.get_some]

theorem Query.run_eq (query : Query α) {stores : Stores} {x : Outcome Error α × Snapshot}
    (h : query.script.exec readStep ⟨stores, fun _ => none⟩ = some x) : query.run stores = x.1 := by
  unfold Query.run
  simp only [h, Option.get_some]

theorem serve_write {ns : String} {tx : Tx α} {published : String → Option Stores} {stores : Stores}
    (h : job op = .write ns tx) (hstores : published ns = some stores) :
    serve job published op = ((tx.run stores).1, Function.update published ns (some (tx.run stores).2)) := by
  simp only [serve, h, hstores]

theorem serve_read {ns : String} {query : Query α} {published : String → Option Stores} {stores : Stores}
    (h : job op = .read ns query) (hstores : published ns = some stores) :
    serve job published op = (query.run stores, published) := by
  simp only [serve, h, hstores]

/-- Only a transaction on a namespace changes what is published there. -/
theorem serve_elsewhere {ns : String} (h : ∀ tx, job op ≠ .write ns tx) (published : String → Option Stores) :
    (serve job published op).2 ns = published ns := by
  cases hjob : job op with
  | write ns' tx =>
    cases hns : published ns' with
    | none => simp only [serve, hjob, hns]
    | some stores =>
      rw [serve_write hjob hns]
      exact Function.update_of_ne (fun he => h tx (by rw [hjob, he])) _ _
  | read ns' query =>
    cases hns : published ns' with
    | none => simp only [serve, hjob, hns]
    | some stores => rw [serve_read hjob hns]

/-! ### One call -/

/-- A call of `th` that left the backend at `mem'` and the thread at `stage`. It is not
    seen in what is published, or it is where the job is taken. -/
structure Advances (job : ω → Job α) (mem : St) (th : Thread ω α) (st : Object.Status ω (Outcome Error α)) (mem' : St)
    (stage : Stage α) : Prop where
  moves : Moves th.name mem mem'
  private_of_ne : ∀ ns, mem'.published ns ≠ mem.published ns → mem.Holds th.name ns
  place : (mem'.published = mem.published ∧ At job mem' { th with stage := stage } st) ∨
    (st = .called th.op ∧ mem'.published = (serve job mem.published th.op).2 ∧
      At job mem' { th with stage := stage } (.taken th.op (serve job mem.published th.op).1))

theorem published_update_spaces {ns : String} {space : NamespacedState}
    (h : mem'.spaces = Function.update mem.spaces ns (some space)) :
    mem'.published = Function.update mem.published ns (some space.stores) := by
  funext ns'
  by_cases hns : ns' = ns
  · subst hns
    rw [published_update h, Function.update_self]
  · rw [Function.update_of_ne hns]
    exact published_congr (by rw [h, Function.update_of_ne hns])

theorem published_same {ns : String} {space space' : NamespacedState} (hspace : mem.spaces ns = some space)
    (h : mem'.spaces = Function.update mem.spaces ns (some space')) (hstores : space'.stores = space.stores) :
    mem'.published = mem.published := by
  rw [published_update_spaces h, hstores, ← published_eq hspace, Function.update_eq_self]

/-- The namespace of a handle with the permit, as it is published. -/
theorem space_of_holds {ns : String} {stores : Stores} (hg : Gated mem) (hold : mem.Holds n ns)
    (hpub : mem.published ns = some stores) : mem.spaces ns = some ⟨stores, true⟩ := by
  obtain ⟨space, hspace, hstores⟩ := Option.map_eq_some_iff.mp hpub
  have hgate := (hg.gate_iff ns space hspace).mpr ⟨n, hold⟩
  rw [hspace, ← hstores, ← hgate]

/-- A call that goes with the stage alone. -/
theorem advances_same {st : Object.Status ω (Outcome Error α)} {stage : Stage α} (hmoves : Moves th.name mem mem')
    (hpub : mem'.published = mem.published) (hat : At job mem' { th with stage := stage } st) :
    Advances job mem th st mem' stage :=
  ⟨hmoves, fun ns hne => absurd (congrFun hpub ns) hne, Or.inl ⟨hpub, hat⟩⟩

/-- A call where the job is taken and nothing is published. -/
theorem advances_taken {stage : Stage α} {o : Outcome Error α} (hmoves : Moves th.name mem mem')
    (hpub : mem'.published = mem.published) (hserve : serve job mem.published th.op = (o, mem.published))
    (hat : At job mem' { th with stage := stage } (.taken th.op o)) :
    Advances job mem th (.called th.op) mem' stage := by
  refine ⟨hmoves, fun ns hne => absurd (congrFun hpub ns) hne, Or.inr ⟨rfl, ?_, ?_⟩⟩
  · rw [hserve, hpub]
  · rw [hserve]
    exact hat

theorem moves_refl (n : Nat) (mem : St) : Moves n mem mem :=
  ⟨fun _ _ => rfl, fun _ _ => rfl, fun _ _ _ => rfl⟩

theorem moves_writers {writer : Option Writer} (hw : mem'.writers = Function.update mem.writers n writer)
    (hr : mem'.readers = mem.readers) (ho : mem'.opened = mem.opened) : Moves n mem mem' :=
  ⟨fun w hne => by rw [hw, Function.update_of_ne hne], fun r _ => by rw [hr], fun r slot _ => by rw [ho]⟩

section Stages

variable {stage : Stage α} {x : St × Stage α}

theorem advance_called (hw : mem.writers n = none) (hr : mem.readers n = none)
    (ho : ∀ slot, mem.opened (Nat.pair n slot) = none) (h : advance job mem ⟨op, n, .called⟩ = some (mem', stage)) :
    Advances job mem ⟨op, n, .called⟩ (.called op) mem' stage := by
  cases hjob : job op with
  | write ns tx =>
    simp only [advance, hjob, Option.map_eq_some_iff] at h
    obtain ⟨⟨mem1, a⟩, hstep, h⟩ := h
    cases h
    obtain ⟨-, ⟨space, hspace, rfl, rfl⟩ | ⟨hnone, rfl, rfl⟩⟩ := write_inv hstep
    · refine advances_same (moves_writers rfl rfl rfl) rfl ?_
      exact At.waiting hjob (Function.update_self _ _ _)
    · refine advances_taken (moves_refl n _) rfl ?_ At.ended
      simp only [serve, hjob, St.published, hnone, Option.map_none]
  | read ns query =>
    simp only [advance, hjob, Option.map_eq_some_iff] at h
    obtain ⟨⟨mem1, a⟩, hstep, h⟩ := h
    cases h
    obtain ⟨-, ⟨space, hspace, rfl, rfl⟩ | ⟨hnone, rfl, rfl⟩⟩ := read_inv hstep
    · obtain ⟨⟨o, snap⟩, hrun⟩ := Option.isSome_iff_exists.mp (query.ends space.stores)
      refine advances_taken (o := o) ⟨fun _ _ => rfl, fun r hne => Function.update_of_ne hne _ _,
        fun _ _ _ => rfl⟩ rfl ?_ ?_
      · rw [serve_read hjob (published_eq hspace), query.run_eq hrun]
      · exact At.reading (Function.update_self _ _ _) ho hrun
    · refine advances_taken (moves_refl n _) rfl ?_ At.ended
      simp only [serve, hjob, St.published, hnone, Option.map_none]

theorem advance_waiting {ns : String} {tx : Tx α} (hjob : job op = .write ns tx)
    (hw : mem.writers n = some ⟨ns, .waiting⟩) (h : advance job mem ⟨op, n, .waiting⟩ = some (mem', stage)) :
    Advances job mem ⟨op, n, .waiting⟩ (.called op) mem' stage := by
  simp only [advance, Option.map_eq_some_iff] at h
  obtain ⟨⟨mem1, a⟩, hstep, h⟩ := h
  cases h
  obtain ⟨ns', phase, space, space', phase', hw', hspace, hwrite, rfl⟩ := writer_inv hstep
  rw [hw] at hw'
  cases hw'
  simp only [writeStep] at hwrite
  split at hwrite
  · cases hwrite
  · cases hwrite
    refine advances_same (moves_writers rfl rfl rfl) (published_same hspace rfl rfl) ?_
    exact At.permitted hjob (Function.update_self _ _ _)

theorem advance_permitted {ns : String} {tx : Tx α} (hjob : job op = .write ns tx)
    (hw : mem.writers n = some ⟨ns, .permitted⟩) (h : advance job mem ⟨op, n, .permitted⟩ = some (mem', stage)) :
    Advances job mem ⟨op, n, .permitted⟩ (.called op) mem' stage := by
  simp only [advance, hjob, Option.map_eq_some_iff] at h
  obtain ⟨⟨mem1, a⟩, hstep, h⟩ := h
  cases h
  obtain ⟨ns', phase, space, space', phase', hw', hspace, hwrite, rfl⟩ := writer_inv hstep
  rw [hw] at hw'
  cases hw'
  cases hwrite
  refine advances_same (moves_writers rfl rfl rfl) (published_same hspace rfl rfl) ?_
  refine At.live hjob (Function.update_self _ _ _) ?_ rfl
  exact published_update rfl

/-- A call of a transaction: it is taken where it commits, or where its handle is dropped. -/
theorem advance_live {ns : String} {tx : Tx α} {staged stores : Stores} {rest : Script TxCall Reply Error α}
    (hg : Gated mem) (hjob : job op = .write ns tx) (hw : mem.writers n = some ⟨ns, .live staged⟩)
    (hpub : mem.published ns = some stores)
    (hrest : rest.exec txStep (⟨stores, true⟩, .live staged) = tx.script.exec txStep (opened stores))
    (h : advance job mem ⟨op, n, .writing rest⟩ = some (mem', stage)) :
    Advances job mem ⟨op, n, .writing rest⟩ (.called op) mem' stage := by
  have hspace := space_of_holds hg ⟨_, hw, rfl⟩ hpub
  cases rest with
  | ended o =>
    simp only [advance, Option.map_eq_some_iff] at h
    obtain ⟨⟨mem1, a⟩, hstep, h⟩ := h
    cases h
    obtain ⟨ns', phase, space, space', phase', hw', hspace', hwrite, rfl⟩ := writer_inv hstep
    rw [hw] at hw'
    cases hw'
    rw [hspace] at hspace'
    cases hspace'
    cases hwrite
    refine advances_taken (o := o) (moves_writers rfl rfl rfl) (published_same hspace rfl rfl) ?_ At.ended
    rw [serve_write hjob hpub, tx.run_eq hrest.symm]
    exact Prod.ext rfl (by rw [← hpub, Function.update_eq_self])
  | call c k =>
    simp only [advance, Option.map_eq_some_iff] at h
    obtain ⟨⟨mem1, a⟩, hstep, h⟩ := h
    cases h
    obtain ⟨ns', phase, space, space', phase', hw', hspace', hwrite, rfl⟩ := writer_inv hstep
    rw [hw] at hw'
    cases hw'
    rw [hspace] at hspace'
    cases hspace'
    have hcall : txStep (⟨stores, true⟩, .live staged) c = some ((space', phase'), a) := txStep_eq_some.mpr hwrite
    rw [Script.exec_call hcall] at hrest
    by_cases hc : c = .commit
    · subst hc
      cases hwrite
      obtain ⟨x, hx⟩ := Option.isSome_iff_exists.mp (tx.ends stores)
      rw [hx] at hrest
      obtain ⟨hk, hx2⟩ := ended_of_published hrest
      have hrun : tx.run stores = (x.1, staged) := by rw [tx.run_eq hx, hx2]
      refine ⟨moves_writers rfl rfl rfl, fun ns' hne => ?_, Or.inr ⟨rfl, ?_, ?_⟩⟩
      · rw [published_update_spaces rfl] at hne
        by_cases hns : ns' = ns
        · rw [hns]
          exact ⟨_, hw, rfl⟩
        · rw [Function.update_of_ne hns] at hne
          exact absurd rfl hne
      · rw [serve_write hjob hpub, hrun]
        exact @published_update_spaces mem _ ns ⟨staged, true⟩ rfl
      · rw [serve_write hjob hpub, hrun, hk]
        exact At.published (Function.update_self _ _ _)
    · obtain ⟨rfl, staged', rfl⟩ := live_of_writeStep hwrite hc
      refine advances_same (moves_writers rfl rfl rfl) (published_same hspace rfl rfl) ?_
      exact At.live hjob (Function.update_self _ _ _) (published_update rfl) hrest

theorem advance_published {ns : String} {o : Outcome Error α} (hw : mem.writers n = some ⟨ns, .published⟩)
    (h : advance job mem ⟨op, n, .writing (.ended o)⟩ = some (mem', stage)) :
    Advances job mem ⟨op, n, .writing (.ended o)⟩ (.taken op o) mem' stage := by
  simp only [advance, Option.map_eq_some_iff] at h
  obtain ⟨⟨mem1, a⟩, hstep, h⟩ := h
  cases h
  obtain ⟨ns', phase, space, space', phase', hw', hspace, hwrite, rfl⟩ := writer_inv hstep
  rw [hw] at hw'
  cases hw'
  cases hwrite
  exact advances_same (moves_writers rfl rfl rfl) (published_same hspace rfl rfl) At.ended

/-- A call of a query answers as it does alone, on the same snapshot. -/
theorem advance_reading {snap snap' : Snapshot} {rest : Script ReadCall Reply Error α} {o : Outcome Error α}
    (hr : mem.readers n = some snap.stores) (ho : ∀ slot, mem.opened (Nat.pair n slot) = snap.opened slot)
    (hrest : rest.exec readStep snap = some (o, snap'))
    (h : advance job mem ⟨op, n, .reading rest⟩ = some (mem', stage)) :
    Advances job mem ⟨op, n, .reading rest⟩ (.taken op o) mem' stage := by
  cases rest with
  | ended o' =>
    cases h
    cases hrest
    exact advances_same (moves_refl n _) rfl At.ended
  | call c k =>
    simp only [advance, Option.map_eq_some_iff] at h
    obtain ⟨⟨mem1, a⟩, hstep, h⟩ := h
    cases h
    obtain ⟨snap1, a1, hcall, hrest⟩ := Script.call_of_exec hrest
    cases c with
    | openStore slot name =>
      obtain ⟨stores, hr', hq, hopen⟩ := openStore_inv hstep
      rw [hr] at hr'
      cases hr'
      rw [ho] at hq
      simp only [readStep, hq] at hcall
      rcases hopen with ⟨store, hname, rfl, rfl⟩ | ⟨hname, rfl, rfl⟩
      · simp only [hname] at hcall
        cases hcall
        refine advances_same ⟨fun _ _ => rfl, fun _ _ => rfl, fun r slot' hne => ?_⟩ rfl
          (@At.reading _ _ _ _ _ _ ⟨snap.stores, Function.update snap.opened slot (some store)⟩ _ _ _ hr
            (fun slot' => ?_) hrest)
        · exact Function.update_of_ne (fun he => hne (Nat.pair_eq_pair.mp he).1) _ _
        · by_cases hs : slot' = slot
          · subst hs
            simp only [Function.update_self]
          · simp only [Function.update_of_ne hs]
            rw [Function.update_of_ne fun he => hs (Nat.pair_eq_pair.mp he).2]
            exact ho slot'
      · simp only [hname] at hcall
        cases hcall
        exact advances_same (moves_refl n _) rfl (At.reading hr ho hrest)
    | get slot key =>
      obtain ⟨store, hq, rfl, rfl⟩ := get_inv hstep
      rw [ho] at hq
      simp only [readStep, hq] at hcall
      cases hcall
      exact advances_same (moves_refl n _) rfl (At.reading hr ho hrest)
    | scan slot range direction =>
      obtain ⟨store, hq, rfl, rfl⟩ := scan_inv hstep
      rw [ho] at hq
      simp only [readStep, hq] at hcall
      cases hcall
      exact advances_same (moves_refl n _) rfl (At.reading hr ho hrest)

end Stages

/-- What one call of a thread does. -/
theorem advance_cases {st : Object.Status ω (Outcome Error α)} {stage : Stage α} (hg : Gated mem)
    (hat : At job mem th st) (h : advance job mem th = some (mem', stage)) : Advances job mem th st mem' stage := by
  cases hat with
  | called op n hw hr ho => exact advance_called hw hr ho h
  | waiting hjob hw => exact advance_waiting hjob hw h
  | permitted hjob hw => exact advance_permitted hjob hw h
  | live hjob hw hpub hrest => exact advance_live hg hjob hw hpub hrest h
  | published hw => exact advance_published hw h
  | reading hr ho hrest => exact advance_reading hr ho hrest h
  | ended => cases h

theorem advance_gated {stage : Stage α} (h : advance job mem th = some (mem', stage)) (hg : Gated mem) :
    Gated mem' := by
  have hstep : mem' = mem ∨ ∃ e a, step mem e = some (mem', a) := by
    simp only [advance] at h
    split at h <;> first
      | (obtain ⟨x, hx, h⟩ := Option.map_eq_some_iff.mp h
         cases h
         exact Or.inr ⟨_, _, hx⟩)
      | (cases h
         done)
      | (cases h
         exact Or.inl rfl)
  rcases hstep with rfl | ⟨e, a, hstep⟩
  · exact hg
  · exact step_gated (step_cases hstep) hg

end Thread

/-! ## All threads -/

section Pool

variable {job : ω → Job α}

structure PoolOk (p : Pool T ω α) : Prop where
  gated : Gated p.mem
  fresh : ∀ n, p.next ≤ n → p.mem.writers n = none ∧ p.mem.readers n = none ∧
    ∀ slot, p.mem.opened (Nat.pair n slot) = none
  named : ∀ t th, p.threads t = some th → th.name < p.next
  apart : ∀ t t' th th', p.threads t = some th → p.threads t' = some th' → th.name = th'.name → t = t'

/-- The backend where each job is done at once, at the same point. -/
structure Serves (job : ω → Job α) (p : Pool T ω α) (s : Object.St T (String → Option Stores) ω (Outcome Error α)) :
    Prop where
  ok : PoolOk p
  published : p.mem.published = s.state
  idle : ∀ t, p.threads t = none → s.calls t = none
  busy : ∀ t th, p.threads t = some th → ∃ st, s.calls t = some st ∧ At job p.mem th st

variable {p p' : Pool T ω α} {s : Object.St T (String → Option Stores) ω (Outcome Error α)} {t : T} {th : Thread ω α}

/-- The other threads are where they were. -/
theorem others_at {mem' : St} {stage : Stage α} {st : Object.Status ω (Outcome Error α)} (hok : PoolOk p)
    (ht : p.threads t = some th) (hadv : Advances job p.mem th st mem' stage) {t' : T} {th' : Thread ω α}
    (ht' : p.threads t' = some th') (hne : t' ≠ t) {st' : Object.Status ω (Outcome Error α)}
    (hat : At job p.mem th' st') : At job mem' th' st' := by
  have hname : th'.name ≠ th.name := fun he => hne (hok.apart t' t th' th ht' ht he)
  refine hat.frame (hadv.moves.writers _ hname) (hadv.moves.readers _ hname)
    (fun slot => hadv.moves.opened _ slot hname) fun ns hold => ?_
  -- Had the stores of `ns` changed, both threads would have its permit.
  by_contra hchanged
  exact hname (hok.gated.one_holder ns _ _ hold (hadv.private_of_ne ns hchanged))

variable [DecidableEq T]

/-- The thread `t` has moved on, and only its handle has changed. -/
theorem poolOk_update {mem' : St} {stage : Stage α} (hok : PoolOk p) (ht : p.threads t = some th)
    (hmoves : Moves th.name p.mem mem') (hg : Gated mem') : PoolOk (p.moved t th (mem', stage)) := by
  have hlt := hok.named t th ht
  have hname : ∀ t' th', Function.update p.threads t (some { th with stage := stage }) t' = some th' →
      ∃ th'', p.threads t' = some th'' ∧ th''.name = th'.name := by
    intro t' th' h
    by_cases htt : t' = t
    · subst htt
      rw [Function.update_self] at h
      cases h
      exact ⟨th, ht, rfl⟩
    · rw [Function.update_of_ne htt] at h
      exact ⟨th', h, rfl⟩
  refine ⟨hg, fun n hn => ?_, fun t' th' h => ?_, fun t1 t2 th1 th2 h1 h2 he => ?_⟩
  · obtain ⟨hw, hr, ho⟩ := hok.fresh n hn
    have hne : n ≠ th.name := fun he => absurd hlt (by rw [← he]; exact Nat.not_lt.mpr hn)
    exact ⟨(hmoves.writers n hne).trans hw, (hmoves.readers n hne).trans hr,
      fun slot => (hmoves.opened n slot hne).trans (ho slot)⟩
  · obtain ⟨th'', h', he⟩ := hname t' th' h
    rw [← he]
    exact hok.named t' th'' h'
  · obtain ⟨th1', h1', he1⟩ := hname t1 th1 h1
    obtain ⟨th2', h2', he2⟩ := hname t2 th2 h2
    exact hok.apart t1 t2 th1' th2' h1' h2' (by rw [he1, he2, he])

theorem serves_call {op : ω} (hs : Serves job p s) (ht : p.threads t = none) :
    Serves job { p with threads := Function.update p.threads t (some ⟨op, p.next, .called⟩), next := p.next + 1 }
      ⟨s.state, Function.update s.calls t (some (.called op))⟩ := by
  obtain ⟨hok, hpub, hidle, hbusy⟩ := hs
  obtain ⟨hw, hr, ho⟩ := hok.fresh p.next (le_refl _)
  have hnext : ∀ t' th', p.threads t' = some th' → th'.name ≠ p.next := fun t' th' h => (hok.named t' th' h).ne
  refine ⟨⟨hok.gated, fun n hn => hok.fresh n (Nat.le_of_succ_le hn), fun t' th' h => ?_,
    fun t1 t2 th1 th2 h1 h2 he => ?_⟩, hpub, fun t' h => ?_, fun t' th' h => ?_⟩
  · by_cases htt : t' = t
    · subst htt
      simp only [Function.update_self, Option.some.injEq] at h
      subst h
      exact Nat.lt_succ_self _
    · simp only [Function.update_of_ne htt] at h
      exact Nat.lt_succ_of_lt (hok.named t' th' h)
  · by_cases e1 : t1 = t
    · by_cases e2 : t2 = t
      · rw [e1, e2]
      · simp only [e1, Function.update_self, Option.some.injEq] at h1
        simp only [Function.update_of_ne e2] at h2
        exact absurd (by rw [← he, ← h1]) (hnext t2 th2 h2)
    · simp only [Function.update_of_ne e1] at h1
      by_cases e2 : t2 = t
      · simp only [e2, Function.update_self, Option.some.injEq] at h2
        exact absurd (by rw [he, ← h2]) (hnext t1 th1 h1)
      · simp only [Function.update_of_ne e2] at h2
        exact hok.apart t1 t2 th1 th2 h1 h2 he
  · by_cases htt : t' = t
    · subst htt
      simp only [Function.update_self] at h
      cases h
    · simp only [Function.update_of_ne htt] at h ⊢
      exact hidle t' h
  · by_cases htt : t' = t
    · subst htt
      simp only [Function.update_self, Option.some.injEq] at h
      subst h
      exact ⟨_, Function.update_self _ _ _, At.called op p.next hw hr ho⟩
    · simp only [Function.update_of_ne htt] at h ⊢
      exact hbusy t' th' h

theorem serves_ret {op : ω} {n : Nat} {o : Outcome Error α} (hs : Serves job p s)
    (ht : p.threads t = some ⟨op, n, .ended o⟩) : s.calls t = some (.taken op o) ∧
      Serves job { p with threads := Function.update p.threads t none } ⟨s.state, Function.update s.calls t none⟩ := by
  obtain ⟨hok, hpub, hidle, hbusy⟩ := hs
  have hold : ∀ t' th', Function.update p.threads t none t' = some th' → t' ≠ t ∧ p.threads t' = some th' := by
    intro t' th' h
    have htt : t' ≠ t := by
      rintro rfl
      rw [Function.update_self] at h
      cases h
    rw [Function.update_of_ne htt] at h
    exact ⟨htt, h⟩
  constructor
  · obtain ⟨st, hst, hat⟩ := hbusy t _ ht
    cases hat
    exact hst
  · refine ⟨⟨hok.gated, hok.fresh, fun t' th' h => hok.named t' th' (hold t' th' h).2, fun t1 t2 th1 th2 h1 h2 he =>
      hok.apart t1 t2 th1 th2 (hold t1 th1 h1).2 (hold t2 th2 h2).2 he⟩, hpub, fun t' h => ?_, fun t' th' h => ?_⟩
    · by_cases htt : t' = t
      · subst htt
        simp only [Function.update_self]
      · simp only [Function.update_of_ne htt] at h ⊢
        exact hidle t' h
    · obtain ⟨htt, h'⟩ := hold t' th' h
      simp only [Function.update_of_ne htt]
      exact hbusy t' th' h'

/-- A call of one thread is no step of the backend where jobs are done at once, or does one. -/
theorem serves_step {mem' : St} {stage : Stage α} (hs : Serves job p s) (ht : p.threads t = some th)
    (h : advance job p.mem th = some (mem', stage)) :
    ∃ later s', Run (Object.step (serve job)) s later s' ∧ history Object.Mark.seen later = [] ∧
      Serves job (p.moved t th (mem', stage)) s' := by
  obtain ⟨hok, hpub, hidle, hbusy⟩ := hs
  obtain ⟨st, hst, hat⟩ := hbusy t th ht
  have hadv := advance_cases hok.gated hat h
  have hok' : PoolOk (p.moved t th (mem', stage)) := poolOk_update hok ht hadv.moves (advance_gated h hok.gated)
  -- Where the thread itself has a place with `st'`, everything is in place.
  have hplace : ∀ (calls : T → Option (Object.Status ω (Outcome Error α))) st', calls t = some st' →
      (∀ t', t' ≠ t → calls t' = s.calls t') → At job mem' { th with stage := stage } st' →
      (∀ t', (p.moved t th (mem', stage)).threads t' = none → calls t' = none) ∧
      ∀ t' th', (p.moved t th (mem', stage)).threads t' = some th' →
        ∃ st, calls t' = some st ∧ At job mem' th' st := by
    intro calls st' hself hothers hat'
    unfold Pool.moved
    dsimp only
    refine ⟨fun t' hnone => ?_, fun t' th' hsome => ?_⟩
    · by_cases htt : t' = t
      · subst htt
        rw [Function.update_self] at hnone
        cases hnone
      · rw [Function.update_of_ne htt] at hnone
        rw [hothers t' htt]
        exact hidle t' hnone
    · by_cases htt : t' = t
      · subst htt
        rw [Function.update_self] at hsome
        cases hsome
        exact ⟨st', hself, hat'⟩
      · rw [Function.update_of_ne htt] at hsome
        obtain ⟨st1, hst1, hat1⟩ := hbusy t' th' hsome
        exact ⟨st1, (hothers t' htt).trans hst1, others_at hok ht hadv hsome htt hat1⟩
  rcases hadv.place with ⟨hsame, hat'⟩ | ⟨rfl, htaken, hat'⟩
  · obtain ⟨hidle', hbusy'⟩ := hplace s.calls st hst (fun _ _ => rfl) hat'
    exact ⟨[], s, Run.nil, rfl, hok', hsame.trans hpub, hidle', hbusy'⟩
  · rw [hpub] at htaken hat'
    obtain ⟨hidle', hbusy'⟩ := hplace _ _ (Function.update_self _ _ _)
      (fun t' hne => Function.update_of_ne hne _ _) hat'
    exact ⟨_, _, Run.step Run.nil (Object.step_take hst), rfl, hok', htaken, hidle', hbusy'⟩

theorem serves_poolStep {e : T × PoolEv ω} {a : Option (CallEv ω (Outcome Error α))}
    (h : poolStep job p e = some (p', a)) (hs : Serves job p s) :
    ∃ later s', Run (Object.step (serve job)) s later s' ∧
      history Object.Mark.seen later = (a.map fun c => (e.1, c)).toList ∧ Serves job p' s' := by
  obtain ⟨t, ev⟩ := e
  simp only [poolStep] at h
  split at h
  · rename_i op hnone
    cases h
    exact ⟨_, _, Run.step Run.nil (Object.step_call (hs.idle t hnone) op), rfl, serves_call hs hnone⟩
  · rename_i th hth
    obtain ⟨⟨mem', stage⟩, hadv, h⟩ := Option.map_eq_some_iff.mp h
    cases h
    exact serves_step hs hth hadv
  · rename_i op n o hth
    cases h
    obtain ⟨hcalls, hs'⟩ := serves_ret hs hth
    exact ⟨_, _, Run.step Run.nil (Object.step_ret hcalls), rfl, hs'⟩
  · cases h

/-- No handle has been opened. -/
def Unused (mem : St) : Prop :=
  ∀ n, mem.writers n = none ∧ mem.readers n = none ∧ mem.opened n = none

/-- However the calls of threads interleave, their jobs are seen as if each was done at
    once between its call and its return. -/
theorem jobs_linearizable {setup : Trace Ev Reply} {mem : St} (hmem : Run step new setup mem) (hunused : Unused mem)
    {tr : Trace (T × PoolEv ω) (Option (CallEv ω (Outcome Error α)))} (h : Run (poolStep job) (pool mem) tr p) :
    Linearizable (serve job) mem.published (history id tr) := by
  refine linearizable_of_simulation (fun _ _ _ _ _ hs hserves => serves_poolStep hs hserves) ?_ h
  have hok : PoolOk (pool mem : Pool T ω α) :=
    ⟨reach_gated hmem, fun n _ => ⟨(hunused n).1, (hunused n).2.1, fun slot => (hunused _).2.2⟩, nofun, nofun⟩
  exact ⟨hok, rfl, fun _ _ => rfl, nofun⟩

end Pool

end Collette.Jobs
