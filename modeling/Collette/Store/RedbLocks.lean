/-
  Collette.Store.RedbLocks — the locks of the redb backend, taken by any number of threads
  (`prepare`, `read`, `write` and the write handles in `backend/redb.rs`).

  There is the lock on the registry of prepared tables, and the write transaction, of which
  the database has one at a time. A thread is in at most one call, and has at most one
  write handle. What a call does with the data are the steps of `Registry.step`, each taken
  by the thread in the call; here the thread also holds what it locks. `read` and `write`
  copy the registry in the expression that begins their transaction, so they have the read
  lock until it has begun.

  Whether a lock lets new sharers in while somebody waits to have it exclusively is up to
  the platform; `prefer` says that it does not.

  - `refines`: what the threads do is a run of `Registry.step`, so its guarantees hold.
  - `deadlocked_iff`: a deadlock is a thread that waits for the write transaction while it
    has one itself (`WaitsForSelf`); or, where `prefer`, a thread with a write handle that
    queues for the registry behind a `prepare`, which waits for a `write`, which waits for
    that handle (`Ring`).
  - `deadlocks_iff`: exactly three kinds of step bring this about (those not `Orderly`).
  - `deadlock_free_iff_orderly`: a run is free of deadlocks, and whoever is held up in it
    is held up by threads one of which has a step, exactly when all its steps are orderly.
  - `read_under_write_deadlocks`: three threads that deadlock, one of them in `read`.
-/

import Collette.Prog.Locking
import Collette.Store.Registry

namespace Collette.RedbLocks

open Registry (Shared Prepare Reader Writer PrepareEv ReadEv WriteEv Owner PrepareSteps ReadSteps WriteSteps)

/-! ## Calls -/

inductive Lock where
  /-- `RedbMultiStore::tables`. -/
  | registry
  /-- The write transaction of `RedbMultiStore::db`. -/
  | txn
  deriving DecidableEq, Repr

inductive Call where
  | idle
  /-- `prepare`, before its transaction. -/
  | create (p : Nat)
  | creating (p : Nat)
  /-- Committed, before the registry. -/
  | register (p : Nat)
  | registering (p : Nat)
  /-- `read`, before the registry. -/
  | read (r : Nat) (ns : String)
  | beginRead (r : Nat)
  | write (w : Nat) (ns : String)
  | beginWrite (w : Nat)
  deriving DecidableEq, Repr

structure Thread where
  /-- Its write handle. -/
  handle : Option Nat
  call : Call
  deriving DecidableEq, Repr

def Call.holds : Call → List (Lock × Mode)
  | .creating _ => [(.txn, .exclusive)]
  | .registering _ => [(.registry, .exclusive)]
  | .beginRead _ => [(.registry, .shared)]
  | .beginWrite _ => [(.registry, .shared)]
  | _ => []

/-- The lock the call takes next. -/
def Call.wants : Call → Option (Lock × Mode)
  | .create _ => some (.txn, .exclusive)
  | .register _ => some (.registry, .exclusive)
  | .read _ _ => some (.registry, .shared)
  | .write _ _ => some (.registry, .shared)
  | .beginWrite _ => some (.txn, .exclusive)
  | _ => none

def Thread.holds (th : Thread) : List (Lock × Mode) :=
  match th.handle with
  | some _ => (.txn, .exclusive) :: th.call.holds
  | none => th.call.holds

/-- Where a step of an actor takes the thread that has called it. -/
def after (th : Thread) : Registry.Ev → Option Thread
  | .prepare p (.call _ _) => if th.call = .idle then some { th with call := .create p } else none
  | .prepare p .beginWrite => if th.call = .create p then some { th with call := .creating p } else none
  | .prepare p .openTable => if th.call = .creating p then some th else none
  | .prepare p .commit => if th.call = .creating p then some { th with call := .register p } else none
  | .prepare p .fail =>
    if th.call = .create p ∨ th.call = .creating p then some { th with call := .idle } else none
  | .prepare p .lock => if th.call = .register p then some { th with call := .registering p } else none
  | .prepare p .edit => if th.call = .registering p then some th else none
  | .prepare p .publish => if th.call = .registering p then some { th with call := .idle } else none
  | .read r (.call ns) => if th.call = .read r ns then some { th with call := .beginRead r } else none
  | .read r .beginRead => if th.call = .beginRead r then some { th with call := .idle } else none
  | .read _ (.openStore _) => if th.call = .idle then some th else none
  | .write w (.call ns) => if th.call = .write w ns then some { th with call := .beginWrite w } else none
  | .write w .beginWrite => if th.call = .beginWrite w then some ⟨some w, .idle⟩ else none
  | .write w .commit => if th = ⟨some w, .idle⟩ then some ⟨none, .idle⟩ else none
  | .write w .drop => if th = ⟨some w, .idle⟩ then some ⟨none, .idle⟩ else none
  | .write w _ => if th = ⟨some w, .idle⟩ then some th else none

/-! ## Threads -/

def actor : Registry.Ev → Nat
  | .prepare p _ => p
  | .read r _ => r
  | .write w _ => w

structure St (T : Type) where
  actors : Registry.St
  threads : T → Thread

inductive Ev where
  /-- Enters `read`, or `write`. -/
  | read (r : Nat) (ns : String)
  | write (w : Nat) (ns : String)
  /-- `begin_read` or `begin_write` fails, and with it the call. -/
  | fail
  | act (e : Registry.Ev)
  deriving DecidableEq, Repr

section Machine

variable {T : Type} [DecidableEq T] [Fintype T]

def St.locking (s : St T) : Locking T Lock := ⟨fun t => (s.threads t).holds, fun t => (s.threads t).call.wants⟩

def St.enter (s : St T) (t : T) (call : Call) : St T :=
  { s with threads := Function.update s.threads t { s.threads t with call := call } }

/-- Calls are numbered, and `caller` says whose each is. -/
def step (prefer : Bool) (caller : Nat → T) : Machine (St T) (T × Ev) (Option (Registry.Ev × Registry.Ans)) :=
  fun s (t, e) =>
    if s.locking.Held prefer t then none
    else match e, (s.threads t).call with
      | .read r ns, .idle =>
        if caller r = t ∧ (s.actors.readers r).isNone then some (s.enter t (.read r ns), none) else none
      | .write w ns, .idle =>
        if caller w = t ∧ (s.actors.writers w).isNone then some (s.enter t (.write w ns), none) else none
      | .fail, .beginRead _ => some (s.enter t .idle, none)
      | .fail, .beginWrite _ => some (s.enter t .idle, none)
      | .act e, _ =>
        if caller (actor e) = t then
          match after (s.threads t) e, Registry.step s.actors e with
          | some th, some (actors, a) => some (⟨actors, Function.update s.threads t th⟩, some (e, a))
          | _, _ => none
        else none
      | _, _ => none

/-- A backend over an existing database, no thread in a call. -/
def start (db : Stores) : St T := ⟨Registry.fromDatabase db, fun _ => ⟨none, .idle⟩⟩

end Machine

/-! ## What a thread holds and wants -/

section Thread

variable {th th' : Thread} {e : Registry.Ev}

theorem mem_holds {x : Lock × Mode} :
    x ∈ th.holds ↔ (th.handle ≠ none ∧ x = (.txn, .exclusive)) ∨ x ∈ th.call.holds := by
  unfold Thread.holds
  cases th.handle with
  | none => simp
  | some w => simp

/-- With a write handle a thread does not get past the beginning of `prepare`. -/
def Thread.Ok (th : Thread) : Prop :=
  th.handle ≠ none → ∀ p, th.call ≠ .creating p ∧ th.call ≠ .register p ∧ th.call ≠ .registering p

/-- It waits for the write transaction and has it. -/
def Thread.WaitsForSelf (th : Thread) : Prop := th.handle ≠ none ∧ th.call.wants = some (.txn, .exclusive)

/-- With a write handle, in `read` or `write` before the registry. -/
def Thread.Queues (th : Thread) : Prop := th.handle ≠ none ∧ th.call.wants = some (.registry, .shared)

/-- In `prepare`, waiting for the registry. -/
def Thread.Registers (th : Thread) : Prop := th.call.wants = some (.registry, .exclusive)

/-- In `write`, waiting for the transaction with the registry shared. -/
def Thread.Begins (th : Thread) : Prop := ∃ w, th.call = .beginWrite w

theorem Thread.Begins.holds (h : th.Begins) : (Lock.registry, Mode.shared) ∈ th.holds := by
  obtain ⟨w, h⟩ := h
  exact mem_holds.mpr (Or.inr (by rw [h]; exact List.mem_cons_self))

theorem Thread.Begins.wants (h : th.Begins) : th.call.wants = some (.txn, .exclusive) := by
  obtain ⟨w, h⟩ := h
  rw [h]
  rfl

/-- Whoever holds the write transaction and waits has a write handle. -/
theorem handle_of_holds_txn {m : Mode} (h : (Lock.txn, m) ∈ th.holds) (hwants : th.call.wants ≠ none) :
    th.handle ≠ none ∧ m = .exclusive := by
  rcases mem_holds.mp h with ⟨hhandle, hx⟩ | hcall
  · cases hx
    exact ⟨hhandle, rfl⟩
  · unfold Call.holds at hcall
    split at hcall
    all_goals grind [Call.wants]

/-- Whoever holds the registry and waits is in `write`, the registry shared. -/
theorem begins_of_holds_registry {m : Mode} (h : (Lock.registry, m) ∈ th.holds) (hwants : th.call.wants ≠ none) :
    th.Begins ∧ m = .shared := by
  unfold Thread.Begins
  rcases mem_holds.mp h with ⟨-, hx⟩ | hcall
  · cases hx
  · unfold Call.holds at hcall
    split at hcall
    all_goals grind [Call.wants]

/-- A thread with a write handle that waits, waits for itself or queues for the registry. -/
theorem Thread.Ok.queues (h : th.Ok) (hhandle : th.handle ≠ none) (hwants : th.call.wants ≠ none) :
    th.WaitsForSelf ∨ th.Queues := by
  have hok := h hhandle
  unfold Thread.WaitsForSelf Thread.Queues
  unfold Call.wants at hwants ⊢
  split
  all_goals grind

theorem after_ok (h : after th e = some th') (hok : th.Ok) (hself : ¬ th.WaitsForSelf) : th'.Ok := by
  unfold Thread.Ok at hok ⊢
  unfold Thread.WaitsForSelf at hself
  unfold after at h
  split at h
  all_goals grind [Call.wants]

/-- What a thread holds after a step it held before, or was waiting for. -/
theorem after_holds {x : Lock × Mode} (h : after th e = some th') (hx : x ∈ th'.holds) :
    x ∈ th.holds ∨ th.call.wants = some x := by
  rw [mem_holds] at hx ⊢
  unfold after at h
  split at h
  all_goals grind [Call.holds, Call.wants]

/-- Only by going on in `prepare` or in `write` with a handle does a thread come to wait for itself. -/
theorem after_self (h : after th e = some th') (hself : th'.WaitsForSelf) :
    th.handle ≠ none ∧ ((∃ p ns names, e = .prepare p (.call ns names)) ∨ ∃ w ns, e = .write w (.call ns)) := by
  unfold Thread.WaitsForSelf at hself
  unfold after at h
  split at h
  all_goals grind [Call.wants]

theorem after_calls (h : after th e = some th') (hhandle : th.handle ≠ none)
    (he : (∃ p ns names, e = .prepare p (.call ns names)) ∨ ∃ w ns, e = .write w (.call ns)) : th'.WaitsForSelf := by
  unfold Thread.WaitsForSelf
  rcases he with ⟨p, ns, names, rfl⟩ | ⟨w, ns, rfl⟩
  all_goals
    simp only [after, Option.ite_none_right_eq_some, Option.some.injEq] at h
    rw [← h.2]
    exact ⟨hhandle, rfl⟩

theorem after_not_queues (h : after th e = some th') : ¬ th'.Queues := by
  unfold Thread.Queues
  unfold after at h
  split at h
  all_goals grind [Call.wants]

/-- A prepare comes to the registry out of its transaction. -/
theorem after_registers (h : after th e = some th') (hregisters : th'.Registers) :
    (Lock.txn, Mode.exclusive) ∈ th.holds := by
  rw [mem_holds]
  unfold Thread.Registers at hregisters
  unfold after at h
  split at h
  all_goals grind [Call.wants, Call.holds]

/-- A `write` comes to its transaction having been given the registry. -/
theorem after_begins (h : after th e = some th') (hbegins : th'.Begins) :
    th.call.wants = some (.registry, .shared) := by
  unfold Thread.Begins at hbegins
  unfold after at h
  split at h
  all_goals grind [Call.wants]

end Thread

/-! ## Who waits for whom -/

section Deadlock

variable {T : Type} {s : St T} {t t' : T} {prefer : Bool}

/-- Is held up by itself or by another. -/
abbrev St.Deadlocked (s : St T) (prefer : Bool) : Prop := Locking.DeadlockedBy (s.locking.Waits prefer)

/-- One queues for the registry with its write handle, one registers, one begins to write:
    the first behind the second, who waits for the third, who waits for the first. -/
def Ring (s : St T) : Prop :=
  ∃ t p b, (s.threads t).Queues ∧ (s.threads p).Registers ∧ (s.threads b).Begins

theorem deadlocked_of_self (h : (s.threads t).WaitsForSelf) : s.Deadlocked prefer := by
  refine ⟨{t}, ⟨t, rfl⟩, fun u hu => ⟨t, rfl, ?_⟩⟩
  rw [hu]
  exact Locking.held_of_holder h.2 (mem_holds.mpr (Or.inl ⟨h.1, rfl⟩)) rfl

theorem deadlocked_of_ring (h : Ring s) : s.Deadlocked true := by
  obtain ⟨t, p, b, hqueues, hregisters, hbegins⟩ := h
  refine ⟨{t, p, b}, ⟨t, Or.inl rfl⟩, fun u hu => ?_⟩
  rcases hu with rfl | rfl | rfl
  · exact ⟨p, Or.inr (Or.inl rfl), Or.inr ⟨rfl, .registry, hqueues.2, hregisters⟩⟩
  · exact ⟨b, Or.inr (Or.inr rfl), Locking.held_of_holder hregisters hbegins.holds rfl⟩
  · exact ⟨t, Or.inl rfl, Locking.held_of_holder hbegins.wants (mem_holds.mpr (Or.inl ⟨hqueues.1, rfl⟩)) rfl⟩

section Stuck

variable {S : Set T} (hstuck : Locking.StuckBy (s.locking.Waits prefer) S)

include hstuck

/-- In a stuck set, who waits for the write transaction waits for one with a write handle. -/
theorem stuck_txn (ht : t ∈ S) (hwant : (s.threads t).call.wants = some (.txn, .exclusive)) :
    ∃ t' ∈ S, (s.threads t').handle ≠ none ∧ (s.threads t').call.wants ≠ none := by
  obtain ⟨t', ht', hwants, ⟨m, hheld, -⟩ | ⟨-, hm, -⟩⟩ := hstuck.of_wants ht hwant
  · exact ⟨t', ht', (handle_of_holds_txn hheld hwants).1, hwants⟩
  · cases hm

/-- Who registers waits for one that begins to write. -/
theorem stuck_registers (ht : t ∈ S) (hwant : (s.threads t).Registers) : ∃ t' ∈ S, (s.threads t').Begins := by
  obtain ⟨t', ht', hwants, ⟨m, hheld, -⟩ | ⟨-, hm, -⟩⟩ := hstuck.of_wants ht hwant
  · exact ⟨t', ht', (begins_of_holds_registry hheld hwants).1⟩
  · cases hm

/-- Who would share the registry queues behind one that registers. -/
theorem stuck_shared (ht : t ∈ S) (hwant : (s.threads t).call.wants = some (.registry, .shared)) :
    prefer = true ∧ ∃ t' ∈ S, (s.threads t').Registers := by
  obtain ⟨t', ht', hwants, ⟨m, hheld, hconf⟩ | ⟨hprefer, -, hbehind⟩⟩ := hstuck.of_wants ht hwant
  · rw [(begins_of_holds_registry hheld hwants).2] at hconf
    cases hconf
  · exact ⟨hprefer, t', ht', hbehind⟩

/-- In every stuck set one waits for the write transaction. -/
theorem stuck_waits (ht : t ∈ S) : ∃ t' ∈ S, (s.threads t').call.wants = some (.txn, .exclusive) := by
  have hregisters : ∀ u ∈ S, (s.threads u).Registers →
      ∃ t' ∈ S, (s.threads t').call.wants = some (.txn, .exclusive) := by
    intro u hu hwant
    obtain ⟨t', ht', hbegins⟩ := stuck_registers hstuck hu hwant
    exact ⟨t', ht', hbegins.wants⟩
  obtain ⟨t', -, hwaits⟩ := hstuck t ht
  obtain ⟨⟨lock, m⟩, hwant⟩ := Option.ne_none_iff_exists'.mp hwaits.wants
  cases lock with
  | txn =>
    cases m with
    | exclusive => exact ⟨t, ht, hwant⟩
    | shared =>
      unfold St.locking Call.wants at hwant
      grind
  | registry =>
    cases m with
    | exclusive => exact hregisters t ht hwant
    | shared =>
      obtain ⟨-, u, hu, hregs⟩ := stuck_shared hstuck ht hwant
      exact hregisters u hu hregs

end Stuck

theorem deadlocked_iff (hok : ∀ t, (s.threads t).Ok) :
    s.Deadlocked prefer ↔ (∃ t, (s.threads t).WaitsForSelf) ∨ prefer = true ∧ Ring s := by
  constructor
  · intro ⟨S, ⟨t0, ht0⟩, hstuck⟩
    obtain ⟨u, hu, hwant⟩ := stuck_waits hstuck ht0
    obtain ⟨t, ht, hhandle, hwants⟩ := stuck_txn hstuck hu hwant
    rcases (hok t).queues hhandle hwants with hself | hqueues
    · exact Or.inl ⟨t, hself⟩
    · obtain ⟨hprefer, p, hp, hregisters⟩ := stuck_shared hstuck ht hqueues.2
      obtain ⟨b, -, hbegins⟩ := stuck_registers hstuck hp hregisters
      exact Or.inr ⟨hprefer, t, p, b, hqueues, hregisters, hbegins⟩
  · intro h
    rcases h with ⟨t, hself⟩ | ⟨hprefer, hring⟩
    · exact deadlocked_of_self hself
    · rw [hprefer]
      exact deadlocked_of_ring hring

end Deadlock

/-! ## Steps -/

section Steps

variable {T : Type} {s s' : St T} {t : T} {prefer : Bool} {caller : Nat → T}

/-- A step between calls, or out of one that fails. -/
inductive Enters (caller : Nat → T) (s : St T) (t : T) : Ev → Call → Prop
  | read (r : Nat) (ns : String) : (s.threads t).call = .idle → caller r = t → s.actors.readers r = none →
      Enters caller s t (.read r ns) (.read r ns)
  | write (w : Nat) (ns : String) : (s.threads t).call = .idle → caller w = t → s.actors.writers w = none →
      Enters caller s t (.write w ns) (.write w ns)
  | failRead (r : Nat) : (s.threads t).call = .beginRead r → Enters caller s t .fail .idle
  | failWrite (w : Nat) : (s.threads t).call = .beginWrite w → Enters caller s t .fail .idle

theorem enters_holds {e : Ev} {call : Call} (h : Enters caller s t e call) : call.holds = [] := by
  cases h <;> rfl

theorem not_self_of_free (h : ¬ s.locking.Held prefer t) : ¬ (s.threads t).WaitsForSelf :=
  fun hself => h ⟨t, Locking.held_of_holder hself.2 (mem_holds.mpr (Or.inl ⟨hself.1, rfl⟩)) rfl⟩

variable [DecidableEq T]

/-- What a step does: it enters a call or leaves one, or is a step of the actor. -/
inductive Steps (caller : Nat → T) (s : St T) (t : T) : Ev → Option (Registry.Ev × Registry.Ans) → St T → Prop
  | enter (e : Ev) (call : Call) : Enters caller s t e call → Steps caller s t e none (s.enter t call)
  | act (e : Registry.Ev) (th : Thread) (actors : Registry.St) (a : Registry.Ans) : caller (actor e) = t →
      after (s.threads t) e = some th → Registry.step s.actors e = some (actors, a) →
      Steps caller s t (.act e) (some (e, a)) ⟨actors, Function.update s.threads t th⟩

/-- The threads after a step: one of them has moved. -/
theorem steps_threads {e : Ev} {a : Option (Registry.Ev × Registry.Ans)} (h : Steps caller s t e a s') :
    ∃ th, s'.threads = Function.update s.threads t th := by
  cases h with
  | enter _ call henters => exact ⟨_, rfl⟩
  | act e th actors a hcaller hafter hstep => exact ⟨th, rfl⟩

theorem steps_others {e : Ev} {a : Option (Registry.Ev × Registry.Ans)} (h : Steps caller s t e a s') {t' : T}
    (hne : t' ≠ t) : s'.threads t' = s.threads t' := by
  obtain ⟨th, hth⟩ := steps_threads h
  rw [hth, Function.update_of_ne hne]

theorem steps_holds {e : Ev} {a : Option (Registry.Ev × Registry.Ans)} (h : Steps caller s t e a s') {x : Lock × Mode}
    (hx : x ∈ (s'.threads t).holds) : x ∈ (s.threads t).holds ∨ (s.threads t).call.wants = some x := by
  cases h with
  | enter _ call henters =>
    simp only [St.enter, Function.update_self] at hx
    rcases mem_holds.mp hx with hhandle | hcall
    · exact Or.inl (mem_holds.mpr (Or.inl hhandle))
    · rw [enters_holds henters] at hcall
      cases hcall
  | act e th actors a hcaller hafter hstep =>
    simp only [Function.update_self] at hx
    exact after_holds hafter hx

/-- No owner of a write handle calls `prepare`, or goes on in `write` to its transaction; and
    where `prefer`, none calls `read` or `write` while a `prepare` waits for the registry
    and a `write` for its transaction. -/
def Orderly (prefer : Bool) (s : St T) (e : T × Ev) : Prop :=
  match e.2 with
  | .act (.prepare _ (.call _ _)) => (s.threads e.1).handle = none
  | .act (.write _ (.call _)) => (s.threads e.1).handle = none
  | .read _ _ => prefer = true → (s.threads e.1).handle ≠ none →
      ∀ p b, (s.threads p).Registers → ¬ (s.threads b).Begins
  | .write _ _ => prefer = true → (s.threads e.1).handle ≠ none →
      ∀ p b, (s.threads p).Registers → ¬ (s.threads b).Begins
  | _ => True

/-- Whoever waits for itself after a step has gone on so just now, or did before. -/
theorem steps_self {e : Ev} {a : Option (Registry.Ev × Registry.Ans)} (h : Steps caller s t e a s')
    (hself : (s'.threads t).WaitsForSelf) : ¬ Orderly prefer s (t, e) := by
  cases h with
  | enter _ call henters =>
    simp only [St.enter, Function.update_self] at hself
    have hwants := hself.2
    cases henters <;> cases hwants
  | act e th actors a hcaller hafter hstep =>
    simp only [Function.update_self] at hself
    obtain ⟨hhandle, ⟨p, ns, names, rfl⟩ | ⟨w, ns, rfl⟩⟩ := after_self hafter hself
    · exact hhandle
    · exact hhandle

/-- Whoever queues for the registry after its step has entered `read` or `write`. -/
theorem steps_queues {e : Ev} {a : Option (Registry.Ev × Registry.Ans)} (h : Steps caller s t e a s')
    (hqueues : (s'.threads t).Queues) {p b : T} (hregisters : (s.threads p).Registers)
    (hbegins : (s.threads b).Begins) :
    ¬ Orderly true s (t, e) := by
  cases h with
  | enter _ call henters =>
    simp only [St.enter, Function.update_self] at hqueues
    obtain ⟨hhandle, hwants⟩ := hqueues
    cases henters with
    | read r ns _ _ _ => exact fun horderly => horderly rfl hhandle p b hregisters hbegins
    | write w ns _ _ _ => exact fun horderly => horderly rfl hhandle p b hregisters hbegins
    | failRead r _ => cases hwants
    | failWrite w _ => cases hwants
  | act e th actors a hcaller hafter hstep =>
    simp only [Function.update_self] at hqueues
    exact absurd hqueues (after_not_queues hafter)

theorem steps_registers {e : Ev} {a : Option (Registry.Ev × Registry.Ans)} (h : Steps caller s t e a s')
    (hregisters : (s'.threads t).Registers) : (Lock.txn, Mode.exclusive) ∈ (s.threads t).holds := by
  cases h with
  | enter _ call henters =>
    simp only [St.enter, Function.update_self] at hregisters
    unfold Thread.Registers at hregisters
    cases henters <;> cases hregisters
  | act e th actors a hcaller hafter hstep =>
    simp only [Function.update_self] at hregisters
    exact after_registers hafter hregisters

theorem steps_begins {e : Ev} {a : Option (Registry.Ev × Registry.Ans)} (h : Steps caller s t e a s')
    (hbegins : (s'.threads t).Begins) : (s.threads t).call.wants = some (.registry, .shared) := by
  cases h with
  | enter _ call henters =>
    simp only [St.enter, Function.update_self] at hbegins
    obtain ⟨w, hbegins⟩ := hbegins
    cases henters <;> cases hbegins
  | act e th actors a hcaller hafter hstep =>
    simp only [Function.update_self] at hbegins
    exact after_begins hafter hbegins

/-- A ring is closed by the one that queues: for the second to come to the registry the
    write transaction has to be free of handles, and the third would itself have queued. -/
theorem steps_ring {e : Ev} {a : Option (Registry.Ev × Registry.Ans)} (h : Steps caller s t e a s')
    (hex : s.locking.Exclusive) (hheld : ¬ s.locking.Held true t) (hno : ¬ Ring s) (hring : Ring s') :
    ¬ Orderly true s (t, e) := by
  obtain ⟨u, p, b, hqueues, hregisters, hbegins⟩ := hring
  by_cases hp : p = t
  · subst hp
    have hu : u ≠ p := by
      intro hu
      subst hu
      have hwants := hqueues.2
      rw [hregisters] at hwants
      cases hwants
    rw [steps_others h hu] at hqueues
    have hboth := hex u p hu (.txn, .exclusive) (mem_holds.mpr (Or.inl ⟨hqueues.1, rfl⟩)) (.txn, .exclusive)
      (steps_registers h hregisters) rfl
    cases hboth
  · rw [steps_others h hp] at hregisters
    by_cases hb : b = t
    · subst hb
      exact absurd ⟨p, Or.inr ⟨rfl, .registry, steps_begins h hbegins, hregisters⟩⟩ hheld
    · rw [steps_others h hb] at hbegins
      by_cases hu : u = t
      · subst hu
        exact steps_queues h hqueues hregisters hbegins
      · rw [steps_others h hu] at hqueues
        exact absurd ⟨u, p, b, hqueues, hregisters, hbegins⟩ hno

/-- A step that is not orderly closes a circle. -/
theorem steps_not_orderly {e : Ev} {a : Option (Registry.Ev × Registry.Ans)} (h : Steps caller s t e a s')
    (hnot : ¬ Orderly prefer s (t, e)) : (s'.threads t).WaitsForSelf ∨ prefer = true ∧ Ring s' := by
  cases h with
  | enter _ call henters =>
    have hentered : ∀ p b, (s.threads t).call = .idle → call.wants = some (.registry, .shared) →
        (s.threads t).handle ≠ none → (s.threads p).Registers → (s.threads b).Begins → Ring (s.enter t call) := by
      intro p b hidle hwants hhandle hregisters hbegins
      refine ⟨t, p, b, ?_, ?_, ?_⟩
      · simp only [St.enter, Function.update_self]
        exact ⟨hhandle, hwants⟩
      · have hp : p ≠ t := by
          intro hp
          subst hp
          unfold Thread.Registers at hregisters
          rw [hidle] at hregisters
          cases hregisters
        simp only [St.enter, Function.update_of_ne hp]
        exact hregisters
      · have hb : b ≠ t := by
          intro hb
          subst hb
          obtain ⟨w, hbegins⟩ := hbegins
          rw [hidle] at hbegins
          cases hbegins
        simp only [St.enter, Function.update_of_ne hb]
        exact hbegins
    cases henters with
    | read r ns hidle _ _ =>
      simp only [Orderly, not_forall, not_not] at hnot
      obtain ⟨hprefer, hhandle, p, b, hregisters, hbegins⟩ := hnot
      exact Or.inr ⟨hprefer, hentered p b hidle rfl hhandle hregisters hbegins⟩
    | write w ns hidle _ _ =>
      simp only [Orderly, not_forall, not_not] at hnot
      obtain ⟨hprefer, hhandle, p, b, hregisters, hbegins⟩ := hnot
      exact Or.inr ⟨hprefer, hentered p b hidle rfl hhandle hregisters hbegins⟩
    | failRead r _ => exact absurd trivial hnot
    | failWrite w _ => exact absurd trivial hnot
  | act e th actors a hcaller hafter hstep =>
    simp only [Function.update_self]
    unfold Orderly at hnot
    split at hnot
    · rename_i p ns names he
      cases he
      exact Or.inl (after_calls hafter hnot (Or.inl ⟨p, ns, names, rfl⟩))
    · rename_i w ns he
      cases he
      exact Or.inl (after_calls hafter hnot (Or.inr ⟨w, ns, rfl⟩))
    · rename_i he
      cases he
    · rename_i he
      cases he
    · exact absurd trivial hnot

variable [Fintype T]

theorem step_iff {e : Ev} {a : Option (Registry.Ev × Registry.Ans)} :
    step prefer caller s (t, e) = some (s', a) ↔ ¬ s.locking.Held prefer t ∧ Steps caller s t e a s' := by
  by_cases hheld : s.locking.Held prefer t
  · simp [step, hheld]
  · simp only [step, hheld, if_false, not_false_eq_true, true_and]
    constructor
    · intro h
      split at h
      · rename_i r ns hidle
        split at h
        · rename_i hnew
          cases h
          exact .enter _ _ (.read r ns hidle hnew.1 (Option.isNone_iff_eq_none.mp hnew.2))
        · cases h
      · rename_i w ns hidle
        split at h
        · rename_i hnew
          cases h
          exact .enter _ _ (.write w ns hidle hnew.1 (Option.isNone_iff_eq_none.mp hnew.2))
        · cases h
      · rename_i r hcall
        cases h
        exact .enter _ _ (.failRead r hcall)
      · rename_i w hcall
        cases h
        exact .enter _ _ (.failWrite w hcall)
      · split at h
        · rename_i hcaller
          split at h
          · rename_i th actors a' hafter hstep
            cases h
            exact .act _ th actors a' hcaller hafter hstep
          · cases h
        · cases h
      · cases h
    · intro h
      cases h with
      | enter _ call henters =>
        cases henters with
        | read r ns hidle hcaller hnew => simp [hidle, hcaller, hnew]
        | write w ns hidle hcaller hnew => simp [hidle, hcaller, hnew]
        | failRead r hcall => simp [hcall]
        | failWrite w hcall => simp [hcall]
      | act e th actors a hcaller hafter hstep => simp [hcaller, hafter, hstep]

theorem exclusive_step {e : T × Ev} {a : Option (Registry.Ev × Registry.Ans)}
    (h : step prefer caller s e = some (s', a)) (hex : s.locking.Exclusive) : s'.locking.Exclusive := by
  obtain ⟨t, e⟩ := e
  obtain ⟨hfree, hsteps⟩ := step_iff.mp h
  refine hex.step (Locking.not_blocked_of_not_held hfree) (fun x hx => steps_holds hsteps hx) fun t' hne => ?_
  simp only [St.locking, steps_others hsteps hne]

theorem ok_step {e : T × Ev} {a : Option (Registry.Ev × Registry.Ans)} (h : step prefer caller s e = some (s', a))
    (hok : ∀ t, (s.threads t).Ok) : ∀ t, (s'.threads t).Ok := by
  obtain ⟨t, e⟩ := e
  obtain ⟨hfree, hsteps⟩ := step_iff.mp h
  intro t'
  by_cases ht : t' = t
  · subst ht
    cases hsteps with
    | enter _ call henters =>
      simp only [St.enter, Function.update_self]
      intro _ p
      cases henters
      all_goals exact ⟨nofun, nofun, nofun⟩
    | act e th actors a hcaller hafter hstep =>
      simp only [Function.update_self]
      exact after_ok hafter (hok t') (not_self_of_free hfree)
  · rw [steps_others hsteps ht]
    exact hok t'

theorem deadlocks_iff {e : T × Ev} {a : Option (Registry.Ev × Registry.Ans)}
    (h : step prefer caller s e = some (s', a)) (hex : s.locking.Exclusive) (hok : ∀ t, (s.threads t).Ok)
    (hfree : ¬ s.Deadlocked prefer) : s'.Deadlocked prefer ↔ ¬ Orderly prefer s e := by
  rw [deadlocked_iff (ok_step h hok)]
  rw [deadlocked_iff hok] at hfree
  obtain ⟨t, e⟩ := e
  obtain ⟨hheld, hsteps⟩ := step_iff.mp h
  constructor
  · intro hdead
    rcases hdead with ⟨u, hself⟩ | ⟨rfl, hring⟩
    · by_cases hu : u = t
      · subst hu
        exact steps_self hsteps hself
      · rw [steps_others hsteps hu] at hself
        exact absurd (Or.inl ⟨u, hself⟩) hfree
    · exact steps_ring hsteps hex hheld (fun hno => hfree (Or.inr ⟨rfl, hno⟩)) hring
  · intro hnot
    rcases steps_not_orderly hsteps hnot with hself | hring
    · exact Or.inl ⟨t, hself⟩
    · exact Or.inr hring

end Steps

/-! ## Where the actors are -/

section Places

variable {T : Type} {caller : Nat → T} {a a' : Registry.St} {t : T} {th th' : Thread} {e : Registry.Ev}

/-- The actor of the call is where the call is. -/
def Call.At (caller : Nat → T) (t : T) (a : Registry.St) : Call → Prop
  | .idle => True
  | .create p => caller p = t ∧ ∃ ns names, a.prepares p = some ⟨ns, names, .called⟩
  | .creating p => caller p = t ∧ ∃ ns names rest, a.prepares p = some ⟨ns, names, .creating rest⟩
  | .register p => caller p = t ∧ ∃ ns names, a.prepares p = some ⟨ns, names, .committed⟩
  | .registering p => caller p = t ∧
      ∃ ns names, a.prepares p = some ⟨ns, names, .locked⟩ ∨ ∃ next, a.prepares p = some ⟨ns, names, .edited next⟩
  | .read r _ => caller r = t ∧ a.readers r = none
  | .beginRead r => caller r = t ∧ ∃ ns tables, a.readers r = some ⟨ns, tables, none⟩
  | .write w _ => caller w = t ∧ a.writers w = none
  | .beginWrite w => caller w = t ∧ ∃ ns tables, a.writers w = some ⟨ns, tables, .copied⟩

structure Thread.At (caller : Nat → T) (t : T) (a : Registry.St) (th : Thread) : Prop where
  handle : ∀ w, th.handle = some w → caller w = t ∧ ∃ ns tables, a.writers w = some ⟨ns, tables, .live⟩
  call : th.call.At caller t a

/-- A step of an actor leaves those of the other callers where they are. -/
theorem steps_frame (h : Registry.Steps a e a') (hne : caller (actor e) ≠ t) {i : Nat} (hi : caller i = t) :
    a'.prepares i = a.prepares i ∧ a'.readers i = a.readers i ∧ a'.writers i = a.writers i := by
  have hother : i ≠ actor e := by
    intro heq
    rw [heq] at hi
    exact hne hi
  cases h with
  | prepare p e sh c hstep => exact ⟨Function.update_of_ne hother _ _, rfl, rfl⟩
  | read r e c hstep => exact ⟨rfl, Function.update_of_ne hother _ _, rfl⟩
  | write w e sh c hstep => exact ⟨rfl, rfl, Function.update_of_ne hother _ _⟩

theorem Thread.At.others (h : th.At caller t a) (hsteps : Registry.Steps a e a') (hne : caller (actor e) ≠ t) :
    th.At caller t a' := by
  obtain ⟨hhandle, hcall⟩ := h
  have hframe := fun i => steps_frame (i := i) hsteps hne
  constructor
  · intro w hw
    obtain ⟨hcaller, hlive⟩ := hhandle w hw
    rw [(hframe w hcaller).2.2]
    exact ⟨hcaller, hlive⟩
  · unfold Call.At at hcall ⊢
    split
    all_goals grind

/-- A handle that is used stays where it is. -/
theorem at_of_use {w : Nat} {e : WriteEv} {ns : String} {tables : Redb.PreparedTables} {sh : Shared}
    (hcaller : caller w = t) (huse : e.isUse = true) (hafter : after th (.write w e) = some th') :
    th'.At caller t { a with shared := sh, writers := Function.update a.writers w (some ⟨ns, tables, .live⟩) } := by
  obtain rfl : th' = ⟨some w, .idle⟩ := by
    cases e with
    | openStore _ | set _ _ _ | remove _ _ =>
      simp only [after, Option.ite_none_right_eq_some, Option.some.injEq] at hafter
      rw [← hafter.2, hafter.1]
    | _ => cases huse
  refine ⟨fun w' hw' => ?_, trivial⟩
  cases hw'
  exact ⟨hcaller, ns, tables, Function.update_self _ _ _⟩

/-- The thread goes along with its actor. -/
theorem Thread.At.after (h : th.At caller t a) (hsteps : Registry.Steps a e a') (hcaller : caller (actor e) = t)
    (hafter : after th e = some th') : th'.At caller t a' := by
  obtain ⟨hhandle, hcall⟩ := h
  cases hsteps with
  | prepare p e sh c hstep =>
    generalize hwas : a.prepares p = was at hstep
    cases hstep
    all_goals
      simp only [RedbLocks.after] at hafter
      constructor
      all_goals grind [Call.At, actor]
  | read r e c hstep =>
    generalize hwas : a.readers r = was at hstep
    cases hstep
    all_goals
      simp only [RedbLocks.after] at hafter
      constructor
      all_goals grind [Call.At, actor]
  | write w e sh c hstep =>
    generalize hwas : a.writers w = was at hstep
    cases hstep with
    | beginWrite ns tables hfree =>
      simp only [RedbLocks.after, Option.ite_none_right_eq_some, Option.some.injEq] at hafter
      obtain ⟨-, rfl⟩ := hafter
      refine ⟨fun w' hw' => ?_, trivial⟩
      cases hw'
      exact ⟨hcaller, ns, tables, Function.update_self _ _ _⟩
    | use ns tables e write write' huse htxn => exact at_of_use hcaller huse hafter
    | panics ns tables e huse => exact at_of_use hcaller huse hafter
    | _ =>
      simp only [RedbLocks.after] at hafter
      constructor
      all_goals grind [Call.At, actor]

end Places

/-! ## Who has what is locked -/

section Owned

variable {T : Type} {caller : Nat → T} {s s' : St T} {t : T} {prefer : Bool}

/-- The thread that has called the owner of a transaction holds it. -/
def Owns (caller : Nat → T) (threads : T → Thread) : Owner → Prop
  | .prepare p => (threads (caller p)).call = .creating p
  | .write w => (threads (caller w)).handle = some w

structure Owned (caller : Nat → T) (s : St T) : Prop where
  txn : ∀ o write, s.actors.shared.txn = some (o, write) → Owns caller s.threads o
  lock : ∀ p, s.actors.shared.lock = some p → (s.threads (caller p)).call = .registering p

theorem owns_holds {o : Owner} (h : Owns caller s.threads o) :
    ∃ t', (Lock.txn, Mode.exclusive) ∈ (s.threads t').holds := by
  cases o with
  | prepare p =>
    refine ⟨caller p, mem_holds.mpr (Or.inr ?_)⟩
    rw [show (s.threads (caller p)).call = .creating p from h]
    exact List.mem_cons_self
  | write w =>
    refine ⟨caller w, mem_holds.mpr (Or.inl ⟨?_, rfl⟩)⟩
    rw [show (s.threads (caller w)).handle = some w from h]
    nofun

theorem Owned.txn_free (h : Owned caller s) (hfree : ¬ s.locking.Held prefer t)
    (hwant : (s.threads t).call.wants = some (.txn, .exclusive)) : s.actors.shared.txn = none := by
  cases htxn : s.actors.shared.txn with
  | none => rfl
  | some owned =>
    obtain ⟨t', hheld⟩ := owns_holds (h.txn owned.1 owned.2 htxn)
    exact absurd ⟨t', Locking.held_of_holder hwant hheld rfl⟩ hfree

theorem Owned.lock_free (h : Owned caller s) (hfree : ¬ s.locking.Held prefer t) {m : Mode}
    (hwant : (s.threads t).call.wants = some (.registry, m)) : s.actors.shared.lock = none := by
  cases hlock : s.actors.shared.lock with
  | none => rfl
  | some p =>
    have hheld : (Lock.registry, Mode.exclusive) ∈ (s.threads (caller p)).holds := by
      refine mem_holds.mpr (Or.inr ?_)
      rw [h.lock p hlock]
      exact List.mem_cons_self
    refine absurd ⟨caller p, Locking.held_of_holder hwant hheld ?_⟩ hfree
    cases m <;> rfl

/-! How a thread comes to have what it locks, and how it stops. -/

section After

variable {th th' : Thread} {e : Registry.Ev}

theorem after_creating {p : Nat} (h : after th e = some th') (hcall : th.call = .creating p) :
    th'.call = .creating p ∨ e = .prepare p .commit ∨ e = .prepare p .fail := by
  unfold after at h
  split at h
  all_goals grind

theorem after_registering {p : Nat} (h : after th e = some th') (hcall : th.call = .registering p) :
    th'.call = .registering p ∨ e = .prepare p .publish := by
  unfold after at h
  split at h
  all_goals grind

theorem after_handle {w : Nat} (h : after th e = some th') (hhandle : th.handle = some w) :
    th'.handle = some w ∨ e = .write w .commit ∨ e = .write w .drop ∨ ∃ w', e = .write w' .beginWrite := by
  unfold after at h
  split at h
  all_goals grind

end After

/-- Whose the transaction is after a step: as before, or the actor's that began it. -/
theorem steps_txn {a a' : Registry.St} {e : Registry.Ev} {o : Owner} {write : Stores} (h : Registry.Steps a e a')
    (htxn : a'.shared.txn = some (o, write)) :
    ((∃ write0, a.shared.txn = some (o, write0)) ∧ (∀ p, e ≠ .prepare p .commit) ∧ (∀ w, e ≠ .write w .commit) ∧
      (∀ w, e ≠ .write w .drop) ∧ (∀ w, e ≠ .write w .beginWrite) ∧
      ∀ p, e = .prepare p .fail → ∃ ns names, a.prepares p = some ⟨ns, names, .called⟩) ∨
    (∃ p, o = .prepare p ∧ e = .prepare p .beginWrite) ∨ ∃ w, o = .write w ∧ e = .write w .beginWrite := by
  cases h with
  | prepare p e sh c hstep =>
    generalize hwas : a.prepares p = was at hstep
    cases hstep
    all_goals grind
  | read r e c hstep =>
    grind
  | write w e sh c hstep =>
    generalize hwas : a.writers w = was at hstep
    cases hstep
    all_goals grind [Registry.WriteEv.isUse]

theorem steps_lock {a a' : Registry.St} {e : Registry.Ev} {p : Nat} (h : Registry.Steps a e a')
    (hlock : a'.shared.lock = some p) :
    (a.shared.lock = some p ∧ ∀ p', e ≠ .prepare p' .publish) ∨ e = .prepare p .lock := by
  cases h with
  | prepare p e sh c hstep =>
    generalize hwas : a.prepares p = was at hstep
    cases hstep
    all_goals grind
  | read r e c hstep =>
    grind
  | write w e sh c hstep =>
    generalize hwas : a.writers w = was at hstep
    cases hstep
    all_goals grind

theorem enters_keeps {e : Ev} {call : Call} (h : Enters caller s t e call) :
    (∀ p, (s.threads t).call ≠ .creating p) ∧ ∀ p, (s.threads t).call ≠ .registering p := by
  cases h
  all_goals grind

section Step

variable [DecidableEq T] {e : Ev} {a : Option (Registry.Ev × Registry.Ans)}

theorem at_step (h : Steps caller s t e a s') (hat : ∀ u, (s.threads u).At caller u s.actors) :
    ∀ u, (s'.threads u).At caller u s'.actors := by
  intro u
  by_cases hu : u = t
  · subst hu
    cases h with
    | enter _ call henters =>
      simp only [St.enter, Function.update_self]
      refine ⟨(hat u).handle, ?_⟩
      cases henters with
      | read r ns _ hcaller hnew => exact ⟨hcaller, hnew⟩
      | write w ns _ hcaller hnew => exact ⟨hcaller, hnew⟩
      | failRead r _ => exact trivial
      | failWrite w _ => exact trivial
    | act e th actors a hcaller hafter hstep =>
      simp only [Function.update_self]
      exact (hat u).after (Registry.step_steps hstep) hcaller hafter
  · rw [steps_others h hu]
    cases h with
    | enter _ call henters => exact hat u
    | act e th actors a hcaller hafter hstep =>
      exact (hat u).others (Registry.step_steps hstep) fun hcaller' => hu (hcaller'.symm.trans hcaller)

theorem owned_step (h : Steps caller s t e a s') (hat : ∀ u, (s.threads u).At caller u s.actors)
    (ho : Owned caller s) : Owned caller s' := by
  cases h with
  | enter _ call henters =>
    obtain ⟨hcreating, hregistering⟩ := enters_keeps henters
    constructor
    · intro o write htxn
      have howns := ho.txn o write htxn
      cases o with
      | prepare p =>
        have hne : caller p ≠ t := fun heq => hcreating p (heq ▸ howns)
        simp only [Owns, St.enter, Function.update_of_ne hne]
        exact howns
      | write w =>
        simp only [Owns, St.enter]
        by_cases hw : caller w = t
        · rw [hw, Function.update_self]
          exact hw ▸ howns
        · rw [Function.update_of_ne hw]
          exact howns
    · intro p hlock
      have hcall := ho.lock p hlock
      have hne : caller p ≠ t := fun heq => hregistering p (heq ▸ hcall)
      simp only [St.enter, Function.update_of_ne hne]
      exact hcall
  | act e th actors a hcaller hafter hstep =>
    have hsteps := Registry.step_steps hstep
    constructor
    · intro o write htxn
      rcases steps_txn hsteps htxn with
        ⟨⟨write0, hbefore⟩, hcommit, hend, hdrop, hbegin, hfail⟩ | ⟨p, rfl, rfl⟩ | ⟨w, rfl, rfl⟩
      · have howns := ho.txn o write0 hbefore
        cases o with
        | prepare p =>
          by_cases hp : caller p = t
          · have hcall : (s.threads t).call = .creating p := hp ▸ howns
            simp only [Owns, hp, Function.update_self]
            rcases after_creating hafter hcall with hsame | heq | heq
            · exact hsame
            · exact absurd heq (hcommit p)
            · obtain ⟨ns, names, hcalled⟩ := hfail p heq
              have hat' := (hat t).call
              rw [hcall] at hat'
              obtain ⟨-, ns', names', rest, hcreating⟩ := hat'
              rw [hcreating] at hcalled
              cases hcalled
          · simp only [Owns, Function.update_of_ne hp]
            exact howns
        | write w =>
          by_cases hw : caller w = t
          · have hhandle : (s.threads t).handle = some w := hw ▸ howns
            simp only [Owns, hw, Function.update_self]
            rcases after_handle hafter hhandle with hsame | heq | heq | ⟨w', heq⟩
            · exact hsame
            · exact absurd heq (hend w)
            · exact absurd heq (hdrop w)
            · exact absurd heq (hbegin w')
          · simp only [Owns, Function.update_of_ne hw]
            exact howns
      · have hp : caller p = t := hcaller
        simp only [after, Option.ite_none_right_eq_some, Option.some.injEq] at hafter
        simp only [Owns, hp, Function.update_self, ← hafter.2]
      · have hw : caller w = t := hcaller
        simp only [after, Option.ite_none_right_eq_some, Option.some.injEq] at hafter
        simp only [Owns, hw, Function.update_self, ← hafter.2]
    · intro p hlock
      rcases steps_lock hsteps hlock with ⟨hbefore, hpublish⟩ | rfl
      · have hcall := ho.lock p hbefore
        by_cases hp : caller p = t
        · rw [hp] at hcall
          simp only [hp, Function.update_self]
          rcases after_registering hafter hcall with hsame | heq
          · exact hsame
          · exact absurd heq (hpublish p)
        · simp only [Function.update_of_ne hp]
          exact hcall
      · have hp : caller p = t := hcaller
        simp only [after, Option.ite_none_right_eq_some, Option.some.injEq] at hafter
        simp only [hp, Function.update_self, ← hafter.2]

end Step

end Owned

/-! ## Runs -/

section Runs

variable {T : Type} [DecidableEq T] [Fintype T] {s s' : St T} {t : T} {prefer : Bool} {caller : Nat → T} {db : Stores}
  {tr : Trace (T × Ev) (Option (Registry.Ev × Registry.Ans))}

/-- What the threads do to the data is a run of the backend's calls. -/
theorem refines (h : Run (step prefer caller) (start db) tr s) :
    Run Registry.step (Registry.fromDatabase db) (tr.filterMap Prod.snd) s.actors := by
  induction h with
  | nil => exact Run.nil
  | @step tr s s' e a _ hs ih =>
    obtain ⟨t, e⟩ := e
    obtain ⟨-, hsteps⟩ := step_iff.mp hs
    cases hsteps with
    | enter _ call henters => exact ih
    | act e th actors a hcaller hafter hstep => exact Run.step ih hstep

structure Inv (caller : Nat → T) (s : St T) : Prop where
  exclusive : s.locking.Exclusive
  ok : ∀ t, (s.threads t).Ok
  placed : ∀ t, (s.threads t).At caller t s.actors
  owned : Owned caller s

theorem inv_of_run (h : Run (step prefer caller) (start db) tr s) : Inv caller s := by
  refine h.keeps (K := Inv caller) (fun s e s' a hs hi => ?_) ⟨?_, ?_, ?_, ?_⟩
  · obtain ⟨hfree, hsteps⟩ := step_iff.mp hs
    exact ⟨exclusive_step hs hi.exclusive, ok_step hs hi.ok, at_step hsteps hi.placed,
      owned_step hsteps hi.placed hi.owned⟩
  · intro t t' _ x hx
    cases hx
  · exact fun _ hhandle => absurd rfl hhandle
  · exact fun t => ⟨nofun, trivial⟩
  · exact ⟨nofun, nofun⟩

/-- A call returns an error. -/
def Ev.fails : Ev → Bool
  | .fail => true
  | .act (.prepare _ .fail) => true
  | _ => false

/-- If some thread is held up, one in a call or with a handle has a step that is not to fail. -/
def Progress (prefer : Bool) (caller : Nat → T) (s : St T) : Prop :=
  (∃ t, s.locking.Held prefer t) →
    ∃ t, ((s.threads t).call ≠ .idle ∨ (s.threads t).handle ≠ none) ∧
      ∃ e s' a, e.fails = false ∧ step prefer caller s (t, e) = some (s', a)

theorem step_acts (e : Registry.Ev) (hfree : ¬ s.locking.Held prefer t) (hcaller : caller (actor e) = t)
    (hfails : (Ev.act e).fails = false) (hafter : (after (s.threads t) e).isSome = true)
    (hstep : ∃ actors a, Registry.step s.actors e = some (actors, a)) :
    ∃ e s' a, e.fails = false ∧ step prefer caller s (t, e) = some (s', a) := by
  obtain ⟨th, hafter⟩ := Option.isSome_iff_exists.mp hafter
  obtain ⟨actors, a, hstep⟩ := hstep
  exact ⟨.act e, _, _, hfails, step_iff.mpr ⟨hfree, .act e th actors a hcaller hafter hstep⟩⟩

/-- A thread that is not held up, in a call or with a handle, goes on. -/
theorem goes_on (hi : Inv caller s) (hr : Registry.Inv s.actors) (hfree : ¬ s.locking.Held prefer t)
    (hbusy : (s.threads t).call ≠ .idle ∨ (s.threads t).handle ≠ none) :
    ∃ e s' a, e.fails = false ∧ step prefer caller s (t, e) = some (s', a) := by
  have hplaced := (hi.placed t).call
  cases hcall : (s.threads t).call with
  | idle =>
    obtain ⟨w, hw⟩ := Option.ne_none_iff_exists'.mp (hbusy.resolve_left fun hne => hne hcall)
    obtain ⟨hcaller, ns, tables, hlive⟩ := (hi.placed t).handle w hw
    obtain ⟨write, htxn, -⟩ := hr.writers w _ hlive
    have hth : s.threads t = ⟨some w, .idle⟩ := by
      rw [← hw, ← hcall]
    exact step_acts (.write w .commit) hfree hcaller rfl (by simp [after, hth]) (Registry.step_commits hlive htxn)
  | create p =>
    rw [hcall] at hplaced
    obtain ⟨hcaller, ns, names, hp⟩ := hplaced
    have htxn := hi.owned.txn_free hfree (by rw [hcall]; rfl)
    have hstep := Registry.step_prepares hp (.beginWrite ns names htxn)
    exact step_acts (.prepare p .beginWrite) hfree hcaller rfl (by simp [after, hcall]) hstep
  | creating p =>
    rw [hcall] at hplaced
    obtain ⟨hcaller, ns, names, rest, hp⟩ := hplaced
    obtain ⟨write, htxn, -⟩ := hr.prepares p _ hp
    cases rest with
    | nil =>
      have hstep := Registry.step_prepares hp (.commit ns names write htxn)
      exact step_acts (.prepare p .commit) hfree hcaller rfl (by simp [after, hcall]) hstep
    | cons name rest =>
      have hstep := Registry.step_prepares hp (.openTable ns names name rest write htxn)
      exact step_acts (.prepare p .openTable) hfree hcaller rfl (by simp [after, hcall]) hstep
  | register p =>
    rw [hcall] at hplaced
    obtain ⟨hcaller, ns, names, hp⟩ := hplaced
    have hlock := hi.owned.lock_free hfree (m := .exclusive) (by rw [hcall]; rfl)
    have hstep := Registry.step_prepares hp (.lock ns names hlock)
    exact step_acts (.prepare p .lock) hfree hcaller rfl (by simp [after, hcall]) hstep
  | registering p =>
    rw [hcall] at hplaced
    obtain ⟨hcaller, ns, names, hp | ⟨next, hp⟩⟩ := hplaced
    · have hstep := Registry.step_prepares hp (.edit ns names)
      exact step_acts (.prepare p .edit) hfree hcaller rfl (by simp [after, hcall]) hstep
    · have hstep := Registry.step_prepares hp (.publish ns names next)
      exact step_acts (.prepare p .publish) hfree hcaller rfl (by simp [after, hcall]) hstep
  | read r ns =>
    rw [hcall] at hplaced
    obtain ⟨hcaller, hnew⟩ := hplaced
    have hlock := hi.owned.lock_free hfree (m := .shared) (by rw [hcall]; rfl)
    exact step_acts (.read r (.call ns)) hfree hcaller rfl (by simp [after, hcall]) (Registry.step_reads ns hnew hlock)
  | beginRead r =>
    rw [hcall] at hplaced
    obtain ⟨hcaller, ns, tables, hr⟩ := hplaced
    exact step_acts (.read r .beginRead) hfree hcaller rfl (by simp [after, hcall]) (Registry.step_beginsRead hr)
  | write w ns =>
    rw [hcall] at hplaced
    obtain ⟨hcaller, hnew⟩ := hplaced
    have hlock := hi.owned.lock_free hfree (m := .shared) (by rw [hcall]; rfl)
    have hstep := Registry.step_writes ns hnew hlock
    exact step_acts (.write w (.call ns)) hfree hcaller rfl (by simp [after, hcall]) hstep
  | beginWrite w =>
    rw [hcall] at hplaced
    obtain ⟨hcaller, ns, tables, hw⟩ := hplaced
    have htxn := hi.owned.txn_free hfree (by rw [hcall]; rfl)
    have hstep := Registry.step_beginsWrite hw htxn
    exact step_acts (.write w .beginWrite) hfree hcaller rfl (by simp [after, hcall]) hstep

theorem progress_of_free (hi : Inv caller s) (hr : Registry.Inv s.actors) (h : ¬ s.Deadlocked prefer) :
    Progress prefer caller s := by
  intro ⟨t, t', hwaits⟩
  obtain ⟨u, u', hu, hfree⟩ := Locking.exists_free_by h hwaits
  have hbusy : (s.threads u').call ≠ .idle ∨ (s.threads u').handle ≠ none := by
    by_contra hidle
    simp only [not_or, not_not] at hidle
    obtain ⟨⟨lock, m⟩, hwant⟩ := Option.ne_none_iff_exists'.mp hu.wants
    rcases hu.of_wants hwant with ⟨m', hheld, -⟩ | ⟨-, -, hbehind⟩
    · have hnone : (s.threads u').holds = [] := by
        simp [Thread.holds, hidle.1, hidle.2, Call.holds]
      have hmem : (lock, m') ∈ (s.threads u').holds := hheld
      rw [hnone] at hmem
      cases hmem
    · have hwants : (s.threads u').call.wants = some (lock, .exclusive) := hbehind
      rw [hidle.1] at hwants
      cases hwants
  obtain ⟨e, s', a, hfails, hs⟩ := goes_on hi hr (fun ⟨u'', hheld⟩ => hfree u'' hheld) hbusy
  exact ⟨u', hbusy, e, s', a, hfails, hs⟩

/-- Where each waits for another and nobody for itself, in every state of a run: exactly
    when the run's steps are orderly. A step is then left wherever a thread is held up. -/
theorem deadlock_free_iff_orderly (h : Run (step prefer caller) (start db) tr s) :
    (∀ later earlier s1, tr = later ++ earlier → Run (step prefer caller) (start db) earlier s1 →
        Progress prefer caller s1 ∧ ¬ s1.Deadlocked prefer) ↔
      Run.Meets (step prefer caller) (start db) (Orderly prefer) tr := by
  have hnever := Run.never_iff (B := fun s => s.Deadlocked prefer) (C := Orderly prefer) h ?_ ?_
  · rw [← hnever]
    constructor
    · intro hfree later earlier s1 htr h1
      exact (hfree later earlier s1 htr h1).2
    · intro hfree later earlier s1 htr h1
      have hdead := hfree later earlier s1 htr h1
      exact ⟨progress_of_free (inv_of_run h1) (Registry.inv_of_run (refines h1)).1 hdead, hdead⟩
  · rw [deadlocked_iff (fun _ hhandle => absurd rfl hhandle)]
    intro hdead
    rcases hdead with ⟨t, hhandle, -⟩ | ⟨-, t, p, b, ⟨hhandle, -⟩, -⟩
    · exact hhandle rfl
    · exact hhandle rfl
  · intro tr s e s' a hrun hs hfree
    have hi := inv_of_run hrun
    exact deadlocks_iff hs hi.exclusive hi.ok hfree

end Runs

inductive Trio where
  | reader
  | preparer
  | writer
  deriving DecidableEq

instance : Fintype Trio := ⟨{.reader, .preparer, .writer}, fun t => by cases t <;> decide⟩

def Trio.caller : Nat → Trio
  | 1 => .preparer
  | 2 => .writer
  | _ => .reader

/-- The reader and the writer are in `write` while the preparer creates tables; that
    commits, the reader is given the transaction, and calls `read`. -/
def readUnderWrite : List (Trio × Ev) :=
  [(.reader, .read 3 "users"), (.reader, .act (.write 0 .beginWrite)), (.preparer, .act (.prepare 1 .commit)),
    (.preparer, .act (.prepare 1 .openTable)), (.writer, .act (.write 2 (.call "users"))), (.writer, .write 2 "users"),
    (.reader, .act (.write 0 (.call "users"))), (.reader, .write 0 "users"), (.preparer, .act (.prepare 1 .beginWrite)),
    (.preparer, .act (.prepare 1 (.call "orders" ["__main"])))]

theorem run_readUnderWrite : ∃ tr s, Run (step true Trio.caller) (start fun _ => none) tr s ∧
    s.threads .reader = ⟨some 0, .read 3 "users"⟩ ∧ s.threads .preparer = ⟨none, .register 1⟩ ∧
    s.threads .writer = ⟨none, .beginWrite 2⟩ := by
  have hplay : (Machine.play (step true Trio.caller) (start fun _ => none) readUnderWrite).any (fun x =>
      x.2.threads .reader = ⟨some 0, .read 3 "users"⟩ ∧ x.2.threads .preparer = ⟨none, .register 1⟩ ∧
        x.2.threads .writer = ⟨none, .beginWrite 2⟩) = true := by
    decide +kernel
  obtain ⟨x, hx, hends⟩ := (Option.any_eq_true _ _).mp hplay
  exact ⟨x.1, x.2, run_of_play hx, of_decide_eq_true hends⟩

theorem deadlock_free_iff_orderly_read : ∃ tr s, Run (step true Trio.caller) (start fun _ => none) tr s ∧
    ((∀ later earlier s1, tr = later ++ earlier → Run (step true Trio.caller) (start fun _ => none) earlier s1 →
        Progress true Trio.caller s1 ∧ ¬ s1.Deadlocked true) ↔
      Run.Meets (step true Trio.caller) (start fun _ => none) (Orderly true) tr) := by
  obtain ⟨tr, s, hrun, -⟩ := run_readUnderWrite
  exact ⟨tr, s, hrun, deadlock_free_iff_orderly hrun⟩

/-- Where sharers queue, none of the three has a step left. -/
theorem read_under_write_deadlocks : ∃ tr s, Run (step true Trio.caller) (start fun _ => none) tr s ∧
    s.Deadlocked true ∧ ¬ Progress true Trio.caller s := by
  obtain ⟨tr, s, hrun, h0, h1, h2⟩ := run_readUnderWrite
  have hqueues : (s.threads .reader).Queues := by
    rw [h0]
    exact ⟨nofun, rfl⟩
  have hregisters : (s.threads .preparer).Registers := by
    rw [h1]
    rfl
  have hbegins : (s.threads .writer).Begins := by
    rw [h2]
    exact ⟨2, rfl⟩
  have hring : Ring s := ⟨.reader, .preparer, .writer, hqueues, hregisters, hbegins⟩
  refine ⟨tr, s, hrun, deadlocked_of_ring hring, fun hprogress => ?_⟩
  have hheld : ∀ t : Trio, s.locking.Held true t := by
    intro t
    cases t with
    | reader => exact ⟨.preparer, Or.inr ⟨rfl, .registry, hqueues.2, hregisters⟩⟩
    | preparer => exact ⟨.writer, Locking.held_of_holder hregisters hbegins.holds rfl⟩
    | writer => exact ⟨.reader, Locking.held_of_holder hbegins.wants (mem_holds.mpr (Or.inl ⟨hqueues.1, rfl⟩)) rfl⟩
  obtain ⟨t, -, e, s', a, -, hs⟩ := hprogress ⟨.reader, hheld .reader⟩
  exact (step_iff.mp hs).1 (hheld t)

end Collette.RedbLocks
