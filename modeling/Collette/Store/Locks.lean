/-
  Collette.Store.Locks — the locks of the in-memory backend, taken by any number of
  threads (`backend/memory.rs`).

  There is a lock on the map of namespaces, one on the published stores of each namespace,
  and each namespace's writer gate, whose permit a write handle keeps until it is dropped.
  A thread is in at most one call of `prepare`, `read`, `write`, `commit` or `drop`, and
  holds at most one write handle; it does not call `write` while it holds one. A call is
  the points between which it takes or gives up a lock; what it does with the data is left
  out. A thread that wants a lock waits while it is held in a conflicting mode, and no
  longer: one that would share a lock overtakes those that wait to have it to themselves.
  The standard library leaves that open, and where its `RwLock` lets nobody overtake a
  waiting writer there is one deadlock more (`Collette.Store.LocksQueued`).

  Who waits for whom. The holders of a stores lock never wait, and whoever has the map to
  itself waits for stores locks only. But `write` shares the map while it waits for the
  gate, and `prepare` waits to have the map to itself, also when the caller has the
  permit of a gate.

  - `exclusive_of_run`: locks are held as they should be.
  - `deadlocked_iff`: a deadlock is a thread with a write handle that waits in `prepare`
    for the map, and another that waits in `write` for that handle's gate (`Crossed`);
    neither ever moves again (`crossed_keeps`).
  - `crossed_iff`: exactly two kinds of step bring this about (those not `Orderly`).
  - `deadlock_free_iff`: a run is free of deadlocks, with a step left wherever a thread is
    blocked, exactly when none of its steps is of these kinds.
  - `prepare_under_write_deadlocks`: two threads that deadlock.
-/

import Collette.Prog.Locking
import Collette.Prog.Machine

namespace Collette.Locks

/-! ## Calls -/

inductive Lock where
  /-- `InMemoryMultiStore::stores`. -/
  | map
  /-- `NamespacedState::stores`. -/
  | stores (ns : String)
  /-- `NamespacedState::writer`. -/
  | gate (ns : String)
  deriving DecidableEq, Repr

inductive PreparePhase where
  | lockMap
  /-- The namespace is there: about to copy its stores. -/
  | lockRead
  | reading
  | lockWrite
  | writing
  | leaving
  deriving DecidableEq, Repr

inductive ReadPhase where
  | lockMap
  | lockStores
  | reading
  | leaving
  deriving DecidableEq, Repr

inductive WritePhase where
  | lockMap
  | acquire
  | lockStores
  | reading
  | leaving
  deriving DecidableEq, Repr

inductive CommitPhase where
  | lockStores
  | writing
  /-- The handle's permit is dropped next, which is all that `drop` does. -/
  | releasing
  deriving DecidableEq, Repr

inductive Call where
  | idle
  | prepare (ns : String) (phase : PreparePhase)
  | read (ns : String) (phase : ReadPhase)
  | write (ns : String) (phase : WritePhase)
  | commit (ns : String) (phase : CommitPhase)
  deriving DecidableEq, Repr

structure Thread where
  /-- The namespace whose permit it has. -/
  permit : Option String
  call : Call
  deriving DecidableEq, Repr

/-- The guards alive at this point of the call. -/
def Call.holds : Call → List (Lock × Mode)
  | .idle => []
  | .prepare _ .lockMap => []
  | .prepare ns .reading => [(.map, .exclusive), (.stores ns, .shared)]
  | .prepare ns .writing => [(.map, .exclusive), (.stores ns, .exclusive)]
  | .prepare _ _ => [(.map, .exclusive)]
  | .read _ .lockMap => []
  | .read ns .reading => [(.map, .shared), (.stores ns, .shared)]
  | .read _ _ => [(.map, .shared)]
  | .write _ .lockMap => []
  | .write ns .reading => [(.map, .shared), (.stores ns, .shared)]
  | .write _ _ => [(.map, .shared)]
  | .commit ns .writing => [(.stores ns, .exclusive)]
  | .commit _ _ => []

/-- The lock the call takes next. -/
def Call.wants : Call → Option (Lock × Mode)
  | .prepare _ .lockMap => some (.map, .exclusive)
  | .prepare ns .lockRead => some (.stores ns, .shared)
  | .prepare ns .lockWrite => some (.stores ns, .exclusive)
  | .read _ .lockMap => some (.map, .shared)
  | .read ns .lockStores => some (.stores ns, .shared)
  | .write _ .lockMap => some (.map, .shared)
  | .write ns .acquire => some (.gate ns, .exclusive)
  | .write ns .lockStores => some (.stores ns, .shared)
  | .commit ns .lockStores => some (.stores ns, .exclusive)
  | _ => none

def Thread.holds (th : Thread) : List (Lock × Mode) :=
  match th.permit with
  | some ns => (.gate ns, .exclusive) :: th.call.holds
  | none => th.call.holds

/-- Go on to the next lock taken or given up, having been given the lock wanted: the
    namespaces there are then, and the thread. Looking up a namespace that there is not
    makes `read` and `write` panic, and `prepare` insert it. -/
def advance (spaces : List String) (th : Thread) : Option (List String × Thread) :=
  match th.call with
  | .idle => none
  | .prepare ns .lockMap =>
    if ns ∈ spaces then some (spaces, { th with call := .prepare ns .lockRead })
    else some (ns :: spaces, { th with call := .prepare ns .leaving })
  | .prepare ns .lockRead => some (spaces, { th with call := .prepare ns .reading })
  | .prepare ns .reading => some (spaces, { th with call := .prepare ns .lockWrite })
  | .prepare ns .lockWrite => some (spaces, { th with call := .prepare ns .writing })
  | .prepare ns .writing => some (spaces, { th with call := .prepare ns .leaving })
  | .prepare _ .leaving => some (spaces, { th with call := .idle })
  | .read ns .lockMap =>
    if ns ∈ spaces then some (spaces, { th with call := .read ns .lockStores })
    else some (spaces, { th with call := .read ns .leaving })
  | .read ns .lockStores => some (spaces, { th with call := .read ns .reading })
  | .read ns .reading => some (spaces, { th with call := .read ns .leaving })
  | .read _ .leaving => some (spaces, { th with call := .idle })
  | .write ns .lockMap =>
    if ns ∈ spaces then some (spaces, { th with call := .write ns .acquire })
    else some (spaces, { th with call := .write ns .leaving })
  | .write ns .acquire => some (spaces, { permit := some ns, call := .write ns .lockStores })
  | .write ns .lockStores => some (spaces, { th with call := .write ns .reading })
  | .write ns .reading => some (spaces, { th with call := .write ns .leaving })
  | .write _ .leaving => some (spaces, { th with call := .idle })
  | .commit ns .lockStores => some (spaces, { th with call := .commit ns .writing })
  | .commit ns .writing => some (spaces, { th with call := .commit ns .releasing })
  | .commit _ .releasing => some (spaces, { permit := none, call := .idle })

/-! ## Threads -/

structure St (T : Type) where
  spaces : List String
  threads : T → Thread

inductive Ev where
  | prepare (ns : String)
  | read (ns : String)
  | write (ns : String)
  | commit
  | drop
  | go
  deriving DecidableEq, Repr

/-- The first step of a call, of a thread between calls. -/
def enter (th : Thread) : Ev → Option Call
  | .prepare ns => some (.prepare ns .lockMap)
  | .read ns => some (.read ns .lockMap)
  | .write ns => if th.permit = none then some (.write ns .lockMap) else none
  | .commit => th.permit.map fun ns => .commit ns .lockStores
  | .drop => th.permit.map fun ns => .commit ns .releasing
  | .go => none

/-- A thread's own step, if it is not blocked. -/
def act (spaces : List String) (th : Thread) : Ev → Option (List String × Thread)
  | .go => advance spaces th
  | e => if th.call = .idle then (enter th e).map fun call => (spaces, { th with call := call }) else none

section Machine

variable {T : Type} [DecidableEq T] [Fintype T]

def St.locking (s : St T) : Locking T Lock := ⟨fun t => (s.threads t).holds, fun t => (s.threads t).call.wants⟩

def step : Machine (St T) (T × Ev) Unit := fun s (t, e) =>
  if s.locking.Blocked t then none
  else (act s.spaces (s.threads t) e).map fun (spaces, th) => (⟨spaces, Function.update s.threads t th⟩, ())

/-- `InMemoryMultiStore::new`, no thread in a call. -/
def start : St T := ⟨[], fun _ => ⟨none, .idle⟩⟩

end Machine

/-! ## What a thread holds and wants -/

section Thread

variable {th th' : Thread} {spaces spaces' : List String} {e : Ev} {ns : String}

theorem mem_holds {x : Lock × Mode} :
    x ∈ th.holds ↔ (∃ ns, th.permit = some ns ∧ x = (.gate ns, .exclusive)) ∨ x ∈ th.call.holds := by
  unfold Thread.holds
  cases th.permit with
  | none => simp
  | some ns => simp

theorem gate_mem_holds {m : Mode} : (Lock.gate ns, m) ∈ th.holds ↔ th.permit = some ns ∧ m = .exclusive := by
  have hcall : (Lock.gate ns, m) ∉ th.call.holds := by
    unfold Call.holds
    split <;> simp
  rw [mem_holds]
  constructor
  · intro h
    rcases h with ⟨ns', hp, hx⟩ | h
    · cases hx
      exact ⟨hp, rfl⟩
    · exact absurd h hcall
  · intro ⟨hp, hm⟩
    subst hm
    exact Or.inl ⟨ns, hp, rfl⟩

/-- A permit is had from the gate on, to the end of the handle. -/
structure Thread.Ok (th : Thread) : Prop where
  waits : ∀ ns, th.call = .write ns .lockMap ∨ th.call = .write ns .acquire → th.permit = none
  owns : ∀ ns, th.call = .write ns .lockStores ∨ (∃ phase, th.call = .commit ns phase) → th.permit = some ns

/-- In `prepare`, waiting to have the map to itself. -/
def Thread.AtMap (th : Thread) : Prop := ∃ ns, th.call = .prepare ns .lockMap

/-- In `write`, waiting for the gate of the namespace, with the map shared. -/
def Thread.AtGate (th : Thread) (ns : String) : Prop := th.call = .write ns .acquire

theorem act_of_ne_go (he : e ≠ .go) (h : act spaces th e = some (spaces', th')) :
    th.call = .idle ∧ spaces' = spaces ∧ ∃ call, enter th e = some call ∧ th' = { th with call := call } := by
  have hact : act spaces th e =
      if th.call = .idle then (enter th e).map fun call => (spaces, { th with call := call }) else none := by
    cases e with
    | go => exact absurd rfl he
    | _ => rfl
  rw [hact] at h
  split at h
  · rename_i hidle
    obtain ⟨call, hcall, hth⟩ := Option.map_eq_some_iff.mp h
    cases hth
    exact ⟨hidle, rfl, call, hcall, rfl⟩
  · cases h

/-- A call begins at its first lock. -/
inductive Enters (th : Thread) : Ev → Call → Prop
  | prepare (ns : String) : Enters th (.prepare ns) (.prepare ns .lockMap)
  | read (ns : String) : Enters th (.read ns) (.read ns .lockMap)
  | write (ns : String) : th.permit = none → Enters th (.write ns) (.write ns .lockMap)
  | commit (ns : String) : th.permit = some ns → Enters th .commit (.commit ns .lockStores)
  | drop (ns : String) : th.permit = some ns → Enters th .drop (.commit ns .releasing)

theorem enter_cases {call : Call} (h : enter th e = some call) : Enters th e call := by
  cases e with
  | prepare ns =>
    cases h
    exact Enters.prepare ns
  | read ns =>
    cases h
    exact Enters.read ns
  | write ns =>
    simp only [enter] at h
    split at h
    · rename_i hpermit
      cases h
      exact Enters.write ns hpermit
    · cases h
  | commit =>
    obtain ⟨ns, hpermit, rfl⟩ := Option.map_eq_some_iff.mp h
    exact Enters.commit ns hpermit
  | drop =>
    obtain ⟨ns, hpermit, rfl⟩ := Option.map_eq_some_iff.mp h
    exact Enters.drop ns hpermit
  | go => cases h

theorem enters_holds {call : Call} (h : Enters th e call) : call.holds = [] := by
  cases h <;> rfl

/-- In a call, a thread that is not blocked goes on. -/
theorem advance_ne_none (h : th.call ≠ .idle) : advance spaces th ≠ none := by
  unfold advance
  split
  all_goals grind

theorem advance_atMap (h : advance spaces th = some (spaces', th')) : ¬ th'.AtMap := by
  unfold advance at h
  unfold Thread.AtMap
  split at h
  all_goals grind

theorem advance_atGate (h : advance spaces th = some (spaces', th')) :
    th'.AtGate ns ↔ th.call = .write ns .lockMap ∧ ns ∈ spaces := by
  unfold advance at h
  unfold Thread.AtGate
  split at h
  all_goals grind

theorem advance_ok (h : advance spaces th = some (spaces', th')) (hok : th.Ok) : th'.Ok := by
  obtain ⟨hwaits, howns⟩ := hok
  unfold advance at h
  split at h
  all_goals
    constructor
    all_goals grind

theorem advance_holds {x : Lock × Mode} (h : advance spaces th = some (spaces', th')) (hx : x ∈ th'.holds) :
    x ∈ th.holds ∨ th.call.wants = some x := by
  rw [mem_holds] at hx ⊢
  unfold advance at h
  split at h
  all_goals grind [Call.holds, Call.wants]

/-- Only by entering `prepare` does a thread come to wait for the map there. -/
theorem act_atMap (h : act spaces th e = some (spaces', th')) : th'.AtMap ↔ ∃ ns, e = .prepare ns := by
  by_cases he : e = .go
  · subst he
    have hnot := advance_atMap h
    simp [hnot]
  · obtain ⟨-, -, call, hcall, rfl⟩ := act_of_ne_go he h
    unfold Thread.AtMap
    cases enter_cases hcall <;> simp

/-- Only from the map's lock does a thread come to the gate, having found the namespace. -/
theorem act_atGate (h : act spaces th e = some (spaces', th')) :
    th'.AtGate ns ↔ e = .go ∧ th.call = .write ns .lockMap ∧ ns ∈ spaces := by
  by_cases he : e = .go
  · subst he
    rw [advance_atGate h]
    simp
  · obtain ⟨-, -, call, hcall, rfl⟩ := act_of_ne_go he h
    unfold Thread.AtGate
    cases enter_cases hcall <;> simp

theorem act_ok (h : act spaces th e = some (spaces', th')) (hok : th.Ok) : th'.Ok := by
  by_cases he : e = .go
  · subst he
    exact advance_ok h hok
  · obtain ⟨-, -, call, hcall, rfl⟩ := act_of_ne_go he h
    cases enter_cases hcall with
    | write ns hpermit => exact ⟨fun _ _ => hpermit, by simp⟩
    | commit ns hpermit => exact ⟨by simp, by simp [hpermit]⟩
    | drop ns hpermit => exact ⟨by simp, by simp [hpermit]⟩
    | _ => exact ⟨by simp, by simp⟩

/-- What a thread holds after a step it held before, or was waiting for. -/
theorem act_holds {x : Lock × Mode} (h : act spaces th e = some (spaces', th')) (hx : x ∈ th'.holds) :
    x ∈ th.holds ∨ th.call.wants = some x := by
  by_cases he : e = .go
  · subst he
    exact advance_holds h hx
  · obtain ⟨-, -, call, hcall, rfl⟩ := act_of_ne_go he h
    rcases mem_holds.mp hx with hgate | hnone
    · exact Or.inl (mem_holds.mpr (Or.inl hgate))
    · rw [enters_holds (enter_cases hcall)] at hnone
      cases hnone

/-- Whoever holds a stores lock waits for nothing. -/
theorem wants_of_holds_stores {m : Mode} (h : (Lock.stores ns, m) ∈ th.holds) : th.call.wants = none := by
  rw [mem_holds] at h
  unfold Call.holds at h
  split at h
  all_goals grind [Call.wants]

/-- Whoever holds the map and waits is at a gate, the map shared, or waits for a stores lock. -/
theorem wants_of_holds_map {m : Mode} {want : Lock × Mode} (h : (Lock.map, m) ∈ th.holds)
    (hwant : th.call.wants = some want) :
    (∃ ns, want.1 = .stores ns) ∨ m = .shared ∧ ∃ ns, th.AtGate ns := by
  rw [mem_holds] at h
  unfold Thread.AtGate
  unfold Call.wants at hwant
  split at hwant
  all_goals grind [Call.holds]

theorem wants_map {m : Mode} (h : th.call.wants = some (.map, m)) : th.AtMap ∨ m = .shared := by
  unfold Thread.AtMap
  unfold Call.wants at h
  split at h
  all_goals grind

theorem wants_gate {m : Mode} (h : th.call.wants = some (.gate ns, m)) : th.AtGate ns := by
  unfold Thread.AtGate
  unfold Call.wants at h
  split at h
  all_goals grind

end Thread

/-! ## Who waits for whom -/

section Deadlock

variable {T : Type} {s : St T} {t : T}

/-- The owner of a namespace's permit waits for the map, and one that shares the map waits
    for the permit. -/
def Crossed (s : St T) : Prop :=
  ∃ ns t t', (s.threads t).permit = some ns ∧ (s.threads t).AtMap ∧ (s.threads t').AtGate ns

def Inv (s : St T) : Prop := ∀ t, (s.threads t).Ok

theorem exclusive_start : (start : St T).locking.Exclusive := by
  intro t t' _ x hx
  cases hx

theorem inv_start : Inv (start : St T) := fun _ => ⟨fun _ _ => rfl, by simp [start]⟩

theorem crossed_waits {ns : String} {t' : T} (hpermit : (s.threads t).permit = some ns) (hmap : (s.threads t).AtMap)
    (hgate : (s.threads t').AtGate ns) : s.locking.WaitsFor t t' ∧ s.locking.WaitsFor t' t := by
  obtain ⟨ns', hmap⟩ := hmap
  unfold Thread.AtGate at hgate
  constructor
  · refine ⟨(.map, .exclusive), ?_, (.map, .shared), mem_holds.mpr (Or.inr ?_), rfl, rfl⟩
    · simp [St.locking, hmap, Call.wants]
    · simp [hgate, Call.holds]
  · refine ⟨(.gate ns, .exclusive), ?_, (.gate ns, .exclusive), gate_mem_holds.mpr ⟨hpermit, rfl⟩, rfl, rfl⟩
    simp [St.locking, hgate, Call.wants]

theorem crossed_deadlocked (h : Crossed s) : s.locking.Deadlocked := by
  obtain ⟨ns, t, t', hpermit, hmap, hgate⟩ := h
  obtain ⟨hwaits, hwaits'⟩ := crossed_waits hpermit hmap hgate
  exact Locking.deadlocked_of_cycle hwaits hwaits'

section Stuck

variable {S : Set T} (hstuck : s.locking.Stuck S)

include hstuck

theorem stuck_not_stores {ns : String} {m : Mode} (ht : t ∈ S) : (s.threads t).call.wants ≠ some (.stores ns, m) := by
  intro hwant
  obtain ⟨t', -, m', hheld, -, want, hnext⟩ := hstuck.holder ht hwant
  have hnone : s.locking.wants t' = none := wants_of_holds_stores hheld
  rw [hnone] at hnext
  cases hnext

/-- Who waits for the map in a stuck set waits for one at a gate. -/
theorem stuck_map {m : Mode} (ht : t ∈ S) (hwant : (s.threads t).call.wants = some (.map, m)) :
    (s.threads t).AtMap ∧ ∃ t' ∈ S, ∃ ns, (s.threads t').AtGate ns := by
  obtain ⟨t', ht', m', hheld, hconf, ⟨lock, m''⟩, hnext⟩ := hstuck.holder ht hwant
  rcases wants_of_holds_map hheld hnext with ⟨ns, hstores⟩ | ⟨hshared, ns, hgate⟩
  · simp only at hstores
    subst hstores
    exact absurd hnext (stuck_not_stores hstuck ht')
  · refine ⟨?_, t', ht', ns, hgate⟩
    rcases wants_map hwant with hmap | hm
    · exact hmap
    · rw [hm, hshared] at hconf
      cases hconf

/-- Who waits at a gate in a stuck set waits for one that waits for the map. -/
theorem stuck_gate (hi : Inv s) {ns : String} (ht : t ∈ S) (hgate : (s.threads t).AtGate ns) :
    ∃ t' ∈ S, (s.threads t').permit = some ns ∧ (s.threads t').AtMap := by
  have hwant : s.locking.wants t = some (.gate ns, .exclusive) := by
    unfold Thread.AtGate at hgate
    simp [St.locking, hgate, Call.wants]
  obtain ⟨t', ht', m, hheld, -, ⟨lock, m'⟩, hnext⟩ := hstuck.holder ht hwant
  obtain ⟨hpermit, -⟩ := gate_mem_holds.mp hheld
  refine ⟨t', ht', hpermit, ?_⟩
  cases lock with
  | map => exact (stuck_map hstuck ht' hnext).1
  | stores ns' => exact absurd hnext (stuck_not_stores hstuck ht')
  | gate ns' =>
    rw [(hi t').waits ns' (Or.inr (wants_gate hnext))] at hpermit
    cases hpermit

end Stuck

theorem deadlocked_iff (hi : Inv s) : s.locking.Deadlocked ↔ Crossed s := by
  refine ⟨fun ⟨S, ⟨t, ht⟩, hstuck⟩ => ?_, crossed_deadlocked⟩
  have hgate : ∃ t' ∈ S, ∃ ns, (s.threads t').AtGate ns := by
    obtain ⟨⟨lock, m⟩, hwant⟩ := hstuck.wants ht
    cases lock with
    | map => exact (stuck_map hstuck ht hwant).2
    | stores ns => exact absurd hwant (stuck_not_stores hstuck ht)
    | gate ns => exact ⟨t, ht, ns, wants_gate hwant⟩
  obtain ⟨t', ht', ns, hat⟩ := hgate
  obtain ⟨t'', -, hpermit, hmap⟩ := stuck_gate hstuck hi ht' hat
  exact ⟨ns, t'', t', hpermit, hmap, hat⟩

end Deadlock

/-! ## Runs -/

section System

variable {T : Type} [DecidableEq T] [Fintype T] {s s' : St T} {tr : Trace (T × Ev) Unit}

theorem step_eq_some {t : T} {e : Ev} : step s (t, e) = some (s', ()) ↔ ¬ s.locking.Blocked t ∧
    ∃ spaces th, act s.spaces (s.threads t) e = some (spaces, th) ∧ s' = ⟨spaces, Function.update s.threads t th⟩ := by
  by_cases hb : s.locking.Blocked t
  · simp [step, hb]
  · simp only [step, hb, if_false, not_false_eq_true, true_and, Option.map_eq_some_iff]
    constructor
    · intro ⟨⟨spaces, th⟩, hact, hs⟩
      cases hs
      exact ⟨spaces, th, hact, rfl⟩
    · intro ⟨spaces, th, hact, hs⟩
      exact ⟨(spaces, th), hact, by rw [hs]⟩

/-- Between calls nothing is waited for. -/
theorem step_enter {t : T} {e : Ev} {call : Call} (hidle : (s.threads t).call = .idle)
    (hcall : enter (s.threads t) e = some call) :
    step s (t, e) = some (⟨s.spaces, Function.update s.threads t { s.threads t with call := call }⟩, ()) := by
  have hfree : ¬ s.locking.Blocked t := by
    intro ⟨t', want, hwant, _⟩
    simp only [St.locking, hidle] at hwant
    cases hwant
  refine step_eq_some.mpr ⟨hfree, s.spaces, { s.threads t with call := call }, ?_, rfl⟩
  cases e with
  | go => cases hcall
  | _ => simp [act, hidle, hcall]

theorem exclusive_step {e : T × Ev} {a : Unit} (hs : step s e = some (s', a)) (hex : s.locking.Exclusive) :
    s'.locking.Exclusive := by
  obtain ⟨t, e⟩ := e
  obtain ⟨hfree, spaces, th, hact, rfl⟩ := step_eq_some.mp hs
  refine hex.step hfree (fun x hx => ?_) fun t' hne => ?_
  · simp only [St.locking, Function.update_self] at hx
    exact act_holds hact hx
  · simp only [St.locking, Function.update_of_ne hne]

theorem inv_step {e : T × Ev} {a : Unit} (hs : step s e = some (s', a)) (hi : Inv s) : Inv s' := by
  obtain ⟨t, e⟩ := e
  obtain ⟨-, spaces, th, hact, rfl⟩ := step_eq_some.mp hs
  exact (Function.forall_update_iff s.threads fun _ th => th.Ok).mpr ⟨act_ok hact (hi t), fun t' _ => hi t'⟩

/-- In every state of a run a lock has one owner or only sharers. -/
theorem exclusive_of_run (h : Run step start tr s) : s.locking.Exclusive :=
  h.keeps (K := fun s => s.locking.Exclusive) (fun _ _ _ _ hs hex => exclusive_step hs hex) exclusive_start

theorem inv_of_run (h : Run step start tr s) : Inv s := h.keeps (fun _ _ _ _ hs hi => inv_step hs hi) inv_start

/-- No owner of a permit goes for the map while another waits for the permit, and nobody
    goes for a permit whose owner waits for the map. -/
def Orderly (s : St T) (e : T × Ev) : Prop :=
  match e.2 with
  | .prepare _ => ∀ ns, (s.threads e.1).permit = some ns → ∀ t, ¬ (s.threads t).AtGate ns
  | .go => ∀ ns, (s.threads e.1).call = .write ns .lockMap → ns ∈ s.spaces →
      ∀ t, (s.threads t).permit = some ns → ¬ (s.threads t).AtMap
  | _ => True

theorem not_atMap_atGate {th : Thread} {ns : String} (h : th.AtMap) : ¬ th.AtGate ns := by
  obtain ⟨ns', h⟩ := h
  unfold Thread.AtGate
  rw [h]
  nofun

theorem crossed_of_step {e : T × Ev} (h : step s e = some (s', ())) (hfree : ¬ Crossed s) (horderly : Orderly s e) :
    ¬ Crossed s' := by
  obtain ⟨t, e⟩ := e
  obtain ⟨-, spaces, th, hact, rfl⟩ := step_eq_some.mp h
  intro ⟨ns, u, u', hpermit, hmap, hgate⟩
  by_cases hu : u = t
  · subst hu
    simp only [Function.update_self] at hpermit hmap
    obtain ⟨ns', rfl⟩ := (act_atMap hact).mp hmap
    have hne : u' ≠ u := by
      intro heq
      subst heq
      simp only [Function.update_self] at hgate
      exact not_atMap_atGate hmap hgate
    simp only [Function.update_of_ne hne] at hgate
    obtain ⟨-, -, call, -, rfl⟩ := act_of_ne_go (by nofun) hact
    exact horderly ns hpermit u' hgate
  · simp only [Function.update_of_ne hu] at hpermit hmap
    by_cases hu' : u' = t
    · subst hu'
      simp only [Function.update_self] at hgate
      obtain ⟨rfl, hcall, hns⟩ := (act_atGate hact).mp hgate
      exact horderly ns hcall hns u hpermit hmap
    · simp only [Function.update_of_ne hu'] at hgate
      exact hfree ⟨ns, u, u', hpermit, hmap, hgate⟩

theorem crossed_of_not_orderly {e : T × Ev} (h : step s e = some (s', ())) (hnot : ¬ Orderly s e) : Crossed s' := by
  obtain ⟨t, e⟩ := e
  obtain ⟨-, spaces, th, hact, rfl⟩ := step_eq_some.mp h
  cases e with
  | prepare ns' =>
    simp only [Orderly, not_forall, not_not] at hnot
    obtain ⟨ns, hpermit, u, hgate⟩ := hnot
    have hmap : th.AtMap := (act_atMap hact).mpr ⟨ns', rfl⟩
    obtain ⟨hidle, -, call, -, rfl⟩ := act_of_ne_go (by nofun) hact
    have hne : u ≠ t := by
      intro heq
      subst heq
      unfold Thread.AtGate at hgate
      rw [hidle] at hgate
      cases hgate
    refine ⟨ns, t, u, ?_, ?_, ?_⟩
    · simp only [Function.update_self]
      exact hpermit
    · simp only [Function.update_self]
      exact hmap
    · simp only [Function.update_of_ne hne]
      exact hgate
  | go =>
    simp only [Orderly, not_forall, not_not] at hnot
    obtain ⟨ns, hcall, hns, u, hpermit, hmap⟩ := hnot
    have hne : u ≠ t := by
      intro heq
      subst heq
      obtain ⟨ns', hmap⟩ := hmap
      rw [hcall] at hmap
      cases hmap
    refine ⟨ns, u, t, ?_, ?_, ?_⟩
    · simp only [Function.update_of_ne hne]
      exact hpermit
    · simp only [Function.update_of_ne hne]
      exact hmap
    · simp only [Function.update_self]
      exact (act_atGate hact).mpr ⟨rfl, hcall, hns⟩
  | _ => exact absurd trivial hnot

theorem crossed_iff {e : T × Ev} (h : step s e = some (s', ())) (hfree : ¬ Crossed s) : Crossed s' ↔ ¬ Orderly s e := by
  constructor
  · intro hc horderly
    exact crossed_of_step h hfree horderly hc
  · intro hnot
    exact crossed_of_not_orderly h hnot

/-- Two threads that are crossed stay so: neither of them ever steps. -/
theorem crossed_keeps {e : T × Ev} (h : step s e = some (s', ())) (hc : Crossed s) : Crossed s' := by
  obtain ⟨t, e⟩ := e
  obtain ⟨hfree, spaces, th, -, rfl⟩ := step_eq_some.mp h
  obtain ⟨ns, u, u', hpermit, hmap, hgate⟩ := hc
  obtain ⟨hwaits, hwaits'⟩ := crossed_waits hpermit hmap hgate
  have hu : u ≠ t := by
    intro heq
    subst heq
    exact hfree ⟨u', hwaits⟩
  have hu' : u' ≠ t := by
    intro heq
    subst heq
    exact hfree ⟨u, hwaits'⟩
  refine ⟨ns, u, u', ?_, ?_, ?_⟩
  · simp only [Function.update_of_ne hu]
    exact hpermit
  · simp only [Function.update_of_ne hu]
    exact hmap
  · simp only [Function.update_of_ne hu']
    exact hgate

/-- If some thread is blocked, then one in a call, or one with a permit, can step. -/
def Progress (s : St T) : Prop :=
  (∃ t, s.locking.Blocked t) →
    ∃ t, ((s.threads t).call ≠ .idle ∨ (s.threads t).permit ≠ none) ∧ ∃ e s', step s (t, e) = some (s', ())

theorem progress_of_free (h : ¬ s.locking.Deadlocked) : Progress s := by
  intro ⟨t, hb⟩
  obtain ⟨u, t', ⟨want, -, held, hheld, -⟩, hfree⟩ := Locking.exists_free h hb
  by_cases hidle : (s.threads t').call = .idle
  · obtain ⟨ns, hpermit⟩ : ∃ ns, (s.threads t').permit = some ns := by
      rcases mem_holds.mp hheld with ⟨ns, hpermit, -⟩ | hcall
      · exact ⟨ns, hpermit⟩
      · rw [hidle] at hcall
        cases hcall
    have hdrop : enter (s.threads t') .drop = some (.commit ns .releasing) := by
      simp [enter, hpermit]
    refine ⟨t', Or.inr ?_, .drop, _, step_enter hidle hdrop⟩
    rw [hpermit]
    nofun
  · have hgoes : advance s.spaces (s.threads t') ≠ none := advance_ne_none hidle
    obtain ⟨⟨spaces, th⟩, hact⟩ := Option.ne_none_iff_exists'.mp hgoes
    exact ⟨t', Or.inl hidle, .go, _, step_eq_some.mpr ⟨hfree, spaces, th, hact, rfl⟩⟩

/-- A run is free of deadlocks, with a step left wherever a thread is blocked, exactly when
    each of its steps is orderly. -/
theorem deadlock_free_iff (h : Run step start tr s) :
    (∀ later earlier s1, tr = later ++ earlier → Run step start earlier s1 → Progress s1 ∧ ¬ s1.locking.Deadlocked) ↔
      Run.Meets step start Orderly tr := by
  constructor
  · intro hfree later e a earlier s1 htr h1
    subst htr
    obtain ⟨s1', s2, h1', hs, hlater⟩ := h.around
    cases h1.deterministic h1'
    have h2 : Run step start ((e, a) :: earlier) s2 := Run.step h1 hs
    have hbefore := (hfree (later ++ [(e, a)]) earlier s1 (by simp) h1).2
    have hafter := (hfree later ((e, a) :: earlier) s2 rfl h2).2
    rw [deadlocked_iff (inv_of_run h1)] at hbefore
    rw [deadlocked_iff (inv_of_run h2), crossed_iff hs hbefore] at hafter
    exact not_not.mp hafter
  · intro hC later earlier s1 htr h1
    subst htr
    have hcrossed : ¬ Crossed s1 := by
      refine Run.invariant_of_meets (I := fun _ s => ¬ Crossed s) ?_ (fun _ s e s' a _ hfree horderly hs => ?_) h1
        (Run.Meets.earlier later hC)
      · intro ⟨ns, t, t', hpermit, _⟩
        cases hpermit
      · exact crossed_of_step hs hfree horderly
    have hfree : ¬ s1.locking.Deadlocked := by
      rw [deadlocked_iff (inv_of_run h1)]
      exact hcrossed
    exact ⟨progress_of_free hfree, hfree⟩

end System

/-- Thread `true` has a write handle, and `false` waits in `write` for its gate. -/
def waitingForHandle : Trace (Bool × Ev) Unit :=
  [((false, .go), ()), ((false, .write "users"), ()), ((true, .go), ()), ((true, .go), ()), ((true, .go), ()),
   ((true, .go), ()), ((true, .go), ()), ((true, .write "users"), ()), ((true, .go), ()), ((true, .go), ()),
   ((true, .prepare "users"), ())]

theorem run_waitingForHandle : ∃ s, Run step start waitingForHandle s ∧ s.threads true = ⟨some "users", .idle⟩ ∧
    s.threads false = ⟨none, .write "users" .acquire⟩ :=
  ⟨_, Run.step (Run.step (Run.step (Run.step (Run.step (Run.step (Run.step (Run.step (Run.step (Run.step (Run.step
    Run.nil rfl) rfl) rfl) rfl) rfl) rfl) rfl) rfl) rfl) rfl) rfl, rfl, rfl⟩

theorem deadlock_free_iff_waiting : ∃ s, Run step start waitingForHandle s ∧
    ((∀ later earlier s1, waitingForHandle = later ++ earlier → Run step start earlier s1 →
        Progress s1 ∧ ¬ s1.locking.Deadlocked) ↔ Run.Meets step start Orderly waitingForHandle) := by
  obtain ⟨s, hrun, -, -⟩ := run_waitingForHandle
  exact ⟨s, hrun, deadlock_free_iff hrun⟩

/-- When then `true` calls `prepare`, no step is left. -/
theorem prepare_under_write_deadlocks : ∃ s : St Bool,
    Run step start (((true, .prepare "users"), ()) :: waitingForHandle) s ∧ s.locking.Deadlocked ∧ ¬ Progress s := by
  obtain ⟨s, hrun, h0, h1⟩ := run_waitingForHandle
  obtain ⟨s', hstep, hcall, hothers⟩ : ∃ s', step s (true, .prepare "users") = some (s', ()) ∧
      s'.threads true = ⟨some "users", .prepare "users" .lockMap⟩ ∧ s'.threads false = s.threads false := by
    refine ⟨_, step_enter (by rw [h0]) rfl, ?_, rfl⟩
    simp [h0]
  rw [h1] at hothers
  have hpermit : (s'.threads true).permit = some "users" := by rw [hcall]
  have hmap : (s'.threads true).AtMap := ⟨"users", by rw [hcall]⟩
  have hgate : (s'.threads false).AtGate "users" := by
    rw [hothers]
    rfl
  obtain ⟨hwaits, hwaits'⟩ := crossed_waits hpermit hmap hgate
  refine ⟨s', Run.step hrun hstep, Locking.deadlocked_of_cycle hwaits hwaits', fun hprogress => ?_⟩
  obtain ⟨t, -, e, s2, hs⟩ := hprogress ⟨true, false, hwaits⟩
  obtain ⟨hfree, -⟩ := step_eq_some.mp hs
  match t with
  | true => exact hfree ⟨false, hwaits⟩
  | false => exact hfree ⟨true, hwaits'⟩

end Collette.Locks
