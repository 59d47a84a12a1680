/-
  Collette.Store.Gate — the writer gate of a namespace as it is made
  (`backend/memory.rs`, `WriterGate`).

  `Store.Memory` takes the gate to be a flag that `acquire` tests and sets at once. It is
  a flag behind a mutex, with a condition variable: `acquire` waits in a loop while the
  flag is set, and dropping the permit clears the flag and notifies one who waits. Here
  each step of that is a step of its own, and other calls come in between.

  - `gate_run`: the gate of each namespace is a monitor.
  - `gates_exact`: what is seen of the backend with such gates is what is seen of the one
    with flags.
  - `no_lost_wakeup`: where nobody at a gate can go on, a handle that waits there does so
    because another one has the permit and has not been dropped.
  - `gate_goes`: and nobody goes on for ever.
-/

import Collette.Prog.Monitor
import Collette.Store.Memory

namespace Collette.Gate

open Memory

inductive GateOp where
  | acquire
  | release
  deriving DecidableEq, Repr

/-- `WriterGate`; the data are its flag `open`. -/
def writerGate : Monitor Bool GateOp where
  ready flag := !flag
  waits op := op = .acquire
  act op _ := op = .acquire
  consumes op flag hwaits _ := by simpa using hwaits

structure St where
  mem : Memory.St
  gates : String → Monitor.Sync Nat GateOp

inductive Ev where
  | mem (e : Memory.Ev)
  | gate (ns : String) (w : Nat) (e : Monitor.Ev Nat GateOp)

/-- The operation of the gate a handle comes to next: in `write`, and where it is dropped. -/
def next : Phase → Option GateOp
  | .waiting => some .acquire
  | .live _ | .published => some .release
  | .permitted | .dropped => none

def GateOp.call : GateOp → WriteCall
  | .acquire => .acquire
  | .release => .drop

/-- The phase of the handle once the operation has acted. -/
def GateOp.phase : GateOp → Phase
  | .acquire => .permitted
  | .release => .dropped

/-- A call that goes to the gate. -/
def toGate : Memory.Ev → Bool
  | .writer _ .acquire | .writer _ .drop => true
  | _ => false

/-- The call of a handle that is at its gate. -/
def St.busy (s : St) : Memory.Ev → Bool
  | .writer w _ =>
    match s.mem.writers w with
    | some writer => ((s.gates writer.ns).places w).isSome
    | none => false
  | _ => false

def allowed (phase : Phase) : Monitor.Ev Nat GateOp → Bool
  | .call op => next phase = some op
  | _ => true

/-- The answer of a step is what it is in the backend with flags, if it is anything there. -/
def step : Machine St Ev (Option (Memory.Ev × Reply)) := fun s e =>
  match e with
  | .mem e =>
    if toGate e || s.busy e then none
    else (Memory.step s.mem e).map fun x => ({ s with mem := x.1 }, some (e, x.2))
  | .gate ns w e =>
    match s.mem.writers w, s.mem.spaces ns with
    | some ⟨ns', phase⟩, some space =>
      if ns' = ns ∧ allowed phase e then
        (writerGate.step (space.gate, s.gates ns) (w, e)).map fun ((flag, sync), acted) =>
          ({ mem := { s.mem with
               spaces := Function.update s.mem.spaces ns (some { space with gate := flag })
               writers := Function.update s.mem.writers w (some ⟨ns, (acted.map GateOp.phase).getD phase⟩) }
             gates := Function.update s.gates ns sync }, acted.map fun op => (.writer w op.call, .done))
      else none
    | _, _ => none

/-- Nobody has called a gate. -/
def quiet (mem : Memory.St) : St := ⟨mem, fun _ => Monitor.idle⟩

/-- The flag of the namespace, as long as there is none that of a new one. -/
def flag (mem : Memory.St) (ns : String) : Bool := ((mem.spaces ns).map (·.gate)).getD false

/-! ## Steps -/

section Steps

variable {s s' : St} {ns : String} {w : Nat} {a : Option (Memory.Ev × Reply)}

theorem mem_inv {e : Memory.Ev} (h : step s (.mem e) = some (s', a)) :
    toGate e = false ∧ s.busy e = false ∧ ∃ mem' r, Memory.step s.mem e = some (mem', r) ∧ s' = ⟨mem', s.gates⟩ ∧
      a = some (e, r) := by
  simp only [step] at h
  split at h
  · cases h
  · rename_i hfree
    simp only [Bool.or_eq_true, not_or, Bool.not_eq_true] at hfree
    obtain ⟨⟨mem', r⟩, hstep, h⟩ := Option.map_eq_some_iff.mp h
    cases h
    exact ⟨hfree.1, hfree.2, mem', r, hstep, rfl, rfl⟩

theorem gate_inv {e : Monitor.Ev Nat GateOp} (h : step s (.gate ns w e) = some (s', a)) :
    ∃ phase space flag sync acted, s.mem.writers w = some ⟨ns, phase⟩ ∧ s.mem.spaces ns = some space ∧
      allowed phase e = true ∧ writerGate.step (space.gate, s.gates ns) (w, e) = some ((flag, sync), acted) ∧
      a = (acted.map fun op => (.writer w op.call, .done)) ∧
      s' = ⟨{ s.mem with
          spaces := Function.update s.mem.spaces ns (some { space with gate := flag })
          writers := Function.update s.mem.writers w (some ⟨ns, (acted.map GateOp.phase).getD phase⟩) },
        Function.update s.gates ns sync⟩ := by
  simp only [step] at h
  split at h
  · rename_i ns' phase space hw hspace
    split at h
    · rename_i hcond
      obtain ⟨rfl, hallowed⟩ := hcond
      obtain ⟨⟨⟨flag, sync⟩, acted⟩, hstep, h⟩ := Option.map_eq_some_iff.mp h
      cases h
      exact ⟨phase, space, flag, sync, acted, hw, hspace, hallowed, hstep, rfl, rfl⟩
    · cases h
  · cases h

/-- No other call changes a flag. -/
theorem flag_mem {mem mem' : Memory.St} {e : Memory.Ev} {r : Reply} (h : Memory.step mem e = some (mem', r))
    (he : toGate e = false) (ns : String) : flag mem' ns = flag mem ns := by
  cases Memory.step_cases h with
  | prepareRead | read | openStore | write | look => rfl
  | preparePublish p hp =>
    by_cases hns : ns = p.ns
    · subst hns
      simp only [flag, Function.update_self]
      rfl
    · simp only [flag, Function.update_of_ne hns]
  | writer w call ns' phase phase' space space' r hw hspace hwrite =>
    have hgate : space'.gate = space.gate := by
      cases hwrite with
      | acquire | dropLive | dropPublished => cases he
      | snapshot | look | change | refuse | commit => rfl
    by_cases hns : ns = ns'
    · subst hns
      simp only [flag, Function.update_self, hspace, Option.map_some, hgate]
    · simp only [flag, Function.update_of_ne hns]

end Steps

/-! ## The gates are monitors -/

/-- What happens at the gate of `ns`. -/
def gateEvents (ns : String) (tr : Trace Ev (Option (Memory.Ev × Reply))) : List (Nat × Monitor.Ev Nat GateOp) :=
  tr.filterMap fun x => match x.1 with
    | .gate ns' w e => if ns' = ns then some (w, e) else none
    | .mem _ => none

section Runs

variable {s : St} {tr : Trace Ev (Option (Memory.Ev × Reply))}

theorem gate_run (h : Run step (quiet Memory.new) tr s) (ns : String) :
    ∃ mtr, Run writerGate.step (false, Monitor.idle) mtr (flag s.mem ns, s.gates ns) ∧
      mtr.map (·.1) = gateEvents ns tr := by
  induction h with
  | nil => exact ⟨[], Run.nil, rfl⟩
  | @step tr s s' e a _ hs ih =>
    obtain ⟨mtr, hrun, hevents⟩ := ih
    cases e with
    | mem e =>
      obtain ⟨he, -, mem', r, hmem, rfl, -⟩ := mem_inv hs
      refine ⟨mtr, ?_, hevents⟩
      rw [flag_mem hmem he ns]
      exact hrun
    | gate ns' w e =>
      obtain ⟨phase, space, flag', sync, acted, -, hspace, -, hstep, -, rfl⟩ := gate_inv hs
      by_cases hns : ns' = ns
      · subst hns
        have hflag : flag s.mem ns' = space.gate := by simp only [flag, hspace, Option.map_some, Option.getD_some]
        rw [hflag] at hrun
        refine ⟨((w, e), acted) :: mtr, ?_, ?_⟩
        · simp only [flag, Function.update_self, Option.map_some, Option.getD_some]
          exact Run.step hrun hstep
        · simp only [List.map_cons, hevents, gateEvents, List.filterMap_cons, if_true]
      · refine ⟨mtr, ?_, ?_⟩
        · simp only [flag, Function.update_of_ne (Ne.symm hns)]
          exact hrun
        · simp only [hevents, gateEvents, List.filterMap_cons, if_neg hns]

theorem gate_monitor (h : Run step (quiet Memory.new) tr s) (ns : String) :
    Monitor.Inv writerGate (flag s.mem ns) (s.gates ns) := by
  obtain ⟨mtr, hrun, -⟩ := gate_run h ns
  exact Monitor.inv_of_run hrun

end Runs

/-! ## Where a handle is -/

/-- Before the operation has acted, and after. -/
def PlaceOk : Monitor.Place GateOp → Phase → Prop
  | .locking op, phase | .testing op, phase | .asleep op, phase => next phase = some op
  | .notifying op, phase | .leaving op, phase => phase = op.phase

def Placed (s : St) : Prop := ∀ ns w p, (s.gates ns).places w = some p →
  ∃ phase, s.mem.writers w = some ⟨ns, phase⟩ ∧ PlaceOk p phase

section Placed

variable {s s' : St} {ns : String} {w : Nat} {a : Option (Memory.Ev × Reply)}

/-- A call leaves the handles at their gates as they are. -/
theorem writers_mem {e : Memory.Ev} {mem' : Memory.St} {r : Reply} {writer : Writer}
    (h : Memory.step s.mem e = some (mem', r)) (hbusy : s.busy e = false) (hw : s.mem.writers w = some writer)
    (hp : ((s.gates writer.ns).places w).isSome = true) : mem'.writers w = s.mem.writers w := by
  cases Memory.step_cases h with
  | prepareRead | preparePublish | read | openStore | look => rfl
  | write w' ns hpreparing hnone hspace =>
    refine Function.update_of_ne ?_ _ _
    rintro rfl
    rw [hw] at hnone
    cases hnone
  | writer w' call ns phase phase' space space' r hw' hspace hwrite =>
    refine Function.update_of_ne ?_ _ _
    rintro rfl
    rw [hw] at hw'
    cases hw'
    simp only [St.busy, hw] at hbusy
    rw [hbusy] at hp
    cases hp

/-- A step at the gate, as the handle that takes it sees it. -/
theorem placeOk_step {e : Monitor.Ev Nat GateOp} {flag flag' : Bool} {sync sync' : Monitor.Sync Nat GateOp}
    {acted : Option GateOp} {phase : Phase} {p : Monitor.Place GateOp}
    (h : Monitor.Step writerGate flag sync w e flag' sync' acted) (hallowed : allowed phase e = true)
    (hold : ∀ p, sync.places w = some p → PlaceOk p phase) (hp : sync'.places w = some p) :
    PlaceOk p ((acted.map GateOp.phase).getD phase) := by
  cases h with
  | call op hnone =>
    simp only [Monitor.move_places, if_true] at hp
    cases hp
    have hnext : next phase = some op := by simpa [allowed] using hallowed
    exact hnext
  | lock op hold' howner =>
    simp only [Monitor.move_places, if_true] at hp
    cases hp
    have hok := hold _ hold'
    exact hok
  | wait op hold' hwaits hready =>
    simp only [Monitor.move_places, if_true] at hp
    cases hp
    have hok := hold _ hold'
    exact hok
  | take op hold' hwaits hready =>
    simp only [Monitor.move_places, if_true] at hp
    cases hp
    rfl
  | act op hold' hwaits =>
    simp only [Monitor.move_places, if_true] at hp
    cases hp
    rfl
  | alone op hold' hnone =>
    simp only [Monitor.move_places, if_true] at hp
    cases hp
    have hok := hold _ hold'
    exact hok
  | notify op op' t' hold' hasleep =>
    have hne : w ≠ t' := by
      rintro rfl
      rw [hold'] at hasleep
      cases hasleep
    simp only [Monitor.move_places, if_neg hne, if_true] at hp
    cases hp
    have hok := hold _ hold'
    exact hok
  | unlock op hold' =>
    simp only [Monitor.move_places, if_true] at hp
    cases hp
  | wake op hold' =>
    simp only [Monitor.move_places, if_true] at hp
    cases hp
    have hok := hold _ hold'
    exact hok

theorem placed_step {e : Ev} (h : step s e = some (s', a)) (hs : Placed s) : Placed s' := by
  cases e with
  | mem e =>
    obtain ⟨-, hbusy, mem', r, hmem, rfl, -⟩ := mem_inv h
    intro ns w p hp
    obtain ⟨phase, hw, hok⟩ := hs ns w p hp
    have hsome : ((s.gates ns).places w).isSome = true := by
      rw [show (s.gates ns).places w = some p from hp]
      rfl
    exact ⟨phase, (writers_mem hmem hbusy hw hsome).trans hw, hok⟩
  | gate ns w e =>
    obtain ⟨phase, space, flag', sync, acted, hw, hspace, hallowed, hstep, -, rfl⟩ := gate_inv h
    have hstep := Monitor.step_cases hstep
    intro ns' w' p hp
    by_cases hns : ns' = ns
    · subst hns
      simp only [Function.update_self] at hp
      by_cases hww : w' = w
      · subst hww
        refine ⟨_, Function.update_self _ _ _, placeOk_step hstep hallowed (fun p hp => ?_) hp⟩
        obtain ⟨phase', hw', hok⟩ := hs ns' w' p hp
        rw [hw] at hw'
        cases hw'
        exact hok
      · rcases Monitor.others_step hstep hww with hsame | ⟨op, hasleep, hwoken⟩
        · obtain ⟨phase', hw', hok⟩ := hs ns' w' p (hsame.symm.trans hp)
          exact ⟨phase', (Function.update_of_ne hww _ _).trans hw', hok⟩
        · obtain ⟨phase', hw', hok⟩ := hs ns' w' _ hasleep
          rw [hwoken] at hp
          cases hp
          exact ⟨phase', (Function.update_of_ne hww _ _).trans hw', hok⟩
    · simp only [Function.update_of_ne hns] at hp
      obtain ⟨phase', hw', hok⟩ := hs ns' w' p hp
      have hww : w' ≠ w := by
        rintro rfl
        rw [hw] at hw'
        cases hw'
        exact hns rfl
      exact ⟨phase', (Function.update_of_ne hww _ _).trans hw', hok⟩

theorem placed_run {tr : Trace Ev (Option (Memory.Ev × Reply))} (h : Run step (quiet Memory.new) tr s) : Placed s :=
  h.keeps (fun _ _ _ _ hs hp => placed_step hs hp) fun _ _ _ hp => by cases hp

end Placed

/-! ## Seen from outside -/

section Refinement

variable {s s' : St} {tr : Trace Ev (Option (Memory.Ev × Reply))}

/-- Where the operation of the gate acts, the flag is tested and set, or cleared, at once. -/
theorem writeStep_of_act {space : NamespacedState} {phase : Phase} {op : GateOp} (hnext : next phase = some op)
    (hready : writerGate.waits op = true → writerGate.ready space.gate = true) :
    writeStep space phase op.call = some ({ space with gate := writerGate.act op space.gate }, op.phase, .done) := by
  cases phase with
  | waiting =>
    cases hnext
    have hfree : space.gate = false := by simpa [writerGate] using hready rfl
    simp [writeStep, GateOp.call, GateOp.phase, hfree, writerGate]
  | live staged | published =>
    cases hnext
    simp [writeStep, GateOp.call, GateOp.phase, writerGate]
  | permitted | dropped => cases hnext

/-- A step is one of the backend with flags, or none. -/
theorem step_refines {e : Ev} {a : Option (Memory.Ev × Reply)} (h : step s e = some (s', a)) (hs : Placed s) :
    match a with
    | none => s'.mem = s.mem
    | some (e', r) => Memory.step s.mem e' = some (s'.mem, r) := by
  cases e with
  | mem e =>
    obtain ⟨-, -, mem', r, hmem, rfl, rfl⟩ := mem_inv h
    exact hmem
  | gate ns w e =>
    obtain ⟨phase, space, flag', sync, acted, hw, hspace, -, hstep, rfl, rfl⟩ := gate_inv h
    have hacted := (Monitor.step_cases hstep).acted
    cases acted with
    | none =>
      cases hacted
      show { s.mem with
        spaces := Function.update s.mem.spaces ns (some space)
        writers := Function.update s.mem.writers w (some ⟨ns, phase⟩) } = s.mem
      rw [← hspace, ← hw, Function.update_eq_self, Function.update_eq_self]
    | some op =>
      obtain ⟨hp, rfl, hready⟩ := hacted
      obtain ⟨phase', hw', hnext⟩ := hs ns w _ hp
      rw [hw] at hw'
      cases hw'
      have hcoarse := writer_eq hw hspace (writeStep_of_act hnext hready)
      cases op <;> exact hcoarse

theorem refines_of_run (h : Run step (quiet Memory.new) tr s) :
    Run Memory.step Memory.new (tr.filterMap (·.2)) s.mem := by
  induction h with
  | nil => exact Run.nil
  | @step tr s s' e a hrun hs ih =>
    have hcoarse := step_refines hs (placed_run hrun)
    cases a with
    | none =>
      rw [List.filterMap_cons, hcoarse]
      exact ih
    | some x =>
      rw [List.filterMap_cons]
      exact Run.step ih hcoarse

/-! ### The other way -/

/-- One gate in use. -/
def inUse (mem : Memory.St) (ns : String) (sync : Monitor.Sync Nat GateOp) : St :=
  ⟨mem, Function.update (fun _ => Monitor.idle) ns sync⟩

theorem inUse_idle (mem : Memory.St) (ns : String) : inUse mem ns Monitor.idle = quiet mem := by
  unfold inUse quiet
  rw [Function.update_eq_self_iff.mpr rfl]

section Alone

variable {mem mem' : Memory.St} {ns : String} {w : Nat} {phase : Phase} {space : NamespacedState}
  {sync sync' : Monitor.Sync Nat GateOp} {op : GateOp}

theorem inUse_step {e : Monitor.Ev Nat GateOp} (hw : mem.writers w = some ⟨ns, phase⟩)
    (hspace : mem.spaces ns = some space) (hallowed : allowed phase e = true)
    (hstep : writerGate.step (space.gate, sync) (w, e) = some ((space.gate, sync'), none)) :
    step (inUse mem ns sync) (.gate ns w e) = some (inUse mem ns sync', none) := by
  simp only [step, inUse, hw, hspace, hallowed, hstep, Function.update_self, and_self, if_true, Option.map_some,
    Option.map_none, Option.getD_none, Function.update_idem]
  rw [← hw, ← hspace]
  simp only [Function.update_eq_self]

/-- The backend once the operation has acted. -/
def acted (mem : Memory.St) (ns : String) (w : Nat) (space : NamespacedState) (op : GateOp) : Memory.St :=
  { mem with
    spaces := Function.update mem.spaces ns (some { space with gate := writerGate.act op space.gate })
    writers := Function.update mem.writers w (some ⟨ns, op.phase⟩) }

theorem inUse_act (hw : mem.writers w = some ⟨ns, phase⟩) (hspace : mem.spaces ns = some space)
    (hstep : writerGate.step (space.gate, sync) (w, .go) = some ((writerGate.act op space.gate, sync'), some op)) :
    step (inUse mem ns sync) (.gate ns w .go) =
      some (inUse (acted mem ns w space op) ns sync', some (.writer w op.call, .done)) := by
  simp only [step, inUse, acted, hw, hspace, allowed, hstep, Function.update_self, and_self, if_true, Option.map_some,
    Option.getD_some, Function.update_idem]

theorem acted_step {e : Monitor.Ev Nat GateOp} (hallowed : allowed op.phase e = true)
    (hstep : writerGate.step (writerGate.act op space.gate, sync) (w, e) =
      some ((writerGate.act op space.gate, sync'), none)) :
    step (inUse (acted mem ns w space op) ns sync) (.gate ns w e) =
      some (inUse (acted mem ns w space op) ns sync', none) := by
  have hspace : (acted mem ns w space op).spaces ns = some { space with gate := writerGate.act op space.gate } :=
    Function.update_self _ _ _
  exact inUse_step (Function.update_self _ _ _) hspace hallowed hstep

/-- The call of a handle that goes to the gate is one the gate makes. -/
theorem writeStep_toGate {space' : NamespacedState} {phase' : Phase} {r : Reply}
    (h : writeStep space phase op.call = some (space', phase', r)) :
    next phase = some op ∧ (writerGate.waits op = true → writerGate.ready space.gate = true) ∧
      space' = { space with gate := writerGate.act op space.gate } ∧ phase' = op.phase ∧ r = .done := by
  cases op with
  | acquire =>
    cases writeStep_cases h with
    | acquire hfree => exact ⟨rfl, fun _ => by simp [writerGate, hfree], rfl, rfl, rfl⟩
    | look hlook => cases hlook
    | change hchange => cases hchange
    | refuse hchange => cases hchange
  | release =>
    cases writeStep_cases h with
    | dropLive | dropPublished => exact ⟨rfl, nofun, rfl, rfl, rfl⟩
    | look hlook => cases hlook
    | change hchange => cases hchange
    | refuse hchange => cases hchange

/-- Where no other handle is at the gate, the operation goes through it. -/
theorem gate_alone {r : Reply} (h : Memory.step mem (.writer w op.call) = some (mem', r)) :
    ∃ tr, Run step (quiet mem) tr (quiet mem') ∧ tr.filterMap (·.2) = [(.writer w op.call, r)] := by
  obtain ⟨ns, phase, space, space', phase', hw, hspace, hwrite, rfl⟩ := writer_inv h
  obtain ⟨hnext, hready, rfl, rfl, rfl⟩ := writeStep_toGate hwrite
  have hmem' : quiet { mem with
      spaces := Function.update mem.spaces ns (some { space with gate := writerGate.act op space.gate })
      writers := Function.update mem.writers w (some ⟨ns, op.phase⟩)
      shared := op.call.shared mem.shared } = inUse (acted mem ns w space op) ns Monitor.idle := by
    rw [inUse_idle]
    cases op <;> rfl
  rw [← inUse_idle mem ns, hmem']
  have hallowed : allowed phase (.call op) = true := decide_eq_true hnext
  have hcall := inUse_step hw hspace hallowed (Monitor.one_call op)
  have hlock := inUse_step hw hspace rfl (Monitor.one_lock op)
  have hact := inUse_act hw hspace (Monitor.one_act op hready)
  have hrun := Run.step (Run.step (Run.step Run.nil hcall) hlock) hact
  cases op with
  | acquire => exact ⟨_, Run.step hrun (acted_step rfl (Monitor.one_unlock _)), rfl⟩
  | release =>
    exact ⟨_, Run.step (Run.step hrun (acted_step rfl (Monitor.one_notify _)))
      (acted_step rfl (Monitor.one_unlock _)), rfl⟩

end Alone

/-- Any other call is made at once. -/
theorem mem_alone {mem mem' : Memory.St} {e : Memory.Ev} {r : Reply} (h : Memory.step mem e = some (mem', r))
    (he : toGate e = false) : step (quiet mem) (.mem e) = some (quiet mem', some (e, r)) := by
  have hbusy : (quiet mem).busy e = false := by
    cases e with
    | writer w call =>
      simp only [St.busy]
      split <;> rfl
    | prepareRead | preparePublish | read | openStore | get | scan | write => rfl
  simp only [step, he, hbusy, Bool.or_self, Bool.false_eq_true, if_false]
  rw [show Memory.step (quiet mem).mem e = some (mem', r) from h]
  rfl

theorem step_complete {mem mem' : Memory.St} {e : Memory.Ev} {r : Reply} (h : Memory.step mem e = some (mem', r)) :
    ∃ tr, Run step (quiet mem) tr (quiet mem') ∧ tr.filterMap (·.2) = [(e, r)] := by
  cases he : toGate e with
  | false => exact ⟨_, Run.step Run.nil (mem_alone h he), rfl⟩
  | true =>
    cases e with
    | writer w call =>
      cases call with
      | acquire => exact gate_alone (show Memory.step mem (.writer w GateOp.acquire.call) = _ from h)
      | drop => exact gate_alone (show Memory.step mem (.writer w GateOp.release.call) = _ from h)
      | snapshot | openStore | get | scan | set | remove | commit => cases he
    | prepareRead | preparePublish | read | openStore | get | scan | write => cases he

/-- What is seen of the backend where each gate is a flag behind a mutex, with a condition
    variable, is what is seen of the one where a gate is tested and set at once. -/
theorem gates_exact {mem : Memory.St} {ctr : Trace Memory.Ev Reply} :
    Run Memory.step Memory.new ctr mem ↔
      ∃ tr s, Run step (quiet Memory.new) tr s ∧ tr.filterMap (·.2) = ctr ∧ s.mem = mem := by
  constructor
  · intro h
    have hquiet : ∃ tr, Run step (quiet Memory.new) tr (quiet mem) ∧ tr.filterMap (·.2) = ctr := by
      induction h with
      | nil => exact ⟨[], Run.nil, rfl⟩
      | @step ctr mem mem' e r _ hs ih =>
        obtain ⟨tr, hrun, hctr⟩ := ih
        obtain ⟨tr', hrun', hctr'⟩ := step_complete hs
        exact ⟨tr' ++ tr, hrun.trans hrun', by rw [List.filterMap_append, hctr, hctr']; rfl⟩
    obtain ⟨tr, hrun, hctr⟩ := hquiet
    exact ⟨tr, quiet mem, hrun, hctr, rfl⟩
  · rintro ⟨tr, s, hrun, rfl, rfl⟩
    exact refines_of_run hrun

end Refinement

/-! ## Who waits, and for whom -/

section Waiting

variable {s : St} {tr : Trace Ev (Option (Memory.Ev × Reply))}

/-- Nobody at a gate of the namespace can go on. -/
def Settled (s : St) (ns : String) : Prop :=
  ∀ w, step s (.gate ns w .go) = none ∧ ∀ woken, step s (.gate ns w (.notify woken)) = none

theorem settled_monitor {ns : String} {space : NamespacedState} (hspace : s.mem.spaces ns = some space) (hs : Placed s)
    (h : Settled s ns) : Monitor.Settled writerGate space.gate (s.gates ns) := by
  -- A handle that is at the gate can take there the steps of the monitor.
  have hnone : ∀ w e, allowed .dropped e = true → step s (.gate ns w e) = none → (s.gates ns).places w ≠ none →
      writerGate.step (space.gate, s.gates ns) (w, e) = none := by
    intro w e hallowed hstep hplace
    obtain ⟨p, hp⟩ := Option.ne_none_iff_exists'.mp hplace
    obtain ⟨phase, hw, -⟩ := hs ns w p hp
    have hallowed' : allowed phase e = true := by
      cases e with
      | call op => cases hallowed
      | go | notify woken | wake => rfl
    simp only [step, hw, hspace, hallowed', and_self, if_true, Option.map_eq_none_iff] at hstep
    exact hstep
  intro w
  by_cases hplace : (s.gates ns).places w = none
  · exact ⟨by simp [Monitor.step, hplace], fun woken => by simp [Monitor.step, hplace]⟩
  · exact ⟨hnone w .go rfl (h w).1 hplace, fun woken => hnone w (.notify woken) rfl ((h w).2 woken) hplace⟩

/-- An operation of the gate that is asleep is that of a handle still waiting for it. -/
theorem asleep_waiting (h : Run step (quiet Memory.new) tr s) {ns : String} {w : Nat} {op : GateOp}
    (hp : (s.gates ns).places w = some (.asleep op)) :
    op = .acquire ∧ s.mem.writers w = some ⟨ns, .waiting⟩ := by
  have hop : op = .acquire := by simpa [writerGate] using (gate_monitor h ns).waits w op hp
  obtain ⟨phase, hw, hnext⟩ := placed_run h ns w _ hp
  subst hop
  cases phase with
  | waiting => exact ⟨rfl, hw⟩
  | permitted | live staged | published | dropped => cases hnext

/-- No wakeup is lost. Where nobody at the gate can go on, all that have called it wait
    for one handle, which has the permit and has not been dropped. -/
theorem no_lost_wakeup (h : Run step (quiet Memory.new) tr s) {ns : String} (hsettled : Settled s ns) {w : Nat}
    {p : Monitor.Place GateOp} (hp : (s.gates ns).places w = some p) :
    p = .asleep .acquire ∧ s.mem.writers w = some ⟨ns, .waiting⟩ ∧
      ∃ w', s.mem.Holds w' ns ∧ (s.gates ns).places w' = none := by
  have hgated := reach_gated (refines_of_run h)
  have hmon := gate_monitor h ns
  obtain ⟨phase, hw, -⟩ := placed_run h ns w p hp
  obtain ⟨space, hspace⟩ := Option.isSome_iff_exists.mp (hgated.space w _ hw)
  have hflag : flag s.mem ns = space.gate := by simp only [flag, hspace, Option.map_some, Option.getD_some]
  rw [hflag] at hmon
  obtain ⟨hasleep, hnot⟩ := Monitor.settled hmon (settled_monitor hspace (placed_run h) hsettled)
  obtain ⟨op, rfl⟩ := hasleep w p hp
  obtain ⟨rfl, hwaiting⟩ := asleep_waiting h hp
  have hsleep : (s.gates ns).sleepers ≠ [] := List.ne_nil_of_mem ((hmon.sleepers w).mpr ⟨_, hp⟩)
  have hset : space.gate = true := by simpa [writerGate] using hnot hsleep
  obtain ⟨w', hholds⟩ := (hgated.gate_iff ns space hspace).mp hset
  refine ⟨rfl, hwaiting, w', hholds, ?_⟩
  by_contra hplace
  obtain ⟨p', hp'⟩ := Option.ne_none_iff_exists'.mp hplace
  obtain ⟨op', rfl⟩ := hasleep w' p' hp'
  obtain ⟨-, hw'⟩ := asleep_waiting h hp'
  obtain ⟨phase', hphase, hpermit⟩ := hholds
  rw [hw'] at hphase
  cases hphase
  cases hpermit

/-- The steps at a gate are bounded by what has been called there, and by how often a
    sleeper was woken for no reason. -/
theorem gate_goes (h : Run step (quiet Memory.new) tr s) (ns : String) :
    Monitor.goes (gateEvents ns tr) ≤ Monitor.cost (gateEvents ns tr) := by
  obtain ⟨mtr, hrun, hevents⟩ := gate_run h ns
  rw [← hevents]
  exact Monitor.goes_le hrun

end Waiting

/-- The handle 0 has the permit, and 1 has gone to sleep at the gate. -/
theorem contended_run : ∃ tr s, Run step (quiet Memory.new) tr s ∧ Settled s "users" ∧
    (s.gates "users").places 1 = some (.asleep .acquire) :=
  ⟨[(.gate "users" 1 .go, none), (.gate "users" 1 .go, none), (.gate "users" 1 (.call .acquire), none),
      (.mem (.write 1 "users"), some (.write 1 "users", .done)), (.gate "users" 0 .go, none),
      (.gate "users" 0 .go, some (.writer 0 .acquire, .done)), (.gate "users" 0 .go, none),
      (.gate "users" 0 (.call .acquire), none), (.mem (.write 0 "users"), some (.write 0 "users", .done)),
      (.mem (.preparePublish "users" []), some (.preparePublish "users" [], .done)),
      (.mem (.prepareRead "users" []), some (.prepareRead "users" [], .done))], _,
    Run.step (Run.step (Run.step (Run.step (Run.step (Run.step (Run.step (Run.step (Run.step (Run.step (Run.step Run.nil
      rfl) rfl) rfl) rfl) rfl) rfl) rfl) rfl) rfl) rfl) rfl,
    fun w => match w with
      | 0 | 1 | _ + 2 => ⟨rfl, fun _ => rfl⟩, rfl⟩

theorem no_lost_wakeup_users : ∃ (s : St) (w' : Nat), s.mem.writers 1 = some ⟨"users", .waiting⟩ ∧
    s.mem.Holds w' "users" ∧ (s.gates "users").places w' = none := by
  obtain ⟨tr, s, hrun, hsettled, hasleep⟩ := contended_run
  obtain ⟨-, hwaiting, w', hholds, hplace⟩ := no_lost_wakeup hrun hsettled hasleep
  exact ⟨s, w', hwaiting, hholds, hplace⟩

theorem gate_goes_users : ∃ tr s, Run step (quiet Memory.new) tr s ∧
    Monitor.goes (gateEvents "users" tr) ≤ Monitor.cost (gateEvents "users" tr) := by
  obtain ⟨tr, s, hrun, -, -⟩ := contended_run
  exact ⟨tr, s, hrun, gate_goes hrun "users"⟩

end Collette.Gate
