/-
  Collette.Store.LocksQueued — the locks of the in-memory backend where those who would
  share a lock may have to queue behind those who want it to themselves.

  The threads and their calls are those of `Collette.Store.Locks`. With `prefer` a thread
  that wants a lock shared also waits for each that wants it exclusively; without, the
  machine is the one there (`stepBy_false`). A thread steps less often with it, so what
  holds of all runs there holds here (`run_of_stepBy`).

  The holders of a stores lock still never wait, so nobody queues for one forever. For the
  map somebody may: `prepare` waits for a `write` that shares it, that one for the permit
  of a write handle, and the owner of the handle, in `read`, queues behind the `prepare`.

  - `deadlocked_by_iff`: a deadlock is `Crossed`, or such a `Ring`.
  - `circles_iff`: exactly four kinds of step bring one about (those not `OrderlyBy`).
  - `deadlock_free_by_iff`: a run is free of deadlocks, with a step left wherever a thread
    is held up, exactly when none of its steps is of these kinds.
  - `read_deadlocks`: a `read` under a write handle that deadlocks three threads.
-/

import Collette.Store.Locks

namespace Collette.Locks

section Machine

variable {T : Type} [DecidableEq T] [Fintype T]

/-- `step`, where `prefer` says whether sharers queue. -/
def stepBy (prefer : Bool) : Machine (St T) (T × Ev) Unit := fun s (t, e) =>
  if s.locking.Held prefer t then none
  else (act s.spaces (s.threads t) e).map fun (spaces, th) => (⟨spaces, Function.update s.threads t th⟩, ())

variable {s s' : St T} {prefer : Bool}

theorem stepBy_eq_some {t : T} {e : Ev} : stepBy prefer s (t, e) = some (s', ()) ↔ ¬ s.locking.Held prefer t ∧
    ∃ spaces th, act s.spaces (s.threads t) e = some (spaces, th) ∧ s' = ⟨spaces, Function.update s.threads t th⟩ := by
  by_cases hheld : s.locking.Held prefer t
  · simp [stepBy, hheld]
  · simp only [stepBy, hheld, if_false, not_false_eq_true, true_and, Option.map_eq_some_iff]
    constructor
    · intro ⟨⟨spaces, th⟩, hact, hs⟩
      cases hs
      exact ⟨spaces, th, hact, rfl⟩
    · intro ⟨spaces, th, hact, hs⟩
      exact ⟨(spaces, th), hact, by rw [hs]⟩

theorem step_of_stepBy {e : T × Ev} (h : stepBy prefer s e = some (s', ())) : step s e = some (s', ()) := by
  obtain ⟨t, e⟩ := e
  obtain ⟨hfree, hact⟩ := stepBy_eq_some.mp h
  exact step_eq_some.mpr ⟨Locking.not_blocked_of_not_held hfree, hact⟩

/-- Without the preference nothing more is waited for. -/
theorem stepBy_false : stepBy (T := T) false = step := by
  funext s e
  obtain ⟨t, e⟩ := e
  have hiff : ∀ s', stepBy false s (t, e) = some (s', ()) ↔ step s (t, e) = some (s', ()) := by
    intro s'
    refine ⟨step_of_stepBy, fun h => ?_⟩
    obtain ⟨hfree, hact⟩ := step_eq_some.mp h
    refine stepBy_eq_some.mpr ⟨fun ⟨t', hwaits⟩ => ?_, hact⟩
    rcases hwaits with hwaits | ⟨hprefer, -⟩
    · exact hfree ⟨t', hwaits⟩
    · cases hprefer
  exact Option.ext fun ⟨s', _⟩ => hiff s'

theorem run_of_stepBy {s0 : St T} {tr : Trace (T × Ev) Unit} (h : Run (stepBy prefer) s0 tr s) : Run step s0 tr s := by
  induction h with
  | nil => exact Run.nil
  | step _ hs ih => exact Run.step ih (step_of_stepBy hs)

end Machine

/-! ## Who waits for whom -/

section Deadlock

variable {T : Type} {s : St T} {t : T} {prefer : Bool}

/-- With the permit of a namespace, in `read` before the map. -/
def Thread.Queues (th : Thread) (ns : String) : Prop := th.permit = some ns ∧ ∃ ns', th.call = .read ns' .lockMap

/-- The owner of a permit queues for the map, behind one that waits to have it to itself,
    and that one waits for a thread that shares it and waits for the permit. -/
def Ring (s : St T) : Prop :=
  ∃ ns t p w, (s.threads t).Queues ns ∧ (s.threads p).AtMap ∧ (s.threads w).AtGate ns

theorem atMap_wants {th : Thread} (h : th.AtMap) : th.call.wants = some (.map, .exclusive) := by
  obtain ⟨ns, h⟩ := h
  rw [h]
  rfl

theorem atGate_wants {th : Thread} {ns : String} (h : th.AtGate ns) : th.call.wants = some (.gate ns, .exclusive) := by
  unfold Thread.AtGate at h
  rw [h]
  rfl

theorem atGate_holds {th : Thread} {ns : String} (h : th.AtGate ns) : (Lock.map, Mode.shared) ∈ th.holds := by
  unfold Thread.AtGate at h
  rw [mem_holds, h]
  exact Or.inr List.mem_cons_self

theorem queues_wants {th : Thread} {ns : String} (h : th.Queues ns) : th.call.wants = some (.map, .shared) := by
  obtain ⟨-, ns', h⟩ := h
  rw [h]
  rfl

theorem crossed_deadlocked_by (h : Crossed s) : Locking.DeadlockedBy (s.locking.Waits prefer) := by
  obtain ⟨ns, t, t', hpermit, hmap, hgate⟩ := h
  obtain ⟨hwaits, hwaits'⟩ := crossed_waits hpermit hmap hgate
  refine ⟨{t, t'}, ⟨t, Or.inl rfl⟩, fun u hu => ?_⟩
  rcases hu with rfl | rfl
  · exact ⟨t', Or.inr rfl, Or.inl hwaits⟩
  · exact ⟨t, Or.inl rfl, Or.inl hwaits'⟩

theorem ring_deadlocked (h : Ring s) : Locking.DeadlockedBy (s.locking.Waits true) := by
  obtain ⟨ns, t, p, w, hqueues, hmap, hgate⟩ := h
  refine ⟨{t, p, w}, ⟨t, Or.inl rfl⟩, fun u hu => ?_⟩
  rcases hu with rfl | rfl | rfl
  · exact ⟨p, Or.inr (Or.inl rfl), Or.inr ⟨rfl, .map, queues_wants hqueues, atMap_wants hmap⟩⟩
  · exact ⟨w, Or.inr (Or.inr rfl), Locking.held_of_holder (atMap_wants hmap) (atGate_holds hgate) rfl⟩
  · exact ⟨t, Or.inl rfl, Locking.held_of_holder (atGate_wants hgate) (gate_mem_holds.mpr ⟨hqueues.1, rfl⟩) rfl⟩

section Stuck

variable {S : Set T} (hstuck : Locking.StuckBy (s.locking.Waits prefer) S)

include hstuck

/-- Who queues for a stores lock queues behind one that waits for a holder, and those never wait. -/
theorem stuck_by_not_stores {ns : String} {m : Mode} (ht : t ∈ S) :
    (s.threads t).call.wants ≠ some (.stores ns, m) := by
  have hexclusive : ∀ u ∈ S, (s.threads u).call.wants ≠ some (.stores ns, .exclusive) := by
    intro u hu hwant
    obtain ⟨u', -, hwants, ⟨m', hheld, -⟩ | ⟨-, hm, -⟩⟩ := hstuck.of_wants hu hwant
    · exact hwants (wants_of_holds_stores hheld)
    · cases hm
  intro hwant
  obtain ⟨t', ht', hwants, ⟨m', hheld, -⟩ | ⟨-, -, hbehind⟩⟩ := hstuck.of_wants ht hwant
  · exact hwants (wants_of_holds_stores hheld)
  · exact hexclusive t' ht' hbehind

/-- Who waits for the map waits for one at a gate, to have the map to itself, or queues
    behind one that does. -/
theorem stuck_by_map {m : Mode} (ht : t ∈ S) (hwant : (s.threads t).call.wants = some (.map, m)) :
    ((s.threads t).AtMap ∧ ∃ t' ∈ S, ∃ ns, (s.threads t').AtGate ns) ∨
      prefer = true ∧ m = .shared ∧ ∃ t' ∈ S, (s.threads t').AtMap := by
  obtain ⟨t', ht', hwants, ⟨m', hheld, hconf⟩ | ⟨hprefer, hm, hbehind⟩⟩ := hstuck.of_wants ht hwant
  · obtain ⟨⟨lock, m''⟩, hnext⟩ := Option.ne_none_iff_exists'.mp hwants
    rcases wants_of_holds_map hheld hnext with ⟨ns, hstores⟩ | ⟨hshared, ns, hgate⟩
    · simp only at hstores
      subst hstores
      exact absurd hnext (stuck_by_not_stores hstuck ht')
    · refine Or.inl ⟨?_, t', ht', ns, hgate⟩
      rcases wants_map hwant with hmap | hm
      · exact hmap
      · rw [hm, hshared] at hconf
        cases hconf
  · refine Or.inr ⟨hprefer, hm, t', ht', ?_⟩
    rcases wants_map hbehind with hmap | hshared
    · exact hmap
    · cases hshared

/-- In every stuck set one waits at a gate. -/
theorem stuck_by_waits (ht : t ∈ S) : ∃ t' ∈ S, ∃ ns, (s.threads t').AtGate ns := by
  have hatMap : ∀ u ∈ S, (s.threads u).AtMap → ∃ t' ∈ S, ∃ ns, (s.threads t').AtGate ns := by
    intro u hu hmap
    rcases stuck_by_map hstuck hu (atMap_wants hmap) with ⟨-, hgate⟩ | ⟨-, hm, -⟩
    · exact hgate
    · cases hm
  obtain ⟨t', -, hwaits⟩ := hstuck t ht
  obtain ⟨⟨lock, m⟩, hwant⟩ := Option.ne_none_iff_exists'.mp hwaits.wants
  cases lock with
  | map =>
    rcases stuck_by_map hstuck ht hwant with ⟨-, hgate⟩ | ⟨-, -, u, hu, hmap⟩
    · exact hgate
    · exact hatMap u hu hmap
  | stores ns => exact absurd hwant (stuck_by_not_stores hstuck ht)
  | gate ns => exact ⟨t, ht, ns, wants_gate hwant⟩

/-- Who waits at a gate waits for the owner of its permit, and that one for the map. -/
theorem stuck_by_gate (hi : Inv s) {ns : String} (ht : t ∈ S) (hgate : (s.threads t).AtGate ns) :
    ∃ t' ∈ S, (s.threads t').permit = some ns ∧ ∃ m, (s.threads t').call.wants = some (.map, m) := by
  obtain ⟨t', ht', hwants, ⟨m, hheld, -⟩ | ⟨-, hm, -⟩⟩ := hstuck.of_wants ht (atGate_wants hgate)
  · obtain ⟨hpermit, -⟩ := gate_mem_holds.mp hheld
    refine ⟨t', ht', hpermit, ?_⟩
    obtain ⟨⟨lock, m'⟩, hnext⟩ := Option.ne_none_iff_exists'.mp hwants
    cases lock with
    | map => exact ⟨m', hnext⟩
    | stores ns' => exact absurd hnext (stuck_by_not_stores hstuck ht')
    | gate ns' =>
      rw [(hi t').waits ns' (Or.inr (wants_gate hnext))] at hpermit
      cases hpermit
  · cases hm

end Stuck

/-- With a permit one would share the map only in `read`. -/
theorem queues_of_wants {th : Thread} {ns : String} (hok : th.Ok) (hpermit : th.permit = some ns)
    (hwant : th.call.wants = some (.map, .shared)) : th.Queues ns := by
  refine ⟨hpermit, ?_⟩
  have hnot : ∀ ns', th.call ≠ .write ns' .lockMap := by
    intro ns' hcall
    rw [hok.waits ns' (Or.inl hcall)] at hpermit
    cases hpermit
  unfold Call.wants at hwant
  split at hwant
  all_goals grind

theorem deadlocked_by_iff (hi : Inv s) :
    Locking.DeadlockedBy (s.locking.Waits prefer) ↔ Crossed s ∨ prefer = true ∧ Ring s := by
  constructor
  · intro ⟨S, ⟨t0, ht0⟩, hstuck⟩
    obtain ⟨w, hw, ns, hgate⟩ := stuck_by_waits hstuck ht0
    obtain ⟨t, ht, hpermit, m, hwant⟩ := stuck_by_gate hstuck hi hw hgate
    rcases stuck_by_map hstuck ht hwant with ⟨hmap, -⟩ | ⟨hprefer, rfl, p, -, hmap⟩
    · exact Or.inl ⟨ns, t, w, hpermit, hmap, hgate⟩
    · exact Or.inr ⟨hprefer, ns, t, p, w, queues_of_wants (hi t) hpermit hwant, hmap, hgate⟩
  · intro h
    rcases h with hcrossed | ⟨hprefer, hring⟩
    · exact crossed_deadlocked_by hcrossed
    · rw [hprefer]
      exact ring_deadlocked hring

end Deadlock

/-! ## Steps -/

section Steps

variable {T : Type} {s s' : St T} {prefer : Bool}

/-- Nobody waits to have the map to itself while the owner of a permit that is waited for
    queues, and no such owner goes to queue behind one that does. -/
def Unqueued (s : St T) (e : T × Ev) : Prop :=
  match e.2 with
  | .prepare _ => ∀ ns t w, (s.threads t).Queues ns → ¬ (s.threads w).AtGate ns
  | .read _ => ∀ ns, (s.threads e.1).permit = some ns → ∀ p w, (s.threads p).AtMap → ¬ (s.threads w).AtGate ns
  | _ => True

def OrderlyBy (prefer : Bool) (s : St T) (e : T × Ev) : Prop := Orderly s e ∧ (prefer = true → Unqueued s e)

theorem act_queues {spaces spaces' : List String} {th th' : Thread} {e : Ev} {ns : String}
    (h : act spaces th e = some (spaces', th')) (hqueues : th'.Queues ns) :
    (∃ ns', e = .read ns') ∧ th.permit = some ns := by
  by_cases he : e = .go
  · subst he
    have hadvance : advance spaces th = some (spaces', th') := h
    obtain ⟨-, ns', hcall⟩ := hqueues
    unfold advance at hadvance
    split at hadvance
    all_goals grind
  · obtain ⟨-, -, call, hcall, rfl⟩ := act_of_ne_go he h
    obtain ⟨hpermit, ns', hread⟩ := hqueues
    cases enter_cases hcall with
    | read ns => exact ⟨⟨ns, rfl⟩, hpermit⟩
    | _ => cases hread

/-- A thread between calls plays no part in a ring. -/
theorem not_idle_of_queues {th : Thread} {ns : String} (h : th.Queues ns) : th.call ≠ .idle := by
  obtain ⟨-, ns', h⟩ := h
  rw [h]
  nofun

theorem not_idle_of_atMap {th : Thread} (h : th.AtMap) : th.call ≠ .idle := by
  obtain ⟨ns, h⟩ := h
  rw [h]
  nofun

theorem not_idle_of_atGate {th : Thread} {ns : String} (h : th.AtGate ns) : th.call ≠ .idle := by
  unfold Thread.AtGate at h
  rw [h]
  nofun

variable [DecidableEq T] [Fintype T]

/-- A ring is closed by the one that waits to have the map to itself, or by the one that
    queues: behind a thread that waits so nobody comes to a gate. -/
theorem ring_of_step {e : T × Ev} (h : stepBy true s e = some (s', ())) (hno : ¬ Ring s) (hring : Ring s') :
    ¬ Unqueued s e := by
  obtain ⟨u, e⟩ := e
  obtain ⟨hfree, spaces, th, hact, rfl⟩ := stepBy_eq_some.mp h
  obtain ⟨ns, t, p, w, hqueues, hmap, hgate⟩ := hring
  by_cases hp : p = u
  · subst hp
    simp only [Function.update_self] at hmap
    obtain ⟨ns', rfl⟩ := (act_atMap hact).mp hmap
    have ht : t ≠ p := by
      intro ht
      subst ht
      simp only [Function.update_self] at hqueues
      obtain ⟨ns1, h1⟩ := hmap
      obtain ⟨-, ns2, h2⟩ := hqueues
      rw [h1] at h2
      cases h2
    have hw : w ≠ p := by
      intro hw
      subst hw
      simp only [Function.update_self] at hgate
      exact not_atMap_atGate hmap hgate
    simp only [Function.update_of_ne ht] at hqueues
    simp only [Function.update_of_ne hw] at hgate
    exact fun horderly => horderly ns t w hqueues hgate
  · simp only [Function.update_of_ne hp] at hmap
    by_cases hw : w = u
    · subst hw
      simp only [Function.update_self] at hgate
      obtain ⟨rfl, hcall, -⟩ := (act_atGate hact).mp hgate
      have hwant : s.locking.wants w = some (.map, .shared) := by
        simp [St.locking, hcall, Call.wants]
      exact absurd ⟨p, Or.inr ⟨rfl, .map, hwant, atMap_wants hmap⟩⟩ hfree
    · simp only [Function.update_of_ne hw] at hgate
      by_cases ht : t = u
      · subst ht
        simp only [Function.update_self] at hqueues
        obtain ⟨⟨ns', rfl⟩, hpermit⟩ := act_queues hact hqueues
        exact fun horderly => horderly ns hpermit p w hmap hgate
      · simp only [Function.update_of_ne ht] at hqueues
        exact absurd ⟨ns, t, p, w, hqueues, hmap, hgate⟩ hno

theorem ring_of_not_unqueued {e : T × Ev} (h : stepBy prefer s e = some (s', ())) (hnot : ¬ Unqueued s e) :
    Ring s' := by
  obtain ⟨u, e⟩ := e
  obtain ⟨-, spaces, th, hact, rfl⟩ := stepBy_eq_some.mp h
  cases e with
  | prepare ns' =>
    simp only [Unqueued, not_forall, not_not] at hnot
    obtain ⟨ns, t, w, hqueues, hgate⟩ := hnot
    obtain ⟨hidle, -, -⟩ := act_of_ne_go (by nofun) hact
    have ht : t ≠ u := fun heq => not_idle_of_queues hqueues (heq ▸ hidle)
    have hw : w ≠ u := fun heq => not_idle_of_atGate hgate (heq ▸ hidle)
    refine ⟨ns, t, u, w, ?_, ?_, ?_⟩
    · simp only [Function.update_of_ne ht]
      exact hqueues
    · simp only [Function.update_self]
      exact (act_atMap hact).mpr ⟨ns', rfl⟩
    · simp only [Function.update_of_ne hw]
      exact hgate
  | read ns' =>
    simp only [Unqueued, not_forall, not_not] at hnot
    obtain ⟨ns, hpermit, p, w, hmap, hgate⟩ := hnot
    obtain ⟨hidle, -, call, hcall, rfl⟩ := act_of_ne_go (by nofun) hact
    have hp : p ≠ u := fun heq => not_idle_of_atMap hmap (heq ▸ hidle)
    have hw : w ≠ u := fun heq => not_idle_of_atGate hgate (heq ▸ hidle)
    refine ⟨ns, u, p, w, ?_, ?_, ?_⟩
    · simp only [Function.update_self]
      cases hcall
      exact ⟨hpermit, ns', rfl⟩
    · simp only [Function.update_of_ne hp]
      exact hmap
    · simp only [Function.update_of_ne hw]
      exact hgate
  | _ => exact absurd trivial hnot

theorem circles_iff {e : T × Ev} (h : stepBy prefer s e = some (s', ())) (hi : Inv s)
    (hfree : ¬ Locking.DeadlockedBy (s.locking.Waits prefer)) :
    Locking.DeadlockedBy (s'.locking.Waits prefer) ↔ ¬ OrderlyBy prefer s e := by
  have hstep := step_of_stepBy h
  rw [deadlocked_by_iff hi] at hfree
  rw [deadlocked_by_iff (inv_step hstep hi)]
  have hcrossed : ¬ Crossed s := fun hc => hfree (Or.inl hc)
  constructor
  · intro hdead horderly
    rcases hdead with hc | ⟨rfl, hring⟩
    · exact (crossed_iff hstep hcrossed).mp hc horderly.1
    · exact ring_of_step h (fun hno => hfree (Or.inr ⟨rfl, hno⟩)) hring (horderly.2 rfl)
  · intro hnot
    by_cases horderly : Orderly s e
    · have hnot' : ∃ _ : prefer = true, ¬ Unqueued s e := by
        by_contra hno
        exact hnot ⟨horderly, fun hprefer => not_not.mp fun hu => hno ⟨hprefer, hu⟩⟩
      obtain ⟨hprefer, hu⟩ := hnot'
      exact Or.inr ⟨hprefer, ring_of_not_unqueued h hu⟩
    · exact Or.inl (crossed_of_not_orderly hstep horderly)

/-- If some thread is held up, then one in a call, or one with a permit, can step. -/
def ProgressBy (prefer : Bool) (s : St T) : Prop :=
  (∃ t, s.locking.Held prefer t) →
    ∃ t, ((s.threads t).call ≠ .idle ∨ (s.threads t).permit ≠ none) ∧ ∃ e s', stepBy prefer s (t, e) = some (s', ())

theorem progress_by_of_free (h : ¬ Locking.DeadlockedBy (s.locking.Waits prefer)) : ProgressBy prefer s := by
  intro hsome
  obtain ⟨t, t', hwaits⟩ := hsome
  obtain ⟨u, u', hu, hfree⟩ := Locking.exists_free_by h hwaits
  have hheld : ¬ s.locking.Held prefer u' := fun hheld => hheld.elim hfree
  by_cases hidle : (s.threads u').call = .idle
  · obtain ⟨⟨lock, m⟩, hwant⟩ := Option.ne_none_iff_exists'.mp hu.wants
    obtain ⟨ns, hpermit⟩ : ∃ ns, (s.threads u').permit = some ns := by
      rcases hu.of_wants hwant with ⟨m', hholds, -⟩ | ⟨-, -, hbehind⟩
      · rcases mem_holds.mp hholds with ⟨ns, hpermit, -⟩ | hcall
        · exact ⟨ns, hpermit⟩
        · rw [hidle] at hcall
          cases hcall
      · have hwants : (s.threads u').call.wants = some (lock, .exclusive) := hbehind
        rw [hidle] at hwants
        cases hwants
    have hact : act s.spaces (s.threads u') .drop =
        some (s.spaces, { s.threads u' with call := .commit ns .releasing }) := by
      simp [act, hidle, enter, hpermit]
    refine ⟨u', Or.inr ?_, .drop, _, stepBy_eq_some.mpr ⟨hheld, _, _, hact, rfl⟩⟩
    rw [hpermit]
    exact Option.some_ne_none ns
  · have hgoes : advance s.spaces (s.threads u') ≠ none := advance_ne_none hidle
    obtain ⟨⟨spaces, th⟩, hact⟩ := Option.ne_none_iff_exists'.mp hgoes
    exact ⟨u', Or.inl hidle, .go, _, stepBy_eq_some.mpr ⟨hheld, spaces, th, hact, rfl⟩⟩

/-- With or without the preference, a run is free of deadlocks, with a step left wherever
    a thread is held up, exactly when each of its steps is orderly. -/
theorem deadlock_free_by_iff {tr : Trace (T × Ev) Unit} (h : Run (stepBy prefer) start tr s) :
    (∀ later earlier s1, tr = later ++ earlier → Run (stepBy prefer) start earlier s1 →
        ProgressBy prefer s1 ∧ ¬ Locking.DeadlockedBy (s1.locking.Waits prefer)) ↔
      Run.Meets (stepBy prefer) start (OrderlyBy prefer) tr := by
  have hnever := Run.never_iff (B := fun s => Locking.DeadlockedBy (s.locking.Waits prefer)) (C := OrderlyBy prefer) h
    ?_ ?_
  · rw [← hnever]
    constructor
    · intro hfree later earlier s1 htr h1
      exact (hfree later earlier s1 htr h1).2
    · intro hfree later earlier s1 htr h1
      have hdead := hfree later earlier s1 htr h1
      exact ⟨progress_by_of_free hdead, hdead⟩
  · rw [deadlocked_by_iff inv_start]
    intro hdead
    rcases hdead with ⟨ns, t, t', hpermit, -⟩ | ⟨-, ns, t, p, w, ⟨hpermit, -⟩, -⟩
    · cases hpermit
    · cases hpermit
  · intro tr s e s' a hrun hs hfree
    exact circles_iff hs (inv_of_run (run_of_stepBy hrun)) hfree

end Steps

/-- Thread `none` has a write handle, `some true` waits in `write` for its gate, and
    `some false` in `prepare` for the map. Then `none` calls `read`. -/
def readUnderHandle : List (Option Bool × Ev) :=
  [(none, .read "users"), (some false, .prepare "orders"), (some true, .go), (some true, .write "users"), (none, .go),
    (none, .go), (none, .go), (none, .go), (none, .go), (none, .write "users"), (none, .go), (none, .go),
    (none, .prepare "users")]

theorem run_readUnderHandle : ∃ tr s, Run (stepBy true) start tr s ∧
    s.threads none = ⟨some "users", .read "users" .lockMap⟩ ∧
    s.threads (some false) = ⟨none, .prepare "orders" .lockMap⟩ ∧
    s.threads (some true) = ⟨none, .write "users" .acquire⟩ := by
  have hplay : (Machine.play (stepBy true) start readUnderHandle).any (fun x =>
      x.2.threads none = ⟨some "users", .read "users" .lockMap⟩ ∧
        x.2.threads (some false) = ⟨none, .prepare "orders" .lockMap⟩ ∧
        x.2.threads (some true) = ⟨none, .write "users" .acquire⟩) = true := by
    decide +kernel
  obtain ⟨x, hx, hends⟩ := (Option.any_eq_true _ _).mp hplay
  exact ⟨x.1, x.2, run_of_play hx, of_decide_eq_true hends⟩

theorem deadlock_free_by_iff_read : ∃ tr, ∃ s : St (Option Bool), Run (stepBy true) start tr s ∧
    ((∀ later earlier s1, tr = later ++ earlier → Run (stepBy true) start earlier s1 →
        ProgressBy true s1 ∧ ¬ Locking.DeadlockedBy (s1.locking.Waits true)) ↔
      Run.Meets (stepBy true) start (OrderlyBy true) tr) := by
  obtain ⟨tr, s, hrun, -⟩ := run_readUnderHandle
  exact ⟨tr, s, hrun, deadlock_free_by_iff hrun⟩

/-- Where sharers queue, none of the three has a step left; where they overtake, the reader goes on. -/
theorem read_deadlocks : ∃ tr, ∃ s : St (Option Bool), Run (stepBy true) start tr s ∧
    Locking.DeadlockedBy (s.locking.Waits true) ∧ ¬ ProgressBy true s ∧ ¬ s.locking.Deadlocked := by
  obtain ⟨tr, s, hrun, h0, h1, h2⟩ := run_readUnderHandle
  have hqueues : (s.threads none).Queues "users" := by
    rw [h0]
    exact ⟨rfl, "users", rfl⟩
  have hmap : (s.threads (some false)).AtMap := by
    rw [h1]
    exact ⟨"orders", rfl⟩
  have hgate : (s.threads (some true)).AtGate "users" := by
    rw [h2]
    rfl
  refine ⟨tr, s, hrun, ring_deadlocked ⟨"users", none, some false, some true, hqueues, hmap, hgate⟩, ?_, ?_⟩
  · intro hprogress
    have hheld : ∀ t : Option Bool, s.locking.Held true t := by
      intro t
      rcases t with _ | _ | _
      · exact ⟨some false, Or.inr ⟨rfl, .map, queues_wants hqueues, atMap_wants hmap⟩⟩
      · exact ⟨some true, Locking.held_of_holder (atMap_wants hmap) (atGate_holds hgate) rfl⟩
      · exact ⟨none, Locking.held_of_holder (atGate_wants hgate) (gate_mem_holds.mpr ⟨hqueues.1, rfl⟩) rfl⟩
    obtain ⟨t, -, e, s', hs⟩ := hprogress ⟨none, hheld none⟩
    exact (stepBy_eq_some.mp hs).1 (hheld t)
  · rw [deadlocked_iff (inv_of_run (run_of_stepBy hrun))]
    intro ⟨ns, t, t', hpermit, hatMap, _⟩
    rcases t with _ | _ | _
    · rw [h0] at hatMap
      obtain ⟨ns', hcall⟩ := hatMap
      cases hcall
    · rw [h1] at hpermit
      cases hpermit
    · rw [h2] at hpermit
      cases hpermit

end Collette.Locks
