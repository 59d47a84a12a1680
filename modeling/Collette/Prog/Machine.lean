/-
  Collette.Prog.Machine — machines that take events one at a time and answer them, and
  their runs.

  `step s e` is `none` where the event cannot happen in `s`; otherwise it is the state
  after it and its answer. A trace lists the events of a run with their answers, the
  newest first, so what happened before an event is the tail behind it.

  - `Run.invariant`: what holds at the start and is kept by each step holds of every run.
  - `Run.append_iff`: a run of `later ++ earlier` is a run of the one after the other.
  - `Run.invariant_of_meets`: the same of the runs all of whose steps meet a condition.
  - `Run.never_iff`: where exactly the steps that do not meet it come to a bad state, a run
    has no bad state exactly when all its steps meet it.
  - `Run.simulate`: where each step of one machine is a run of another, each run is.
  - `Run.agree`: two machines given the same events, related by a relation that steps
    keep while they answer alike, answer every event alike.
-/

import Mathlib

namespace Collette

variable {σ τ ε α : Type}

abbrev Machine (σ ε α : Type) := σ → ε → Option (σ × α)

abbrev Trace (ε α : Type) := List (ε × α)

inductive Run (step : Machine σ ε α) (s0 : σ) : Trace ε α → σ → Prop
  | nil : Run step s0 [] s0
  | step {tr : Trace ε α} {s s' : σ} {e : ε} {a : α} :
      Run step s0 tr s → step s e = some (s', a) → Run step s0 ((e, a) :: tr) s'

namespace Run

variable {m : Machine σ ε α} {s0 s s' : σ} {tr : Trace ε α}

theorem invariant {I : Trace ε α → σ → Prop} (h0 : I [] s0)
    (hstep : ∀ tr s e s' a, Run m s0 tr s → I tr s → m s e = some (s', a) → I ((e, a) :: tr) s')
    (h : Run m s0 tr s) : I tr s := by
  induction h with
  | nil => exact h0
  | step hr hs ih => exact hstep _ _ _ _ _ hr ih hs

theorem deterministic (h : Run m s0 tr s) (h' : Run m s0 tr s') : s = s' := by
  induction h generalizing s' with
  | nil => cases h'; rfl
  | step _ hs ih =>
    cases h' with
    | step hr' hs' =>
      rw [ih hr', hs'] at hs
      cases hs
      rfl

theorem append_iff {later earlier : Trace ε α} :
    Run m s0 (later ++ earlier) s ↔ ∃ s1, Run m s0 earlier s1 ∧ Run m s1 later s := by
  induction later generalizing s with
  | nil =>
    constructor
    · intro h
      exact ⟨s, h, Run.nil⟩
    · intro ⟨s1, h1, h2⟩
      cases h2
      exact h1
  | cons ea later ih =>
    constructor
    · intro h
      cases h with
      | step hr hs =>
        obtain ⟨s1, h1, h2⟩ := ih.mp hr
        exact ⟨s1, h1, Run.step h2 hs⟩
    · intro ⟨s1, h1, h2⟩
      cases h2 with
      | step hr hs => exact Run.step (ih.mpr ⟨s1, h1, hr⟩) hs

/-- The state an event found, and the one it left. -/
theorem around {later earlier : Trace ε α} {e : ε} {a : α} (h : Run m s0 (later ++ (e, a) :: earlier) s) :
    ∃ s1 s2, Run m s0 earlier s1 ∧ m s1 e = some (s2, a) ∧ Run m s2 later s := by
  obtain ⟨s2, h2, hlater⟩ := append_iff.mp h
  cases h2 with
  | step h1 hs => exact ⟨_, s2, h1, hs, hlater⟩

/-- What every step keeps, a run keeps. -/
theorem keeps {K : σ → Prop} (hstep : ∀ s e s' a, m s e = some (s', a) → K s → K s') (h : Run m s0 tr s) (h0 : K s0) :
    K s :=
  h.invariant (I := fun _ s => K s) h0 fun _ s e s' a _ hk hs => hstep s e s' a hs hk

theorem trans {later earlier : Trace ε α} {s1 : σ} (h1 : Run m s0 earlier s1) (h2 : Run m s1 later s) :
    Run m s0 (later ++ earlier) s := append_iff.mpr ⟨s1, h1, h2⟩

/-- Where each step of one machine is a run of the other, between related states, each run is. -/
theorem simulate {ε' α' : Type} {n : Machine τ ε' α'} {R : σ → τ → Prop} {t0 : τ}
    (hstep : ∀ s e s' a t, m s e = some (s', a) → R s t → ∃ tr t', Run n t tr t' ∧ R s' t') (h : Run m s0 tr s)
    (h0 : R s0 t0) : ∃ tr' t, Run n t0 tr' t ∧ R s t := by
  induction h with
  | nil => exact ⟨[], t0, Run.nil, h0⟩
  | step _ hs ih =>
    obtain ⟨tr1, t1, hrun, hrel⟩ := ih
    obtain ⟨tr2, t2, hrun', hrel'⟩ := hstep _ _ _ _ t1 hs hrel
    exact ⟨tr2 ++ tr1, t2, hrun.trans hrun', hrel'⟩

/-- Every step of the run `tr` met `C` in the state it was taken from. -/
def Meets (m : Machine σ ε α) (s0 : σ) (C : σ → ε → Prop) (tr : Trace ε α) : Prop :=
  ∀ later e a earlier s1, tr = later ++ (e, a) :: earlier → Run m s0 earlier s1 → C s1 e

section Meets

variable {C : σ → ε → Prop}

theorem Meets.earlier (later : Trace ε α) {earlier : Trace ε α} (h : Meets m s0 C (later ++ earlier)) :
    Meets m s0 C earlier := by
  intro later' e a earlier' s1 hsplit hrun
  exact h (later ++ later') e a earlier' s1 (by rw [hsplit, List.append_assoc]) hrun

theorem Meets.head {e : ε} {a : α} (h : Meets m s0 C ((e, a) :: tr)) (hrun : Run m s0 tr s) : C s e :=
  h [] e a tr s rfl hrun

theorem meets_cons {e : ε} {a : α} (h : Meets m s0 C tr) (hC : ∀ s1, Run m s0 tr s1 → C s1 e) :
    Meets m s0 C ((e, a) :: tr) := by
  intro later e' a' earlier s1 hsplit hrun
  cases later with
  | nil =>
    simp only [List.nil_append, List.cons.injEq, Prod.mk.injEq] at hsplit
    obtain ⟨⟨rfl, rfl⟩, rfl⟩ := hsplit
    exact hC s1 hrun
  | cons x later =>
    simp only [List.cons_append, List.cons.injEq] at hsplit
    exact h later e' a' earlier s1 hsplit.2 hrun

/-- `Run.invariant`, of the runs whose steps meet `C`. -/
theorem invariant_of_meets {I : Trace ε α → σ → Prop} (h0 : I [] s0)
    (hstep : ∀ tr s e s' a, Run m s0 tr s → I tr s → C s e → m s e = some (s', a) → I ((e, a) :: tr) s')
    (h : Run m s0 tr s) (hC : Meets m s0 C tr) : I tr s := by
  induction h with
  | nil => exact h0
  | @step tr s s' e a hr hs ih =>
    exact hstep tr s e s' a hr (ih (Meets.earlier [(e, a)] hC)) (hC.head hr) hs

/-- Where a step comes to a bad state exactly when it does not meet `C`, a run sees none
    exactly when all its steps do. -/
theorem never_iff {B : σ → Prop} (h : Run m s0 tr s) (h0 : ¬ B s0)
    (hstep : ∀ tr s e s' a, Run m s0 tr s → m s e = some (s', a) → ¬ B s → (B s' ↔ ¬ C s e)) :
    (∀ later earlier s1, tr = later ++ earlier → Run m s0 earlier s1 → ¬ B s1) ↔ Meets m s0 C tr := by
  constructor
  · intro hfree later e a earlier s1 htr h1
    subst htr
    obtain ⟨s1', s2, h1', hs, hlater⟩ := h.around
    cases h1.deterministic h1'
    have hbefore := hfree (later ++ [(e, a)]) earlier s1 (by simp) h1
    have hafter := hfree later ((e, a) :: earlier) s2 rfl (Run.step h1 hs)
    rw [hstep earlier s1 e s2 a h1 hs hbefore] at hafter
    exact not_not.mp hafter
  · intro hC later earlier s1 htr h1
    subst htr
    refine Run.invariant_of_meets (I := fun _ s => ¬ B s) h0 (fun tr s e s' a hrun hfree hmeets hs => ?_) h1
      (Meets.earlier later hC)
    rw [hstep tr s e s' a hrun hs hfree]
    exact not_not.mpr hmeets

end Meets

end Run

/-- Two machines given the same events. -/
def Machine.pair {β : Type} (m : Machine σ ε α) (m' : Machine τ ε β) : Machine (σ × τ) ε (α × β) := fun s e =>
  match m s.1 e, m' s.2 e with
  | some (s', a), some (t', b) => some ((s', t'), (a, b))
  | _, _ => none

theorem Machine.pair_eq_some {β : Type} {m : Machine σ ε α} {m' : Machine τ ε β} {s : σ × τ} {e : ε} {s' : σ × τ}
    {a : α × β} : m.pair m' s e = some (s', a) ↔ m s.1 e = some (s'.1, a.1) ∧ m' s.2 e = some (s'.2, a.2) := by
  unfold Machine.pair
  constructor
  · intro h
    split at h
    · rename_i h1 h2
      cases h
      exact ⟨h1, h2⟩
    · cases h
  · intro ⟨h1, h2⟩
    rw [h1, h2]

/-- Machines whose states stay related, answering alike, while `C` holds of the steps
    they take together and `K` of the answers: every event of a run of the pair is answered alike. -/
theorem Run.agree {m : Machine σ ε α} {m' : Machine τ ε α} {R : σ → τ → Prop} {C : σ × τ → ε → Prop} {K : α → Prop}
    {s0 s : σ × τ} {tr : Trace ε (α × α)} (h0 : R s0.1 s0.2)
    (hstep : ∀ s t e s' t' a b, R s t → C (s, t) e → m s e = some (s', a) → m' t e = some (t', b) → K a → K b →
      a = b ∧ R s' t')
    (h : Run (m.pair m') s0 tr s) (hC : Run.Meets (m.pair m') s0 C tr) (hK : ∀ x ∈ tr, K x.2.1 ∧ K x.2.2) :
    (∀ x ∈ tr, x.2.1 = x.2.2) ∧ R s.1 s.2 := by
  induction h with
  | nil =>
    constructor
    · intro x hx
      cases hx
    · exact h0
  | @step tr s s' e a hr hs ih =>
    obtain ⟨htr, hrel⟩ := ih (Run.Meets.earlier [(e, a)] hC) fun x hx => hK x (List.mem_cons_of_mem _ hx)
    obtain ⟨h1, h2⟩ := Machine.pair_eq_some.mp hs
    obtain ⟨ha, hb⟩ := hK (e, a) List.mem_cons_self
    obtain ⟨hab, hrel'⟩ := hstep s.1 s.2 e s'.1 s'.2 a.1 a.2 hrel (hC.head hr) h1 h2 ha hb
    constructor
    · intro x hx
      rcases List.mem_cons.mp hx with rfl | hx
      · exact hab
      · exact htr x hx
    · exact hrel'

/-- The run on given events, the newest first. -/
def Machine.play (m : Machine σ ε α) (s0 : σ) : List ε → Option (Trace ε α × σ)
  | [] => some ([], s0)
  | e :: es =>
    match m.play s0 es with
    | none => none
    | some (tr, s) => (m s e).map fun x => ((e, x.2) :: tr, x.1)

theorem run_of_play {m : Machine σ ε α} {s0 s : σ} {es : List ε} {tr : Trace ε α} (h : m.play s0 es = some (tr, s)) :
    Run m s0 tr s := by
  induction es generalizing tr s with
  | nil =>
    cases h
    exact Run.nil
  | cons e es ih =>
    unfold Machine.play at h
    split at h
    · cases h
    · rename_i tr' s' hplay
      obtain ⟨x, hx, h⟩ := Option.map_eq_some_iff.mp h
      cases h
      exact Run.step (ih hplay) hx

end Collette
