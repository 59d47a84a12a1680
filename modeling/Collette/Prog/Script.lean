/-
  Collette.Prog.Script — programs as the calls they make, one after another.

  A script is at its end, or makes a call and goes on with what is answered. Run alone
  on a machine it takes a step of the machine for each of its calls; between two of them
  others may take theirs, and it is still known what it goes on with.

  - `exec_bind`: alone, a sequence of scripts is one run after the other.
  - `Plays P Q E q p`: from related states, `q` alone on the machine ends as the program
    `p` does, in related states again. One rule for each way to build the two.
-/

import Collette.Prog.Hoare
import Collette.Prog.Machine

namespace Collette

variable {σ τ ι ρ ε α β γ δ : Type}

/-- The outcome with another value returned. -/
def Outcome.map (f : α → β) : Outcome ε α → Outcome ε β
  | .ok a => .ok (f a)
  | .error e => .error e
  | .panic => .panic

inductive Script (ι ρ ε α : Type) where
  | ended (o : Outcome ε α)
  | call (c : ι) (k : ρ → Script ι ρ ε α)

namespace Script

protected def bind (q : Script ι ρ ε α) (f : α → Script ι ρ ε β) : Script ι ρ ε β :=
  match q with
  | .ended (.ok a) => f a
  | .ended (.error e) => .ended (.error e)
  | .ended .panic => .ended .panic
  | .call c k => .call c fun r => (k r).bind f

instance : Monad (Script ι ρ ε) where
  pure a := .ended (.ok a)
  bind := Script.bind

def throw (e : ε) : Script ι ρ ε α := .ended (.error e)

def ofExcept : Except ε α → Script ι ρ ε α
  | .ok a => pure a
  | .error e => throw e

/-- A call whose answer is read by `f`; an answer that cannot be read is a panic. -/
def ask (c : ι) (f : ρ → Option α) : Script ι ρ ε α :=
  .call c fun r => .ended (((f r).map .ok).getD .panic)

/-- The script alone on a machine; `none` where it waits. -/
def exec (m : Machine σ ι ρ) : Script ι ρ ε α → σ → Option (Outcome ε α × σ)
  | .ended o, s => some (o, s)
  | .call c k, s =>
    match m s c with
    | some (s', r) => (k r).exec m s'
    | none => none

section Exec

variable {m : Machine σ ι ρ} {s s' : σ}

@[simp] theorem exec_ended (o : Outcome ε α) (s : σ) : (Script.ended o : Script ι ρ ε α).exec m s = some (o, s) := rfl

theorem exec_call {c : ι} {r : ρ} (h : m s c = some (s', r)) (k : ρ → Script ι ρ ε α) :
    (Script.call c k).exec m s = (k r).exec m s' := by
  simp only [exec, h]

/-- A script that ends alone, and is at a call, makes it. -/
theorem call_of_exec {c : ι} {k : ρ → Script ι ρ ε α} {x : Outcome ε α × σ} (h : (Script.call c k).exec m s = some x) :
    ∃ s' r, m s c = some (s', r) ∧ (k r).exec m s' = some x := by
  simp only [exec] at h
  split at h
  · rename_i s' r hstep
    exact ⟨s', r, hstep, h⟩
  · cases h

theorem exec_bind (q : Script ι ρ ε α) (f : α → Script ι ρ ε β) (s : σ) :
    (q >>= f).exec m s = (q.exec m s).bind fun x =>
      match x.1 with
      | .ok a => (f a).exec m x.2
      | .error e => some (.error e, x.2)
      | .panic => some (.panic, x.2) := by
  show (q.bind f).exec m s = _
  induction q generalizing s with
  | ended o => cases o <;> rfl
  | call c k ih =>
    simp only [Script.bind, exec]
    cases m s c with
    | none => rfl
    | some x => exact ih x.2 x.1

/-- Returning another value changes nothing else. -/
theorem exec_map (q : Script ι ρ ε α) (f : α → β) (s : σ) :
    (q >>= fun a => (pure (f a) : Script ι ρ ε β)).exec m s = (q.exec m s).map fun x => (x.1.map f, x.2) := by
  rw [exec_bind]
  cases q.exec m s with
  | none => rfl
  | some x =>
    obtain ⟨o, s'⟩ := x
    cases o <;> rfl

end Exec

/-! ## Scripts and programs -/

/-- The two ends are of one kind; what they return is related, and so are the states. -/
def Alike (Q : α → β → σ → τ → Prop) (E : σ → τ → Prop) : Outcome ε α × σ → Outcome ε β × τ → Prop
  | (.ok a, s), (.ok b, t) => Q a b s t
  | (.error e, s), (.error e', t) => e = e' ∧ E s t
  | (.panic, s), (.panic, t) => E s t
  | _, _ => False

/-- From states in `P` the script, alone on `m`, and the program end alike. -/
def Plays (m : Machine σ ι ρ) (P : σ → τ → Prop) (Q : α → β → σ → τ → Prop) (E : σ → τ → Prop)
    (q : Script ι ρ ε α) (p : Prog τ ε β) : Prop :=
  ∀ s t, P s t → ∃ x, q.exec m s = some x ∧ Alike Q E x (p t)

section Plays

variable {m : Machine σ ι ρ} {P P' : σ → τ → Prop} {Q Q' : α → β → σ → τ → Prop} {E E' : σ → τ → Prop}
  {q : Script ι ρ ε α} {p : Prog τ ε β}

theorem Alike.mono {x : Outcome ε α × σ} {y : Outcome ε β × τ} (h : Alike Q E x y)
    (hQ : ∀ a b s t, Q a b s t → Q' a b s t) (hE : ∀ s t, E s t → E' s t) : Alike Q' E' x y := by
  obtain ⟨o, s⟩ := x
  obtain ⟨o', t⟩ := y
  cases o with
  | ok a =>
    cases o' with
    | ok b => exact hQ a b s t h
    | error e => exact h.elim
    | panic => exact h.elim
  | error e =>
    cases o' with
    | ok b => exact h.elim
    | error e' => exact ⟨h.1, hE s t h.2⟩
    | panic => exact h.elim
  | panic =>
    cases o' with
    | ok b => exact h.elim
    | error e => exact h.elim
    | panic => exact hE s t h

theorem Plays.conseq (h : Plays m P Q E q p) (hP : ∀ s t, P' s t → P s t) (hQ : ∀ a b s t, Q a b s t → Q' a b s t)
    (hE : ∀ s t, E s t → E' s t) : Plays m P' Q' E' q p := by
  intro s t hs
  obtain ⟨x, hx, halike⟩ := h s t (hP s t hs)
  exact ⟨x, hx, halike.mono hQ hE⟩

theorem Plays.pure {a : α} {b : β} (h : ∀ s t, P s t → Q a b s t) :
    Plays m P Q E (Pure.pure a : Script ι ρ ε α) (Pure.pure b : Prog τ ε β) :=
  fun s t hs => ⟨(.ok a, s), rfl, h s t hs⟩

theorem Plays.throw (e : ε) (h : ∀ s t, P s t → E s t) :
    Plays m P Q E (Script.throw e : Script ι ρ ε α) (Prog.throw e : Prog τ ε β) :=
  fun s t hs => ⟨(.error e, s), rfl, rfl, h s t hs⟩

theorem Plays.bind {f : α → Script ι ρ ε γ} {g : β → Prog τ ε δ} {R : γ → δ → σ → τ → Prop} (h : Plays m P Q E q p)
    (hf : ∀ a b, Plays m (Q a b) R E (f a) (g b)) : Plays m P R E (q >>= f) (p >>= g) := by
  intro s t hs
  obtain ⟨⟨o, s'⟩, hx, halike⟩ := h s t hs
  rw [exec_bind, hx]
  rcases Prog.bind_cases p g t with ⟨b, t', h1, h2⟩ | ⟨e, t', h1, h2⟩ | ⟨t', h1, h2⟩
  · rw [h1] at halike
    cases o with
    | ok a =>
      rw [h2]
      exact hf a b s' t' halike
    | error e => exact halike.elim
    | panic => exact halike.elim
  · rw [h1] at halike
    cases o with
    | ok a => exact halike.elim
    | error e' =>
      rw [h2]
      exact ⟨_, rfl, halike⟩
    | panic => exact halike.elim
  · rw [h1] at halike
    cases o with
    | ok a => exact halike.elim
    | error e => exact halike.elim
    | panic =>
      rw [h2]
      exact ⟨_, rfl, halike⟩

/-- A call, and the program that does what it does. -/
theorem Plays.ask {c : ι} {f : ρ → Option α}
    (h : ∀ s t, P s t → ∃ s' r, m s c = some (s', r) ∧ Alike Q E (((f r).map .ok).getD .panic, s') (p t)) :
    Plays m P Q E (Script.ask c f : Script ι ρ ε α) p := by
  intro s t hs
  obtain ⟨s', r, hstep, halike⟩ := h s t hs
  exact ⟨_, exec_call hstep _, halike⟩

end Plays

end Script

end Collette
