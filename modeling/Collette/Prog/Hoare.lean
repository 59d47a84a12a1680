/-
  Collette.Prog.Hoare — programs over a state that return, fail or panic, and rules
  about them.

  `Prog σ ε α` runs from a state to an outcome and a state. Sequencing stops at the
  first failure, and the state reached there stays: nothing is rolled back unless a
  program does so.

  - `Triple P p Q E`: from a state in `P`, `p` never panics; it returns in `Q` or fails
    in `E`. One rule for each way to build a program.
  - `Yields P p o`: from a state in `P`, `p` ends with the outcome `o`, whichever kind it
    is, in `P` again. For runs whose outcome is known.
  - `Returns p φ`: from any state, what `p` returns satisfies `φ`. For values that no state
    decides.
  - `Steps R p`: every run of `p`, however it ends, is a step of the preorder `R`. For
    what no part of a program touches, whatever else it does.
  - `Twins R p`: two runs of `p` from states in `R` end alike, in states in `R`. For what
    a program does not look at.
-/

import Collette.Lex.Code

namespace Collette

variable {σ ε ε' α β : Type}

inductive Outcome (ε α : Type) where
  | ok (a : α)
  | error (e : ε)
  | panic
  deriving DecidableEq, Repr

def Prog (σ ε α : Type) : Type := σ → Outcome ε α × σ

namespace Prog

instance : Monad (Prog σ ε) where
  pure a s := (.ok a, s)
  bind p f s :=
    match p s with
    | (.ok a, s') => f a s'
    | (.error e, s') => (.error e, s')
    | (.panic, s') => (.panic, s')

def throw (e : ε) : Prog σ ε α := fun s => (.error e, s)

def panic : Prog σ ε α := fun s => (.panic, s)

def modify (f : σ → σ) : Prog σ ε Unit := fun s => (.ok (), f s)

def ofExcept : Except ε α → Prog σ ε α
  | .ok a => pure a
  | .error e => throw e

/-- `Option::unwrap`. -/
def unwrap : Option α → Prog σ ε α
  | some a => pure a
  | none => panic

/-- `Result::map_err`. -/
def mapErr (f : ε → ε') (p : Prog σ ε α) : Prog σ ε' α := fun s =>
  match p s with
  | (.ok a, s') => (.ok a, s')
  | (.error e, s') => (.error (f e), s')
  | (.panic, s') => (.panic, s')

theorem bind_ok {p : Prog σ ε α} {f : α → Prog σ ε β} {s s' : σ} {a : α} (h : p s = (.ok a, s')) :
    (p >>= f) s = f a s' := by
  show (match p s with | (.ok a, s') => _ | (.error e, s') => _ | (.panic, s') => _) = _
  rw [h]

theorem bind_error {p : Prog σ ε α} {f : α → Prog σ ε β} {s s' : σ} {e : ε} (h : p s = (.error e, s')) :
    (p >>= f) s = (.error e, s') := by
  show (match p s with | (.ok a, s') => _ | (.error e, s') => _ | (.panic, s') => _) = _
  rw [h]

theorem bind_panic {p : Prog σ ε α} {f : α → Prog σ ε β} {s s' : σ} (h : p s = (.panic, s')) :
    (p >>= f) s = (.panic, s') := by
  show (match p s with | (.ok a, s') => _ | (.error e, s') => _ | (.panic, s') => _) = _
  rw [h]

/-- A sequence ends where its first program does not return, or where its second ends. -/
theorem bind_cases (p : Prog σ ε α) (f : α → Prog σ ε β) (s : σ) :
    (∃ a s', p s = (.ok a, s') ∧ (p >>= f) s = f a s') ∨
    (∃ e s', p s = (.error e, s') ∧ (p >>= f) s = (.error e, s')) ∨
    (∃ s', p s = (.panic, s') ∧ (p >>= f) s = (.panic, s')) := by
  cases h : p s with
  | mk o s' =>
    cases o with
    | ok a => exact Or.inl ⟨a, s', rfl, bind_ok h⟩
    | error e => exact Or.inr (Or.inl ⟨e, s', rfl, bind_error h⟩)
    | panic => exact Or.inr (Or.inr ⟨s', rfl, bind_panic h⟩)

theorem bind_assoc {γ : Type} (p : Prog σ ε α) (f : α → Prog σ ε β) (g : β → Prog σ ε γ) :
    p >>= f >>= g = p >>= fun a => f a >>= g := by
  funext s
  rcases bind_cases p f s with ⟨a, s', h1, h2⟩ | ⟨e, s', h1, h2⟩ | ⟨s', h1, h2⟩
  · rw [bind_ok h1]
    show (match (p >>= f) s with | (.ok a, s') => _ | (.error e, s') => _ | (.panic, s') => _) = _
    rw [h2]; rfl
  · rw [bind_error h1, bind_error h2]
  · rw [bind_panic h1, bind_panic h2]

/-! ## Triples -/

/-- What a run satisfies that returns in `Q` or fails in `E`. -/
def Post (Q : α → σ → Prop) (E : ε → σ → Prop) : Outcome ε α × σ → Prop
  | (.ok a, s) => Q a s
  | (.error e, s) => E e s
  | (.panic, _) => False

def Triple (P : σ → Prop) (p : Prog σ ε α) (Q : α → σ → Prop) (E : ε → σ → Prop) : Prop :=
  ∀ s, P s → Post Q E (p s)

section Triples

variable {P P' : σ → Prop} {p : Prog σ ε α} {Q Q' : α → σ → Prop} {E E' : ε → σ → Prop}

theorem Triple.bind {f : α → Prog σ ε β} {R : β → σ → Prop} (hp : Triple P p Q E)
    (hf : ∀ a, Triple (Q a) (f a) R E) : Triple P (p >>= f) R E := by
  intro s hs
  have h := hp s hs
  rcases bind_cases p f s with ⟨a, s', h1, h2⟩ | ⟨e, s', h1, h2⟩ | ⟨s', h1, h2⟩
  · rw [h1] at h; rw [h2]; exact hf a s' h
  · rw [h1] at h; rw [h2]; exact h
  · rw [h1] at h; exact h.elim

/-- The rule for a program that returns one known value. -/
theorem Triple.bind_eq {a : α} {R : σ → Prop} {f : α → Prog σ ε β} {S : β → σ → Prop}
    (hp : Triple P p (fun b s => b = a ∧ R s) E) (hf : Triple R (f a) S E) : Triple P (p >>= f) S E := by
  refine hp.bind fun b s hs => ?_
  obtain ⟨rfl, hs⟩ := hs
  exact hf s hs

theorem Triple.pure {a : α} (h : ∀ s, P s → Q a s) : Triple P (Pure.pure a : Prog σ ε α) Q E :=
  fun s hs => h s hs

theorem Triple.throw {e : ε} (h : ∀ s, P s → E e s) : Triple P (Prog.throw e : Prog σ ε α) Q E :=
  fun s hs => h s hs

theorem Triple.modify {f : σ → σ} {Q : Unit → σ → Prop} (h : ∀ s, P s → Q () (f s)) :
    Triple P (Prog.modify f : Prog σ ε Unit) Q E := fun s hs => h s hs

theorem Triple.conseq (h : Triple P p Q E) (hP : ∀ s, P' s → P s) (hQ : ∀ a s, Q a s → Q' a s)
    (hE : ∀ e s, E e s → E' e s) : Triple P' p Q' E' := by
  intro s hs
  have hpost := h s (hP s hs)
  cases hr : p s with
  | mk o s' =>
    rw [hr] at hpost
    cases o with
    | ok a => exact hQ a s' hpost
    | error e => exact hE e s' hpost
    | panic => exact hpost

theorem Triple.mapErr {f : ε → ε'} {E' : ε' → σ → Prop} (h : Triple P p Q fun e s => E' (f e) s) :
    Triple P (p.mapErr f) Q E' := by
  intro s hs
  have hpost := h s hs
  unfold Prog.mapErr
  cases hr : p s with
  | mk o s' =>
    rw [hr] at hpost
    cases o with
    | ok a => exact hpost
    | error e => exact hpost
    | panic => exact hpost

theorem Triple.ofExcept {x : Except ε α} (hok : ∀ a, x = .ok a → ∀ s, P s → Q a s)
    (herr : ∀ e, x = .error e → ∀ s, P s → E e s) : Triple P (ofExcept x) Q E := by
  cases x with
  | ok a => exact Triple.pure (hok a rfl)
  | error e => exact Triple.throw (herr e rfl)

/-- What holds of the state for some `x` may be opened before a program runs from it. -/
theorem Triple.exists {κ : Type} {R : κ → σ → Prop} (h : ∀ x, Triple (R x) p Q E) :
    Triple (fun s => ∃ x, R x s) p Q E := fun s ⟨x, hx⟩ => h x s hx

theorem Triple.and {φ : Prop} (h : φ → Triple P p Q E) : Triple (fun s => φ ∧ P s) p Q E :=
  fun s hs => h hs.1 s hs.2

end Triples

/-! ## Known outcomes -/

/-- From every state in `P`, `p` ends with `o`, in `P` again. -/
def Yields (P : σ → Prop) (p : Prog σ ε α) (o : Outcome ε α) : Prop := ∀ s, P s → (p s).1 = o ∧ P (p s).2

section Yields

variable {P : σ → Prop} {p : Prog σ ε α} {f : α → Prog σ ε β} {a : α}

theorem Yields.pure (a : α) : Yields P (Pure.pure a : Prog σ ε α) (.ok a) := fun _ hs => ⟨rfl, hs⟩

theorem Yields.throw (e : ε) : Yields P (Prog.throw e : Prog σ ε α) (.error e) := fun _ hs => ⟨rfl, hs⟩

theorem Yields.panic : Yields P (Prog.panic : Prog σ ε α) .panic := fun _ hs => ⟨rfl, hs⟩

theorem Yields.bind {o : Outcome ε β} (hp : Yields P p (.ok a)) (hf : Yields P (f a) o) : Yields P (p >>= f) o := by
  intro s hs
  obtain ⟨ho, hs'⟩ := hp s hs
  rw [bind_ok (Prod.ext ho rfl)]
  exact hf _ hs'

theorem Yields.bind_error {e : ε} (hp : Yields P p (.error e)) : Yields P (p >>= f) (.error e) := by
  intro s hs
  obtain ⟨ho, hs'⟩ := hp s hs
  rw [Prog.bind_error (Prod.ext ho rfl)]
  exact ⟨rfl, hs'⟩

theorem Yields.bind_panic (hp : Yields P p .panic) : Yields P (p >>= f) .panic := by
  intro s hs
  obtain ⟨ho, hs'⟩ := hp s hs
  rw [Prog.bind_panic (Prod.ext ho rfl)]
  exact ⟨rfl, hs'⟩

theorem Yields.mapErr {g : ε → ε'} (hp : Yields P p (.ok a)) : Yields P (p.mapErr g) (.ok a) := by
  intro s hs
  obtain ⟨ho, hs'⟩ := hp s hs
  unfold Prog.mapErr
  rw [show p s = (.ok a, (p s).2) from Prod.ext ho rfl]
  exact ⟨rfl, hs'⟩

theorem Yields.mapErr_panic {g : ε → ε'} (hp : Yields P p .panic) : Yields P (p.mapErr g) .panic := by
  intro s hs
  obtain ⟨ho, hs'⟩ := hp s hs
  unfold Prog.mapErr
  rw [show p s = (.panic, (p s).2) from Prod.ext ho rfl]
  exact ⟨rfl, hs'⟩

end Yields

/-! ## Returned values -/

/-- From any state, what `p` returns satisfies `φ`. -/
def Returns (p : Prog σ ε α) (φ : α → Prop) : Prop := ∀ s a, (p s).1 = .ok a → φ a

section Returns

variable {p : Prog σ ε α} {φ ψ : α → Prop}

theorem Returns.pure {a : α} (h : φ a) : Returns (Pure.pure a : Prog σ ε α) φ := by
  intro s b hb
  cases hb
  exact h

theorem Returns.throw (e : ε) : Returns (Prog.throw e : Prog σ ε α) φ := by
  intro s a ha
  cases ha

theorem Returns.unwrap {x : Option α} (h : ∀ a, x = some a → φ a) : Returns (Prog.unwrap x : Prog σ ε α) φ := by
  cases x with
  | none =>
    intro s a ha
    cases ha
  | some a => exact Returns.pure (h a rfl)

theorem Returns.ofExcept {x : Except ε α} (h : ∀ a, x = .ok a → φ a) : Returns (Prog.ofExcept x : Prog σ ε α) φ := by
  cases x with
  | ok a => exact Returns.pure (h a rfl)
  | error e => exact Returns.throw e

theorem Returns.bind {f : α → Prog σ ε β} {χ : β → Prop} (hp : Returns p φ) (hf : ∀ a, φ a → Returns (f a) χ) :
    Returns (p >>= f) χ := by
  intro s b hb
  rcases bind_cases p f s with ⟨a, s', h1, h2⟩ | ⟨e, s', h1, h2⟩ | ⟨s', h1, h2⟩
  · rw [h2] at hb
    exact hf a (hp s a (by rw [h1])) s' b hb
  · rw [h2] at hb
    cases hb
  · rw [h2] at hb
    cases hb

theorem Returns.mapErr {f : ε → ε'} (h : Returns p φ) : Returns (p.mapErr f) φ := by
  intro s a ha
  unfold Prog.mapErr at ha
  cases hr : p s with
  | mk o s' =>
    rw [hr] at ha
    cases o with
    | ok b =>
      obtain rfl := Outcome.ok.inj ha
      exact h s b (by rw [hr])
    | error e => cases ha
    | panic => cases ha

end Returns

/-! ## Preorders on the state -/

/-- Every run of `p` is a step of `R`, however it ends. -/
def Steps (R : σ → σ → Prop) (p : Prog σ ε α) : Prop := ∀ s, R s (p s).2

section Steps

variable {R : σ → σ → Prop} {p : Prog σ ε α} [IsPreorder σ R]

theorem Steps.pure (a : α) : Steps R (Pure.pure a : Prog σ ε α) := fun s => refl s

theorem Steps.throw (e : ε) : Steps R (Prog.throw e : Prog σ ε α) := fun s => refl s

theorem Steps.bind {f : α → Prog σ ε β} (hp : Steps R p) (hf : ∀ a, Steps R (f a)) : Steps R (p >>= f) := by
  intro s
  have h := hp s
  rcases bind_cases p f s with ⟨a, s', h1, h2⟩ | ⟨e, s', h1, h2⟩ | ⟨s', h1, h2⟩
  · rw [h1] at h; rw [h2]; exact IsTrans.trans _ _ _ h (hf a s')
  · rw [h1] at h; rw [h2]; exact h
  · rw [h1] at h; rw [h2]; exact h

omit [IsPreorder σ R] in
theorem Steps.mapErr {f : ε → ε'} (h : Steps R p) : Steps R (p.mapErr f) := by
  intro s
  have hs := h s
  unfold Prog.mapErr
  cases hr : p s with
  | mk o s' =>
    rw [hr] at hs
    cases o <;> exact hs

theorem Steps.ofExcept (x : Except ε α) : Steps R (Prog.ofExcept x) := by
  cases x with
  | ok a => exact Steps.pure a
  | error e => exact Steps.throw e

end Steps

/-! ## Two runs -/

/-- From states in `R`, `p` ends alike, in states in `R` again. -/
def Twins (R : σ → σ → Prop) (p : Prog σ ε α) : Prop := ∀ s t, R s t → (p s).1 = (p t).1 ∧ R (p s).2 (p t).2

section Twins

variable {R : σ → σ → Prop} {p : Prog σ ε α}

theorem Twins.pure (a : α) : Twins R (Pure.pure a : Prog σ ε α) := fun _ _ h => ⟨rfl, h⟩

theorem Twins.throw (e : ε) : Twins R (Prog.throw e : Prog σ ε α) := fun _ _ h => ⟨rfl, h⟩

theorem Twins.ofExcept (x : Except ε α) : Twins R (Prog.ofExcept x : Prog σ ε α) := by
  cases x with
  | ok a => exact Twins.pure a
  | error e => exact Twins.throw e

theorem Twins.unwrap (x : Option α) : Twins R (Prog.unwrap x : Prog σ ε α) := by
  cases x with
  | some a => exact Twins.pure a
  | none => exact fun _ _ h => ⟨rfl, h⟩

/-- The rest is of interest only for what the first program can return. -/
theorem Twins.bind {f : α → Prog σ ε β} (hp : Twins R p) (hf : ∀ a s s', p s = (.ok a, s') → Twins R (f a)) :
    Twins R (p >>= f) := by
  intro s t h
  obtain ⟨hout, hR⟩ := hp s t h
  rcases bind_cases p f s with ⟨a, s', h1, h2⟩ | ⟨e, s', h1, h2⟩ | ⟨s', h1, h2⟩
  · have h3 : p t = (.ok a, (p t).2) := Prod.ext (by rw [← hout, h1]) rfl
    rw [h2, bind_ok h3]
    rw [h1] at hR
    exact hf a s s' h1 _ _ hR
  · have h3 : p t = (.error e, (p t).2) := Prod.ext (by rw [← hout, h1]) rfl
    rw [h2, bind_error h3]
    rw [h1] at hR
    exact ⟨rfl, hR⟩
  · have h3 : p t = (.panic, (p t).2) := Prod.ext (by rw [← hout, h1]) rfl
    rw [h2, bind_panic h3]
    rw [h1] at hR
    exact ⟨rfl, hR⟩

theorem Twins.mapErr {f : ε → ε'} (h : Twins R p) : Twins R (p.mapErr f) := by
  intro s t hst
  obtain ⟨hout, hR⟩ := h s t hst
  unfold Prog.mapErr
  cases hs : p s with
  | mk o s' =>
    rw [hs] at hout hR
    have ht : p t = (o, (p t).2) := Prod.ext hout.symm rfl
    rw [ht]
    cases o <;> exact ⟨rfl, hR⟩

end Twins

/-- From states in `R`, `p` ends alike, in states in `R` again, or from the first in an
    error in `E`. -/
def TwinsUnless (R : σ → σ → Prop) (E : ε → Prop) (p : Prog σ ε α) : Prop :=
  ∀ s t, R s t → (∃ e, E e ∧ (p s).1 = .error e) ∨ (p s).1 = (p t).1 ∧ R (p s).2 (p t).2

section TwinsUnless

variable {R : σ → σ → Prop} {E : ε → Prop} {p q : Prog σ ε α}

theorem Twins.unless (h : Twins R p) : TwinsUnless R E p := fun s t hst => Or.inr (h s t hst)

theorem TwinsUnless.pure (a : α) : TwinsUnless R E (Pure.pure a : Prog σ ε α) := (Twins.pure a).unless

theorem TwinsUnless.throw (e : ε) : TwinsUnless R E (Prog.throw e : Prog σ ε α) := (Twins.throw e).unless

theorem TwinsUnless.ite {c : Prop} [Decidable c] (hp : TwinsUnless R E p) (hq : TwinsUnless R E q) :
    TwinsUnless R E (if c then p else q) := by
  split
  · exact hp
  · exact hq

theorem TwinsUnless.bind {f : α → Prog σ ε β} (hp : TwinsUnless R E p) (hf : ∀ a, TwinsUnless R E (f a)) :
    TwinsUnless R E (p >>= f) := by
  intro s t h
  rcases hp s t h with ⟨e, he, hs⟩ | ⟨hout, hR⟩
  · refine Or.inl ⟨e, he, ?_⟩
    rw [bind_error (Prod.ext hs rfl)]
  · rcases bind_cases p f s with ⟨a, s', h1, h2⟩ | ⟨e, s', h1, h2⟩ | ⟨s', h1, h2⟩
    · have h3 : p t = (.ok a, (p t).2) := Prod.ext (by rw [← hout, h1]) rfl
      rw [h2, bind_ok h3]
      rw [h1] at hR
      exact hf a _ _ hR
    · have h3 : p t = (.error e, (p t).2) := Prod.ext (by rw [← hout, h1]) rfl
      rw [h2, bind_error h3]
      rw [h1] at hR
      exact Or.inr ⟨rfl, hR⟩
    · have h3 : p t = (.panic, (p t).2) := Prod.ext (by rw [← hout, h1]) rfl
      rw [h2, bind_panic h3]
      rw [h1] at hR
      exact Or.inr ⟨rfl, hR⟩

theorem TwinsUnless.mapErr {f : ε → ε'} {E' : ε' → Prop} (h : TwinsUnless R E p) (hE : ∀ e, E e → E' (f e)) :
    TwinsUnless R E' (p.mapErr f) := by
  intro s t hst
  unfold Prog.mapErr
  rcases h s t hst with ⟨e, he, hs⟩ | ⟨hout, hR⟩
  · refine Or.inl ⟨f e, hE e he, ?_⟩
    rw [show p s = (.error e, (p s).2) from Prod.ext hs rfl]
  · cases hs : p s with
    | mk o s' =>
      rw [hs] at hout hR
      have ht : p t = (o, (p t).2) := Prod.ext hout.symm rfl
      rw [ht]
      cases o <;> exact Or.inr ⟨rfl, hR⟩

end TwinsUnless

end Prog

end Collette
