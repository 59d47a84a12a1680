/-
  Collette.Prog.Locking — threads that hold locks and wait for locks.

  A lock is held shared or exclusively, and given to a thread while nobody has it in a
  conflicting mode. So a thread waits for every thread that holds what it wants in a
  conflicting mode, and is blocked while there is one.

  - `deadlocked_of_cycle`: two threads that wait for each other are deadlocked.
  - `exists_free`: without a deadlock, whenever a thread is blocked, one that somebody
    waits for is not.
  - `Stuck.holder`: what a thread of a deadlocked set waits for, one of the set holds that
    waits itself; so it is no lock whose holders want none.
  - `Exclusive.step`: locks given so are never held in conflicting modes.
  - `Waits`: the same where those who would share a lock also queue behind those who want
    it exclusively, which is up to the lock (`exists_free_by`, `StuckBy.of_wants`).
-/

import Mathlib

namespace Collette

inductive Mode where
  | shared
  | exclusive
  deriving DecidableEq, Repr

/-- Only sharers hold a lock at one time. -/
def Mode.conflicts : Mode → Mode → Bool
  | .shared, .shared => false
  | _, _ => true

theorem Mode.conflicts_comm (m m' : Mode) : m.conflicts m' = m'.conflicts m := by
  cases m <;> cases m' <;> rfl

/-- What each thread holds, and what it waits to be given. -/
structure Locking (T L : Type) where
  holds : T → List (L × Mode)
  wants : T → Option (L × Mode)

namespace Locking

variable {T L : Type} (k : Locking T L)

def WaitsFor (t t' : T) : Prop :=
  ∃ want ∈ k.wants t, ∃ held ∈ k.holds t', held.1 = want.1 ∧ want.2.conflicts held.2 = true

def Blocked (t : T) : Prop := ∃ t', k.WaitsFor t t'

instance [DecidableEq L] (t t' : T) : Decidable (k.WaitsFor t t') := by
  unfold WaitsFor
  infer_instance

instance [DecidableEq L] [Fintype T] (t : T) : Decidable (k.Blocked t) := by
  unfold Blocked
  infer_instance

/-- Each thread of the set waits for one of the set: none of them ever moves again. -/
def Stuck (S : Set T) : Prop := ∀ t ∈ S, ∃ t' ∈ S, k.WaitsFor t t'

def Deadlocked : Prop := ∃ S : Set T, S.Nonempty ∧ k.Stuck S

/-- No two threads have a lock in conflicting modes. -/
def Exclusive : Prop :=
  ∀ t t', t ≠ t' → ∀ x ∈ k.holds t, ∀ y ∈ k.holds t', x.1 = y.1 → x.2.conflicts y.2 = false

variable {k}

/-- Locks stay exclusive where a thread that is not blocked takes what it wants and no more. -/
theorem Exclusive.step {k' : Locking T L} {t : T} (h : k.Exclusive) (hfree : ¬ k.Blocked t)
    (htaken : ∀ x ∈ k'.holds t, x ∈ k.holds t ∨ k.wants t = some x)
    (hothers : ∀ t', t' ≠ t → k'.holds t' = k.holds t') : k'.Exclusive := by
  have hagainst : ∀ t', t' ≠ t → ∀ x ∈ k'.holds t, ∀ y ∈ k'.holds t', x.1 = y.1 → x.2.conflicts y.2 = false := by
    intro t' hne x hx y hy hxy
    rw [hothers t' hne] at hy
    rcases htaken x hx with hheld | hwant
    · exact h t t' (Ne.symm hne) x hheld y hy hxy
    · by_contra hconf
      exact hfree ⟨t', x, hwant, y, hy, hxy.symm, by simpa using hconf⟩
  intro u u' hne x hx y hy hxy
  by_cases hu : u = t
  · subst hu
    exact hagainst u' (Ne.symm hne) x hx y hy hxy
  · by_cases hu' : u' = t
    · subst hu'
      rw [Mode.conflicts_comm]
      exact hagainst u hu y hy x hx hxy.symm
    · rw [hothers u hu] at hx
      rw [hothers u' hu'] at hy
      exact h u u' hne x hx y hy hxy

theorem Stuck.wants {S : Set T} (h : k.Stuck S) {t : T} (ht : t ∈ S) : ∃ want, k.wants t = some want := by
  obtain ⟨t', -, want, hwant, -⟩ := h t ht
  exact ⟨want, hwant⟩

/-- What a thread of a stuck set wants, one of the set holds that wants a lock itself. -/
theorem Stuck.holder {S : Set T} (h : k.Stuck S) {t : T} (ht : t ∈ S) {lock : L} {m : Mode}
    (hwant : k.wants t = some (lock, m)) :
    ∃ t' ∈ S, ∃ m', (lock, m') ∈ k.holds t' ∧ m.conflicts m' = true ∧ ∃ want, k.wants t' = some want := by
  obtain ⟨t', ht', want, hwant', ⟨lock', m'⟩, hheld, hlock, hconf⟩ := h t ht
  rw [hwant] at hwant'
  cases hwant'
  simp only at hlock hconf
  subst hlock
  exact ⟨t', ht', m', hheld, hconf, h.wants ht'⟩

theorem deadlocked_of_cycle {t t' : T} (h : k.WaitsFor t t') (h' : k.WaitsFor t' t) : k.Deadlocked := by
  refine ⟨{t, t'}, ⟨t, Or.inl rfl⟩, fun u hu => ?_⟩
  rcases hu with rfl | rfl
  · exact ⟨t', Or.inr rfl, h⟩
  · exact ⟨t, Or.inl rfl, h'⟩

/-- If everybody waited for were blocked, the blocked threads would be deadlocked. -/
theorem exists_free (h : ¬ k.Deadlocked) {t : T} (hb : k.Blocked t) : ∃ u u', k.WaitsFor u u' ∧ ¬ k.Blocked u' := by
  by_contra hno
  refine h ⟨{u | k.Blocked u}, ⟨t, hb⟩, fun u hu => ?_⟩
  obtain ⟨u', hwaits⟩ := hu
  refine ⟨u', ?_, hwaits⟩
  by_contra hfree
  exact hno ⟨u, u', hwaits, hfree⟩

/-! ## Whatever the order in which locks are given -/

/-- Each thread of the set waits, for whatever reason, for one of the set. -/
def StuckBy (W : T → T → Prop) (S : Set T) : Prop := ∀ t ∈ S, ∃ t' ∈ S, W t t'

def DeadlockedBy (W : T → T → Prop) : Prop := ∃ S : Set T, S.Nonempty ∧ StuckBy W S

section Waiting

variable {W : T → T → Prop}

/-- If everybody waited for waited, those who wait would be deadlocked. -/
theorem exists_free_by (h : ¬ DeadlockedBy W) {t t' : T} (hwaits : W t t') : ∃ u u', W u u' ∧ ∀ u'', ¬ W u' u'' := by
  by_contra hno
  refine h ⟨{u | ∃ u', W u u'}, ⟨t, t', hwaits⟩, fun u hu => ?_⟩
  obtain ⟨u', hu'⟩ := hu
  refine ⟨u', ?_, hu'⟩
  by_contra hfree
  exact hno ⟨u, u', hu', fun u'' h => hfree ⟨u'', h⟩⟩

end Waiting

/-- Both want one lock, `t` shared and `t'` exclusively. -/
def QueuesBehind (k : Locking T L) (t t' : T) : Prop :=
  ∃ lock, k.wants t = some (lock, .shared) ∧ k.wants t' = some (lock, .exclusive)

/-- Where those who want a lock exclusively are preferred, others also queue behind them. -/
def Waits (k : Locking T L) (prefer : Bool) (t t' : T) : Prop :=
  k.WaitsFor t t' ∨ (prefer = true ∧ k.QueuesBehind t t')

/-- Held up by another, or by itself. -/
def Held (k : Locking T L) (prefer : Bool) (t : T) : Prop := ∃ t', k.Waits prefer t t'

instance [DecidableEq L] (k : Locking T L) (t t' : T) : Decidable (k.QueuesBehind t t') :=
  match hwant : k.wants t with
  | none => isFalse fun ⟨lock, h, _⟩ => by rw [hwant] at h; cases h
  | some (_, .exclusive) => isFalse fun ⟨lock, h, _⟩ => by rw [hwant] at h; cases h
  | some (lock, .shared) => decidable_of_iff (k.wants t' = some (lock, .exclusive)) (by simp [QueuesBehind, hwant])

instance [DecidableEq L] (k : Locking T L) (prefer : Bool) (t t' : T) : Decidable (k.Waits prefer t t') :=
  inferInstanceAs (Decidable (_ ∨ _))

instance [DecidableEq L] [Fintype T] (k : Locking T L) (prefer : Bool) (t : T) : Decidable (k.Held prefer t) :=
  inferInstanceAs (Decidable (∃ t', k.Waits prefer t t'))

section Preferring

variable {k : Locking T L} {prefer : Bool} {t t' : T}

theorem Waits.wants (h : k.Waits prefer t t') : k.wants t ≠ none := by
  rcases h with ⟨want, hwant, -⟩ | ⟨-, lock, hwant, -⟩
  · rw [hwant]
    nofun
  · rw [hwant]
    nofun

/-- Whoever holds up `t` holds what it wants, or wants it exclusively. -/
theorem Waits.of_wants {lock : L} {m : Mode} (h : k.Waits prefer t t') (hwant : k.wants t = some (lock, m)) :
    (∃ m', (lock, m') ∈ k.holds t' ∧ m.conflicts m' = true) ∨
      prefer = true ∧ m = .shared ∧ k.wants t' = some (lock, .exclusive) := by
  rcases h with ⟨want, hwant', ⟨lock', m'⟩, hheld, hlock, hconf⟩ | ⟨hprefer, lock', hwant', hbehind⟩
  · rw [hwant] at hwant'
    cases hwant'
    simp only at hlock hconf
    subst hlock
    exact Or.inl ⟨m', hheld, hconf⟩
  · rw [hwant] at hwant'
    cases hwant'
    exact Or.inr ⟨hprefer, rfl, hbehind⟩

/-- In a stuck set, the same, by one that waits itself. -/
theorem StuckBy.of_wants {S : Set T} (h : StuckBy (k.Waits prefer) S) (ht : t ∈ S) {lock : L} {m : Mode}
    (hwant : k.wants t = some (lock, m)) :
    ∃ t' ∈ S, k.wants t' ≠ none ∧ ((∃ m', (lock, m') ∈ k.holds t' ∧ m.conflicts m' = true) ∨
      prefer = true ∧ m = .shared ∧ k.wants t' = some (lock, .exclusive)) := by
  obtain ⟨t', ht', hwaits⟩ := h t ht
  obtain ⟨t'', -, hwaits'⟩ := h t' ht'
  exact ⟨t', ht', hwaits'.wants, hwaits.of_wants hwant⟩

theorem held_of_holder {lock : L} {m m' : Mode} (hwant : k.wants t = some (lock, m)) (hheld : (lock, m') ∈ k.holds t')
    (hconf : m.conflicts m' = true) : k.Waits prefer t t' :=
  Or.inl ⟨(lock, m), hwant, (lock, m'), hheld, rfl, hconf⟩

/-- Nobody held up is blocked, so locks stay exclusive. -/
theorem not_blocked_of_not_held (h : ¬ k.Held prefer t) : ¬ k.Blocked t :=
  fun ⟨t', hwaits⟩ => h ⟨t', Or.inl hwaits⟩

end Preferring

end Locking

end Collette
