/-
  Collette.Prog.Monitor — data behind a mutex, with one condition variable.

  An operation locks the mutex, acts and unlocks it. One that waits tests the data first,
  and as long as they are not ready it waits on the condition variable, which takes the
  mutex from it; woken, it locks the mutex again and tests again. One that does not wait
  notifies one of those asleep after it has acted. The variable may wake an operation for
  no reason, and who is notified is open.

  - `Step`: what one step does. The data change only where an operation that may act does.
  - `Inv`: the mutex has one owner; whoever waits is asleep; and where the data are ready
    and somebody is asleep, somebody is on the way who will look at them or notify.
  - `settled`: so where no operation can go on, those that wait do because the data are
    not ready.
  - `goes_le`: operations can go on only so often, for each call and each sleeper woken
    for no reason.
-/

import Collette.Prog.Machine

namespace Collette

variable {T σ ω : Type}

/-- An operation that waits leaves nothing ready for another. -/
structure Monitor (σ ω : Type) where
  ready : σ → Bool
  waits : ω → Bool
  act : ω → σ → σ
  consumes : ∀ op s, waits op → ready s → ready (act op s) = false

namespace Monitor

/-- Where an operation is. From `testing` on, `asleep` apart, it has the mutex. -/
inductive Place (ω : Type) where
  | locking (op : ω)
  | testing (op : ω)
  | asleep (op : ω)
  | notifying (op : ω)
  | leaving (op : ω)
  deriving DecidableEq, Repr

/-- Who has the mutex, whom the condition variable holds, and where each operation is. -/
structure Sync (T ω : Type) where
  owner : Option T
  sleepers : List T
  places : T → Option (Place ω)

inductive Ev (T ω : Type) where
  | call (op : ω)
  | go
  | notify (woken : Option T)
  | wake
  deriving DecidableEq, Repr

/-- Nobody has called. -/
def idle : Sync T ω := ⟨none, [], fun _ => none⟩

variable [DecidableEq T]

def Sync.move (y : Sync T ω) (t : T) (p : Option (Place ω)) : Sync T ω :=
  { y with places := Function.update y.places t p }

@[simp, grind =] theorem move_places (y : Sync T ω) (t t' : T) (p : Option (Place ω)) :
    (y.move t p).places t' = if t' = t then p else y.places t' := Function.update_apply ..

@[simp, grind =] theorem move_owner (y : Sync T ω) (t : T) (p : Option (Place ω)) : (y.move t p).owner = y.owner := rfl

@[simp, grind =] theorem move_sleepers (y : Sync T ω) (t : T) (p : Option (Place ω)) :
    (y.move t p).sleepers = y.sleepers := rfl

/-- A step of the operation of `t`; its answer is the operation that has acted. -/
def step (M : Monitor σ ω) : Machine (σ × Sync T ω) (T × Ev T ω) (Option ω) := fun (s, y) (t, e) =>
  match e, y.places t with
  | .call op, none => some ((s, y.move t (some (.locking op))), none)
  | .go, some (.locking op) =>
    if y.owner.isSome then none
    else some ((s, { y.move t (some (.testing op)) with owner := some t }), none)
  | .go, some (.testing op) =>
    if M.waits op && !M.ready s then
      some ((s, { y.move t (some (.asleep op)) with owner := none, sleepers := t :: y.sleepers }), none)
    else some ((M.act op s, y.move t (some (if M.waits op then .leaving op else .notifying op))), some op)
  | .notify woken, some (.notifying op) =>
    match woken with
    | none => if y.sleepers.isEmpty then some ((s, y.move t (some (.leaving op))), none) else none
    | some t' =>
      match y.places t' with
      | some (.asleep op') =>
        some ((s, { (y.move t (some (.leaving op))).move t' (some (.locking op')) with
          sleepers := y.sleepers.filter (· ≠ t') }), none)
      | _ => none
  | .go, some (.leaving _) => some ((s, { y.move t none with owner := none }), none)
  | .wake, some (.asleep op) =>
    some ((s, { y.move t (some (.locking op)) with sleepers := y.sleepers.filter (· ≠ t) }), none)
  | _, _ => none

/-! ## Steps -/

section Steps

variable {M : Monitor σ ω} {s s' : σ} {y y' : Sync T ω} {t : T} {e : Ev T ω} {a : Option ω}

/-- What a step does. -/
inductive Step (M : Monitor σ ω) (s : σ) (y : Sync T ω) (t : T) : Ev T ω → σ → Sync T ω → Option ω → Prop
  | call (op : ω) : y.places t = none → Step M s y t (.call op) s (y.move t (some (.locking op))) none
  | lock (op : ω) : y.places t = some (.locking op) → y.owner = none →
      Step M s y t .go s { y.move t (some (.testing op)) with owner := some t } none
  | wait (op : ω) : y.places t = some (.testing op) → M.waits op = true → M.ready s = false → Step M s y t .go s
      { y.move t (some (.asleep op)) with owner := none, sleepers := t :: y.sleepers } none
  | take (op : ω) : y.places t = some (.testing op) → M.waits op = true → M.ready s = true →
      Step M s y t .go (M.act op s) (y.move t (some (.leaving op))) (some op)
  | act (op : ω) : y.places t = some (.testing op) → M.waits op = false →
      Step M s y t .go (M.act op s) (y.move t (some (.notifying op))) (some op)
  | alone (op : ω) : y.places t = some (.notifying op) → y.sleepers = [] →
      Step M s y t (.notify none) s (y.move t (some (.leaving op))) none
  | notify (op op' : ω) (t' : T) : y.places t = some (.notifying op) → y.places t' = some (.asleep op') →
      Step M s y t (.notify (some t')) s { (y.move t (some (.leaving op))).move t' (some (.locking op')) with
        sleepers := y.sleepers.filter (· ≠ t') } none
  | unlock (op : ω) : y.places t = some (.leaving op) → Step M s y t .go s { y.move t none with owner := none } none
  | wake (op : ω) : y.places t = some (.asleep op) → Step M s y t .wake s
      { y.move t (some (.locking op)) with sleepers := y.sleepers.filter (· ≠ t) } none

theorem step_cases (h : M.step (s, y) (t, e) = some ((s', y'), a)) : Step M s y t e s' y' a := by
  simp only [step] at h
  split at h
  · rename_i op hp
    cases h
    exact Step.call op hp
  · rename_i op hp
    split at h
    · cases h
    · rename_i howner
      cases h
      exact Step.lock op hp (Option.not_isSome_iff_eq_none.mp howner)
  · rename_i op hp
    split at h
    · rename_i hwait
      cases h
      simp only [Bool.and_eq_true, Bool.not_eq_true'] at hwait
      exact Step.wait op hp hwait.1 hwait.2
    · rename_i hgo
      cases h
      cases hw : M.waits op with
      | false => exact Step.act op hp hw
      | true =>
        rw [hw] at hgo
        exact Step.take op hp hw (by simpa using hgo)
  · rename_i woken op hp
    split at h
    · split at h
      · rename_i hempty
        cases h
        exact Step.alone op hp (List.isEmpty_iff.mp hempty)
      · cases h
    · rename_i t'
      split at h
      · rename_i op' hp'
        cases h
        exact Step.notify op op' t' hp hp'
      · cases h
  · rename_i op hp
    cases h
    exact Step.unlock op hp
  · rename_i op hp
    cases h
    exact Step.wake op hp
  · cases h

/-- The data change where an operation acts that may. -/
theorem Step.acted (h : Step M s y t e s' y' a) : match a with
    | none => s' = s
    | some op => y.places t = some (.testing op) ∧ s' = M.act op s ∧ (M.waits op = true → M.ready s = true) := by
  cases h with
  | take op hp hwaits hready => exact ⟨hp, rfl, fun _ => hready⟩
  | act op hp hwaits => exact ⟨hp, rfl, fun h => by rw [hwaits] at h; cases h⟩
  | call | lock | wait | alone | notify | unlock | wake => rfl

end Steps

/-! ## One operation alone -/

section Alone

variable {M : Monitor σ ω} {s : σ} {t : T} (op : ω)

/-- Nobody but `t` has called. -/
def one (owner : Option T) (t : T) (p : Option (Place ω)) : Sync T ω := ⟨owner, [], Function.update (fun _ => none) t p⟩

theorem one_none (t : T) : one none t none = (idle : Sync T ω) := by
  unfold one idle
  rw [Function.update_eq_self_iff.mpr rfl]

theorem one_call : M.step (s, idle) (t, .call op) = some ((s, one none t (some (.locking op))), none) := rfl

theorem one_lock :
    M.step (s, one none t (some (.locking op))) (t, .go) = some ((s, one (some t) t (some (.testing op))), none) := by
  simp [step, one, Sync.move]

theorem one_act (hready : M.waits op = true → M.ready s = true) :
    M.step (s, one (some t) t (some (.testing op))) (t, .go) =
      some ((M.act op s, one (some t) t (some (if M.waits op then .leaving op else .notifying op))), some op) := by
  cases hwaits : M.waits op with
  | false => simp [step, one, Sync.move, hwaits]
  | true => simp [step, one, Sync.move, hwaits, hready hwaits]

theorem one_notify : M.step (s, one (some t) t (some (.notifying op))) (t, .notify none) =
    some ((s, one (some t) t (some (.leaving op))), none) := by
  simp [step, one, Sync.move]

theorem one_unlock : M.step (s, one (some t) t (some (.leaving op))) (t, .go) = some ((s, idle), none) := by
  rw [← one_none t]
  simp [step, one, Sync.move]

end Alone

/-! ## What holds in every run -/

def Place.inside : Place ω → Bool
  | .testing _ | .notifying _ | .leaving _ => true
  | .locking _ | .asleep _ => false

/-- On the way to see whether the data are ready, or to notify one who is asleep. -/
def Place.looks (M : Monitor σ ω) : Place ω → Bool
  | .locking op | .testing op => M.waits op
  | .notifying _ => true
  | .asleep _ | .leaving _ => false

structure Inv (M : Monitor σ ω) (s : σ) (y : Sync T ω) : Prop where
  owner : ∀ t, y.owner = some t ↔ ∃ p, y.places t = some p ∧ p.inside = true
  sleepers : ∀ t, t ∈ y.sleepers ↔ ∃ op, y.places t = some (.asleep op)
  waits : ∀ t op, y.places t = some (.asleep op) → M.waits op = true
  /-- No wakeup is lost. -/
  awake : M.ready s = true → y.sleepers ≠ [] → ∃ t p, y.places t = some p ∧ p.looks M = true

section Invariant

variable {M : Monitor σ ω} {s s' : σ} {y y' : Sync T ω} {t : T} {e : Ev T ω} {a : Option ω}

omit [DecidableEq T] in
theorem inv_idle (M : Monitor σ ω) (s : σ) : Inv M s (idle : Sync T ω) :=
  ⟨fun t => by simp [idle], fun t => by simp [idle], fun t op h => (by simp [idle] at h), fun _ h => absurd rfl h⟩

theorem owner_step (h : Step M s y t e s' y' a) (hi : Inv M s y) (t' : T) :
    y'.owner = some t' ↔ ∃ p, y'.places t' = some p ∧ p.inside = true := by
  have hself := hi.owner t
  have hother := hi.owner t'
  cases h with
  | call op hp | lock op hp howner | wait op hp hwaits hready | take op hp hwaits hready | act op hp hwaits
  | alone op hp hnone | unlock op hp | wake op hp => grind [Place.inside]
  | notify op op' t'' hp hp' => grind [Place.inside]

theorem sleepers_step (h : Step M s y t e s' y' a) (hi : Inv M s y) (t' : T) :
    t' ∈ y'.sleepers ↔ ∃ op, y'.places t' = some (.asleep op) := by
  have hold := hi.sleepers t'
  cases h with
  | wait op hp hwaits hready =>
    by_cases ht : t' = t
    · subst ht
      simp
    · simp [ht, hold]
  | call op hp | lock op hp howner | take op hp hwaits hready | act op hp hwaits | alone op hp hnone | unlock op hp
  | wake op hp => grind
  | notify op op' t'' hp hp' => grind

theorem waits_step (h : Step M s y t e s' y' a) (hi : Inv M s y) (t' : T) (op' : ω)
    (ht : y'.places t' = some (.asleep op')) : M.waits op' = true := by
  have hold := hi.waits t' op'
  cases h with
  | call op hp | lock op hp howner | wait op hp hwaits hready | take op hp hwaits hready | act op hp hwaits
  | alone op hp hnone | unlock op hp | wake op hp => grind
  | notify op op' t'' hp hp' => grind

theorem looks_self (y : Sync T ω) (t : T) {p : Place ω} (hp : p.looks M = true) :
    ∃ t' p', (y.move t (some p)).places t' = some p' ∧ p'.looks M = true := ⟨t, p, by simp, hp⟩

/-- Somebody still looks, if `t` does where it did. -/
theorem looks_move {q : Option (Place ω)} (h : ∃ t' p, y.places t' = some p ∧ p.looks M = true)
    (hq : ∀ p, y.places t = some p → p.looks M = true → ∃ p', q = some p' ∧ p'.looks M = true) :
    ∃ t' p, (y.move t q).places t' = some p ∧ p.looks M = true := by
  obtain ⟨t', p, hp, hl⟩ := h
  by_cases ht : t' = t
  · subst ht
    obtain ⟨p', rfl, hl'⟩ := hq p hp hl
    exact ⟨t', p', by simp, hl'⟩
  · exact ⟨t', p, by simp [ht, hp], hl⟩

theorem awake_step (h : Step M s y t e s' y' a) (hi : Inv M s y) (hready : M.ready s' = true)
    (hsleep : y'.sleepers ≠ []) : ∃ t p, y'.places t = some p ∧ p.looks M = true := by
  cases h with
  | call op hp =>
    refine looks_move (hi.awake hready hsleep) fun p hp' _ => ?_
    rw [hp] at hp'
    cases hp'
  | lock op hp howner =>
    refine looks_move (hi.awake hready hsleep) fun p hp' hl => ?_
    rw [hp] at hp'
    cases hp'
    exact ⟨.testing op, rfl, hl⟩
  | wait op hp hwaits hnot =>
    rw [hnot] at hready
    cases hready
  | take op hp hwaits hwas =>
    rw [M.consumes op s hwaits hwas] at hready
    cases hready
  | act op hp hwaits => exact looks_self y t (p := .notifying op) rfl
  | alone op hp hnone => exact absurd hnone hsleep
  | notify op op' t' hp hp' => exact looks_self _ t' (p := .locking op') (hi.waits t' op' hp')
  | unlock op hp =>
    refine looks_move (hi.awake hready hsleep) fun p hp' hl => ?_
    rw [hp] at hp'
    cases hp'
    cases hl
  | wake op hp => exact looks_self _ t (p := .locking op) (hi.waits t op hp)

theorem inv_step (h : M.step (s, y) (t, e) = some ((s', y'), a)) (hi : Inv M s y) : Inv M s' y' := by
  have hs := step_cases h
  exact ⟨owner_step hs hi, sleepers_step hs hi, waits_step hs hi, awake_step hs hi⟩

theorem inv_of_run {s0 : σ} {tr : Trace (T × Ev T ω) (Option ω)} (h : Run M.step (s0, idle) tr (s, y)) : Inv M s y :=
  h.keeps (K := fun x => Inv M x.1 x.2) (fun _ _ _ _ hs hi => inv_step hs hi) (inv_idle M s0)

/-! ## Where nothing can go on -/

/-- No operation can go on. -/
def Settled (M : Monitor σ ω) (s : σ) (y : Sync T ω) : Prop :=
  ∀ t, M.step (s, y) (t, .go) = none ∧ ∀ woken, M.step (s, y) (t, .notify woken) = none

theorem not_settled_of_inside {p : Place ω} (hi : Inv M s y) (hp : y.places t = some p) (hin : p.inside = true) :
    ¬ Settled M s y := by
  intro h
  cases p with
  | locking op => cases hin
  | asleep op => cases hin
  | testing op =>
    have hgo := (h t).1
    simp only [step, hp] at hgo
    split at hgo <;> cases hgo
  | leaving op =>
    have hgo := (h t).1
    simp only [step, hp] at hgo
    cases hgo
  | notifying op =>
    cases hsleep : y.sleepers with
    | nil =>
      have hnotify := (h t).2 none
      simp [step, hp, hsleep] at hnotify
    | cons t' sleepers =>
      obtain ⟨op', hop'⟩ := (hi.sleepers t').mp (by rw [hsleep]; exact List.mem_cons_self)
      have hnotify := (h t).2 (some t')
      simp [step, hp, hop'] at hnotify

/-- Everybody is asleep, and the data are not ready. -/
theorem settled (hi : Inv M s y) (h : Settled M s y) :
    (∀ t p, y.places t = some p → ∃ op, p = .asleep op) ∧ (y.sleepers ≠ [] → M.ready s = false) := by
  have hasleep : ∀ t p, y.places t = some p → ∃ op, p = .asleep op := by
    intro t p hp
    cases p with
    | asleep op => exact ⟨op, rfl⟩
    | testing op | notifying op | leaving op => exact absurd h (not_settled_of_inside hi hp rfl)
    | locking op =>
      cases howner : y.owner with
      | none =>
        have hgo := (h t).1
        simp [step, hp, howner] at hgo
      | some t' =>
        obtain ⟨p', hp', hin⟩ := (hi.owner t').mp howner
        exact absurd h (not_settled_of_inside hi hp' hin)
  refine ⟨hasleep, fun hsleep => ?_⟩
  by_contra hready
  obtain ⟨t, p, hp, hl⟩ := hi.awake (by simpa using hready) hsleep
  obtain ⟨op, rfl⟩ := hasleep t p hp
  cases hl

/-! ## How far operations go -/

/-- How many steps an operation at `p` may take, those it causes included. -/
def Place.rank (M : Monitor σ ω) : Place ω → Nat
  | .locking op => if M.waits op then 4 else 8
  | .testing op => if M.waits op then 3 else 7
  | .asleep _ => 0
  | .notifying _ => 6
  | .leaving _ => 1

def rankAt (M : Monitor σ ω) (p : Option (Place ω)) : Nat := (p.map (Place.rank M)).getD 0

def rank (M : Monitor σ ω) (F : Finset T) (y : Sync T ω) : Nat := ∑ t ∈ F, rankAt M (y.places t)

theorem rank_move (F : Finset T) (ht : t ∈ F) (p : Option (Place ω)) :
    rank M F (y.move t p) + rankAt M (y.places t) = rank M F y + rankAt M p := by
  unfold rank
  rw [← Finset.add_sum_erase F _ ht, ← Finset.add_sum_erase F _ ht]
  have hrest : ∑ t' ∈ F.erase t, rankAt M ((y.move t p).places t') = ∑ t' ∈ F.erase t, rankAt M (y.places t') :=
    Finset.sum_congr rfl fun t' ht' => by rw [move_places, if_neg (Finset.ne_of_mem_erase ht')]
  rw [hrest, move_places, if_pos rfl]
  omega

/-- What an event may add to the steps to come. -/
def Ev.cost : Ev T ω → Nat
  | .call _ => 8
  | .wake => 4
  | .go | .notify _ => 0

def Ev.goes : Ev T ω → Nat
  | .call _ | .wake => 0
  | .go | .notify _ => 1

/-- A step of `t` that moves nobody else. -/
theorem rank_step_one {F : Finset T} (ht : t ∈ F) {p : Option (Place ω)}
    (hp : rankAt M p + e.goes ≤ rankAt M (y.places t) + e.cost) :
    rank M F (y.move t p) + e.goes ≤ rank M F y + e.cost := by
  have hmove := rank_move (M := M) (y := y) F ht p
  omega

theorem rank_step (h : Step M s y t e s' y' a) (hi : Inv M s y) {F : Finset T}
    (hF : ∀ t, y.places t ≠ none → t ∈ F) (ht : t ∈ F) : rank M F y' + e.goes ≤ rank M F y + e.cost := by
  cases h with
  | call op hp =>
    refine rank_step_one ht ?_
    simp only [hp, rankAt, Place.rank, Ev.goes, Ev.cost, Option.map_some, Option.map_none, Option.getD_some,
      Option.getD_none]
    split <;> decide
  | lock op hp howner =>
    refine rank_step_one (e := .go) ht ?_
    simp only [hp, rankAt, Place.rank, Ev.goes, Ev.cost, Option.map_some, Option.getD_some]
    split <;> decide
  | wait op hp hwaits hready =>
    refine rank_step_one (e := .go) ht ?_
    simp [hp, rankAt, Place.rank, Ev.goes, Ev.cost, hwaits]
  | take op hp hwaits hready =>
    refine rank_step_one (e := .go) ht ?_
    simp [hp, rankAt, Place.rank, Ev.goes, Ev.cost, hwaits]
  | act op hp hwaits =>
    refine rank_step_one (e := .go) ht ?_
    simp [hp, rankAt, Place.rank, Ev.goes, Ev.cost, hwaits]
  | alone op hp hnone =>
    refine rank_step_one (e := .notify none) ht ?_
    simp [hp, rankAt, Place.rank, Ev.goes, Ev.cost]
  | unlock op hp =>
    refine rank_step_one (e := .go) ht ?_
    simp [hp, rankAt, Place.rank, Ev.goes, Ev.cost]
  | wake op hp =>
    refine rank_step_one (e := .wake) ht ?_
    simp [hp, rankAt, Place.rank, Ev.goes, Ev.cost, hi.waits t op hp]
  | notify op op' t' hp hp' =>
    have hne : t' ≠ t := by
      rintro rfl
      rw [hp] at hp'
      cases hp'
    have hself := rank_move (M := M) (y := y) F ht (some (.leaving op))
    have hwoken := rank_move (M := M) (y := y.move t (some (.leaving op))) F (hF t' (by simp [hp']))
      (some (.locking op'))
    rw [move_places, if_neg hne, hp'] at hwoken
    rw [hp] at hself
    simp only [rankAt, Place.rank, hi.waits t' op' hp', if_true, Option.map_some, Option.getD_some] at hself hwoken
    show rank M F ((y.move t (some (.leaving op))).move t' (some (.locking op'))) + 1 ≤ rank M F y + 0
    omega

omit [DecidableEq T] in
theorem rank_mono {F F' : Finset T} (h : F ⊆ F') (y : Sync T ω) (hF : ∀ t, y.places t ≠ none → t ∈ F) :
    rank M F' y = rank M F y := by
  refine (Finset.sum_subset h fun t _ ht => ?_).symm
  have hnone : y.places t = none := by
    by_contra hp
    exact ht (hF t hp)
  rw [hnone]
  rfl

/-- The others are where they were, or woken. -/
theorem others_step (h : Step M s y t e s' y' a) {t' : T} (hne : t' ≠ t) : y'.places t' = y.places t' ∨
    ∃ op, y.places t' = some (.asleep op) ∧ y'.places t' = some (.locking op) := by
  cases h with
  | call op hp | lock op hp howner | wait op hp hwaits hready | take op hp hwaits hready | act op hp hwaits
  | alone op hp hnone | unlock op hp | wake op hp => exact Or.inl (by simp [hne])
  | notify op op' t'' hp hp' =>
    by_cases ht : t' = t''
    · subst ht
      exact Or.inr ⟨op', hp', by simp⟩
    · exact Or.inl (by simp [hne, ht])

theorem busy_step (h : Step M s y t e s' y' a) {t' : T} (ht : y'.places t' ≠ none) :
    t' = t ∨ y.places t' ≠ none := by
  by_cases hne : t' = t
  · exact Or.inl hne
  · rcases others_step h hne with hsame | ⟨op, hasleep, -⟩
    · exact Or.inr (hsame ▸ ht)
    · exact Or.inr (by simp [hasleep])

def goes (es : List (T × Ev T ω)) : Nat := (es.map (·.2.goes)).sum

def cost (es : List (T × Ev T ω)) : Nat := (es.map (·.2.cost)).sum

/-- Without calls, and but for sleepers woken for no reason, operations come to rest. -/
theorem goes_le {s0 : σ} {tr : Trace (T × Ev T ω) (Option ω)} (h : Run M.step (s0, idle) tr (s, y)) :
    goes (tr.map (·.1)) ≤ cost (tr.map (·.1)) := by
  have hrun : ∃ F : Finset T, (∀ t, y.places t ≠ none → t ∈ F) ∧
      rank M F y + goes (tr.map (·.1)) ≤ cost (tr.map (·.1)) := by
    refine h.invariant (I := fun tr x => ∃ F : Finset T, (∀ t, x.2.places t ≠ none → t ∈ F) ∧
      rank M F x.2 + goes (tr.map (·.1)) ≤ cost (tr.map (·.1))) ⟨∅, fun t ht => absurd rfl ht, le_refl _⟩ ?_
    intro tr x e x' a hx ⟨F, hF, hle⟩ hs
    obtain ⟨s, y⟩ := x
    obtain ⟨s', y'⟩ := x'
    obtain ⟨t, e⟩ := e
    have hstep := step_cases hs
    have hF' : ∀ t', y.places t' ≠ none → t' ∈ insert t F := fun t' ht' => Finset.mem_insert_of_mem (hF t' ht')
    refine ⟨insert t F, fun t' ht' => ?_, ?_⟩
    · rcases busy_step hstep ht' with rfl | hbusy
      · exact Finset.mem_insert_self _ _
      · exact hF' t' hbusy
    · have hrank := rank_step hstep (inv_of_run hx) hF' (Finset.mem_insert_self t F)
      rw [rank_mono (Finset.subset_insert t F) y hF] at hrank
      simp only [goes, cost, List.map_cons, List.sum_cons] at hle ⊢
      omega
  obtain ⟨F, -, hle⟩ := hrun
  omega

end Invariant

end Monitor

end Collette
