/-
  Collette.Store.Threads — threads that take the in-memory backend's locks, as runs of the
  backend.

  `Memory.step` takes for one step whatever happens without a lock changing hands, and
  knows of the outer lock and the gate only. `Locks.step` goes from lock to lock and leaves
  the data out. `Serves` says where the backend is when the threads are somewhere: what is
  between the two halves of a `prepare`, how many share the outer lock on behalf of
  `write`, and at what each thread's write handle is.

  - `step_served`: a step of a thread is a few steps of the backend, or none, whichever
    stores a `prepare` lists.
  - `call_served`: between calls, the owner of a handle does what it likes with the stores.
  - `threads_served`: so every run of the threads is one of the backend. What the locks
    let happen, the backend's steps let happen.
-/

import Collette.Prog.Family
import Collette.Store.Locks
import Collette.Store.Memory

namespace Collette.Locks

open Memory (Phase Gated writeStep)

/-! ## A thread and the backend -/

/-- The namespace of a `prepare` between its two halves. -/
def Thread.preparing (th : Thread) : Option String :=
  match th.call with
  | .prepare ns .reading => some ns
  | .prepare ns .lockWrite => some ns
  | _ => none

/-- It is in `prepare` of a namespace that it found. -/
def Thread.Found (th : Thread) (ns : String) : Prop :=
  th.call = .prepare ns .lockRead ∨ th.call = .prepare ns .reading ∨ th.call = .prepare ns .lockWrite

/-- The outer lock is shared on behalf of a `write` that has not copied the stores. -/
def Thread.sharing (th : Thread) : Nat :=
  match th.call with
  | .write _ .acquire => 1
  | .write _ .lockStores => 1
  | _ => 0

/-- It has a write handle of the namespace, or waits for one. -/
def Thread.Has (th : Thread) (ns : String) : Prop := th.permit = some ns ∨ th.AtGate ns

/-- What its handle's phase is. -/
def Thread.Writes (th : Thread) (phase : Phase) : Prop :=
  match th.call with
  | .write _ .acquire => phase = .waiting
  | .write _ .lockStores => phase = .permitted
  | .commit _ .writing => phase = .published
  | .commit _ .releasing => phase = .published ∨ ∃ staged, phase = .live staged
  | _ => ∃ staged, phase = .live staged

section Thread

variable {th : Thread} {ns : String}

theorem map_of_preparing (h : th.preparing = some ns) : (Lock.map, Mode.exclusive) ∈ th.holds := by
  rw [mem_holds]
  unfold Thread.preparing at h
  split at h
  all_goals grind [Call.holds]

theorem map_of_sharing (h : th.sharing ≠ 0) : (Lock.map, Mode.shared) ∈ th.holds := by
  rw [mem_holds]
  unfold Thread.sharing at h
  split at h
  all_goals grind [Call.holds]

end Thread

variable {T : Type}

section Update

variable [DecidableEq T]

variable {s : St T} {t : T} {th : Thread} {spaces : List String}
  (hex : (⟨spaces, Function.update s.threads t th⟩ : St T).locking.Exclusive)

include hex

/-- Nobody else has a lock in a mode that conflicts with the one the thread has it in. -/
theorem lock_alone {lock : Lock} {mode mode' : Mode} (hmine : (lock, mode) ∈ th.holds) {t' : T} (hne : t' ≠ t)
    (hother : (lock, mode') ∈ (s.threads t').holds) : mode.conflicts mode' = false := by
  have hmine : (lock, mode) ∈ (Function.update s.threads t th t).holds := by
    rw [Function.update_self]
    exact hmine
  have htheirs : (lock, mode') ∈ (Function.update s.threads t th t').holds := by
    rw [Function.update_of_ne hne]
    exact hother
  exact hex t t' (Ne.symm hne) _ hmine _ htheirs rfl

theorem not_preparing_alone {mode : Mode} (hmap : (Lock.map, mode) ∈ th.holds) {t' : T} (hne : t' ≠ t) :
    (s.threads t').preparing = none := by
  cases hp : (s.threads t').preparing with
  | none => rfl
  | some ns =>
    have hconf := lock_alone hex hmap hne (map_of_preparing hp)
    cases mode <;> cases hconf

/-- Nobody but the thread is in `prepare`. -/
theorem preparing_alone {mode : Mode} (hmap : (Lock.map, mode) ∈ th.holds) {t' : T} {ns : String}
    (h : (Function.update s.threads t th t').preparing = some ns) : t' = t ∧ th.preparing = some ns := by
  by_cases hne : t' = t
  · subst hne
    rw [Function.update_self] at h
    exact ⟨rfl, h⟩
  · rw [Function.update_of_ne hne, not_preparing_alone hex hmap hne] at h
    cases h

end Update

variable [Fintype T]

/-- The backend where the threads are; `handle` names the write handle of each that has one. -/
structure Serves (s : St T) (m : Memory.St) (handle : T → Nat) : Prop where
  spaces : ∀ ns, (m.spaces ns).isSome = true ↔ ns ∈ s.spaces
  found : ∀ t ns, (s.threads t).Found ns → ns ∈ s.spaces
  prepares : ∀ t ns, (s.threads t).preparing = some ns → ∃ p, m.preparing = some p ∧ p.ns = ns
  preparing : ∀ p, m.preparing = some p → ∃ t, (s.threads t).preparing = some p.ns
  shared : m.shared = ∑ t, (s.threads t).sharing
  writes : ∀ t ns, (s.threads t).Has ns →
    ∃ phase, m.writers (handle t) = some ⟨ns, phase⟩ ∧ (s.threads t).Writes phase
  apart : ∀ t t' ns ns', t ≠ t' → (s.threads t).Has ns → (s.threads t').Has ns' → handle t ≠ handle t'
  gate : ∀ ns space, m.spaces ns = some space → space.gate = true → ∃ t, (s.threads t).permit = some ns
  /-- There are names for one more handle of each kind. -/
  freshWriter : ∃ bound, ∀ w, bound ≤ w → m.writers w = none
  freshReader : ∃ bound, ∀ r, bound ≤ r → m.readers r = none

/-- The backend comes from there to where the threads are. -/
def Served (s : St T) (m : Memory.St) : Prop := ∃ tr m' handle, Run Memory.step m tr m' ∧ Serves s m' handle

theorem served_of_run {s : St T} {m m' : Memory.St} {tr : Trace Memory.Ev Reply} (hrun : Run Memory.step m tr m')
    (h : ∃ handle, Serves s m' handle) : Served s m := by
  obtain ⟨handle, hserves⟩ := h
  exact ⟨tr, m', handle, hrun, hserves⟩

theorem serves_start : Serves (start : St T) Memory.new fun _ => 0 where
  spaces ns := by simp [start, Memory.new]
  found t ns h := by simp [start, Thread.Found] at h
  prepares t ns h := by cases h
  preparing p h := by cases h
  shared := by simp [start, Memory.new, Thread.sharing]
  writes t ns h := by rcases h with h | h <;> cases h
  apart t t' ns ns' _ h := by rcases h with h | h <;> cases h
  gate ns space h := by cases h
  freshWriter := ⟨0, fun _ _ => rfl⟩
  freshReader := ⟨0, fun _ _ => rfl⟩

/-- The state of the namespace that the thread's handle is of. -/
theorem Serves.space {s : St T} {m : Memory.St} {handle : T → Nat} {t : T} {ns : String} (hs : Serves s m handle)
    (hm : Gated m) (hhas : (s.threads t).Has ns) :
    ∃ phase space, m.writers (handle t) = some ⟨ns, phase⟩ ∧ (s.threads t).Writes phase ∧ m.spaces ns = some space := by
  obtain ⟨phase, hw, hphase⟩ := hs.writes t ns hhas
  obtain ⟨space, hspace⟩ := Option.isSome_iff_exists.mp (hm.space (handle t) _ hw)
  exact ⟨phase, space, hw, hphase, hspace⟩

theorem Thread.Writes.live {th : Thread} {staged : Stores} (h : th.Writes (.live staged)) (staged' : Stores) :
    th.Writes (.live staged') := by
  unfold Thread.Writes at h ⊢
  split at h
  all_goals simp_all

/-- What is done with the stores of a live handle is no step of a thread. -/
theorem call_served {s : St T} {m m' : Memory.St} {handle : T → Nat} {w : Nat} {call : Memory.WriteCall} {a : Reply}
    (hs : Serves s m handle) (h : Memory.step m (.writer w call) = some (m', a))
    (hcall : call.looks = true ∨ call.change.isSome = true) : Serves s m' handle := by
  cases Memory.step_cases h with
  | look _ _ _ hwriter => exact absurd rfl (hwriter w call)
  | writer _ _ ns phase phase' space space' _ hw hspace hwrite =>
    have hlive : ∃ staged staged', phase = .live staged ∧ phase' = .live staged' ∧ space' = space := by
      cases hwrite with
      | look => exact ⟨_, _, rfl, rfl, rfl⟩
      | change => exact ⟨_, _, rfl, rfl, rfl⟩
      | refuse => exact ⟨_, _, rfl, rfl, rfl⟩
      | _ => simp [Memory.WriteCall.looks, Memory.WriteCall.change] at hcall
    have hshared : call.shared m.shared = m.shared := by
      cases call <;> first | rfl | simp [Memory.WriteCall.looks, Memory.WriteCall.change] at hcall
    obtain ⟨staged, staged', rfl, rfl, rfl⟩ := hlive
    have hspaces : Function.update m.spaces ns (some space') = m.spaces := by
      rw [← hspace, Function.update_eq_self]
    rw [hspaces, hshared]
    refine ⟨hs.spaces, hs.found, hs.prepares, hs.preparing, hs.shared, fun t ns' hhas => ?_, hs.apart, hs.gate, ?_,
      hs.freshReader⟩
    · obtain ⟨phase, hw', hphase⟩ := hs.writes t ns' hhas
      by_cases hne : handle t = w
      · rw [hne, hw] at hw'
        cases hw'
        exact ⟨.live staged', by simp [hne], hphase.live staged'⟩
      · simp only [Function.update_of_ne hne]
        exact ⟨phase, hw', hphase⟩
    · obtain ⟨bound, hfresh⟩ := hs.freshWriter
      refine ⟨max bound (w + 1), fun w' hw' => ?_⟩
      have hne : w' ≠ w := by omega
      simp only [Function.update_of_ne hne]
      exact hfresh w' (by omega)

section Step

variable [DecidableEq T] {s : St T} {m m' : Memory.St} {handle : T → Nat} {t : T} {th : Thread} {spaces : List String}
  {w : Nat}

/-- One thread changes, and with it its own handle. -/
theorem Serves.update (hs : Serves s m handle)
    (hspaces : ∀ ns, (m'.spaces ns).isSome = true ↔ ns ∈ spaces) (hgrow : ∀ ns ∈ s.spaces, ns ∈ spaces)
    (hfound : ∀ ns, th.Found ns → ns ∈ spaces)
    (hprepares : ∀ t' ns, (Function.update s.threads t th t').preparing = some ns →
      ∃ p, m'.preparing = some p ∧ p.ns = ns)
    (hpreparing : ∀ p, m'.preparing = some p → ∃ t', (Function.update s.threads t th t').preparing = some p.ns)
    (hshared : m'.shared + (s.threads t).sharing = m.shared + th.sharing)
    (hother : ∀ t' ns ns', t' ≠ t → (s.threads t').Has ns → th.Has ns' → handle t' ≠ w)
    (hwriters : ∀ t' ns, t' ≠ t → (s.threads t').Has ns → m'.writers (handle t') = m.writers (handle t'))
    (hmine : ∀ ns, th.Has ns → ∃ phase, m'.writers w = some ⟨ns, phase⟩ ∧ th.Writes phase)
    (hgate : ∀ ns space, m'.spaces ns = some space → space.gate = true →
      ∃ t', (Function.update s.threads t th t').permit = some ns)
    (hfreshWriter : ∃ bound, ∀ w, bound ≤ w → m'.writers w = none)
    (hfreshReader : ∃ bound, ∀ r, bound ≤ r → m'.readers r = none) :
    Serves ⟨spaces, Function.update s.threads t th⟩ m' (Function.update handle t w) where
  spaces := hspaces
  found := (Function.forall_update_iff s.threads fun _ th => ∀ ns, th.Found ns → ns ∈ spaces).mpr
    ⟨hfound, fun t' _ ns h => hgrow ns (hs.found t' ns h)⟩
  prepares := hprepares
  preparing := hpreparing
  shared := by
    have hsum := sum_update s.threads Thread.sharing t th
    rw [hs.shared] at hshared
    simp only
    omega
  writes t' ns h := by
    by_cases ht : t' = t
    · subst ht
      simp only [Function.update_self] at h ⊢
      exact hmine ns h
    · simp only [Function.update_of_ne ht] at h ⊢
      rw [hwriters t' ns ht h]
      exact hs.writes t' ns h
  apart t1 t2 ns1 ns2 hne h1 h2 := by
    by_cases ht1 : t1 = t
    · subst ht1
      have ht2 : t2 ≠ t1 := Ne.symm hne
      simp only [Function.update_self, Function.update_of_ne ht2] at h1 h2 ⊢
      exact Ne.symm (hother t2 ns2 ns1 ht2 h2 h1)
    · simp only [Function.update_of_ne ht1] at h1 ⊢
      by_cases ht2 : t2 = t
      · subst ht2
        simp only [Function.update_self] at h2 ⊢
        exact hother t1 ns1 ns2 ht1 h1 h2
      · simp only [Function.update_of_ne ht2] at h2 ⊢
        exact hs.apart t1 t2 ns1 ns2 hne h1 h2
  gate := hgate
  freshWriter := hfreshWriter
  freshReader := hfreshReader

section Same

variable (hs : Serves s m handle)

include hs

theorem Serves.prepares_same (h : th.preparing = (s.threads t).preparing) (t' : T) (ns : String)
    (ht' : (Function.update s.threads t th t').preparing = some ns) : ∃ p, m.preparing = some p ∧ p.ns = ns := by
  rw [congr_update (g := Thread.preparing) h] at ht'
  exact hs.prepares t' ns ht'

theorem Serves.preparing_same (h : th.preparing = (s.threads t).preparing) (p : Memory.Prepare)
    (hp : m.preparing = some p) : ∃ t', (Function.update s.threads t th t').preparing = some p.ns := by
  obtain ⟨t', ht'⟩ := hs.preparing p hp
  exact ⟨t', by rw [congr_update (g := Thread.preparing) h]; exact ht'⟩

theorem Serves.gate_same (h : th.permit = (s.threads t).permit) (ns : String) (space : Memory.NamespacedState)
    (hspace : m.spaces ns = some space) (hg : space.gate = true) :
    ∃ t', (Function.update s.threads t th t').permit = some ns := by
  obtain ⟨t', ht'⟩ := hs.gate ns space hspace hg
  exact ⟨t', by rw [congr_update (g := Thread.permit) h]; exact ht'⟩

end Same

/-- A step of the backend, or none, that is not one of a write handle. -/
theorem Serves.keep (hs : Serves s m handle) (hpermit : th.permit = (s.threads t).permit)
    (hsharing : th.sharing = (s.threads t).sharing) (hgate : ∀ ns, th.AtGate ns → (s.threads t).AtGate ns)
    (hwrites : ∀ phase, (s.threads t).Writes phase → th.Writes phase) (hshared : m'.shared = m.shared)
    (hwriters : m'.writers = m.writers) (hspaces : ∀ ns, (m'.spaces ns).isSome = true ↔ ns ∈ spaces)
    (hgates : ∀ ns space', m'.spaces ns = some space' → space'.gate = true →
      ∃ space, m.spaces ns = some space ∧ space.gate = true) (hgrow : ∀ ns ∈ s.spaces, ns ∈ spaces)
    (hfound : ∀ ns, th.Found ns → ns ∈ spaces)
    (hprepares : ∀ t' ns, (Function.update s.threads t th t').preparing = some ns →
      ∃ p, m'.preparing = some p ∧ p.ns = ns)
    (hpreparing : ∀ p, m'.preparing = some p → ∃ t', (Function.update s.threads t th t').preparing = some p.ns)
    (hreaders : ∃ bound, ∀ r, bound ≤ r → m'.readers r = none) :
    ∃ handle', Serves ⟨spaces, Function.update s.threads t th⟩ m' handle' := by
  have hhas : ∀ ns, th.Has ns → (s.threads t).Has ns := by
    intro ns h
    rcases h with h | h
    · exact Or.inl (hpermit ▸ h)
    · exact Or.inr (hgate ns h)
  refine ⟨_, hs.update (w := handle t) hspaces hgrow hfound hprepares hpreparing (by rw [hshared, hsharing]) ?_ ?_ ?_ ?_
    (by rw [hwriters]; exact hs.freshWriter) hreaders⟩
  · intro t' ns ns' hne h h'
    exact hs.apart t' t ns ns' hne h (hhas ns' h')
  · intro t' ns _ _
    rw [hwriters]
  · intro ns h
    obtain ⟨phase, hw, hphase⟩ := hs.writes t ns (hhas ns h)
    exact ⟨phase, by rw [hwriters]; exact hw, hwrites phase hphase⟩
  · intro ns space' hspace' hg'
    obtain ⟨space, hspace, hg⟩ := hgates ns space' hspace' hg'
    exact hs.gate_same hpermit ns space hspace hg

/-- A step between two locks that the backend knows nothing of. -/
theorem quiet_served (hs : Serves s m handle) {call : Call}
    (hpreparing : ({ s.threads t with call := call } : Thread).preparing = (s.threads t).preparing)
    (hsharing : ({ s.threads t with call := call } : Thread).sharing = (s.threads t).sharing)
    (hgate : ∀ ns, call ≠ .write ns .acquire)
    (hwrites : ∀ phase, (s.threads t).Writes phase → ({ s.threads t with call := call } : Thread).Writes phase)
    (hfound : ∀ ns, ({ s.threads t with call := call } : Thread).Found ns → ns ∈ s.spaces) :
    Served ⟨s.spaces, Function.update s.threads t { s.threads t with call := call }⟩ m :=
  served_of_run Run.nil (hs.keep rfl hsharing (fun ns hat => absurd hat (hgate ns)) hwrites rfl rfl hs.spaces
    (fun _ space h hg => ⟨space, h, hg⟩) (fun _ h => h) hfound (hs.prepares_same hpreparing)
    (hs.preparing_same hpreparing) hs.freshReader)

/-- One call of the thread's write handle. -/
theorem writer_served (hs : Serves s m handle) {ns : String} {phase phase' : Phase}
    {space space' : Memory.NamespacedState} {call : Memory.WriteCall} (hhas : (s.threads t).Has ns)
    (hw : m.writers (handle t) = some ⟨ns, phase⟩)
    (hspace : m.spaces ns = some space) (hcall : writeStep space phase call = some (space', phase', .done))
    (hmine : ∀ ns', th.Has ns' → ns' = ns ∧ th.Writes phase') (hfound : ∀ ns, ¬ th.Found ns)
    (hpreparing : th.preparing = (s.threads t).preparing)
    (hshared : call.shared m.shared + (s.threads t).sharing = m.shared + th.sharing)
    (hgate : space'.gate = true → ∃ t', (Function.update s.threads t th t').permit = some ns)
    (hpermit : ∀ ns', ns' ≠ ns → (s.threads t).permit ≠ some ns') :
    Served ⟨s.spaces, Function.update s.threads t th⟩ m := by
  refine served_of_run (Run.step Run.nil (Memory.writer_eq hw hspace hcall)) ⟨Function.update handle t (handle t), ?_⟩
  have hothers : ∀ t' ns', t' ≠ t → (s.threads t').Has ns' → handle t' ≠ handle t :=
    fun t' ns' hne h => hs.apart t' t ns' ns hne h hhas
  refine hs.update (w := handle t) ?_ (fun _ h => h) (fun ns' h => absurd h (hfound ns')) (hs.prepares_same hpreparing)
    (hs.preparing_same hpreparing) hshared (fun t' ns' _ hne h _ => hothers t' ns' hne h) ?_ ?_ ?_ ?_ hs.freshReader
  · intro ns'
    rw [← hs.spaces ns']
    by_cases hns : ns' = ns
    · subst hns
      simp [hspace]
    · simp only [Function.update_of_ne hns]
  · intro t' ns' hne h
    simp only [Function.update_of_ne (hothers t' ns' hne h)]
  · intro ns' h
    obtain ⟨rfl, hphase⟩ := hmine ns' h
    exact ⟨phase', by simp, hphase⟩
  · intro ns' space1 h1 hg
    by_cases hns : ns' = ns
    · subst hns
      simp only [Function.update_self, Option.some.injEq] at h1
      subst h1
      exact hgate hg
    · simp only [Function.update_of_ne hns] at h1
      obtain ⟨t', ht'⟩ := hs.gate ns' space1 h1 hg
      have hne : t' ≠ t := by
        intro heq
        subst heq
        exact hpermit ns' hns ht'
      exact ⟨t', by rw [Function.update_of_ne hne]; exact ht'⟩
  · obtain ⟨bound, hfresh⟩ := hs.freshWriter
    refine ⟨max bound (handle t + 1), fun w' hw' => ?_⟩
    have hne : w' ≠ handle t := by omega
    simp only [Function.update_of_ne hne]
    exact hfresh w' (by omega)

/-! ## `prepare` -/

section Alone

variable (hex : (⟨spaces, Function.update s.threads t th⟩ : St T).locking.Exclusive)

include hex

theorem Serves.idle (hs : Serves s m handle) {mode : Mode} (hmap : (Lock.map, mode) ∈ th.holds)
    (hbefore : (s.threads t).preparing = none) : m.preparing = none := by
  cases hp : m.preparing with
  | none => rfl
  | some p =>
    obtain ⟨t', ht'⟩ := hs.preparing p hp
    by_cases hne : t' = t
    · subst hne
      rw [hbefore] at ht'
      cases ht'
    · rw [not_preparing_alone hex hmap hne] at ht'
      cases ht'

theorem Serves.unshared (hs : Serves s m handle) (hmap : (Lock.map, Mode.exclusive) ∈ th.holds)
    (hbefore : (s.threads t).sharing = 0) : m.shared = 0 := by
  rw [hs.shared]
  refine Finset.sum_eq_zero fun t' _ => ?_
  by_cases hne : t' = t
  · rw [hne, hbefore]
  · by_contra hsharing
    have hconf := lock_alone hex hmap hne (map_of_sharing hsharing)
    cases hconf

end Alone

section Prepare

variable {ns : String} (hs : Serves s m handle)
  (hex : (⟨spaces, Function.update s.threads t th⟩ : St T).locking.Exclusive)

include hs hex

/-- `prepare` copies the stores of a namespace. -/
theorem prepareRead_served (hcall : (s.threads t).call = .prepare ns .lockRead)
    (hth : th = { s.threads t with call := .prepare ns .reading }) (names : List String) :
    Served ⟨s.spaces, Function.update s.threads t th⟩ m := by
  subst hth
  have hmap : (Lock.map, Mode.exclusive) ∈ ({ s.threads t with call := .prepare ns .reading } : Thread).holds :=
    mem_holds.mpr (Or.inr (by simp [Call.holds]))
  have hidle : m.preparing = none := hs.idle hex hmap (by simp [Thread.preparing, hcall])
  have hshared : m.shared = 0 := hs.unshared hex hmap (by simp [Thread.sharing, hcall])
  refine served_of_run (Run.step Run.nil (Memory.prepareRead_eq hidle hshared ns names)) ?_
  refine hs.keep rfl (by simp [Thread.sharing, hcall]) (by simp [Thread.AtGate]) (by simp [Thread.Writes, hcall]) rfl
    rfl hs.spaces (fun _ space h hg => ⟨space, h, hg⟩) (fun _ h => h) ?_ ?_ ?_ hs.freshReader
  · intro ns' h
    refine hs.found t ns' ?_
    simp only [Thread.Found, hcall] at h ⊢
    simpa using h
  · intro t' ns' h
    obtain ⟨-, hns⟩ := preparing_alone hex hmap h
    exact ⟨_, rfl, Option.some.inj hns⟩
  · intro p hp
    cases hp
    exact ⟨t, by simp [Thread.preparing]⟩

/-- `prepare` publishes the stores of a namespace. -/
theorem preparePublish_served (hcall : (s.threads t).call = .prepare ns .lockWrite)
    (hth : th = { s.threads t with call := .prepare ns .writing }) :
    Served ⟨s.spaces, Function.update s.threads t th⟩ m := by
  subst hth
  have hmap : (Lock.map, Mode.exclusive) ∈ ({ s.threads t with call := .prepare ns .writing } : Thread).holds :=
    mem_holds.mpr (Or.inr (by simp [Call.holds]))
  obtain ⟨p, hp, rfl⟩ := hs.prepares t ns (by simp [Thread.preparing, hcall])
  have hspace : p.ns ∈ s.spaces := hs.found t p.ns (by simp [Thread.Found, hcall])
  refine served_of_run (Run.step Run.nil (Memory.preparePublish_eq hp)) ?_
  refine hs.keep rfl (by simp [Thread.sharing, hcall]) (by simp [Thread.AtGate]) (by simp [Thread.Writes, hcall]) rfl
    rfl ?_ ?_ (fun _ h => h) (by simp [Thread.Found]) ?_ (fun _ h => by cases h) hs.freshReader
  · intro ns'
    by_cases hns : ns' = p.ns
    · subst hns
      simpa using hspace
    · simp only [Function.update_of_ne hns]
      exact hs.spaces ns'
  · intro ns' space' h hg
    by_cases hns : ns' = p.ns
    · subst hns
      simp only [Function.update_self, Option.some.injEq] at h
      subst h
      obtain ⟨space, hspace⟩ := Option.isSome_iff_exists.mp ((hs.spaces p.ns).mpr hspace)
      refine ⟨space, hspace, ?_⟩
      simpa [Memory.Prepare.publish, hspace] using hg
    · simp only [Function.update_of_ne hns] at h
      exact ⟨space', h, hg⟩
  · intro t' ns' h
    cases (preparing_alone hex hmap h).2

/-- `prepare` puts in a namespace that there was not. -/
theorem prepareNew_served (hcall : (s.threads t).call = .prepare ns .lockMap) (hnew : ns ∉ s.spaces)
    (hspaces : spaces = ns :: s.spaces) (hth : th = { s.threads t with call := .prepare ns .leaving })
    (names : List String) : Served ⟨spaces, Function.update s.threads t th⟩ m := by
  subst hth
  subst hspaces
  have hmap : (Lock.map, Mode.exclusive) ∈ ({ s.threads t with call := .prepare ns .leaving } : Thread).holds :=
    mem_holds.mpr (Or.inr (by simp [Call.holds]))
  have hidle : m.preparing = none := hs.idle hex hmap (by simp [Thread.preparing, hcall])
  have hshared : m.shared = 0 := hs.unshared hex hmap (by simp [Thread.sharing, hcall])
  have hnone : m.spaces ns = none := by
    rw [← Option.not_isSome_iff_eq_none, hs.spaces]
    exact hnew
  refine served_of_run (Run.step (Run.step Run.nil (Memory.prepareRead_eq hidle hshared ns names))
    (Memory.preparePublish_eq (p := ⟨ns, names, m.published ns⟩) rfl)) ?_
  refine hs.keep rfl (by simp [Thread.sharing, hcall]) (by simp [Thread.AtGate]) (by simp [Thread.Writes, hcall]) rfl
    rfl ?_ ?_ (fun _ h => List.mem_cons_of_mem _ h) (by simp [Thread.Found]) ?_ (fun _ h => by cases h) hs.freshReader
  · intro ns'
    by_cases hns : ns' = ns
    · subst hns
      simp
    · simp only [Function.update_of_ne hns, List.mem_cons, hns, false_or]
      exact hs.spaces ns'
  · intro ns' space' h hg
    by_cases hns : ns' = ns
    · subst hns
      simp only [Function.update_self, Option.some.injEq] at h
      subst h
      simp [Memory.Prepare.publish, hnone] at hg
    · simp only [Function.update_of_ne hns] at h
      exact ⟨space', h, hg⟩
  · intro t' ns' h
    cases (preparing_alone hex hmap h).2

end Prepare

/-! ## Handles -/

section Handles

variable {ns : String} (hs : Serves s m handle)

include hs

/-- `read` copies the stores, or panics. -/
theorem read_served (hex : (⟨s.spaces, Function.update s.threads t th⟩ : St T).locking.Exclusive)
    (hcall : (s.threads t).call = .read ns .lockStores) (hth : th = { s.threads t with call := .read ns .reading }) :
    Served ⟨s.spaces, Function.update s.threads t th⟩ m := by
  subst hth
  have hmap : (Lock.map, Mode.shared) ∈ ({ s.threads t with call := .read ns .reading } : Thread).holds :=
    mem_holds.mpr (Or.inr (by simp [Call.holds]))
  have hbefore : (s.threads t).preparing = none := by simp [Thread.preparing, hcall]
  have hidle : m.preparing = none := hs.idle hex hmap hbefore
  have hafter : ({ s.threads t with call := .read ns .reading } : Thread).preparing = (s.threads t).preparing := by
    rw [hbefore]
    rfl
  obtain ⟨r, hr⟩ := hs.freshReader
  cases hspace : m.spaces ns with
  | none =>
    refine served_of_run Run.nil (hs.keep rfl (by simp [Thread.sharing, hcall]) (by simp [Thread.AtGate])
      (by simp [Thread.Writes, hcall]) rfl rfl hs.spaces (fun _ space h hg => ⟨space, h, hg⟩) (fun _ h => h)
      (by simp [Thread.Found]) (hs.prepares_same hafter) (hs.preparing_same hafter) ⟨r, hr⟩)
  | some space =>
    refine served_of_run (Run.step Run.nil (Memory.step_read hidle (hr r (le_refl r)) hspace)) (hs.keep rfl
      (by simp [Thread.sharing, hcall]) (by simp [Thread.AtGate]) (by simp [Thread.Writes, hcall]) rfl rfl hs.spaces
      (fun _ space h hg => ⟨space, h, hg⟩) (fun _ h => h) (by simp [Thread.Found]) (hs.prepares_same hafter)
      (hs.preparing_same hafter) ⟨r + 1, fun r' hr' => ?_⟩)
    have hne : r' ≠ r := by omega
    simp only [Function.update_of_ne hne]
    exact hr r' (by omega)

/-- `write` is at the gate. -/
theorem write_served (hex : (⟨s.spaces, Function.update s.threads t th⟩ : St T).locking.Exclusive)
    (hcall : (s.threads t).call = .write ns .lockMap) (hpermit : (s.threads t).permit = none) (hns : ns ∈ s.spaces)
    (hth : th = { s.threads t with call := .write ns .acquire }) :
    Served ⟨s.spaces, Function.update s.threads t th⟩ m := by
  subst hth
  have hmap : (Lock.map, Mode.shared) ∈ ({ s.threads t with call := .write ns .acquire } : Thread).holds :=
    mem_holds.mpr (Or.inr (by simp [Call.holds]))
  have hbefore : (s.threads t).preparing = none := by simp [Thread.preparing, hcall]
  have hidle : m.preparing = none := hs.idle hex hmap hbefore
  have hafter : ({ s.threads t with call := .write ns .acquire } : Thread).preparing = (s.threads t).preparing := by
    rw [hbefore]
    rfl
  obtain ⟨space, hspace⟩ := Option.isSome_iff_exists.mp ((hs.spaces ns).mpr hns)
  obtain ⟨w, hfresh⟩ := hs.freshWriter
  have hothers : ∀ t' ns', (s.threads t').Has ns' → handle t' ≠ w := by
    intro t' ns' h heq
    obtain ⟨phase, hw, -⟩ := hs.writes t' ns' h
    rw [heq, hfresh w (le_refl w)] at hw
    cases hw
  refine served_of_run (Run.step Run.nil (Memory.write_eq hidle (hfresh w (le_refl w)) hspace))
    ⟨Function.update handle t w, hs.update hs.spaces (fun _ h => h) (by simp [Thread.Found]) (hs.prepares_same hafter)
      (hs.preparing_same hafter) ?_ (fun t' ns' _ _ h _ => hothers t' ns' h) ?_ ?_ (hs.gate_same rfl) ⟨w + 1, ?_⟩
      hs.freshReader⟩
  · simp [Thread.sharing, hcall]
  · intro t' ns' _ h
    simp only [Function.update_of_ne (hothers t' ns' h)]
  · intro ns' h
    simp only [Thread.Has, hpermit, Thread.AtGate, Call.write.injEq, and_true, reduceCtorEq, false_or] at h
    subst h
    exact ⟨.waiting, by simp, rfl⟩
  · intro w' hw'
    have hne : w' ≠ w := by omega
    simp only [Function.update_of_ne hne]
    exact hfresh w' (by omega)

/-- `write` takes the permit, which nobody else has. -/
theorem acquire_served (hm : Gated m) (hex : (⟨s.spaces, Function.update s.threads t th⟩ : St T).locking.Exclusive)
    (hcall : (s.threads t).call = .write ns .acquire) (hpermit : (s.threads t).permit = none)
    (hth : th = ⟨some ns, .write ns .lockStores⟩) : Served ⟨s.spaces, Function.update s.threads t th⟩ m := by
  subst hth
  have hhas : (s.threads t).Has ns := Or.inr hcall
  obtain ⟨phase, space, hw, hphase, hspace⟩ := hs.space hm hhas
  have hwaiting : phase = .waiting := by simpa [Thread.Writes, hcall] using hphase
  subst hwaiting
  have hfree : space.gate = false := by
    by_contra hgate
    obtain ⟨t', ht'⟩ := hs.gate ns space hspace (by simpa using hgate)
    have hne : t' ≠ t := by
      intro heq
      rw [heq, hpermit] at ht'
      cases ht'
    cases lock_alone hex (gate_mem_holds.mpr ⟨rfl, rfl⟩) hne (gate_mem_holds.mpr ⟨ht', rfl⟩)
  have hacquire : writeStep space .waiting .acquire = some ({ space with gate := true }, .permitted, .done) :=
    if_neg (by simp [hfree])
  refine writer_served hs hhas hw hspace hacquire ?_ (by simp [Thread.Found]) (by simp [Thread.preparing, hcall])
    (by simp [Thread.sharing, hcall, Memory.WriteCall.shared]) ?_ (by simp [hpermit])
  · intro ns' h
    simp only [Thread.Has, Thread.AtGate, Option.some.injEq, Call.write.injEq, reduceCtorEq, and_false, or_false] at h
    exact ⟨h.symm, rfl⟩
  · intro _
    exact ⟨t, by rw [Function.update_self]⟩

/-- `write` copies the stores. -/
theorem snapshot_served (hm : Gated m) (hcall : (s.threads t).call = .write ns .lockStores)
    (hpermit : (s.threads t).permit = some ns) (hth : th = { s.threads t with call := .write ns .reading }) :
    Served ⟨s.spaces, Function.update s.threads t th⟩ m := by
  subst hth
  have hhas : (s.threads t).Has ns := Or.inl hpermit
  obtain ⟨phase, space, hw, hphase, hspace⟩ := hs.space hm hhas
  have hpermitted : phase = .permitted := by simpa [Thread.Writes, hcall] using hphase
  subst hpermitted
  have hshared : m.shared - 1 + 1 = m.shared := by
    have hone : (s.threads t).sharing ≤ ∑ t', (s.threads t').sharing :=
      Finset.single_le_sum (f := fun t' => (s.threads t').sharing) (fun _ _ => Nat.zero_le _) (Finset.mem_univ t)
    have hsharing : (s.threads t).sharing = 1 := by simp [Thread.sharing, hcall]
    rw [hsharing, ← hs.shared] at hone
    omega
  have hsnapshot : writeStep space .permitted .snapshot = some (space, .live space.stores, .done) := rfl
  refine writer_served hs hhas hw hspace hsnapshot ?_ (by simp [Thread.Found])
    (by simp [Thread.preparing, hcall]) (by simp [Thread.sharing, hcall, Memory.WriteCall.shared, hshared]) ?_
    (by simp [hpermit, eq_comm])
  · intro ns' h
    simp only [Thread.Has, Thread.AtGate, hpermit, Option.some.injEq, Call.write.injEq, reduceCtorEq, and_false,
      or_false] at h
    exact ⟨h.symm, space.stores, rfl⟩
  · exact hs.gate_same (by rfl) ns space hspace

/-- `commit` publishes. -/
theorem commit_served (hm : Gated m) (hcall : (s.threads t).call = .commit ns .lockStores)
    (hpermit : (s.threads t).permit = some ns) (hth : th = { s.threads t with call := .commit ns .writing }) :
    Served ⟨s.spaces, Function.update s.threads t th⟩ m := by
  subst hth
  have hhas : (s.threads t).Has ns := Or.inl hpermit
  obtain ⟨phase, space, hw, hphase, hspace⟩ := hs.space hm hhas
  obtain ⟨staged, rfl⟩ : ∃ staged, phase = .live staged := by simpa [Thread.Writes, hcall] using hphase
  have hpublish : writeStep space (.live staged) .commit = some ({ space with stores := staged }, .published, .done) :=
    rfl
  refine writer_served hs hhas hw hspace hpublish ?_ (by simp [Thread.Found])
    (by simp [Thread.preparing, hcall]) (by simp [Thread.sharing, hcall, Memory.WriteCall.shared]) ?_
    (by simp [hpermit, eq_comm])
  · intro ns' h
    simp only [Thread.Has, Thread.AtGate, hpermit, Option.some.injEq, reduceCtorEq, or_false] at h
    exact ⟨h.symm, rfl⟩
  · exact hs.gate_same (by rfl) ns space hspace

/-- The handle goes, and with it the permit. -/
theorem drop_served (hm : Gated m) (hcall : (s.threads t).call = .commit ns .releasing)
    (hpermit : (s.threads t).permit = some ns) (hth : th = ⟨none, .idle⟩) :
    Served ⟨s.spaces, Function.update s.threads t th⟩ m := by
  subst hth
  have hhas : (s.threads t).Has ns := Or.inl hpermit
  obtain ⟨phase, space, hw, hphase, hspace⟩ := hs.space hm hhas
  have hdrop : writeStep space phase .drop = some ({ space with gate := false }, .dropped, .done) := by
    have hphase : phase = .published ∨ ∃ staged, phase = .live staged := by simpa [Thread.Writes, hcall] using hphase
    rcases hphase with rfl | ⟨staged, rfl⟩
    · rfl
    · rfl
  refine writer_served hs hhas hw hspace hdrop ?_ (by simp [Thread.Found]) (by simp [Thread.preparing, hcall])
    (by simp [Thread.sharing, hcall, Memory.WriteCall.shared]) nofun (by simp [hpermit, eq_comm])
  intro ns' h
  rcases h with h | h <;> cases h

end Handles

/-! ## Runs -/

/-- A thread that begins a call. -/
theorem enter_served (hs : Serves s m handle) {e : Ev} {call : Call} (hidle : (s.threads t).call = .idle)
    (h : enter (s.threads t) e = some call) (hth : th = { s.threads t with call := call }) :
    Served ⟨s.spaces, Function.update s.threads t th⟩ m := by
  subst hth
  refine quiet_served hs ?_ ?_ ?_ ?_ ?_
  all_goals cases enter_cases h <;> simp [Thread.preparing, Thread.sharing, Thread.Writes, Thread.Found, hidle]

/-- A thread that goes on. -/
theorem go_served (hs : Serves s m handle) (hi : (s.threads t).Ok) (hm : Gated m)
    (h : advance s.spaces (s.threads t) = some (spaces, th))
    (hex : (⟨spaces, Function.update s.threads t th⟩ : St T).locking.Exclusive) (names : List String) :
    Served ⟨spaces, Function.update s.threads t th⟩ m := by
  cases hcall : (s.threads t).call with
  | idle => simp [advance, hcall] at h
  | prepare ns phase =>
    cases phase with
    | lockMap =>
      simp only [advance, hcall] at h
      split at h
      · rename_i hns
        cases h
        refine quiet_served hs ?_ ?_ nofun ?_ ?_
        all_goals simp [Thread.preparing, Thread.sharing, Thread.Writes, Thread.Found, hcall, hns]
      · rename_i hns
        cases h
        exact prepareNew_served hs hex hcall hns rfl rfl names
    | lockRead =>
      simp only [advance, hcall] at h
      cases h
      exact prepareRead_served hs hex hcall rfl names
    | reading =>
      simp only [advance, hcall] at h
      cases h
      have hns : ns ∈ s.spaces := hs.found t ns (by simp [Thread.Found, hcall])
      refine quiet_served hs ?_ ?_ nofun ?_ ?_
      all_goals simp [Thread.preparing, Thread.sharing, Thread.Writes, Thread.Found, hcall, hns]
    | lockWrite =>
      simp only [advance, hcall] at h
      cases h
      exact preparePublish_served hs hex hcall rfl
    | _ =>
      simp only [advance, hcall] at h
      cases h
      refine quiet_served hs ?_ ?_ nofun ?_ ?_
      all_goals simp [Thread.preparing, Thread.sharing, Thread.Writes, Thread.Found, hcall]
  | read ns phase =>
    cases phase with
    | lockMap =>
      simp only [advance, hcall] at h
      split at h
      all_goals
        cases h
        refine quiet_served hs ?_ ?_ nofun ?_ ?_
        all_goals simp [Thread.preparing, Thread.sharing, Thread.Writes, Thread.Found, hcall]
    | lockStores =>
      simp only [advance, hcall] at h
      cases h
      exact read_served hs hex hcall rfl
    | _ =>
      simp only [advance, hcall] at h
      cases h
      refine quiet_served hs ?_ ?_ nofun ?_ ?_
      all_goals simp [Thread.preparing, Thread.sharing, Thread.Writes, Thread.Found, hcall]
  | write ns phase =>
    cases phase with
    | lockMap =>
      simp only [advance, hcall] at h
      split at h
      · rename_i hns
        cases h
        exact write_served hs hex hcall (hi.waits ns (Or.inl hcall)) hns rfl
      · cases h
        refine quiet_served hs ?_ ?_ nofun ?_ ?_
        all_goals simp [Thread.preparing, Thread.sharing, Thread.Writes, Thread.Found, hcall]
    | acquire =>
      simp only [advance, hcall] at h
      cases h
      exact acquire_served hs hm hex hcall (hi.waits ns (Or.inr hcall)) rfl
    | lockStores =>
      simp only [advance, hcall] at h
      cases h
      exact snapshot_served hs hm hcall (hi.owns ns (Or.inl hcall)) rfl
    | _ =>
      simp only [advance, hcall] at h
      cases h
      refine quiet_served hs ?_ ?_ nofun ?_ ?_
      all_goals simp [Thread.preparing, Thread.sharing, Thread.Writes, Thread.Found, hcall]
  | commit ns phase =>
    have hpermit : (s.threads t).permit = some ns := hi.owns ns (Or.inr ⟨phase, hcall⟩)
    cases phase with
    | lockStores =>
      simp only [advance, hcall] at h
      cases h
      exact commit_served hs hm hcall hpermit rfl
    | writing =>
      simp only [advance, hcall] at h
      cases h
      refine quiet_served hs ?_ ?_ nofun ?_ ?_
      all_goals simp [Thread.preparing, Thread.sharing, Thread.Writes, Thread.Found, hcall]
    | releasing =>
      simp only [advance, hcall] at h
      cases h
      exact drop_served hs hm hcall hpermit rfl

/-- A step of a thread is a few of the backend's, or none, whichever stores a `prepare` lists. -/
theorem step_served (hs : Serves s m handle) (hi : Inv s) (hm : Gated m) (hex : s.locking.Exclusive) {e : T × Ev}
    {s' : St T} (h : step s e = some (s', ())) (names : List String) : Served s' m := by
  have hex' := exclusive_step h hex
  obtain ⟨t, e⟩ := e
  obtain ⟨-, spaces, th, hact, rfl⟩ := step_eq_some.mp h
  by_cases he : e = .go
  · subst he
    exact go_served hs (hi t) hm hact hex' names
  · obtain ⟨hidle, rfl, call, hcall, hth⟩ := act_of_ne_go he hact
    exact enter_served hs hidle hcall hth

/-- Every run of the threads is one of the backend, which serves them wherever they are. -/
theorem threads_served {tr : Trace (T × Ev) Unit} (h : Run step start tr s) :
    ∃ tr' m, Run Memory.step Memory.new tr' m ∧ ∃ handle, Serves s m handle := by
  have h0 : Inv (start : St T) ∧ (start : St T).locking.Exclusive ∧ Gated Memory.new ∧
      ∃ handle, Serves (start : St T) Memory.new handle :=
    ⟨inv_start, exclusive_start, Memory.gated_new, _, serves_start⟩
  have hrun := h.simulate (n := Memory.step)
    (R := fun s m => Inv s ∧ s.locking.Exclusive ∧ Gated m ∧ ∃ handle, Serves s m handle) ?_ h0
  · obtain ⟨tr', m, hrun, -, -, -, hserves⟩ := hrun
    exact ⟨tr', m, hrun, hserves⟩
  · intro s e s' a m hstep ⟨hi, hex, hm, handle, hs⟩
    obtain ⟨tr', m', handle', hrun, hs'⟩ := step_served hs hi hm hex hstep []
    have hm' : Gated m' := hrun.keeps (fun _ _ _ _ hs hg => Memory.step_gated (Memory.step_cases hs) hg) hm
    exact ⟨tr', m', hrun, inv_step hstep hi, exclusive_step hstep hex, hm', handle', hs'⟩

end Step

/-- Where one thread has a write handle and the other waits for it, so do two handles of
    the backend. -/
theorem threads_served_waiting : ∃ tr m w w' staged, Run Memory.step Memory.new tr m ∧
    m.writers w = some ⟨"users", .live staged⟩ ∧ m.writers w' = some ⟨"users", .waiting⟩ := by
  obtain ⟨s, hrun, h0, h1⟩ := run_waitingForHandle
  obtain ⟨tr, m, hm, handle, hserves⟩ := threads_served hrun
  have hhas : (s.threads true).Has "users" := Or.inl (by rw [h0])
  have hwaits : (s.threads false).Has "users" := Or.inr (by rw [h1]; rfl)
  obtain ⟨phase, hphase, hlive⟩ := hserves.writes true "users" hhas
  obtain ⟨phase', hphase', hwaiting⟩ := hserves.writes false "users" hwaits
  rw [h0] at hlive
  rw [h1] at hwaiting
  obtain ⟨staged, rfl⟩ := hlive
  obtain rfl : phase' = .waiting := hwaiting
  exact ⟨tr, m, handle true, handle false, staged, hm, hphase, hphase'⟩

end Collette.Locks
