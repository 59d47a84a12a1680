/-
  Collette.Prog.Object — objects used by many clients at once.

  An object answers an operation and changes, all at once. A client calls, at some
  instant between its call and its return the operation is taken, and the client returns
  with the answer it got then. The history of a run is its calls and returns. A history
  is linearizable if it is one of these: what happened at once is then only hidden.

  - `Linearizable.legal`: the operations taken, in the order they are, are a run of the
    object used by one client at a time; each return is one of its answers, each of these
    one call.
  - `linearizable_of_simulation`: a machine of calls and returns whose steps are runs of
    the object has linearizable histories only.
  - `Linearizable.refine`: so has an object another one refines, for the operations that
    concern it.
-/

import Collette.Prog.Machine

namespace Collette

variable {T σ σ' τ ω ω' ρ ρ' ε α : Type}

/-- What an operation answers, and the object after it. -/
abbrev Object (σ ω ρ : Type) := σ → ω → ρ × σ

/-- What is seen of an operation. -/
inductive CallEv (ω ρ : Type) where
  | call (op : ω)
  | ret (op : ω) (r : ρ)
  deriving DecidableEq, Repr

/-- The calls and returns of a run, the newest first. -/
def history (seen : α → Option (CallEv ω ρ)) (tr : Trace (T × ε) α) : List (T × CallEv ω ρ) :=
  tr.filterMap fun x => (seen x.2).map fun c => (x.1.1, c)

theorem history_cons (seen : α → Option (CallEv ω ρ)) (x : (T × ε) × α) (tr : Trace (T × ε) α) :
    history seen (x :: tr) = ((seen x.2).map fun c => (x.1.1, c)).toList ++ history seen tr := by
  unfold history
  rw [List.filterMap_cons]
  cases seen x.2 <;> rfl

theorem history_append (seen : α → Option (CallEv ω ρ)) (later earlier : Trace (T × ε) α) :
    history seen (later ++ earlier) = history seen later ++ history seen earlier := List.filterMap_append

/-- What clients called, the newest first, and what they returned with. -/
def calls (h : List (T × CallEv ω ρ)) : List (T × ω) :=
  h.filterMap fun x => match x.2 with
    | .call op => some (x.1, op)
    | .ret _ _ => none

def returns (h : List (T × CallEv ω ρ)) : List (T × ω × ρ) :=
  h.filterMap fun x => match x.2 with
    | .call _ => none
    | .ret op r => some (x.1, op, r)

theorem calls_append (h h' : List (T × CallEv ω ρ)) : calls (h ++ h') = calls h ++ calls h' := List.filterMap_append

theorem returns_append (h h' : List (T × CallEv ω ρ)) : returns (h ++ h') = returns h ++ returns h' :=
  List.filterMap_append

@[simp] theorem calls_nil : calls ([] : List (T × CallEv ω ρ)) = [] := rfl

@[simp] theorem returns_nil : returns ([] : List (T × CallEv ω ρ)) = [] := rfl

@[simp] theorem calls_call (t : T) (op : ω) : calls [(t, (.call op : CallEv ω ρ))] = [(t, op)] := rfl

@[simp] theorem calls_ret (t : T) (op : ω) (r : ρ) : calls [(t, .ret op r)] = [] := rfl

@[simp] theorem returns_call (t : T) (op : ω) : returns [(t, (.call op : CallEv ω ρ))] = [] := rfl

@[simp] theorem returns_ret (t : T) (op : ω) (r : ρ) : returns [(t, .ret op r)] = [(t, op, r)] := rfl

theorem mem_calls {h : List (T × CallEv ω ρ)} {t : T} {op : ω} : (t, op) ∈ calls h ↔ (t, CallEv.call op) ∈ h := by
  unfold calls
  rw [List.mem_filterMap]
  constructor
  · rintro ⟨⟨t', op' | ⟨op', r⟩⟩, hmem, he⟩
    · cases he
      exact hmem
    · cases he
  · intro hmem
    exact ⟨_, hmem, rfl⟩

theorem mem_returns {h : List (T × CallEv ω ρ)} {t : T} {op : ω} {r : ρ} :
    (t, op, r) ∈ returns h ↔ (t, CallEv.ret op r) ∈ h := by
  unfold returns
  rw [List.mem_filterMap]
  constructor
  · rintro ⟨⟨t', op' | ⟨op', r'⟩⟩, hmem, he⟩
    · cases he
    · cases he
      exact hmem
  · intro hmem
    exact ⟨_, hmem, rfl⟩

/-- What one client did, of what all did. -/
def of [DecidableEq T] (t : T) (l : List (T × α)) : List (T × α) := l.filter (·.1 = t)

theorem of_append [DecidableEq T] (t : T) (l l' : List (T × α)) : of t (l ++ l') = of t l ++ of t l' :=
  List.filter_append ..

@[simp] theorem of_nil [DecidableEq T] (t : T) : of t ([] : List (T × α)) = [] := rfl

@[simp] theorem of_self [DecidableEq T] (t : T) (x : α) : of t [(t, x)] = [(t, x)] := by simp [of]

theorem of_ne [DecidableEq T] {t t' : T} (h : t' ≠ t) (x : α) : of t [(t', x)] = [] := by simp [of, h]

/-- What each client did once, all did once. -/
theorem subperm_of_clients [DecidableEq T] {l l' : List (T × α)} (h : ∀ t, (of t l).Sublist (of t l')) :
    l.Subperm l' := by
  classical
  refine List.subperm_ext_iff.mpr fun x _ => ?_
  have hcount := (h x.1).count_le x
  unfold of at hcount
  rwa [List.count_filter (by simp), List.count_filter (by simp)] at hcount

/-! ## The object under its clients -/

namespace Object

/-- A call on its way, before and after it is taken. -/
inductive Status (ω ρ : Type) where
  | called (op : ω)
  | taken (op : ω) (r : ρ)

structure St (T σ ω ρ : Type) where
  state : σ
  calls : T → Option (Status ω ρ)

inductive Ev (ω : Type) where
  | call (op : ω)
  | take
  | ret

inductive Mark (ω ρ : Type) where
  | call (op : ω)
  | take (op : ω) (r : ρ)
  | ret (op : ω) (r : ρ)

def Mark.seen : Mark ω ρ → Option (CallEv ω ρ)
  | .call op => some (.call op)
  | .take _ _ => none
  | .ret op r => some (.ret op r)

def Mark.taken : Mark ω ρ → Option (ω × ρ)
  | .take op r => some (op, r)
  | _ => none

/-- No client has called. -/
def start (s0 : σ) : St T σ ω ρ := ⟨s0, fun _ => none⟩

variable [DecidableEq T] (O : Object σ ω ρ)

def step : Machine (St T σ ω ρ) (T × Ev ω) (Mark ω ρ) := fun s e =>
  match e.2, s.calls e.1 with
  | .call op, none => some (⟨s.state, Function.update s.calls e.1 (some (.called op))⟩, .call op)
  | .take, some (.called op) =>
    let r := O s.state op
    some (⟨r.2, Function.update s.calls e.1 (some (.taken op r.1))⟩, .take op r.1)
  | .ret, some (.taken op r) => some (⟨s.state, Function.update s.calls e.1 none⟩, .ret op r)
  | _, _ => none

section Steps

variable {O} {s : St T σ ω ρ} {t : T} {op : ω}

theorem step_call (h : s.calls t = none) (op : ω) :
    step O s (t, .call op) = some (⟨s.state, Function.update s.calls t (some (.called op))⟩, .call op) := by
  simp only [step, h]

theorem step_take (h : s.calls t = some (.called op)) : step O s (t, .take) =
    some (⟨(O s.state op).2, Function.update s.calls t (some (.taken op (O s.state op).1))⟩,
      .take op (O s.state op).1) := by
  simp only [step, h]

theorem step_ret {r : ρ} (h : s.calls t = some (.taken op r)) :
    step O s (t, .ret) = some (⟨s.state, Function.update s.calls t none⟩, .ret op r) := by
  simp only [step, h]

/-- What a step does, by the mark it leaves. -/
inductive Step (O : Object σ ω ρ) (s : St T σ ω ρ) (t : T) : Mark ω ρ → St T σ ω ρ → Prop
  | call (op : ω) : s.calls t = none → Step O s t (.call op) ⟨s.state, Function.update s.calls t (some (.called op))⟩
  | take (op : ω) : s.calls t = some (.called op) → Step O s t (.take op (O s.state op).1)
      ⟨(O s.state op).2, Function.update s.calls t (some (.taken op (O s.state op).1))⟩
  | ret (op : ω) (r : ρ) : s.calls t = some (.taken op r) →
      Step O s t (.ret op r) ⟨s.state, Function.update s.calls t none⟩

theorem step_cases {s' : St T σ ω ρ} {e : T × Ev ω} {a : Mark ω ρ} (h : step O s e = some (s', a)) :
    Step O s e.1 a s' := by
  obtain ⟨t, ev⟩ := e
  simp only [step] at h
  split at h
  · rename_i op hnone
    cases h
    exact Step.call op hnone
  · rename_i op hcalled
    cases h
    exact Step.take op hcalled
  · rename_i op r htaken
    cases h
    exact Step.ret op r htaken
  · cases h

end Steps

/-! ## One client at a time -/

/-- Operations one after another, each with its answer, the newest first. -/
inductive Legal (O : Object σ ω ρ) (s0 : σ) : List (ω × ρ) → σ → Prop
  | nil : Legal O s0 [] s0
  | cons {l : List (ω × ρ)} {s : σ} (op : ω) : Legal O s0 l s → Legal O s0 ((op, (O s op).1) :: l) (O s op).2

/-- The operations of a run in the order they are taken, each with its client. -/
def takes (tr : Trace (T × Ev ω) (Mark ω ρ)) : List (T × ω × ρ) :=
  tr.filterMap fun x => x.2.taken.map fun y => (x.1.1, y)

section Order

variable {O} {s0 : σ} {s : St T σ ω ρ} {tr : Trace (T × Ev ω) (Mark ω ρ)}

omit [DecidableEq T] in
theorem takes_cons (x : (T × Ev ω) × Mark ω ρ) (tr : Trace (T × Ev ω) (Mark ω ρ)) :
    takes (x :: tr) = (x.2.taken.map fun y => (x.1.1, y)).toList ++ takes tr := by
  unfold takes
  rw [List.filterMap_cons]
  cases x.2.taken <;> rfl

/-- The operations taken are a run of the object under one client. -/
theorem legal_of_run (h : Run (step O) (start s0) tr s) : Legal O s0 ((takes tr).map (·.2)) s.state := by
  induction h with
  | nil => exact Legal.nil
  | @step tr s s' e a _ hs ih =>
    cases step_cases hs with
    | call op _ => exact ih
    | take op _ => exact Legal.cons op ih
    | ret op r _ => exact ih

/-- The call of a client that is not taken yet, and the one that has not returned yet. -/
def St.called (s : St T σ ω ρ) (t : T) : List (T × ω) :=
  match s.calls t with
  | some (.called op) => [(t, op)]
  | _ => []

def St.taken (s : St T σ ω ρ) (t : T) : List (T × ω × ρ) :=
  match s.calls t with
  | some (.taken op r) => [(t, op, r)]
  | _ => []

omit [DecidableEq T] in
theorem called_congr {s s' : St T σ ω ρ} {t : T} (h : s'.calls t = s.calls t) : s'.called t = s.called t := by
  unfold St.called
  rw [h]

omit [DecidableEq T] in
theorem taken_congr {s s' : St T σ ω ρ} {t : T} (h : s'.calls t = s.calls t) : s'.taken t = s.taken t := by
  unfold St.taken
  rw [h]

/-- Each client has its operations taken one by one, in the order it calls them and
    returns from them. -/
theorem client_order (h : Run (step O) (start s0) tr s) (t : T) :
    of t (calls (history Mark.seen tr)) = s.called t ++ (of t (takes tr)).map (fun x => (x.1, x.2.1)) ∧
      of t (takes tr) = s.taken t ++ of t (returns (history Mark.seen tr)) := by
  induction h with
  | nil => exact ⟨rfl, rfl⟩
  | @step tr s s' e a _ hs ih =>
    rw [takes_cons, history_cons, calls_append, returns_append]
    simp only [of_append]
    obtain ⟨hcalls, htakes⟩ := ih
    by_cases hte : e.1 = t
    · subst hte
      cases step_cases hs with
      | call op hnone =>
        simp only [St.called, St.taken, hnone, List.nil_append] at hcalls htakes
        simp [St.called, St.taken, Mark.seen, Mark.taken, hcalls, htakes]
      | take op hcalled =>
        simp only [St.called, St.taken, hcalled, List.nil_append] at hcalls htakes
        simp [St.called, St.taken, Mark.seen, Mark.taken, hcalls, htakes]
      | ret op r htaken =>
        simp only [St.called, St.taken, htaken, List.nil_append] at hcalls htakes
        simp [St.called, St.taken, Mark.seen, Mark.taken, hcalls, htakes]
    · have hsame : s'.calls t = s.calls t := by
        cases step_cases hs <;> exact Function.update_of_ne (Ne.symm hte) _ _
      rw [called_congr hsame, taken_congr hsame, hcalls, htakes]
      cases a <;> simp [Mark.seen, Mark.taken, of_ne hte]

end Order

end Object

/-! ## Linearizable histories -/

variable [DecidableEq T] {O : Object σ ω ρ} {O' : Object σ' ω' ρ'} {s0 : σ}

theorem subperm_map {l l' : List α} (h : l.Subperm l') (f : α → τ) : (l.map f).Subperm (l'.map f) := by
  obtain ⟨l₀, hperm, hsub⟩ := h
  exact ⟨l₀.map f, hperm.map f, hsub.map f⟩

/-- The history of a run in which each operation is taken at once. -/
def Linearizable (O : Object σ ω ρ) (s0 : σ) (h : List (T × CallEv ω ρ)) : Prop :=
  ∃ tr s, Run (Object.step O) (Object.start s0) tr s ∧ history Object.Mark.seen tr = h

/-- Behind a linearizable history there is a run of the object under one client. What is
    returned was answered in it, and what was answered was called, each once. -/
theorem Linearizable.legal {h : List (T × CallEv ω ρ)} (hlin : Linearizable O s0 h) :
    ∃ l s, Object.Legal O s0 l s ∧ ((returns h).map (·.2)).Subperm l ∧
      (l.map (·.1)).Subperm ((calls h).map (·.2)) := by
  obtain ⟨tr, s, hrun, rfl⟩ := hlin
  refine ⟨_, s.state, Object.legal_of_run hrun, ?_, ?_⟩
  · refine subperm_map (subperm_of_clients fun t => ?_) _
    rw [(Object.client_order hrun t).2]
    exact List.sublist_append_right _ _
  · have htakes : ((Object.takes tr).map fun x => (x.1, x.2.1)).Subperm (calls (history Object.Mark.seen tr)) := by
      refine subperm_of_clients fun t => ?_
      rw [(Object.client_order hrun t).1]
      have hof : of t ((Object.takes tr).map fun x => (x.1, x.2.1)) =
          (of t (Object.takes tr)).map fun x => (x.1, x.2.1) := List.filter_map ..
      rw [hof]
      exact List.sublist_append_right _ _
    have hmap := subperm_map htakes (·.2)
    simp only [List.map_map] at hmap ⊢
    exact hmap

/-- The steps of `m` are runs of the object which show the same. -/
theorem linearizable_of_simulation {m : Machine τ (T × ε) α} {seen : α → Option (CallEv ω ρ)}
    {R : τ → Object.St T σ ω ρ → Prop} {t0 t : τ} {tr : Trace (T × ε) α}
    (hstep : ∀ t e t' a s, m t e = some (t', a) → R t s → ∃ later s', Run (Object.step O) s later s' ∧
      history Object.Mark.seen later = ((seen a).map fun c => (e.1, c)).toList ∧ R t' s')
    (h0 : R t0 (Object.start s0)) (h : Run m t0 tr t) : Linearizable O s0 (history seen tr) := by
  have hrun : ∃ tr' s, Run (Object.step O) (Object.start s0) tr' s ∧
      history Object.Mark.seen tr' = history seen tr ∧ R t s := by
    induction h with
    | nil => exact ⟨[], Object.start s0, Run.nil, rfl, h0⟩
    | @step tr t t' e a _ hs ih =>
      obtain ⟨tr1, s1, hrun1, hseen1, hrel1⟩ := ih
      obtain ⟨tr2, s2, hrun2, hseen2, hrel2⟩ := hstep t e t' a s1 hs hrel1
      refine ⟨tr2 ++ tr1, s2, hrun1.trans hrun2, ?_, hrel2⟩
      rw [history_append, hseen1, hseen2, history_cons]
  obtain ⟨tr', s, hrun', hseen, -⟩ := hrun
  exact ⟨tr', s, hrun', hseen⟩

/-! ## Refinement -/

/-- `O'` is `O` seen through `R` by the operations that concern it: those `f` gives another
    name, whose answers are read by `g`. -/
structure Refines (O : Object σ ω ρ) (O' : Object σ' ω' ρ') (f : ω → Option ω') (g : ω → ρ → ρ')
    (R : σ → σ' → Prop) : Prop where
  other : ∀ s s' op, R s s' → f op = none → R (O s op).2 s'
  same : ∀ s s' op op', R s s' → f op = some op' →
    R (O s op).2 (O' s' op').2 ∧ g op (O s op).1 = (O' s' op').1

/-- A call or return, where it concerns the other object. -/
def CallEv.project (f : ω → Option ω') (g : ω → ρ → ρ') : CallEv ω ρ → Option (CallEv ω' ρ')
  | .call op => (f op).map .call
  | .ret op r => (f op).map fun op' => .ret op' (g op r)

def project (f : ω → Option ω') (g : ω → ρ → ρ') (h : List (T × CallEv ω ρ)) : List (T × CallEv ω' ρ') :=
  h.filterMap fun x => (x.2.project f g).map fun c => (x.1, c)

section Project

variable {f : ω → Option ω'} {g : ω → ρ → ρ'} {h : List (T × CallEv ω ρ)} {t : T} {op' : ω'}

omit [DecidableEq T] in
theorem call_mem_project : (t, CallEv.call op') ∈ project f g h ↔ ∃ op, f op = some op' ∧ (t, CallEv.call op) ∈ h := by
  unfold project
  rw [List.mem_filterMap]
  constructor
  · rintro ⟨⟨t', op | ⟨op, r⟩⟩, hmem, he⟩
    · cases hf : f op with
      | none => simp [CallEv.project, hf] at he
      | some op1 =>
        simp only [CallEv.project, hf, Option.map_some, Option.some.injEq, Prod.mk.injEq, CallEv.call.injEq] at he
        obtain ⟨rfl, rfl⟩ := he
        exact ⟨op, hf, hmem⟩
    · cases hf : f op <;> simp [CallEv.project, hf] at he
  · intro ⟨op, hf, hmem⟩
    exact ⟨_, hmem, by simp [CallEv.project, hf]⟩

omit [DecidableEq T] in
theorem ret_mem_project {op : ω} {r : ρ} (hf : f op = some op') (hmem : (t, CallEv.ret op r) ∈ h) :
    (t, CallEv.ret op' (g op r)) ∈ project f g h :=
  List.mem_filterMap.mpr ⟨_, hmem, by simp [CallEv.project, hf]⟩

end Project

section Refine

open Object

variable {f : ω → Option ω'} {g : ω → ρ → ρ'} {R : σ → σ' → Prop}

/-- A call of the other object that is on its way with one of this. -/
def Object.Status.project (f : ω → Option ω') (g : ω → ρ → ρ') : Status ω ρ → Option (Status ω' ρ')
  | .called op => (f op).map .called
  | .taken op r => (f op).map fun op' => .taken op' (g op r)

structure RefineRel (f : ω → Option ω') (g : ω → ρ → ρ') (R : σ → σ' → Prop) (s : Object.St T σ ω ρ)
    (s' : Object.St T σ' ω' ρ') : Prop where
  state : R s.state s'.state
  calls : ∀ t, s'.calls t = (s.calls t).bind (Status.project f g)

/-- A call that changes on both sides alike. -/
theorem refineRel_update {s : Object.St T σ ω ρ} {s' : Object.St T σ' ω' ρ'} {x : σ} {x' : σ'}
    {c : Option (Status ω ρ)} {c' : Option (Status ω' ρ')} (h : RefineRel f g R s s') (hx : R x x') (t : T)
    (hc : c' = c.bind (Status.project f g)) :
    RefineRel f g R ⟨x, Function.update s.calls t c⟩ ⟨x', Function.update s'.calls t c'⟩ := by
  refine ⟨hx, fun t' => ?_⟩
  by_cases htt : t' = t
  · subst htt
    simp only [Function.update_self]
    exact hc
  · simp only [Function.update_of_ne htt]
    exact h.calls t'

/-- A call that does not concern the other object. -/
theorem refineRel_skip {s : Object.St T σ ω ρ} {s' : Object.St T σ' ω' ρ'} {x : σ} {c : Option (Status ω ρ)} {t : T}
    (h : RefineRel f g R s s') (hx : R x s'.state) (hold : (s.calls t).bind (Status.project f g) = none)
    (hc : c.bind (Status.project f g) = none) : RefineRel f g R ⟨x, Function.update s.calls t c⟩ s' := by
  have hself : Function.update s'.calls t none = s'.calls := by
    rw [Function.update_eq_self_iff, h.calls t, hold]
  have hrel : RefineRel f g R ⟨x, Function.update s.calls t c⟩ ⟨s'.state, Function.update s'.calls t none⟩ :=
    refineRel_update h hx t hc.symm
  rw [hself] at hrel
  exact hrel

/-- A step is one of the other object's, or none. -/
theorem refine_step (hf : Refines O O' f g R) {s s1 : Object.St T σ ω ρ} {s' : Object.St T σ' ω' ρ'}
    {e : T × Ev ω} {a : Mark ω ρ} (h : Object.step O s e = some (s1, a)) (hrel : RefineRel f g R s s') :
    ∃ later s1', Run (Object.step O') s' later s1' ∧
      history Mark.seen later = (((a.seen).bind (CallEv.project f g)).map fun c => (e.1, c)).toList ∧
      RefineRel f g R s1 s1' := by
  have hcalls := hrel.calls e.1
  cases Object.step_cases h with
  | call op hnone =>
    rw [hnone] at hcalls
    cases hop : f op with
    | none =>
      refine ⟨[], s', Run.nil, by simp [Mark.seen, CallEv.project, hop, history], ?_⟩
      exact refineRel_skip hrel hrel.state (by rw [hnone]; rfl) (by simp [Status.project, hop])
    | some op' =>
      refine ⟨_, _, Run.step Run.nil (Object.step_call hcalls op'), ?_, ?_⟩
      · simp [Mark.seen, CallEv.project, hop, history]
      · exact refineRel_update hrel hrel.state e.1 (by simp [Status.project, hop])
  | take op hcalled =>
    rw [hcalled] at hcalls
    cases hop : f op with
    | none =>
      refine ⟨[], s', Run.nil, rfl, ?_⟩
      refine refineRel_skip hrel (hf.other _ _ op hrel.state hop) ?_ (by simp [Status.project, hop])
      rw [hcalled]
      simp [Status.project, hop]
    | some op' =>
      have hcalls' : s'.calls e.1 = some (.called op') := by rw [hcalls]; simp [Status.project, hop]
      obtain ⟨hstate, hanswer⟩ := hf.same _ _ op op' hrel.state hop
      refine ⟨_, _, Run.step Run.nil (Object.step_take hcalls'), rfl, ?_⟩
      exact refineRel_update hrel hstate e.1 (by simp [Status.project, hop, hanswer])
  | ret op r htaken =>
    rw [htaken] at hcalls
    cases hop : f op with
    | none =>
      refine ⟨[], s', Run.nil, by simp [Mark.seen, CallEv.project, hop, history], ?_⟩
      refine refineRel_skip hrel hrel.state ?_ rfl
      rw [htaken]
      simp [Status.project, hop]
    | some op' =>
      have hcalls' : s'.calls e.1 = some (.taken op' (g op r)) := by rw [hcalls]; simp [Status.project, hop]
      refine ⟨_, _, Run.step Run.nil (Object.step_ret hcalls'), ?_, ?_⟩
      · simp [Mark.seen, CallEv.project, hop, history]
      · exact refineRel_update hrel hrel.state e.1 rfl

theorem Linearizable.refine (hf : Refines O O' f g R) {s0' : σ'} (h0 : R s0 s0') {h : List (T × CallEv ω ρ)}
    (hlin : Linearizable O s0 h) : Linearizable O' s0' (project f g h) := by
  obtain ⟨tr, s, hrun, rfl⟩ := hlin
  have hproject : project f g (history Mark.seen tr) = history (fun a => a.seen.bind (CallEv.project f g)) tr := by
    unfold project history
    rw [List.filterMap_filterMap]
    congr 1
    funext x
    cases hx : x.2.seen with
    | none => simp [hx]
    | some c => simp [hx]
  rw [hproject]
  exact linearizable_of_simulation (fun _ _ _ _ _ hs hrel => refine_step hf hs hrel) ⟨h0, fun _ => rfl⟩ hrun

end Refine

end Collette
