/-
  Collette.Store.Isolation — snapshot isolation and serial writers in the in-memory
  backend (`backend/memory.rs`), once the namespaces are prepared.

  What a trace says was committed is read off its events alone: `changes w` are the
  changes made through the write handle `w`, `commits ns` the changes of the handles
  committed in the namespace, in commit order, and `content` the prepared stores with
  those transactions applied one after another. `Isolated` says what the code's state
  has to do with it, in every state of every run (`isolated_of_run`):

  - at most one handle of a namespace has the permit, and the gate flag says so;
  - a write handle starts from what was committed and adds its own changes;
  - the published map is what was committed, so no update is lost and a dropped handle
    leaves nothing;
  - a read handle, and every store opened from it, is what was committed when it was
    opened, whatever came later.
-/

import Collette.Store.Memory

namespace Collette.Memory

/-! ## What a trace says was committed -/

/-- The namespace the write handle was opened in. -/
def openedIn (w : Nat) : Trace Ev Reply → Option String
  | [] => none
  | (.write w' ns, .done) :: tr => if w' = w then some ns else openedIn w tr
  | _ :: tr => openedIn w tr

def changes (w : Nat) : Trace Ev Reply → List Change
  | [] => []
  | (.writer w' call, .done) :: tr => if w' = w then changes w tr ++ call.change.toList else changes w tr
  | _ :: tr => changes w tr

/-- The transactions committed in the namespace, in commit order. -/
def commits (ns : String) : Trace Ev Reply → List (List Change)
  | [] => []
  | (.writer w .commit, .done) :: tr =>
    if openedIn w tr = some ns then commits ns tr ++ [changes w tr] else commits ns tr
  | _ :: tr => commits ns tr

/-- The stores of the namespace with the committed transactions applied in order. -/
def content (s0 : St) (tr : Trace Ev Reply) (ns : String) : Option Stores :=
  (s0.published ns).map fun stores => (commits ns tr).foldl applyAll stores

def Ev.isPrepare : Ev → Bool
  | .prepareRead _ _ => true
  | .preparePublish _ _ => true
  | _ => false

/-- The namespaces are prepared, and nothing else was done. -/
structure IsPrepared (s0 : St) : Prop where
  run : ∃ tr, Run step new tr s0 ∧ ∀ x ∈ tr, x.1.isPrepare = true
  idle : s0.preparing = none

/-- The namespace a step is about. -/
def St.nsOf (s : St) : Ev → Option String
  | .prepareRead ns _ => some ns
  | .preparePublish ns _ => some ns
  | .read _ ns => some ns
  | .write _ ns => some ns
  | .writer w _ => (s.writers w).map (·.ns)
  | _ => none

/-- What holds in the state `s` that the run `tr` from `s0` ends in. -/
structure Isolated (s0 : St) (tr : Trace Ev Reply) (s : St) : Prop where
  one_writer : ∀ ns w w', s.Holds w ns → s.Holds w' ns → w = w'
  gate_iff : ∀ ns space, s.spaces ns = some space → (space.gate = true ↔ ∃ w, s.Holds w ns)
  serial : ∀ ns, s.published ns = content s0 tr ns
  /-- A write handle starts from what was committed last... -/
  starts : ∀ w s' a, step s (.writer w .snapshot) = some (s', a) →
    ∃ ns stores, content s0 tr ns = some stores ∧ s'.writers w = some ⟨ns, .live stores⟩
  /-- ...and, there being no commit but its own, has that with its own changes. -/
  staged : ∀ w ns staged, s.writers w = some ⟨ns, .live staged⟩ →
    ∃ stores, content s0 tr ns = some stores ∧ staged = applyAll stores (changes w tr)
  dropped : ∀ w ns staged s' a, s.writers w = some ⟨ns, .live staged⟩ → step s (.writer w .drop) = some (s', a) →
    (∀ n, s'.published n = content s0 tr n) ∧ (∃ space, s'.spaces ns = some space ∧ space.gate = false) ∧
      s'.readers = s.readers ∧ s'.opened = s.opened ∧ ∀ w', w' ≠ w → s'.writers w' = s.writers w'
  read : ∀ later earlier r ns, tr = later ++ (.read r ns, .done) :: earlier → s.readers r = content s0 earlier ns
  store : ∀ latest later earlier q r name ns,
    tr = latest ++ (.openStore q r name, .done) :: later ++ (.read r ns, .done) :: earlier →
    ∃ stores store, content s0 earlier ns = some stores ∧ stores name = some store ∧ s.opened q = some store ∧
      (∀ key, step s (.get q key) = some (s, getReply store key)) ∧
      ∀ range direction, step s (.scan q range direction) = some (s, scanReply store range direction)
  others : ∀ e s' a, step s e = some (s', a) → ∀ ns, s.nsOf e ≠ some ns →
    s'.spaces ns = s.spaces ns ∧ ∀ w phase, s.writers w = some ⟨ns, phase⟩ → s'.writers w = some ⟨ns, phase⟩

/-! ## What an event adds to it -/

section History

variable {w : Nat} {ns : String} {tr : Trace Ev Reply} {e : Ev} {a : Reply}

theorem openedIn_skip (h : a ≠ .done ∨ ∀ ns, e ≠ .write w ns) : openedIn w ((e, a) :: tr) = openedIn w tr := by
  cases e with
  | write w' ns =>
    cases a with
    | done =>
      have hne : w' ≠ w := fun heq => h.elim (fun h => h rfl) fun h => h ns (by rw [heq])
      simp [openedIn, hne]
    | _ => rfl
  | _ => rfl

theorem changes_skip (h : a ≠ .done ∨ ∀ call, e ≠ .writer w call) : changes w ((e, a) :: tr) = changes w tr := by
  cases e with
  | writer w' call =>
    cases a with
    | done =>
      have hne : w' ≠ w := fun heq => h.elim (fun h => h rfl) fun h => h call (by rw [heq])
      simp [changes, hne]
    | _ => rfl
  | _ => rfl

theorem changes_call (call : WriteCall) :
    changes w ((.writer w call, .done) :: tr) = changes w tr ++ call.change.toList := by
  simp [changes]

theorem changes_subset : changes w tr ⊆ changes w ((e, a) :: tr) := by
  intro c hc
  by_cases h : a ≠ .done ∨ ∀ call, e ≠ .writer w call
  · rw [changes_skip h]
    exact hc
  · simp only [not_or, not_not, not_forall] at h
    obtain ⟨rfl, call, rfl⟩ := h
    rw [changes_call]
    exact List.mem_append_left _ hc

theorem commits_skip (h : a ≠ .done ∨ ∀ w, e ≠ .writer w .commit) : commits ns ((e, a) :: tr) = commits ns tr := by
  cases e with
  | writer w' call =>
    cases a with
    | done =>
      cases call with
      | commit => exact h.elim (fun h => absurd rfl h) fun h => absurd rfl (h w')
      | _ => rfl
    | _ => cases call <;> rfl
  | _ => rfl

theorem commits_commit (w : Nat) :
    commits ns ((.writer w .commit, .done) :: tr) =
      if openedIn w tr = some ns then commits ns tr ++ [changes w tr] else commits ns tr := rfl

theorem content_skip {s0 : St} (h : a ≠ .done ∨ ∀ w, e ≠ .writer w .commit) (ns : String) :
    content s0 ((e, a) :: tr) ns = content s0 tr ns := by
  unfold content
  rw [commits_skip h]

theorem content_commit {s0 : St} {w : Nat} {stores : Stores} (hw : openedIn w tr = some ns)
    (h : content s0 tr ns = some stores) :
    content s0 ((.writer w .commit, .done) :: tr) ns = some (applyAll stores (changes w tr)) := by
  unfold content at h ⊢
  rw [commits_commit, if_pos hw]
  rw [Option.map_eq_some_iff] at h ⊢
  obtain ⟨stores0, h0, h⟩ := h
  exact ⟨stores0, h0, by rw [List.foldl_append, h]; rfl⟩

theorem content_commit_ne {s0 : St} {w : Nat} (hw : openedIn w tr ≠ some ns) :
    content s0 ((.writer w .commit, .done) :: tr) ns = content s0 tr ns := by
  unfold content
  rw [commits_commit, if_neg hw]

end History

theorem step_openedIn {s s' : St} {tr : Trace Ev Reply} {e : Ev} {a : Reply} {w : Nat} (h : Step s e a s')
    (hw : openedIn w tr = (s.writers w).map (·.ns)) : openedIn w ((e, a) :: tr) = (s'.writers w).map (·.ns) := by
  cases h with
  | write w' ns =>
    by_cases hww : w = w'
    · subst hww
      simp [openedIn]
    · rw [openedIn_skip (Or.inr fun ns h => hww (by cases h; rfl)), hw]
      simp [hww]
  | writer w' call ns phase phase' space space' a hw' =>
    rw [openedIn_skip (Or.inr fun _ => Ev.noConfusion), hw]
    by_cases hww : w = w'
    · subst hww
      simp [hw']
    · simp [hww]
  | look _ _ hdone => rw [openedIn_skip (Or.inl hdone), hw]
  | _ => rw [openedIn_skip (Or.inr fun _ => Ev.noConfusion), hw]

theorem openedIn_of_run {tr : Trace Ev Reply} {s : St} (h : Run step new tr s) (w : Nat) :
    openedIn w tr = (s.writers w).map (·.ns) :=
  h.invariant (I := fun tr s => openedIn w tr = (s.writers w).map (·.ns)) rfl
    fun _ _ _ _ _ _ ih hs => step_openedIn (step_cases hs) ih

/-! ## The invariant -/

/-- `write` has not returned yet. -/
def Phase.opening : Phase → Bool
  | .waiting => true
  | .permitted => true
  | _ => false

structure Inv (s0 : St) (tr : Trace Ev Reply) (s : St) : Prop where
  idle : s.preparing = none
  gated : Gated s
  serial : ∀ ns, s.published ns = content s0 tr ns
  openedIn : ∀ w, openedIn w tr = (s.writers w).map (·.ns)
  unchanged : ∀ w, (∀ writer, s.writers w = some writer → writer.phase.opening = true) → changes w tr = []
  staged : ∀ w ns staged, s.writers w = some ⟨ns, .live staged⟩ →
    ∃ stores, content s0 tr ns = some stores ∧ staged = applyAll stores (changes w tr)

section Step

variable {s0 s s' : St} {tr : Trace Ev Reply}

/-- A step that is no write handle's leaves the history of those there are alone. -/
theorem inv_same {e : Ev} {a : Reply} (hi : Inv s0 tr s) (hs : Step s e a s') (he : ∀ w call, e ≠ .writer w call)
    (hidle : s'.preparing = none) (hspaces : s'.spaces = s.spaces)
    (hwriters : s'.writers = s.writers) : Inv s0 ((e, a) :: tr) s' := by
  have hcontent : ∀ ns, content s0 ((e, a) :: tr) ns = content s0 tr ns :=
    content_skip (Or.inr fun w => he w .commit)
  have hchanges : ∀ w, changes w ((e, a) :: tr) = changes w tr := fun w => changes_skip (Or.inr (he w))
  refine ⟨hidle, step_gated hs hi.gated, ?_, ?_, ?_, ?_⟩
  · intro ns
    rw [hcontent, ← hi.serial ns]
    unfold St.published
    rw [hspaces]
  · intro w
    exact step_openedIn hs (hi.openedIn w)
  · intro w hw
    rw [hwriters] at hw
    rw [hchanges, hi.unchanged w hw]
  · intro w ns staged hw
    rw [hwriters] at hw
    rw [hcontent, hchanges]
    exact hi.staged w ns staged hw

theorem inv_write {w : Nat} {ns : String} (hi : Inv s0 tr s) (hs : Step s (.write w ns) .done s')
    (hfree : s.writers w = none) (hidle : s'.preparing = none) (hspaces : s'.spaces = s.spaces)
    (hwriters : s'.writers = Function.update s.writers w (some ⟨ns, .waiting⟩)) :
    Inv s0 ((.write w ns, .done) :: tr) s' := by
  have hcontent : ∀ n, content s0 ((.write w ns, .done) :: tr) n = content s0 tr n :=
    content_skip (Or.inr fun _ => Ev.noConfusion)
  have hchanges : ∀ w', changes w' ((.write w ns, .done) :: tr) = changes w' tr :=
    fun _ => changes_skip (Or.inr fun _ => Ev.noConfusion)
  refine ⟨hidle, step_gated hs hi.gated, ?_, ?_, ?_, ?_⟩
  · intro n
    rw [hcontent, ← hi.serial n]
    unfold St.published
    rw [hspaces]
  · intro w'
    exact step_openedIn hs (hi.openedIn w')
  · intro w' hw'
    rw [hchanges]
    by_cases hww : w' = w
    · subst hww
      exact hi.unchanged w' fun writer h => by rw [hfree] at h; cases h
    · rw [hwriters, Function.update_of_ne hww] at hw'
      exact hi.unchanged w' hw'
  · intro w' n staged hw'
    rw [hcontent, hchanges]
    exact hi.staged w' n staged (writer_before hwriters hw' (by simp)).2

/-- Another phase of the handle `w` that publishes nothing. -/
theorem inv_writer {w : Nat} {call : WriteCall} {a : Reply} {ns : String} {phase phase' : Phase}
    {space space' : NamespacedState} (hi : Inv s0 tr s) (hs : Step s (.writer w call) a s')
    (hw : s.writers w = some ⟨ns, phase⟩) (hspace : s.spaces ns = some space) (hcall : call ≠ .commit)
    (hidle : s'.preparing = s.preparing) (hspaces : s'.spaces = Function.update s.spaces ns (some space'))
    (hwriters : s'.writers = Function.update s.writers w (some ⟨ns, phase'⟩)) (hstores : space'.stores = space.stores)
    (hopening : phase'.opening = true → changes w ((.writer w call, a) :: tr) = [])
    (hlive : ∀ staged, phase' = .live staged →
      staged = applyAll space.stores (changes w ((.writer w call, a) :: tr))) :
    Inv s0 ((.writer w call, a) :: tr) s' := by
  have hcontent : ∀ n, content s0 ((.writer w call, a) :: tr) n = content s0 tr n :=
    content_skip (Or.inr fun w' h => hcall (by cases h; rfl))
  have hchanges : ∀ w', w' ≠ w → changes w' ((.writer w call, a) :: tr) = changes w' tr :=
    fun w' hne => changes_skip (Or.inr fun _ h => hne (by cases h; rfl))
  have hpublished : s.published ns = some space.stores := published_eq hspace
  refine ⟨hidle.trans hi.idle, step_gated hs hi.gated, ?_, ?_, ?_, ?_⟩
  · intro n
    rw [hcontent, ← hi.serial n]
    by_cases hn : n = ns
    · subst hn
      rw [hpublished]
      unfold St.published
      rw [hspaces, Function.update_self, Option.map_some, hstores]
    · unfold St.published
      rw [hspaces, Function.update_of_ne hn]
  · intro w'
    exact step_openedIn hs (hi.openedIn w')
  · intro w' hw'
    by_cases hww : w' = w
    · subst hww
      exact hopening (hw' ⟨ns, phase'⟩ (by rw [hwriters, Function.update_self]))
    · rw [hwriters, Function.update_of_ne hww] at hw'
      rw [hchanges w' hww]
      exact hi.unchanged w' hw'
  · intro w' n staged hw'
    rw [hcontent]
    by_cases hww : w' = w
    · subst hww
      rw [hwriters, Function.update_self] at hw'
      simp only [Option.some.injEq, Writer.mk.injEq] at hw'
      obtain ⟨rfl, hphase⟩ := hw'
      exact ⟨space.stores, by rw [← hi.serial, hpublished], hlive staged hphase⟩
    · rw [hwriters, Function.update_of_ne hww] at hw'
      rw [hchanges w' hww]
      exact hi.staged w' n staged hw'

/-- A commit: what it publishes is its own changes on what was committed before, and no
    other handle of the namespace is there to have copied that. -/
theorem inv_commit {w : Nat} {ns : String} {staged : Stores} {space : NamespacedState} (hi : Inv s0 tr s)
    (hs : Step s (.writer w .commit) .done s') (hw : s.writers w = some ⟨ns, .live staged⟩)
    (hidle : s'.preparing = s.preparing)
    (hspaces : s'.spaces = Function.update s.spaces ns (some { space with stores := staged }))
    (hwriters : s'.writers = Function.update s.writers w (some ⟨ns, .published⟩)) :
    Inv s0 ((.writer w .commit, .done) :: tr) s' := by
  obtain ⟨stores, hstores, hstaged⟩ := hi.staged w ns staged hw
  have hopen : openedIn w tr = some ns := by
    rw [hi.openedIn w, hw]
    rfl
  have hcontent : content s0 ((.writer w .commit, .done) :: tr) ns = some staged := by
    rw [content_commit hopen hstores, hstaged]
  have hothers : ∀ n, n ≠ ns → content s0 ((.writer w .commit, .done) :: tr) n = content s0 tr n := by
    intro n hn
    refine content_commit_ne fun h => hn ?_
    rw [hopen] at h
    exact (Option.some.inj h).symm
  have hchanges : ∀ w', changes w' ((.writer w .commit, .done) :: tr) = changes w' tr := by
    intro w'
    by_cases hww : w' = w
    · subst hww
      rw [changes_call]
      exact List.append_nil _
    · exact changes_skip (Or.inr fun _ h => hww (by cases h; rfl))
  refine ⟨hidle.trans hi.idle, step_gated hs hi.gated, ?_, ?_, ?_, ?_⟩
  · intro n
    unfold St.published
    by_cases hn : n = ns
    · subst hn
      rw [hcontent, hspaces, Function.update_self]
      rfl
    · rw [hothers n hn, hspaces, Function.update_of_ne hn]
      exact hi.serial n
  · intro w'
    exact step_openedIn hs (hi.openedIn w')
  · intro w' hw'
    rw [hchanges]
    by_cases hww : w' = w
    · subst hww
      have := hw' ⟨ns, .published⟩ (by rw [hwriters, Function.update_self])
      cases this
    · rw [hwriters, Function.update_of_ne hww] at hw'
      exact hi.unchanged w' hw'
  · intro w' n staged' hw'
    obtain ⟨hww, hold⟩ := writer_before hwriters hw' (by simp)
    by_cases hn : n = ns
    · subst hn
      exact absurd (hi.gated.one_holder n w' w ⟨_, hold, rfl⟩ ⟨_, hw, rfl⟩) hww
    · rw [hothers n hn, hchanges]
      exact hi.staged w' n staged' hold

theorem inv_step {e : Ev} {a : Reply} (hi : Inv s0 tr s) (hs : Step s e a s') (he : e.isPrepare = false) :
    Inv s0 ((e, a) :: tr) s' := by
  have hstep := hs
  cases hs with
  | prepareRead ns names => cases he
  | preparePublish p => cases he
  | read r ns stores =>
    exact inv_same hi hstep (fun _ _ => Ev.noConfusion) hi.idle rfl rfl
  | openStore q r name stores store =>
    exact inv_same hi hstep (fun _ _ => Ev.noConfusion) hi.idle rfl rfl
  | write w ns hpre hfree => exact inv_write hi hstep hfree hi.idle rfl rfl
  | look _ _ hdone hwriter => exact inv_same hi hstep hwriter hi.idle rfl rfl
  | writer w call ns phase phase' space space' a hw hspace hwrite =>
    have hopening : phase.opening = true → changes w tr = [] := fun h =>
      hi.unchanged w fun writer hwriter => by
        rw [hw] at hwriter
        obtain rfl := Option.some.inj hwriter
        exact h
    have hlive : ∀ staged, phase = .live staged → staged = applyAll space.stores (changes w tr) := by
      intro staged hphase
      subst hphase
      obtain ⟨stores, hstores, hstaged⟩ := hi.staged w ns staged hw
      rw [← hi.serial ns, published_eq hspace] at hstores
      rw [hstaged, Option.some.inj hstores]
    cases hwrite with
    | acquire hfree =>
      refine inv_writer hi hstep hw hspace WriteCall.noConfusion rfl rfl rfl rfl ?_ fun _ h => Phase.noConfusion h
      intro _
      rw [changes_call, hopening rfl]
      rfl
    | snapshot =>
      refine inv_writer hi hstep hw hspace WriteCall.noConfusion rfl rfl rfl rfl Bool.noConfusion ?_
      intro staged h
      rw [changes_call, hopening rfl]
      cases h
      rfl
    | @look staged _ _ hlook =>
      refine inv_writer hi hstep hw hspace (fun h => by subst h; cases hlook) rfl rfl rfl rfl Bool.noConfusion ?_
      intro staged' h
      cases h
      have hchanges : changes w ((.writer w call, a) :: tr) = changes w tr := by
        by_cases ha : a = .done
        · subst ha
          rw [changes_call, WriteCall.change_of_looks hlook]
          exact List.append_nil _
        · exact changes_skip (Or.inl ha)
      rw [hchanges]
      exact hlive staged rfl
    | @change staged _ c hchange hsome =>
      refine inv_writer hi hstep hw hspace (fun h => by subst h; cases hchange) rfl rfl rfl rfl Bool.noConfusion ?_
      intro staged' h
      cases h
      rw [changes_call, hchange, applyAll_append, ← hlive staged rfl]
      rfl
    | @refuse staged _ c hchange =>
      refine inv_writer hi hstep hw hspace (fun h => by subst h; cases hchange) rfl rfl rfl rfl Bool.noConfusion ?_
      intro staged' h
      cases h
      rw [changes_skip (Or.inl Reply.noConfusion)]
      exact hlive staged rfl
    | commit => exact inv_commit hi hstep hw rfl rfl rfl
    | dropLive =>
      exact inv_writer hi hstep hw hspace WriteCall.noConfusion rfl rfl rfl rfl Bool.noConfusion
        fun _ h => Phase.noConfusion h
    | dropPublished =>
      exact inv_writer hi hstep hw hspace WriteCall.noConfusion rfl rfl rfl rfl Bool.noConfusion
        fun _ h => Phase.noConfusion h

end Step

theorem prepared_writers {s0 : St} (h : IsPrepared s0) (w : Nat) : s0.writers w = none := by
  obtain ⟨tr, hrun, hprepares⟩ := h.run
  have hinv : ∀ tr s, Run step new tr s → (∀ x ∈ tr, x.1.isPrepare = true) → s.writers w = none := by
    intro tr s hrun
    refine hrun.invariant (I := fun tr s => (∀ x ∈ tr, x.1.isPrepare = true) → s.writers w = none) (fun _ => rfl) ?_
    intro tr s e s' a _ ih hstep hprepare
    have hw := ih fun x hx => hprepare x (List.mem_cons_of_mem _ hx)
    have he := hprepare (e, a) List.mem_cons_self
    cases step_cases hstep with
    | prepareRead => exact hw
    | preparePublish => exact hw
    | read => cases he
    | openStore => cases he
    | write => cases he
    | writer => cases he
    | look => exact hw
  exact hinv tr s0 hrun hprepares

theorem inv_start {s0 : St} (h : IsPrepared s0) : Inv s0 [] s0 := by
  have hw := prepared_writers h
  obtain ⟨tr, hrun, -⟩ := h.run
  refine ⟨h.idle, reach_gated hrun, ?_, ?_, fun _ _ => rfl, ?_⟩
  · intro ns
    unfold content
    cases s0.published ns <;> rfl
  · intro w
    rw [hw]
    rfl
  · intro w ns staged h
    rw [hw] at h
    cases h

theorem inv_of_run {s0 s : St} {tr : Trace Ev Reply} (h0 : IsPrepared s0) (h : Run step s0 tr s)
    (hrun : ∀ x ∈ tr, x.1.isPrepare = false) : Inv s0 tr s := by
  induction h with
  | nil => exact inv_start h0
  | @step tr s s' e a _ hstep ih =>
    exact inv_step (ih fun x hx => hrun x (List.mem_cons_of_mem _ hx)) (step_cases hstep)
      (hrun (e, a) List.mem_cons_self)

/-! ## What a step leaves alone -/

section Frame

variable {s s' : St} {e : Ev} {a : Reply}

theorem step_reader (h : Step s e a s') {r : Nat} {stores : Stores} (hr : s.readers r = some stores) :
    s'.readers r = some stores := by
  cases h with
  | read r' ns stores' _ hfree =>
    have hne : r ≠ r' := fun heq => by
      subst heq
      rw [hr] at hfree
      cases hfree
    rw [← hr]
    exact Function.update_of_ne hne _ _
  | _ => exact hr

theorem step_opened (h : Step s e a s') {q : Nat} {store : KVStore} (hq : s.opened q = some store) :
    s'.opened q = some store := by
  cases h with
  | openStore q' r name stores store' _ hfree =>
    have hne : q ≠ q' := fun heq => by
      subst heq
      rw [hq] at hfree
      cases hfree
    rw [← hq]
    exact Function.update_of_ne hne _ _
  | _ => exact hq

theorem step_others (h : Step s e a s') {ns : String} (hns : s.nsOf e ≠ some ns) :
    s'.spaces ns = s.spaces ns ∧ ∀ w phase, s.writers w = some ⟨ns, phase⟩ → s'.writers w = some ⟨ns, phase⟩ := by
  cases h with
  | prepareRead => exact ⟨rfl, fun _ _ h => h⟩
  | preparePublish p =>
    have hne : ns ≠ p.ns := fun heq => hns (by rw [heq]; rfl)
    exact ⟨Function.update_of_ne hne _ _, fun _ _ h => h⟩
  | read => exact ⟨rfl, fun _ _ h => h⟩
  | openStore => exact ⟨rfl, fun _ _ h => h⟩
  | write w n _ hfree =>
    refine ⟨rfl, fun w' phase hw' => ?_⟩
    have hne : w' ≠ w := fun heq => by
      subst heq
      rw [hfree] at hw'
      cases hw'
    rw [← hw']
    exact Function.update_of_ne hne _ _
  | writer w call n phase phase' space space' _ hw =>
    have hne : ns ≠ n := fun heq => hns (by subst heq; simp [St.nsOf, hw])
    refine ⟨Function.update_of_ne hne _ _, fun w' ph hw' => ?_⟩
    have hww : w' ≠ w := fun heq => by
      subst heq
      rw [hw] at hw'
      cases hw'
      exact hne rfl
    rw [← hw']
    exact Function.update_of_ne hww _ _
  | look => exact ⟨rfl, fun _ _ h => h⟩

end Frame

/-! ## Snapshot isolation -/

section Isolation

variable {s0 s : St} {tr : Trace Ev Reply}

theorem reader_of_run (h0 : IsPrepared s0) {later earlier : Trace Ev Reply} {r : Nat} {ns : String}
    (h : Run step s0 (later ++ (.read r ns, .done) :: earlier) s)
    (hrun : ∀ x ∈ later ++ (.read r ns, .done) :: earlier, x.1.isPrepare = false) :
    ∃ stores, content s0 earlier ns = some stores ∧ s.readers r = some stores := by
  obtain ⟨s1, s2, h1, hread, hlater⟩ := h.around
  have hi := inv_of_run h0 h1 fun x hx => hrun x (List.mem_append_right _ (List.mem_cons_of_mem _ hx))
  obtain ⟨stores, hpublished, hr⟩ := read_cases hread
  refine ⟨stores, by rw [← hi.serial ns, hpublished], ?_⟩
  exact hlater.keeps (K := fun s => s.readers r = some stores)
    (fun _ _ _ _ hs hk => step_reader (step_cases hs) hk) hr

theorem store_of_run (h0 : IsPrepared s0) {latest later earlier : Trace Ev Reply} {q r : Nat} {name ns : String}
    (h : Run step s0 (latest ++ (.openStore q r name, .done) :: later ++ (.read r ns, .done) :: earlier) s)
    (hrun : ∀ x ∈ latest ++ (.openStore q r name, .done) :: later ++ (.read r ns, .done) :: earlier,
      x.1.isPrepare = false) :
    ∃ stores store, content s0 earlier ns = some stores ∧ stores name = some store ∧ s.opened q = some store := by
  rw [List.append_assoc, List.cons_append] at h hrun
  obtain ⟨s1, s2, h1, hopen, hlatest⟩ := h.around
  obtain ⟨stores, hstores, hr⟩ :=
    reader_of_run h0 h1 fun x hx => hrun x (List.mem_append_right _ (List.mem_cons_of_mem _ hx))
  have hopened : ∃ store, stores name = some store ∧ s2.opened q = some store := by
    cases step_cases hopen with
    | openStore _ _ _ stores' store hr' _ hstore =>
      rw [hr] at hr'
      obtain rfl := Option.some.inj hr'
      exact ⟨store, hstore, Function.update_self _ _ _⟩
    | look _ _ hdone => exact absurd rfl hdone
  obtain ⟨store, hstore, hq⟩ := hopened
  refine ⟨stores, store, hstores, hstore, ?_⟩
  exact hlatest.keeps (K := fun s => s.opened q = some store)
    (fun _ _ _ _ hs hk => step_opened (step_cases hs) hk) hq

/-- The start of a write handle: what was committed last. -/
theorem snapshot_starts (hi : Inv s0 tr s) {w : Nat} {s' : St} {a : Reply}
    (h : step s (.writer w .snapshot) = some (s', a)) :
    ∃ ns stores, content s0 tr ns = some stores ∧ s'.writers w = some ⟨ns, .live stores⟩ := by
  obtain ⟨ns, space, hspace, hw⟩ := snapshot_cases h
  exact ⟨ns, space.stores, by rw [← hi.serial ns, published_eq hspace], hw⟩

/-- A handle dropped before a commit: the permit goes, and that is all. -/
theorem drop_leaves (hi : Inv s0 tr s) {w : Nat} {ns : String} {staged : Stores} {s' : St} {a : Reply}
    (hw : s.writers w = some ⟨ns, .live staged⟩) (h : step s (.writer w .drop) = some (s', a)) :
    (∀ n, s'.published n = content s0 tr n) ∧ (∃ space, s'.spaces ns = some space ∧ space.gate = false) ∧
      s'.readers = s.readers ∧ s'.opened = s.opened ∧ ∀ w', w' ≠ w → s'.writers w' = s.writers w' := by
  cases step_cases h with
  | writer _ _ n phase phase' space space' _ hw' hspace hwrite =>
    rw [hw] at hw'
    cases hw'
    cases hwrite with
    | look hlook => cases hlook
    | change hchange => cases hchange
    | refuse hchange => cases hchange
    | dropLive =>
      refine ⟨fun m => ?_, ⟨_, Function.update_self _ _ _, rfl⟩, rfl, rfl, fun w' hne => Function.update_of_ne hne _ _⟩
      rw [← hi.serial m]
      unfold St.published
      by_cases hm : m = ns
      · subst hm
        simp [hspace]
      · simp [Function.update_of_ne hm]
  | look _ _ _ hwriter => exact absurd rfl (hwriter w .drop)

/-- Every run of handles on prepared namespaces, in any order. -/
theorem snapshot_isolation (h0 : IsPrepared s0) (h : Run step s0 tr s) (hrun : ∀ x ∈ tr, x.1.isPrepare = false) :
    Isolated s0 tr s := by
  have hi := inv_of_run h0 h hrun
  refine ⟨hi.gated.one_holder, hi.gated.gate_iff, hi.serial, ?_, hi.staged, ?_, ?_, ?_, ?_⟩
  · intro w s' a hstep
    exact snapshot_starts hi hstep
  · intro w ns staged s' a hw hstep
    exact drop_leaves hi hw hstep
  · intro later earlier r ns hsplit
    subst hsplit
    obtain ⟨stores, hstores, hr⟩ := reader_of_run h0 h hrun
    rw [hr, hstores]
  · intro latest later earlier q r name ns hsplit
    subst hsplit
    obtain ⟨stores, store, hstores, hstore, hq⟩ := store_of_run h0 h hrun
    refine ⟨stores, store, hstores, hstore, hq, fun key => ?_, fun range direction => ?_⟩
    · simp only [step, hq, Option.map_some]
    · simp only [step, hq, Option.map_some]
  · intro e s' a hstep ns hns
    exact step_others (step_cases hstep) hns

end Isolation

def users : St :=
  { new with spaces := Function.update new.spaces "users" (some ⟨prepare (fun _ => none) ["__main"], false⟩) }

theorem isPrepared_users : IsPrepared users := by
  refine ⟨⟨[(.preparePublish "users" ["__main"], .done), (.prepareRead "users" ["__main"], .done)], ?_, ?_⟩, rfl⟩
  · exact Run.step (Run.step Run.nil rfl) rfl
  · simp [Ev.isPrepare]

/-- A reader opened before a commit, which is made by the only writer. -/
def oneCommit : Trace Ev Reply :=
  [(.writer 0 .drop, .done), (.writer 0 .commit, .done), (.writer 0 (.set "__main" [1] [7]), .done),
    (.writer 0 .snapshot, .done), (.writer 0 .acquire, .done), (.write 0 "users", .done), (.read 0 "users", .done)]

theorem snapshot_isolation_users : ∃ s, Run step users oneCommit s ∧ Isolated users oneCommit s := by
  have hrun : ∃ s, Run step users oneCommit s :=
    ⟨_, Run.step (Run.step (Run.step (Run.step (Run.step (Run.step (Run.step Run.nil rfl) rfl) rfl) rfl) rfl) rfl) rfl⟩
  obtain ⟨s, hs⟩ := hrun
  exact ⟨s, hs, snapshot_isolation isPrepared_users hs (by decide)⟩

end Collette.Memory
