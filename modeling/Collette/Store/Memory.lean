/-
  Collette.Store.Memory — the in-memory multistore under its clients (`backend/memory.rs`).

  The backend is a map of namespaces behind a lock (`InMemoryMultiStore.stores`). A
  namespace is the published map of its stores and the writer gate. Clients name the
  handles they open. What happens without a lock changing hands is one step:

  - `prepare` holds the outer lock to itself from `prepareRead`, which copies the
    published map, to `preparePublish`, which publishes the map made from that copy.
  - `read` copies the published map, under the outer lock shared.
  - `write` shares the outer lock from its call until it has copied the published map
    (`snapshot`), and waits for the gate before it copies (`acquire`).
  - `commit` publishes the whole staged map, under no outer lock; the permit goes when
    the handle does (`drop`), which is also how a handle ends without a commit.

  A step is `none` where the caller waits, or has no such handle. Opening a store the
  handle does not have, or a namespace never prepared, is answered by a panic; it
  changes nothing.
-/

import Collette.Store.Backend
import Collette.Prog.Machine

namespace Collette

/-- What a call returns. This backend's error type is `Infallible`: it has no `error`. -/
inductive Reply where
  | done
  | value (v : Option Bytes)
  | entries (l : List (Bytes × Bytes))
  | error (e : BackendError)
  | panic
  deriving DecidableEq, Repr

/-- A `get` or a `scan` of an open store. -/
def getReply (store : KVStore) (key : Bytes) : Reply := .value store[key]?

def scanReply (store : KVStore) (range : ScanRange) (direction : Direction) : Reply :=
  match store.scan range direction with
  | some entries => .entries entries
  | none => .panic

namespace Memory

structure NamespacedState where
  stores : Stores
  /-- `WriterGate::open`: a permit is out. -/
  gate : Bool

/-! ## Write handles -/

inductive Phase where
  /-- In `write`, before the gate let it through. -/
  | waiting
  /-- In `write`, the permit taken and nothing copied yet. -/
  | permitted
  | live (staged : Stores)
  /-- In `commit`, the staged map published and the permit not dropped yet. -/
  | published
  | dropped

inductive WriteCall where
  | acquire
  | snapshot
  | openStore (name : String)
  | get (name : String) (key : Bytes)
  | scan (name : String) (range : ScanRange) (direction : Direction)
  | set (name : String) (key value : Bytes)
  | remove (name : String) (key : Bytes)
  | commit
  | drop
  deriving DecidableEq, Repr

/-- `self.staged.get_mut(name).unwrap()`, and what is then done with the store. -/
def withStaged (space : NamespacedState) (staged : Stores) (name : String) (f : KVStore → Stores × Reply) :
    NamespacedState × Phase × Reply :=
  match staged name with
  | some store => (space, .live (f store).1, (f store).2)
  | none => (space, .live staged, .panic)

def writeStep (space : NamespacedState) : Phase → WriteCall → Option (NamespacedState × Phase × Reply)
  | .waiting, .acquire => if space.gate then none else some ({ space with gate := true }, .permitted, .done)
  | .permitted, .snapshot => some (space, .live space.stores, .done)
  | .live staged, .openStore name => some (withStaged space staged name fun _ => (staged, .done))
  | .live staged, .get name key => some (withStaged space staged name fun store => (staged, getReply store key))
  | .live staged, .scan name range direction =>
    some (withStaged space staged name fun store => (staged, scanReply store range direction))
  | .live staged, .set name key value =>
    some (withStaged space staged name fun store => (upd staged name (store.insert key value), .done))
  | .live staged, .remove name key =>
    some (withStaged space staged name fun store => (upd staged name (store.erase key), .done))
  | .live staged, .commit => some ({ space with stores := staged }, .published, .done)
  | .live _, .drop => some ({ space with gate := false }, .dropped, .done)
  | .published, .drop => some ({ space with gate := false }, .dropped, .done)
  | _, _ => none

/-! ## The backend -/

/-- A call of `prepare` between its two critical sections. -/
structure Prepare where
  ns : String
  names : List String
  /-- The published map it read; `none` for a namespace there was not. -/
  current : Option Stores

structure Writer where
  ns : String
  phase : Phase

structure St where
  spaces : String → Option NamespacedState
  /-- The `prepare` that holds the outer lock. -/
  preparing : Option Prepare
  /-- How many calls of `write` share the outer lock. -/
  shared : Nat
  writers : Nat → Option Writer
  readers : Nat → Option Stores
  /-- Stores opened from read handles. -/
  opened : Nat → Option KVStore

inductive Ev where
  | prepareRead (ns : String) (names : List String)
  | preparePublish (ns : String) (names : List String)
  | read (r : Nat) (ns : String)
  | openStore (q r : Nat) (name : String)
  | get (q : Nat) (key : Bytes)
  | scan (q : Nat) (range : ScanRange) (direction : Direction)
  | write (w : Nat) (ns : String)
  | writer (w : Nat) (call : WriteCall)
  deriving DecidableEq, Repr

/-- The namespace after `prepare`: its stores are the listed ones, each with the entries
    of the copy that was read. -/
def Prepare.publish (p : Prepare) (space : Option NamespacedState) : NamespacedState :=
  { stores := prepare (p.current.getD fun _ => none) p.names
    gate := (space.map (·.gate)).getD false }

/-- `write` gives the outer lock back once it has copied the stores. -/
def WriteCall.shared (n : Nat) : WriteCall → Nat
  | .snapshot => n - 1
  | _ => n

def step : Machine St Ev Reply := fun s e =>
  match e with
  | .prepareRead ns names =>
    if s.preparing.isSome ∨ s.shared ≠ 0 then none
    else some ({ s with preparing := some ⟨ns, names, (s.spaces ns).map (·.stores)⟩ }, .done)
  | .preparePublish ns names =>
    match s.preparing with
    | some p =>
      if p.ns = ns ∧ p.names = names then
        some ({ s with spaces := Function.update s.spaces ns (some (p.publish (s.spaces ns))), preparing := none },
          .done)
      else none
    | none => none
  | .read r ns =>
    if s.preparing.isSome ∨ (s.readers r).isSome then none
    else match s.spaces ns with
    | some space => some ({ s with readers := Function.update s.readers r (some space.stores) }, .done)
    | none => some (s, .panic)
  | .openStore q r name =>
    match s.readers r with
    | some stores =>
      if (s.opened q).isSome then none
      else match stores name with
      | some store => some ({ s with opened := Function.update s.opened q (some store) }, .done)
      | none => some (s, .panic)
    | none => none
  | .get q key => (s.opened q).map fun store => (s, getReply store key)
  | .scan q range direction => (s.opened q).map fun store => (s, scanReply store range direction)
  | .write w ns =>
    if s.preparing.isSome ∨ (s.writers w).isSome then none
    else match s.spaces ns with
    | some _ =>
      some ({ s with writers := Function.update s.writers w (some ⟨ns, .waiting⟩), shared := s.shared + 1 }, .done)
    | none => some (s, .panic)
  | .writer w call =>
    match s.writers w with
    | some ⟨ns, phase⟩ =>
      match s.spaces ns with
      | some space =>
        (writeStep space phase call).map fun (space', phase', a) =>
          ({ s with
              spaces := Function.update s.spaces ns (some space')
              writers := Function.update s.writers w (some ⟨ns, phase'⟩)
              shared := call.shared s.shared }, a)
      | none => none
    | none => none

/-- `InMemoryMultiStore::new`. -/
def new : St := ⟨fun _ => none, none, 0, fun _ => none, fun _ => none, fun _ => none⟩

/-- What a read handle of the namespace would be given. -/
def St.published (s : St) (ns : String) : Option Stores := (s.spaces ns).map (·.stores)

theorem published_eq {s : St} {ns : String} {space : NamespacedState} (h : s.spaces ns = some space) :
    s.published ns = some space.stores := by
  unfold St.published
  rw [h]
  rfl

theorem published_congr {s s' : St} {ns : String} (h : s'.spaces ns = s.spaces ns) : s'.published ns = s.published ns :=
  congrArg _ h

theorem published_update {s s' : St} {ns : String} {space : NamespacedState}
    (h : s'.spaces = Function.update s.spaces ns (some space)) : s'.published ns = some space.stores :=
  published_eq (by rw [h, Function.update_self])

/-! ## Changes -/

/-- One `set`, or one `remove` (no value). -/
structure Change where
  name : String
  key : Bytes
  value : Option Bytes
  deriving DecidableEq, Repr

def Change.applyStore (c : Change) (store : KVStore) : KVStore :=
  match c.value with
  | some value => store.insert c.key value
  | none => store.erase c.key

def Change.apply (stores : Stores) (c : Change) : Stores :=
  match stores c.name with
  | some store => upd stores c.name (c.applyStore store)
  | none => stores

/-- A transaction: its changes, one after another. -/
def applyAll (stores : Stores) (changes : List Change) : Stores := changes.foldl Change.apply stores

def WriteCall.change : WriteCall → Option Change
  | .set name key value => some ⟨name, key, some value⟩
  | .remove name key => some ⟨name, key, none⟩
  | _ => none

theorem applyAll_append (stores : Stores) (l r : List Change) :
    applyAll stores (l ++ r) = applyAll (applyAll stores l) r := List.foldl_append

theorem Change.apply_isSome (c : Change) (stores : Stores) (n : String) :
    (c.apply stores n).isSome = (stores n).isSome := by
  unfold Change.apply
  cases h : stores c.name with
  | none => rfl
  | some store =>
    by_cases hn : n = c.name
    · subst hn
      simp [h]
    · simp [upd_ne hn]

/-- A call that changes nothing: it opens a store, and may read it. -/
def WriteCall.looks : WriteCall → Bool
  | .openStore _ => true
  | .get _ _ => true
  | .scan _ _ _ => true
  | _ => false

theorem WriteCall.change_of_looks {call : WriteCall} (h : call.looks = true) : call.change = none := by
  cases call <;> first | rfl | cases h

/-! ## What a step does -/

inductive WriteStep (space : NamespacedState) : Phase → WriteCall → NamespacedState → Phase → Reply → Prop
  | acquire : space.gate = false → WriteStep space .waiting .acquire { space with gate := true } .permitted .done
  | snapshot : WriteStep space .permitted .snapshot space (.live space.stores) .done
  | look {staged : Stores} {call : WriteCall} {a : Reply} : call.looks = true →
      WriteStep space (.live staged) call space (.live staged) a
  | change {staged : Stores} {call : WriteCall} {c : Change} : call.change = some c → (staged c.name).isSome →
      WriteStep space (.live staged) call space (.live (c.apply staged)) .done
  | refuse {staged : Stores} {call : WriteCall} {c : Change} : call.change = some c →
      WriteStep space (.live staged) call space (.live staged) .panic
  | commit {staged : Stores} : WriteStep space (.live staged) .commit { space with stores := staged } .published .done
  | dropLive {staged : Stores} : WriteStep space (.live staged) .drop { space with gate := false } .dropped .done
  | dropPublished : WriteStep space .published .drop { space with gate := false } .dropped .done

theorem withStaged_look {space : NamespacedState} {staged : Stores} {name : String} {f : KVStore → Reply}
    {call : WriteCall} {r : NamespacedState × Phase × Reply}
    (h : withStaged space staged name (fun store => (staged, f store)) = r) (hc : call.looks = true) :
    WriteStep space (.live staged) call r.1 r.2.1 r.2.2 := by
  unfold withStaged at h
  cases hn : staged name with
  | none =>
    rw [hn] at h
    subst h
    exact WriteStep.look hc
  | some store =>
    rw [hn] at h
    subst h
    exact WriteStep.look hc

theorem withStaged_change {space : NamespacedState} {staged : Stores} {call : WriteCall} {c : Change}
    {r : NamespacedState × Phase × Reply}
    (h : withStaged space staged c.name (fun store => (upd staged c.name (c.applyStore store), .done)) = r)
    (hc : call.change = some c) : WriteStep space (.live staged) call r.1 r.2.1 r.2.2 := by
  unfold withStaged at h
  cases hn : staged c.name with
  | none =>
    rw [hn] at h
    subst h
    exact WriteStep.refuse hc
  | some store =>
    rw [hn] at h
    subst h
    have happly : c.apply staged = upd staged c.name (c.applyStore store) := by
      unfold Change.apply
      rw [hn]
    have hstep : WriteStep space (.live staged) call space (.live (c.apply staged)) .done :=
      WriteStep.change hc (by rw [hn]; rfl)
    rw [happly] at hstep
    exact hstep

theorem writeStep_cases {space space' : NamespacedState} {phase phase' : Phase} {call : WriteCall} {a : Reply}
    (h : writeStep space phase call = some (space', phase', a)) : WriteStep space phase call space' phase' a := by
  cases phase with
  | waiting =>
    cases call <;> simp only [writeStep] at h <;> try cases h
    split at h
    · cases h
    · cases h
      exact WriteStep.acquire (by simpa using ‹¬space.gate = true›)
  | permitted =>
    cases call <;> simp only [writeStep] at h <;> cases h
    exact WriteStep.snapshot
  | live staged =>
    cases call with
    | acquire => cases h
    | snapshot => cases h
    | openStore name => exact withStaged_look (f := fun _ => .done) (Option.some.inj h) rfl
    | get name key => exact withStaged_look (f := fun store => getReply store key) (Option.some.inj h) rfl
    | scan name range direction =>
      exact withStaged_look (f := fun store => scanReply store range direction) (Option.some.inj h) rfl
    | set name key value => exact withStaged_change (c := ⟨name, key, some value⟩) (Option.some.inj h) rfl
    | remove name key => exact withStaged_change (c := ⟨name, key, none⟩) (Option.some.inj h) rfl
    | commit =>
      cases h
      exact WriteStep.commit
    | drop =>
      cases h
      exact WriteStep.dropLive
  | published =>
    cases call <;> simp only [writeStep] at h <;> cases h
    exact WriteStep.dropPublished
  | dropped => cases call <;> cases h

/-- Nothing but a commit publishes. -/
theorem writeStep_stores {space space' : NamespacedState} {phase phase' : Phase} {call : WriteCall} {a : Reply}
    (h : WriteStep space phase call space' phase' a) (hcall : call ≠ .commit) : space'.stores = space.stores := by
  cases h with
  | commit => exact absurd rfl hcall
  | _ => rfl

inductive Step (s : St) : Ev → Reply → St → Prop
  | prepareRead (ns : String) (names : List String) : s.preparing = none → s.shared = 0 →
      Step s (.prepareRead ns names) .done { s with preparing := some ⟨ns, names, s.published ns⟩ }
  | preparePublish (p : Prepare) : s.preparing = some p →
      Step s (.preparePublish p.ns p.names) .done
        { s with spaces := Function.update s.spaces p.ns (some (p.publish (s.spaces p.ns))), preparing := none }
  | read (r : Nat) (ns : String) (stores : Stores) : s.preparing = none → s.readers r = none →
      s.published ns = some stores →
      Step s (.read r ns) .done { s with readers := Function.update s.readers r (some stores) }
  | openStore (q r : Nat) (name : String) (stores : Stores) (store : KVStore) : s.readers r = some stores →
      s.opened q = none → stores name = some store →
      Step s (.openStore q r name) .done { s with opened := Function.update s.opened q (some store) }
  | write (w : Nat) (ns : String) : s.preparing = none → s.writers w = none → (s.spaces ns).isSome →
      Step s (.write w ns) .done
        { s with writers := Function.update s.writers w (some ⟨ns, .waiting⟩), shared := s.shared + 1 }
  | writer (w : Nat) (call : WriteCall) (ns : String) (phase phase' : Phase) (space space' : NamespacedState)
      (a : Reply) : s.writers w = some ⟨ns, phase⟩ → s.spaces ns = some space →
      WriteStep space phase call space' phase' a →
      Step s (.writer w call) a
        { s with
          spaces := Function.update s.spaces ns (some space')
          writers := Function.update s.writers w (some ⟨ns, phase'⟩)
          shared := call.shared s.shared }
  /-- A look at a store of a read handle, or a panic. -/
  | look (e : Ev) (a : Reply) : a ≠ .done → (∀ w call, e ≠ .writer w call) → Step s e a s

theorem scanReply_ne_done (store : KVStore) (range : ScanRange) (direction : Direction) :
    scanReply store range direction ≠ .done := by
  unfold scanReply
  split <;> exact Reply.noConfusion

theorem step_cases {s s' : St} {e : Ev} {a : Reply} (h : step s e = some (s', a)) : Step s e a s' := by
  cases e with
  | prepareRead ns names =>
    simp only [step] at h
    split at h
    · cases h
    · rename_i hfree
      simp only [not_or, not_not, Option.not_isSome_iff_eq_none] at hfree
      cases h
      exact Step.prepareRead ns names hfree.1 hfree.2
  | preparePublish ns names =>
    simp only [step] at h
    split at h
    · rename_i p hp
      split at h
      · rename_i hmine
        obtain ⟨rfl, rfl⟩ := hmine
        cases h
        exact Step.preparePublish p hp
      · cases h
    · cases h
  | read r ns =>
    simp only [step] at h
    split at h
    · cases h
    · rename_i hfree
      simp only [not_or, Option.not_isSome_iff_eq_none] at hfree
      split at h
      · rename_i space hspace
        cases h
        exact Step.read r ns space.stores hfree.1 hfree.2 (by simp [St.published, hspace])
      · cases h
        exact Step.look _ _ Reply.noConfusion fun _ _ => Ev.noConfusion
  | openStore q r name =>
    simp only [step] at h
    split at h
    · rename_i stores hr
      split at h
      · cases h
      · rename_i hq
        rw [Option.not_isSome_iff_eq_none] at hq
        split at h
        · rename_i store hstore
          cases h
          exact Step.openStore q r name stores store hr hq hstore
        · cases h
          exact Step.look _ _ Reply.noConfusion fun _ _ => Ev.noConfusion
    · cases h
  | get q key =>
    simp only [step, Option.map_eq_some_iff] at h
    obtain ⟨store, hq, h⟩ := h
    cases h
    exact Step.look _ _ Reply.noConfusion fun _ _ => Ev.noConfusion
  | scan q range direction =>
    simp only [step, Option.map_eq_some_iff] at h
    obtain ⟨store, hq, h⟩ := h
    cases h
    exact Step.look _ _ (scanReply_ne_done store range direction) fun _ _ => Ev.noConfusion
  | write w ns =>
    simp only [step] at h
    split at h
    · cases h
    · rename_i hfree
      simp only [not_or, Option.not_isSome_iff_eq_none] at hfree
      split at h
      · rename_i hspace
        cases h
        exact Step.write w ns hfree.1 hfree.2 (by rw [hspace]; rfl)
      · cases h
        exact Step.look _ _ Reply.noConfusion fun _ _ => Ev.noConfusion
  | writer w call =>
    simp only [step] at h
    split at h
    · rename_i ns phase hw
      split at h
      · rename_i space hspace
        rw [Option.map_eq_some_iff] at h
        obtain ⟨r, hr, h⟩ := h
        cases h
        exact Step.writer w call ns phase _ space _ _ hw hspace (writeStep_cases hr)
      · cases h
    · cases h

/-! ## Steps there are -/

section Moved

variable {s s' : St} {ns : String} {w : Nat}

/-- The handle `w` and its namespace have changed to these, and nothing else. -/
structure Moved (s : St) (w : Nat) (ns : String) (space : NamespacedState) (phase : Phase) (s' : St) : Prop where
  preparing : s'.preparing = s.preparing
  spaces : s'.spaces = Function.update s.spaces ns (some space)
  writers : s'.writers = Function.update s.writers w (some ⟨ns, phase⟩)

theorem prepareRead_eq (hidle : s.preparing = none) (hshared : s.shared = 0) (ns : String) (names : List String) :
    step s (.prepareRead ns names) = some ({ s with preparing := some ⟨ns, names, s.published ns⟩ }, .done) := by
  simp [step, hidle, hshared, St.published]

theorem preparePublish_eq {p : Prepare} (hp : s.preparing = some p) : step s (.preparePublish p.ns p.names) =
    some ({ s with
      spaces := Function.update s.spaces p.ns (some (p.publish (s.spaces p.ns)))
      preparing := none }, .done) := by
  simp [step, hp]

theorem writer_eq {phase phase' : Phase} {space space' : NamespacedState} {c : WriteCall}
    (hw : s.writers w = some ⟨ns, phase⟩) (hspace : s.spaces ns = some space)
    (h : writeStep space phase c = some (space', phase', .done)) : step s (.writer w c) = some ({ s with
      spaces := Function.update s.spaces ns (some space')
      writers := Function.update s.writers w (some ⟨ns, phase'⟩)
      shared := c.shared s.shared }, .done) := by
  simp only [step, hw, hspace, h, Option.map_some]

/-- One call of a write handle. -/
theorem step_writer {phase phase' : Phase} {space space' : NamespacedState} {c : WriteCall}
    (hw : s.writers w = some ⟨ns, phase⟩) (hspace : s.spaces ns = some space)
    (h : writeStep space phase c = some (space', phase', .done)) :
    ∃ s', step s (.writer w c) = some (s', .done) ∧ Moved s w ns space' phase' s' :=
  ⟨_, writer_eq hw hspace h, rfl, rfl, rfl⟩

theorem Moved.space {space : NamespacedState} {phase : Phase} (h : Moved s w ns space phase s') :
    s'.spaces ns = some space := by
  rw [h.spaces, Function.update_self]

theorem Moved.writer {space : NamespacedState} {phase : Phase} (h : Moved s w ns space phase s') :
    s'.writers w = some ⟨ns, phase⟩ := by
  rw [h.writers, Function.update_self]

theorem write_eq {space : NamespacedState} (hidle : s.preparing = none) (hw : s.writers w = none)
    (hspace : s.spaces ns = some space) : step s (.write w ns) =
      some ({ s with writers := Function.update s.writers w (some ⟨ns, .waiting⟩), shared := s.shared + 1 },
        .done) := by
  simp [step, hidle, hw, hspace]

/-- A call of `write` gets as far as the gate. -/
theorem step_write {space : NamespacedState} (hidle : s.preparing = none) (hw : s.writers w = none)
    (hspace : s.spaces ns = some space) :
    ∃ s', step s (.write w ns) = some (s', .done) ∧ Moved s w ns space .waiting s' :=
  ⟨_, write_eq hidle hw hspace, rfl, by rw [← hspace, Function.update_eq_self], rfl⟩

theorem step_read {r : Nat} {space : NamespacedState} (hidle : s.preparing = none) (hr : s.readers r = none)
    (hspace : s.spaces ns = some space) :
    step s (.read r ns) = some ({ s with readers := Function.update s.readers r (some space.stores) }, .done) := by
  simp only [step, hidle, hr, hspace]
  rfl

end Moved

/-- The state after the commit of `w`. -/
def St.committed (s : St) (w : Nat) (ns : String) (space : NamespacedState) (staged : Stores) : St :=
  { s with
    spaces := Function.update s.spaces ns (some { space with stores := staged })
    writers := Function.update s.writers w (some ⟨ns, .published⟩) }

theorem committed_published (s : St) (w : Nat) (ns : String) (space : NamespacedState) (staged : Stores) :
    (s.committed w ns space staged).published ns = some staged :=
  @published_update s _ ns { space with stores := staged } rfl

theorem commit_cases {s s' : St} {w : Nat} {a : Reply} (h : step s (.writer w .commit) = some (s', a)) :
    ∃ ns staged space, s.writers w = some ⟨ns, .live staged⟩ ∧ s.spaces ns = some space ∧ a = .done ∧
      s' = s.committed w ns space staged := by
  cases step_cases h with
  | look _ _ _ hwriter => exact absurd rfl (hwriter w .commit)
  | writer _ _ ns phase phase' space space' _ hw hspace hwrite =>
    cases hwrite with
    | look hlook => cases hlook
    | change hchange => cases hchange
    | refuse hchange => cases hchange
    | @commit staged => exact ⟨ns, staged, space, hw, hspace, rfl, rfl⟩

theorem snapshot_cases {s s' : St} {w : Nat} {a : Reply} (h : step s (.writer w .snapshot) = some (s', a)) :
    ∃ ns space, s.spaces ns = some space ∧ s'.writers w = some ⟨ns, .live space.stores⟩ := by
  cases step_cases h with
  | look _ _ _ hwriter => exact absurd rfl (hwriter w .snapshot)
  | writer _ _ ns phase phase' space space' _ hw hspace hwrite =>
    cases hwrite with
    | look hlook => cases hlook
    | change hchange => cases hchange
    | refuse hchange => cases hchange
    | snapshot => exact ⟨ns, space, hspace, Function.update_self _ _ _⟩

theorem read_cases {s s' : St} {r : Nat} {ns : String} (h : step s (.read r ns) = some (s', .done)) :
    ∃ stores, s.published ns = some stores ∧ s'.readers r = some stores := by
  cases step_cases h with
  | read _ _ stores _ _ hstores => exact ⟨stores, hstores, Function.update_self _ _ _⟩
  | look _ _ hdone => exact absurd rfl hdone

theorem publish_cases {s s' : St} {ns : String} {names : List String} {a : Reply}
    (h : step s (.preparePublish ns names) = some (s', a)) :
    ∃ p, s.preparing = some p ∧ p.ns = ns ∧ p.names = names ∧ a = .done ∧
      s' = { s with spaces := Function.update s.spaces ns (some (p.publish (s.spaces ns))), preparing := none } := by
  simp only [step] at h
  split at h
  · rename_i p hp
    split at h
    · rename_i hmine
      cases h
      exact ⟨p, hp, hmine.1, hmine.2, rfl, rfl⟩
    · cases h
  · cases h

/-! ### Each call, with its answer -/

section Answers

variable {s s' : St} {a : Reply} {ns : String}

theorem writer_inv {w : Nat} {call : WriteCall} (h : step s (.writer w call) = some (s', a)) :
    ∃ ns phase space space' phase', s.writers w = some ⟨ns, phase⟩ ∧ s.spaces ns = some space ∧
      writeStep space phase call = some (space', phase', a) ∧ s' = { s with
        spaces := Function.update s.spaces ns (some space')
        writers := Function.update s.writers w (some ⟨ns, phase'⟩)
        shared := call.shared s.shared } := by
  simp only [step] at h
  split at h
  · rename_i ns phase hw
    split at h
    · rename_i space hspace
      rw [Option.map_eq_some_iff] at h
      obtain ⟨⟨space', phase', a'⟩, hr, h⟩ := h
      cases h
      exact ⟨ns, phase, space, space', phase', hw, hspace, hr, rfl⟩
    · cases h
  · cases h

theorem write_inv {w : Nat} (h : step s (.write w ns) = some (s', a)) :
    s.writers w = none ∧ ((∃ space, s.spaces ns = some space ∧ a = .done ∧ s' = { s with
        writers := Function.update s.writers w (some ⟨ns, .waiting⟩)
        shared := s.shared + 1 }) ∨
      (s.spaces ns = none ∧ a = .panic ∧ s' = s)) := by
  simp only [step] at h
  split at h
  · cases h
  · rename_i hfree
    simp only [not_or, Option.not_isSome_iff_eq_none] at hfree
    split at h
    · rename_i space hspace
      cases h
      exact ⟨hfree.2, Or.inl ⟨space, hspace, rfl, rfl⟩⟩
    · rename_i hspace
      cases h
      exact ⟨hfree.2, Or.inr ⟨hspace, rfl, rfl⟩⟩

theorem read_inv {r : Nat} (h : step s (.read r ns) = some (s', a)) :
    s.readers r = none ∧ ((∃ space, s.spaces ns = some space ∧ a = .done ∧
        s' = { s with readers := Function.update s.readers r (some space.stores) }) ∨
      (s.spaces ns = none ∧ a = .panic ∧ s' = s)) := by
  simp only [step] at h
  split at h
  · cases h
  · rename_i hfree
    simp only [not_or, Option.not_isSome_iff_eq_none] at hfree
    split at h
    · rename_i space hspace
      cases h
      exact ⟨hfree.2, Or.inl ⟨space, hspace, rfl, rfl⟩⟩
    · rename_i hspace
      cases h
      exact ⟨hfree.2, Or.inr ⟨hspace, rfl, rfl⟩⟩

theorem openStore_inv {q r : Nat} {name : String} (h : step s (.openStore q r name) = some (s', a)) :
    ∃ stores, s.readers r = some stores ∧ s.opened q = none ∧ ((∃ store, stores name = some store ∧ a = .done ∧
        s' = { s with opened := Function.update s.opened q (some store) }) ∨
      (stores name = none ∧ a = .panic ∧ s' = s)) := by
  simp only [step] at h
  split at h
  · rename_i stores hr
    split at h
    · cases h
    · rename_i hq
      rw [Option.not_isSome_iff_eq_none] at hq
      split at h
      · rename_i store hstore
        cases h
        exact ⟨stores, hr, hq, Or.inl ⟨store, hstore, rfl, rfl⟩⟩
      · rename_i hstore
        cases h
        exact ⟨stores, hr, hq, Or.inr ⟨hstore, rfl, rfl⟩⟩
  · cases h

theorem get_inv {q : Nat} {key : Bytes} (h : step s (.get q key) = some (s', a)) :
    ∃ store, s.opened q = some store ∧ a = getReply store key ∧ s' = s := by
  simp only [step, Option.map_eq_some_iff] at h
  obtain ⟨store, hq, h⟩ := h
  cases h
  exact ⟨store, hq, rfl, rfl⟩

theorem scan_inv {q : Nat} {range : ScanRange} {direction : Direction}
    (h : step s (.scan q range direction) = some (s', a)) :
    ∃ store, s.opened q = some store ∧ a = scanReply store range direction ∧ s' = s := by
  simp only [step, Option.map_eq_some_iff] at h
  obtain ⟨store, hq, h⟩ := h
  cases h
  exact ⟨store, hq, rfl, rfl⟩

end Answers

/-- A handle found after a step of `w`, unless it is what became of `w`, was there before. -/
theorem writer_before {s s' : St} {w w' : Nat} {writer writer' : Writer}
    (hs' : s'.writers = Function.update s.writers w (some writer)) (h : s'.writers w' = some writer')
    (hne : writer' ≠ writer) : w' ≠ w ∧ s.writers w' = some writer' := by
  have hww : w' ≠ w := fun heq => by
    subst heq
    rw [hs', Function.update_self] at h
    exact hne (Option.some.inj h).symm
  rw [hs', Function.update_of_ne hww] at h
  exact ⟨hww, h⟩

/-! ## The gate -/

def Phase.permit : Phase → Bool
  | .waiting => false
  | .permitted => true
  | .live _ => true
  | .published => true
  | .dropped => false

/-- `w` has the permit of the namespace. -/
def St.Holds (s : St) (w : Nat) (ns : String) : Prop := ∃ phase, s.writers w = some ⟨ns, phase⟩ ∧ phase.permit = true

structure Gated (s : St) : Prop where
  gate_iff : ∀ ns space, s.spaces ns = some space → (space.gate = true ↔ ∃ w, s.Holds w ns)
  one_holder : ∀ ns w w', s.Holds w ns → s.Holds w' ns → w = w'
  space : ∀ w writer, s.writers w = some writer → (s.spaces writer.ns).isSome

/-- A step keeps the flag and the permit, or sets the flag and takes the permit, or
    gives the permit back and clears the flag. -/
theorem writeStep_gate {space space' : NamespacedState} {phase phase' : Phase} {call : WriteCall} {a : Reply}
    (h : WriteStep space phase call space' phase' a) :
    (space'.gate = space.gate ∧ phase'.permit = phase.permit) ∨
    (space.gate = false ∧ space'.gate = true ∧ phase'.permit = true) ∨
    (phase.permit = true ∧ space'.gate = false ∧ phase'.permit = false) := by
  cases h with
  | acquire hfree => exact Or.inr (Or.inl ⟨hfree, rfl, rfl⟩)
  | snapshot => exact Or.inl ⟨rfl, rfl⟩
  | look => exact Or.inl ⟨rfl, rfl⟩
  | change => exact Or.inl ⟨rfl, rfl⟩
  | refuse => exact Or.inl ⟨rfl, rfl⟩
  | commit => exact Or.inl ⟨rfl, rfl⟩
  | dropLive => exact Or.inr (Or.inr ⟨rfl, rfl, rfl⟩)
  | dropPublished => exact Or.inr (Or.inr ⟨rfl, rfl, rfl⟩)

section Gate

variable {s s' : St}

/-- Another phase of `w` changes no other handle's hold, nor that of another namespace. -/
theorem holds_update {w w' : Nat} {ns ns' : String} {phase phase' : Phase} (hw : s.writers w = some ⟨ns, phase⟩)
    (hs' : s'.writers = Function.update s.writers w (some ⟨ns, phase'⟩)) (hne : w' ≠ w ∨ ns' ≠ ns) :
    s'.Holds w' ns' ↔ s.Holds w' ns' := by
  unfold St.Holds
  rw [hs']
  by_cases hww : w' = w
  · subst hww
    have hns : ns' ≠ ns := hne.resolve_left (fun h => h rfl)
    simp [hw, hns.symm]
  · rw [Function.update_of_ne hww]

theorem holds_self {w : Nat} {ns : String} {phase' : Phase}
    (hs' : s'.writers = Function.update s.writers w (some ⟨ns, phase'⟩)) : s'.Holds w ns ↔ phase'.permit = true := by
  unfold St.Holds
  rw [hs']
  simp

/-- While another handle of the namespace holds the permit, no step of `w` takes it. -/
theorem not_holds_of_other {w w' : Nat} {ns : String} {phase phase' : Phase} {space space' : NamespacedState}
    {call : WriteCall} {a : Reply} (hg : Gated s) (hw : s.writers w = some ⟨ns, phase⟩)
    (hspace : s.spaces ns = some space) (hstep : WriteStep space phase call space' phase' a)
    (hold : s.Holds w' ns) (hne : w' ≠ w) : phase'.permit = false := by
  rw [Bool.eq_false_iff]
  intro hpermit'
  rcases writeStep_gate hstep with ⟨-, hpermit⟩ | ⟨hfree, -, -⟩ | ⟨-, -, hpermit⟩
  · rw [hpermit] at hpermit'
    exact hne (hg.one_holder ns w' w hold ⟨phase, hw, hpermit'⟩)
  · have htaken := (hg.gate_iff ns space hspace).mpr ⟨w', hold⟩
    rw [hfree] at htaken
    cases htaken
  · rw [hpermit] at hpermit'
    cases hpermit'

theorem gated_writer {w : Nat} {ns : String} {phase phase' : Phase} {space space' : NamespacedState} {call : WriteCall}
    {a : Reply} (hg : Gated s) (hw : s.writers w = some ⟨ns, phase⟩) (hspace : s.spaces ns = some space)
    (hstep : WriteStep space phase call space' phase' a)
    (hwriters : s'.writers = Function.update s.writers w (some ⟨ns, phase'⟩))
    (hspaces : s'.spaces = Function.update s.spaces ns (some space')) : Gated s' := by
  have hself := holds_self hwriters
  have hother : ∀ w' ns', w' ≠ w ∨ ns' ≠ ns → (s'.Holds w' ns' ↔ s.Holds w' ns') :=
    fun w' ns' hne => holds_update hw hwriters hne
  have hmine : s.Holds w ns ↔ phase.permit = true := by
    unfold St.Holds
    rw [hw]
    simp
  -- The holders of `ns` after the step, but for `w`, held it before, and `w` then does not.
  have hothers : ∀ w', s'.Holds w' ns → w' ≠ w → s.Holds w' ns := fun w' h hne => (hother w' ns (Or.inl hne)).mp h
  have halone : ∀ w', s'.Holds w' ns → w' ≠ w → ¬ s'.Holds w ns := by
    intro w' h hne hboth
    rw [hself, not_holds_of_other hg hw hspace hstep (hothers w' h hne) hne] at hboth
    cases hboth
  refine ⟨?_, ?_, ?_⟩
  · intro ns' space1 h1
    by_cases hns : ns' = ns
    · subst hns
      rw [hspaces, Function.update_self] at h1
      obtain rfl := Option.some.inj h1
      have hgate := hg.gate_iff ns' space hspace
      rcases writeStep_gate hstep with ⟨hsame, hpermit⟩ | ⟨hfree, htaken, hpermit⟩ | ⟨hheld, hfree, hpermit⟩
      · rw [hsame, hgate]
        refine exists_congr fun w' => ?_
        by_cases hww : w' = w
        · subst hww
          rw [hself, hmine, hpermit]
        · exact (hother w' ns' (Or.inl hww)).symm
      · exact ⟨fun _ => ⟨w, hself.mpr hpermit⟩, fun _ => htaken⟩
      · rw [hfree]
        refine ⟨fun h => Bool.noConfusion h, fun ⟨w', hw'⟩ => ?_⟩
        by_cases hww : w' = w
        · subst hww
          rw [hself, hpermit] at hw'
          cases hw'
        · exact absurd (hg.one_holder ns' w' w (hothers w' hw' hww) (hmine.mpr hheld)) hww
    · rw [hspaces, Function.update_of_ne hns] at h1
      rw [hg.gate_iff ns' space1 h1]
      exact exists_congr fun w' => (hother w' ns' (Or.inr hns)).symm
  · intro ns' w1 w2 h1 h2
    by_cases hns : ns' = ns
    · subst hns
      by_cases e1 : w1 = w
      · by_cases e2 : w2 = w
        · rw [e1, e2]
        · exact absurd (e1 ▸ h1) (halone w2 h2 e2)
      · by_cases e2 : w2 = w
        · exact absurd (e2 ▸ h2) (halone w1 h1 e1)
        · exact hg.one_holder ns' w1 w2 (hothers w1 h1 e1) (hothers w2 h2 e2)
    · exact hg.one_holder ns' w1 w2 ((hother w1 ns' (Or.inr hns)).mp h1) ((hother w2 ns' (Or.inr hns)).mp h2)
  · intro w' writer hw'
    by_cases hns : writer.ns = ns
    · rw [hspaces, hns]
      simp
    · rw [hspaces, Function.update_of_ne hns]
      exact hg.space w' writer (writer_before hwriters hw' fun h => hns (by rw [h])).2

/-- A step that leaves the permits and the flags alone. -/
theorem gated_same (hg : Gated s) (hholds : ∀ w ns, s'.Holds w ns ↔ s.Holds w ns)
    (hspaces : ∀ ns space', s'.spaces ns = some space' →
      space'.gate = ((s.spaces ns).map (·.gate)).getD false)
    (hspace : ∀ w writer, s'.writers w = some writer → (s'.spaces writer.ns).isSome) : Gated s' := by
  refine ⟨?_, ?_, hspace⟩
  · intro ns space' h1
    rw [hspaces ns space' h1]
    cases hold : s.spaces ns with
    | some space => exact (hg.gate_iff ns space hold).trans (exists_congr fun w => (hholds w ns).symm)
    | none =>
      refine ⟨fun h => Bool.noConfusion h, fun ⟨w, hw⟩ => ?_⟩
      obtain ⟨phase, hw, -⟩ := (hholds w ns).mp hw
      have := hg.space w _ hw
      rw [hold] at this
      cases this
  · intro ns w w' h1 h2
    exact hg.one_holder ns w w' ((hholds w ns).mp h1) ((hholds w' ns).mp h2)

theorem step_gated {e : Ev} {a : Reply} (h : Step s e a s') (hg : Gated s) : Gated s' := by
  cases h with
  | prepareRead ns names =>
    exact gated_same hg (fun _ _ => Iff.rfl) (fun ns space h => by rw [h]; rfl) hg.space
  | preparePublish p =>
    refine gated_same hg (fun _ _ => Iff.rfl) ?_ ?_
    · intro ns space' h1
      by_cases hns : ns = p.ns
      · subst hns
        simp only [Function.update_self, Option.some.injEq] at h1
        rw [← h1]
        rfl
      · simp only [Function.update_of_ne hns] at h1
        rw [h1]
        rfl
    · intro w writer hw
      by_cases hns : writer.ns = p.ns
      · rw [hns]
        simp
      · simp only [Function.update_of_ne hns]
        exact hg.space w writer hw
  | read r ns stores => exact gated_same hg (fun _ _ => Iff.rfl) (fun ns space h => by rw [h]; rfl) hg.space
  | openStore q r name stores store =>
    exact gated_same hg (fun _ _ => Iff.rfl) (fun ns space h => by rw [h]; rfl) hg.space
  | write w ns _ hw hspace =>
    refine gated_same hg ?_ (fun ns space h => by rw [h]; rfl) ?_
    · intro w' ns'
      unfold St.Holds
      by_cases hww : w' = w
      · subst hww
        simp only [Function.update_self, hw, Option.some.injEq, Writer.mk.injEq]
        constructor
        · intro ⟨phase, ⟨_, hphase⟩, hpermit⟩
          rw [← hphase] at hpermit
          cases hpermit
        · intro ⟨phase, h, _⟩
          cases h
      · simp only [Function.update_of_ne hww]
    · intro w' writer hw'
      by_cases hww : w' = w
      · subst hww
        simp only [Function.update_self, Option.some.injEq] at hw'
        rw [← hw']
        exact hspace
      · simp only [Function.update_of_ne hww] at hw'
        exact hg.space w' writer hw'
  | writer w call ns phase phase' space space' a hw hspace hstep => exact gated_writer hg hw hspace hstep rfl rfl
  | look => exact hg

end Gate

theorem gated_new : Gated new :=
  ⟨fun _ _ h => (Option.some_ne_none _ h.symm).elim, fun _ _ _ ⟨_, h, _⟩ _ => (Option.some_ne_none _ h.symm).elim,
    fun _ _ h => (Option.some_ne_none _ h.symm).elim⟩

theorem reach_gated {tr : Trace Ev Reply} {s : St} (h : Run step new tr s) : Gated s :=
  h.keeps (fun _ _ _ _ hs hg => step_gated (step_cases hs) hg) gated_new

/-- A live handle opens the stores it has. -/
theorem openStore_done {s : St} {w : Nat} {ns n : String} {staged : Stores} (hw : s.writers w = some ⟨ns, .live staged⟩)
    (hg : Gated s) (hn : (staged n).isSome) : ∃ s', step s (.writer w (.openStore n)) = some (s', .done) := by
  obtain ⟨space, hspace⟩ := Option.isSome_iff_exists.mp (hg.space w _ hw)
  obtain ⟨store, hstore⟩ := Option.isSome_iff_exists.mp hn
  simp only [step, hw, hspace, writeStep, withStaged, hstore]
  exact ⟨_, rfl⟩

end Memory

end Collette
