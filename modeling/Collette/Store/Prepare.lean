/-
  Collette.Store.Prepare — what `prepare` and `commit` do to each other on one namespace
  of the in-memory backend.

  Both publish a whole map made from an older copy: `prepare` the one it read in its
  first critical section, `commit` the one copied when its handle was opened. `prepare`
  takes no permit, so a commit may fall between its sections, and a prepare between a
  handle's opening and its commit.

  - `prepare_loses_data`: a commit between the two sections of a prepare that lists its
    store is overwritten.
  - `commit_unprepares`: the commit of a handle opened before a prepare takes the stores
    which that prepare added away again, and the next handle panics on them.
  - `keeps_iff`: neither happens in a run, in any of its states, exactly if no step of
    it is one of these two (`Undisturbed`).
-/

import Collette.Store.Isolation

namespace Collette.Memory

/-- The value of a key of a store. -/
def lookup (stores : Stores) (n : String) (k : Bytes) : Option Bytes := (stores n).bind fun store => store[k]?

def Change.At (c : Change) (n : String) (k : Bytes) : Prop := c.name = n ∧ c.key = k

/-- The names the prepare that completed last listed. -/
def listed (ns : String) : Trace Ev Reply → List String
  | [] => []
  | (.preparePublish ns' names, .done) :: tr => if ns' = ns then names else listed ns tr
  | _ :: tr => listed ns tr

/-- `later`, which came after `base`, has a commit of `w` in the namespace, and `before`
    is what came before it. -/
inductive CommittedAfter (ns : String) (base : Trace Ev Reply) : Trace Ev Reply → Nat → Trace Ev Reply → Prop
  | here {later : Trace Ev Reply} {w : Nat} : openedIn w (later ++ base) = some ns →
      CommittedAfter ns base ((.writer w .commit, .done) :: later) w (later ++ base)
  | before {later before : Trace Ev Reply} {x : Ev × Reply} {w : Nat} : CommittedAfter ns base later w before →
      CommittedAfter ns base (x :: later) w before

/-- In the state `s` the run `tr` ends in: -/
structure Keeps (ns : String) (tr : Trace Ev Reply) (s : St) : Prop where
  /-- What a transaction left in a store is still there, if every prepare since listed
      the store, at every key that no transaction committed since changed. -/
  data : ∀ later earlier w s1 staged, tr = later ++ (.writer w .commit, .done) :: earlier → Run step new earlier s1 →
    s1.writers w = some ⟨ns, .live staged⟩ →
    ∀ n, (∀ names, (.preparePublish ns names, .done) ∈ later → n ∈ names) →
    ∀ k, (∀ w' before, CommittedAfter ns ((.writer w .commit, .done) :: earlier) later w' before →
        ∀ c ∈ changes w' before, ¬ c.At n k) →
      ∃ stores, s.published ns = some stores ∧ lookup stores n k = lookup staged n k
  /-- The stores listed last are there for the next handle... -/
  published : ∀ stores, s.published ns = some stores → ∀ n ∈ listed ns tr, (stores n).isSome
  /-- ...and every handle can open the stores listed last when it was opened. -/
  writeOpens : ∀ later earlier w staged, tr = later ++ (.writer w .snapshot, .done) :: earlier →
    s.writers w = some ⟨ns, .live staged⟩ → ∀ n ∈ listed ns earlier,
      ∃ s', step s (.writer w (.openStore n)) = some (s', .done)
  readOpens : ∀ later earlier r, tr = later ++ (.read r ns, .done) :: earlier → ∀ n ∈ listed ns earlier,
    ∀ q, s.opened q = none → ∃ s', step s (.openStore q r n) = some (s', .done)

/-- A prepare publishes nothing older than what is published, of the stores it lists; a
    commit publishes every store there is. -/
def Undisturbed (ns : String) (s : St) : Ev → Prop
  | .preparePublish ns' names => ns' = ns → ∀ p stores, s.preparing = some p → s.published ns = some stores →
      ∀ n ∈ names, ∀ k, lookup (p.current.getD fun _ => none) n k = lookup stores n k
  | .writer w .commit => ∀ staged stores, s.writers w = some ⟨ns, .live staged⟩ → s.published ns = some stores →
      ∀ n, (stores n).isSome → (staged n).isSome
  | _ => True

/-! ## Lookups -/

theorem lookup_prepare {stores : Stores} {names : List String} {n : String} (hn : n ∈ names) (k : Bytes) :
    lookup (prepare stores names) n k = lookup stores n k := by
  unfold lookup prepare
  rw [if_pos hn]
  cases stores n <;> simp

theorem prepare_isSome {stores : Stores} {names : List String} {n : String} :
    (prepare stores names n).isSome ↔ n ∈ names := by
  unfold prepare
  by_cases hn : n ∈ names <;> simp [hn]

theorem lookup_apply {c : Change} {n : String} {k : Bytes} (h : ¬ c.At n k) (stores : Stores) :
    lookup (c.apply stores) n k = lookup stores n k := by
  unfold lookup Change.apply
  cases hstore : stores c.name with
  | none => rfl
  | some store =>
    by_cases hn : n = c.name
    · subst hn
      have hk : c.key ≠ k := fun heq => h ⟨rfl, heq⟩
      have hkey : (c.applyStore store)[k]? = store[k]? := by
        unfold Change.applyStore
        cases c.value with
        | some value => simp [Std.TreeMap.getElem?_insert, hk]
        | none => simp [Std.TreeMap.getElem?_erase, hk]
      simp [hstore, hkey]
    · simp [upd_ne hn]

/-! ## Committed data -/

/-- The namespace has `x` at the key, and so has every handle that did not change it. -/
structure Carries (ns n : String) (k : Bytes) (x : Option Bytes) (tr : Trace Ev Reply) (s : St) : Prop where
  published : ∃ stores, s.published ns = some stores ∧ lookup stores n k = x
  staged : ∀ w staged, s.writers w = some ⟨ns, .live staged⟩ → (∀ c ∈ changes w tr, ¬ c.At n k) →
    lookup staged n k = x

section Carries

variable {ns n : String} {k : Bytes} {x : Option Bytes} {tr : Trace Ev Reply} {s s' : St}

theorem carries_same {e : Ev} {a : Reply} (hc : Carries ns n k x tr s) (hpublished : s'.published ns = s.published ns)
    (hlive : ∀ w staged, s'.writers w = some ⟨ns, .live staged⟩ → s.writers w = some ⟨ns, .live staged⟩) :
    Carries ns n k x ((e, a) :: tr) s' := by
  refine ⟨hpublished ▸ hc.published, fun w staged hw hno => hc.staged w staged (hlive w staged hw) fun c h => hno c ?_⟩
  exact changes_subset h

/-- A step of a handle of the namespace that publishes nothing. -/
theorem carries_writer {w : Nat} {call : WriteCall} {a : Reply} {phase phase' : Phase} {space space' : NamespacedState}
    (hc : Carries ns n k x tr s) (hw : s.writers w = some ⟨ns, phase⟩) (hspace : s.spaces ns = some space)
    (hspaces : s'.spaces = Function.update s.spaces ns (some space'))
    (hwriters : s'.writers = Function.update s.writers w (some ⟨ns, phase'⟩)) (hstores : space'.stores = space.stores)
    (hlive : ∀ staged, phase' = .live staged → (∀ c ∈ changes w ((.writer w call, a) :: tr), ¬ c.At n k) →
      lookup staged n k = x) : Carries ns n k x ((.writer w call, a) :: tr) s' := by
  constructor
  · obtain ⟨stores, hpublished, hx⟩ := hc.published
    rw [published_eq hspace] at hpublished
    refine ⟨space'.stores, published_update hspaces, ?_⟩
    rw [hstores, Option.some.inj hpublished, hx]
  · intro w' staged hw' hno
    by_cases hww : w' = w
    · subst hww
      rw [hwriters, Function.update_self] at hw'
      simp only [Option.some.injEq, Writer.mk.injEq, true_and] at hw'
      exact hlive staged hw' hno
    · rw [hwriters, Function.update_of_ne hww] at hw'
      exact hc.staged w' staged hw' fun c h => hno c (changes_subset h)

theorem carries_step {e : Ev} {a : Reply} (hc : Carries ns n k x tr s) (hs : Step s e a s') (hund : Undisturbed ns s e)
    (hg : Gated s) (hlisted : ∀ names, e = .preparePublish ns names → n ∈ names)
    (hcommit : ∀ w staged, e = .writer w .commit → s.writers w = some ⟨ns, .live staged⟩ →
      ∀ c ∈ changes w tr, ¬ c.At n k) : Carries ns n k x ((e, a) :: tr) s' := by
  cases hs with
  | prepareRead => exact carries_same hc rfl fun _ _ h => h
  | read => exact carries_same hc rfl fun _ _ h => h
  | openStore => exact carries_same hc rfl fun _ _ h => h
  | look => exact carries_same hc rfl fun _ _ h => h
  | write w m => exact carries_same hc rfl fun w' staged hw' => (writer_before rfl hw' (by simp)).2
  | preparePublish p hp =>
    by_cases hns : p.ns = ns
    · subst hns
      obtain ⟨stores, hpublished, hx⟩ := hc.published
      have hn : n ∈ p.names := hlisted p.names rfl
      refine ⟨⟨_, published_update rfl, ?_⟩, ?_⟩
      · unfold Prepare.publish
        rw [lookup_prepare hn, hund rfl p stores hp hpublished n hn k, hx]
      · intro w staged hw hno
        exact hc.staged w staged hw fun c h => hno c (changes_subset h)
    · exact carries_same hc (published_congr (Function.update_of_ne (Ne.symm hns) _ _)) fun _ _ h => h
  | writer w call m phase phase' space space' a hw hspace hwrite =>
    by_cases hm : m = ns
    · subst hm
      cases hwrite with
      | acquire hfree => exact carries_writer hc hw hspace rfl rfl rfl fun _ h => Phase.noConfusion h
      | snapshot =>
        refine carries_writer hc hw hspace rfl rfl rfl fun staged h _ => ?_
        obtain ⟨stores, hpublished, hx⟩ := hc.published
        rw [published_eq hspace] at hpublished
        cases h
        rw [Option.some.inj hpublished, hx]
      | @look staged _ _ hlook =>
        refine carries_writer hc hw hspace rfl rfl rfl fun staged' h hno => ?_
        cases h
        exact hc.staged w staged hw fun c h => hno c (changes_subset h)
      | @change staged _ c hchange hsome =>
        refine carries_writer hc hw hspace rfl rfl rfl fun staged' h hno => ?_
        cases h
        have hat : ¬ c.At n k := hno c (by rw [changes_call, hchange]; simp)
        rw [lookup_apply hat]
        exact hc.staged w staged hw fun c h => hno c (changes_subset h)
      | @refuse staged _ c hchange =>
        refine carries_writer hc hw hspace rfl rfl rfl fun staged' h hno => ?_
        cases h
        exact hc.staged w staged hw fun c h => hno c (changes_subset h)
      | @commit staged =>
        constructor
        · exact ⟨_, published_update rfl, hc.staged w staged hw (hcommit w staged rfl hw)⟩
        · intro w' staged' hw' hno
          obtain ⟨hww, hold⟩ := writer_before rfl hw' (by simp)
          exact absurd (hg.one_holder m w' w ⟨_, hold, rfl⟩ ⟨_, hw, rfl⟩) hww
      | dropLive => exact carries_writer hc hw hspace rfl rfl rfl fun _ h => Phase.noConfusion h
      | dropPublished => exact carries_writer hc hw hspace rfl rfl rfl fun _ h => Phase.noConfusion h
    · exact carries_same hc (published_congr (Function.update_of_ne (Ne.symm hm) _ _)) fun w' staged hw' =>
        (writer_before rfl hw' (by simp [Ne.symm hm])).2

end Carries

/-- From a commit on: what it left is carried along. -/
theorem carries_run {ns n : String} {k : Bytes} {x : Option Bytes} {base later : Trace Ev Reply} {s : St}
    (h : Run step new (later ++ base) s) (hC : Run.Meets step new (Undisturbed ns) (later ++ base))
    (hbase : ∀ s2, Run step new base s2 → Carries ns n k x base s2)
    (hlisted : ∀ names, (.preparePublish ns names, .done) ∈ later → n ∈ names)
    (hcommit : ∀ w before, CommittedAfter ns base later w before → ∀ c ∈ changes w before, ¬ c.At n k) :
    Carries ns n k x (later ++ base) s := by
  induction later generalizing s with
  | nil => exact hbase s h
  | cons ea later ih =>
    obtain ⟨e, a⟩ := ea
    rw [List.cons_append] at h hC
    cases h with
    | @step _ s1 _ _ _ h1 hs =>
      have hc := ih h1 (Run.Meets.earlier [(e, a)] hC)
        (fun names hmem => hlisted names (List.mem_cons_of_mem _ hmem))
        fun w before hbefore => hcommit w before hbefore.before
      refine carries_step hc (step_cases hs) (hC.head h1) (reach_gated h1) ?_ ?_
      · intro names heq
        subst heq
        exact hlisted names (by obtain ⟨-, -, -, -, rfl, -⟩ := publish_cases hs; exact List.mem_cons_self)
      · intro w staged heq hw
        subst heq
        have hopen : openedIn w (later ++ base) = some ns := by
          rw [openedIn_of_run h1, hw]
          rfl
        obtain ⟨-, -, -, -, -, rfl, -⟩ := commit_cases hs
        exact hcommit w _ (CommittedAfter.here hopen)

theorem keeps_data {ns : String} {tr : Trace Ev Reply} {s : St} (h : Run step new tr s)
    (hC : Run.Meets step new (Undisturbed ns) tr) {later earlier : Trace Ev Reply} {w : Nat} {s1 : St} {staged : Stores}
    (hsplit : tr = later ++ (.writer w .commit, .done) :: earlier) (h1 : Run step new earlier s1)
    (hw : s1.writers w = some ⟨ns, .live staged⟩) {n : String}
    (hlisted : ∀ names, (.preparePublish ns names, .done) ∈ later → n ∈ names) {k : Bytes}
    (hcommit : ∀ w' before, CommittedAfter ns ((.writer w .commit, .done) :: earlier) later w' before →
      ∀ c ∈ changes w' before, ¬ c.At n k) :
    ∃ stores, s.published ns = some stores ∧ lookup stores n k = lookup staged n k := by
  subst hsplit
  refine (carries_run h hC (fun s2 h2 => ?_) hlisted hcommit).published
  cases h2 with
  | @step _ s1' _ _ _ h1' hs =>
    obtain rfl := h1.deterministic h1'
    have hg := reach_gated (Run.step h1 hs)
    obtain ⟨m, staged', space, hw', hspace, -, rfl⟩ := commit_cases hs
    rw [hw] at hw'
    cases hw'
    have hphase : (s1.committed w ns space staged).writers w = some ⟨ns, .published⟩ := Function.update_self _ _ _
    refine ⟨⟨_, published_update rfl, rfl⟩, fun w' staged' hw' _ => ?_⟩
    have hww := hg.one_holder ns w' w ⟨_, hw', rfl⟩ ⟨_, hphase, rfl⟩
    subst hww
    rw [hphase] at hw'
    cases hw'

/-! ## Prepared stores -/

theorem listed_skip {ns : String} {tr : Trace Ev Reply} {e : Ev} {a : Reply}
    (h : a ≠ .done ∨ ∀ names, e ≠ .preparePublish ns names) : listed ns ((e, a) :: tr) = listed ns tr := by
  cases e with
  | preparePublish ns' names =>
    cases a with
    | done =>
      have hne : ns' ≠ ns := fun heq => h.elim (fun h => h rfl) fun h => h names (by rw [heq])
      simp [listed, hne]
    | _ => rfl
  | _ => rfl

/-- The stores listed last are published. -/
def HasListed (ns : String) (tr : Trace Ev Reply) (s : St) : Prop :=
  ∀ stores, s.published ns = some stores → ∀ n ∈ listed ns tr, (stores n).isSome

section Listed

variable {ns : String} {tr : Trace Ev Reply} {s s' : St}

theorem hasListed_same {e : Ev} {a : Reply} (hi : HasListed ns tr s)
    (h : a ≠ .done ∨ ∀ names, e ≠ .preparePublish ns names) (hpublished : s'.published ns = s.published ns) :
    HasListed ns ((e, a) :: tr) s' := by
  unfold HasListed
  rw [hpublished, listed_skip h]
  exact hi

theorem hasListed_step {e : Ev} {a : Reply} (hi : HasListed ns tr s) (hs : Step s e a s')
    (hund : Undisturbed ns s e) : HasListed ns ((e, a) :: tr) s' := by
  cases hs with
  | prepareRead => exact hasListed_same hi (Or.inr fun _ => Ev.noConfusion) rfl
  | read => exact hasListed_same hi (Or.inr fun _ => Ev.noConfusion) rfl
  | openStore => exact hasListed_same hi (Or.inr fun _ => Ev.noConfusion) rfl
  | write => exact hasListed_same hi (Or.inr fun _ => Ev.noConfusion) rfl
  | look _ _ hdone => exact hasListed_same hi (Or.inl hdone) rfl
  | preparePublish p hp =>
    by_cases hns : p.ns = ns
    · subst hns
      intro stores hstores n hn
      rw [published_update rfl] at hstores
      have hnames : n ∈ p.names := by simpa [listed] using hn
      rw [← Option.some.inj hstores]
      exact prepare_isSome.mpr hnames
    · exact hasListed_same hi (Or.inr fun _ h => hns (by cases h; rfl))
        (published_congr (Function.update_of_ne (Ne.symm hns) _ _))
  | writer w call m phase phase' space space' a hw hspace hwrite =>
    by_cases hm : m = ns
    · subst hm
      intro stores hstores n hn
      rw [published_update rfl] at hstores
      rw [listed_skip (Or.inr fun _ => Ev.noConfusion)] at hn
      have hold := hi space.stores (published_eq hspace) n hn
      obtain rfl := Option.some.inj hstores
      cases hwrite with
      | commit => exact hund _ _ hw (published_eq hspace) n hold
      | _ => exact hold
    · exact hasListed_same hi (Or.inr fun _ => Ev.noConfusion)
        (published_congr (Function.update_of_ne (Ne.symm hm) _ _))

theorem hasListed_of_run (h : Run step new tr s) (hC : Run.Meets step new (Undisturbed ns) tr) : HasListed ns tr s :=
  h.invariant_of_meets (I := HasListed ns) (fun _ hstores => (Option.some_ne_none _ hstores.symm).elim)
    (fun _ _ _ _ _ _ ih hund hs => hasListed_step ih (step_cases hs) hund) hC

/-- A handle that is past its opening has the stores of `names`, as long as it has any. -/
def Opens (w : Nat) (ns : String) (names : List String) (s : St) : Prop :=
  ∃ phase, s.writers w = some ⟨ns, phase⟩ ∧ phase.opening = false ∧
    ∀ staged, phase = .live staged → ∀ n ∈ names, (staged n).isSome

theorem opens_step {w : Nat} {names : List String} {e : Ev} {a : Reply} (hs : Step s e a s')
    (ho : Opens w ns names s) : Opens w ns names s' := by
  obtain ⟨phase, hw, hopening, hnames⟩ := ho
  have hsame : s'.writers w = s.writers w → Opens w ns names s' := fun h => ⟨phase, h.trans hw, hopening, hnames⟩
  cases hs with
  | write w' m _ hfree =>
    refine hsame (Function.update_of_ne (fun heq => ?_) _ _)
    subst heq
    rw [hfree] at hw
    cases hw
  | writer w' call m ph ph' space space' a hw' hspace hwrite =>
    by_cases hww : w = w'
    · subst hww
      rw [hw] at hw'
      cases hw'
      refine ⟨ph', Function.update_self _ _ _, ?_⟩
      cases hwrite with
      | acquire => cases hopening
      | snapshot => cases hopening
      | look => exact ⟨hopening, hnames⟩
      | refuse => exact ⟨hopening, hnames⟩
      | @change staged _ c hchange hsome =>
        refine ⟨rfl, fun staged' h n hn => ?_⟩
        cases h
        rw [Change.apply_isSome]
        exact hnames staged rfl n hn
      | commit => exact ⟨rfl, fun _ h => Phase.noConfusion h⟩
      | dropLive => exact ⟨rfl, fun _ h => Phase.noConfusion h⟩
      | dropPublished => exact ⟨rfl, fun _ h => Phase.noConfusion h⟩
    · exact hsame (Function.update_of_ne hww _ _)
  | _ => exact hsame rfl

theorem keeps_writeOpens (h : Run step new tr s) (hC : Run.Meets step new (Undisturbed ns) tr)
    {later earlier : Trace Ev Reply} {w : Nat} {staged : Stores}
    (hsplit : tr = later ++ (.writer w .snapshot, .done) :: earlier) (hw : s.writers w = some ⟨ns, .live staged⟩)
    {n : String} (hn : n ∈ listed ns earlier) : ∃ s', step s (.writer w (.openStore n)) = some (s', .done) := by
  subst hsplit
  obtain ⟨s1, s2, h1, hsnap, hlater⟩ := h.around
  have hlisted := hasListed_of_run h1 (Run.Meets.earlier (later ++ [(.writer w .snapshot, .done)])
    (by simpa using hC))
  -- Right after its snapshot the handle has what is published, in the namespace it was opened in.
  have hopens : ∃ m, Opens w m (listed ns earlier) s2 ∨ m ≠ ns ∧ Opens w m [] s2 := by
    obtain ⟨m, space, hspace, hw2⟩ := snapshot_cases hsnap
    refine ⟨m, ?_⟩
    by_cases hm : m = ns
    · subst hm
      refine Or.inl ⟨_, hw2, rfl, fun staged' hstaged n' hn' => ?_⟩
      cases hstaged
      exact hlisted space.stores (published_eq hspace) n' hn'
    · exact Or.inr ⟨hm, _, hw2, rfl, fun _ _ _ h => absurd h List.not_mem_nil⟩
  have hrun : ∀ m names, Opens w m names s2 → Opens w m names s := fun m names ho =>
    hlater.keeps (K := Opens w m names) (fun _ _ _ _ hs hk => opens_step (step_cases hs) hk) ho
  obtain ⟨m, ho | ⟨hne, ho⟩⟩ := hopens
  · obtain ⟨phase, hw', -, hnames⟩ := hrun m _ ho
    rw [hw] at hw'
    cases hw'
    exact openStore_done hw (reach_gated h) (hnames staged rfl n hn)
  · obtain ⟨phase, hw', -, -⟩ := hrun m _ ho
    rw [hw] at hw'
    cases hw'
    exact absurd rfl hne

theorem keeps_readOpens (h : Run step new tr s) (hC : Run.Meets step new (Undisturbed ns) tr)
    {later earlier : Trace Ev Reply} {r : Nat} (hsplit : tr = later ++ (.read r ns, .done) :: earlier) {n : String}
    (hn : n ∈ listed ns earlier) {q : Nat} (hq : s.opened q = none) :
    ∃ s', step s (.openStore q r n) = some (s', .done) := by
  subst hsplit
  obtain ⟨s1, s2, h1, hread, hlater⟩ := h.around
  have hlisted := hasListed_of_run h1 (Run.Meets.earlier (later ++ [(.read r ns, .done)]) (by simpa using hC))
  obtain ⟨stores, hstores, hr2⟩ := read_cases hread
  have hr : s.readers r = some stores := hlater.keeps (K := fun s => s.readers r = some stores)
    (fun _ _ _ _ hs hk => step_reader (step_cases hs) hk) hr2
  obtain ⟨store, hstore⟩ := Option.isSome_iff_exists.mp (hlisted stores hstores n hn)
  simp only [step, hr, hq, hstore]
  exact ⟨_, rfl⟩

end Listed

/-! ## Nothing less will do -/

/-- A published store is the handle's too, or a prepare since its opening listed it. -/
def Covers (ns : String) (tr : Trace Ev Reply) (s : St) : Prop :=
  ∀ w staged stores, s.writers w = some ⟨ns, .live staged⟩ → s.published ns = some stores →
    ∀ n, (stores n).isSome → (staged n).isSome ∨ n ∈ listed ns tr

/-- While a prepare runs, what is published is what it read, or what was committed last. -/
def Recent (ns : String) (tr : Trace Ev Reply) (s : St) : Prop :=
  ∀ p, s.preparing = some p → p.ns = ns → s.published ns = p.current ∨
    ∃ later earlier w s1 staged, tr = later ++ (.writer w .commit, .done) :: earlier ∧ Run step new earlier s1 ∧
      s1.writers w = some ⟨ns, .live staged⟩ ∧ s.published ns = some staged ∧
      (∀ names, (.preparePublish ns names, .done) ∉ later) ∧
      ∀ w' before, ¬ CommittedAfter ns ((.writer w .commit, .done) :: earlier) later w' before

section Exact

variable {ns : String} {tr : Trace Ev Reply} {s s' : St}

theorem covers_same {e : Ev} {a : Reply} (hi : Covers ns tr s) (h : a ≠ .done ∨ ∀ names, e ≠ .preparePublish ns names)
    (hpublished : s'.published ns = s.published ns)
    (hlive : ∀ w staged, s'.writers w = some ⟨ns, .live staged⟩ →
      ∃ staged', s.writers w = some ⟨ns, .live staged'⟩ ∧ ∀ n, (staged n).isSome = (staged' n).isSome) :
    Covers ns ((e, a) :: tr) s' := by
  intro w staged stores hw hstores n hn
  obtain ⟨staged', hw', hsame⟩ := hlive w staged hw
  rw [hpublished] at hstores
  rw [listed_skip h, hsame n]
  exact hi w staged' stores hw' hstores n hn

theorem covers_step {e : Ev} {a : Reply} (hi : Covers ns tr s) (hg : Gated s) (hs : Step s e a s') :
    Covers ns ((e, a) :: tr) s' := by
  cases hs with
  | prepareRead =>
    exact covers_same hi (Or.inr fun _ => Ev.noConfusion) rfl fun _ staged h => ⟨staged, h, fun _ => rfl⟩
  | read => exact covers_same hi (Or.inr fun _ => Ev.noConfusion) rfl fun _ staged h => ⟨staged, h, fun _ => rfl⟩
  | openStore => exact covers_same hi (Or.inr fun _ => Ev.noConfusion) rfl fun _ staged h => ⟨staged, h, fun _ => rfl⟩
  | look _ _ hdone => exact covers_same hi (Or.inl hdone) rfl fun _ staged h => ⟨staged, h, fun _ => rfl⟩
  | write w m =>
    exact covers_same hi (Or.inr fun _ => Ev.noConfusion) rfl fun w' staged hw' =>
      ⟨staged, (writer_before rfl hw' (by simp)).2, fun _ => rfl⟩
  | preparePublish p hp =>
    by_cases hns : p.ns = ns
    · subst hns
      intro w staged stores hw hstores n hn
      rw [published_update rfl] at hstores
      obtain rfl := Option.some.inj hstores
      have hnames : n ∈ p.names := prepare_isSome.mp hn
      exact Or.inr (by simpa [listed] using hnames)
    · exact covers_same hi (Or.inr fun _ h => hns (by cases h; rfl))
        (published_congr (Function.update_of_ne (Ne.symm hns) _ _)) fun _ staged h => ⟨staged, h, fun _ => rfl⟩
  | writer w call m phase phase' space space' a hw hspace hwrite =>
    by_cases hm : m = ns
    · subst hm
      intro w' staged stores hw' hstores n hn
      rw [published_update rfl] at hstores
      obtain rfl := Option.some.inj hstores
      rw [listed_skip (Or.inr fun _ => Ev.noConfusion)]
      by_cases hww : w' = w
      · subst hww
        simp only [Function.update_self, Option.some.injEq, Writer.mk.injEq, true_and] at hw'
        subst hw'
        cases hwrite with
        | snapshot => exact Or.inl hn
        | look => exact hi w' staged space.stores hw (published_eq hspace) n hn
        | refuse => exact hi w' staged space.stores hw (published_eq hspace) n hn
        | @change staged' _ c =>
          rw [Change.apply_isSome]
          exact hi w' staged' space.stores hw (published_eq hspace) n hn
      · have hold : s.writers w' = some ⟨m, .live staged⟩ := (Function.update_of_ne hww _ _).symm.trans hw'
        cases hwrite with
        | commit => exact absurd (hg.one_holder m w' w ⟨_, hold, rfl⟩ ⟨_, hw, rfl⟩) hww
        | _ => exact hi w' staged space.stores hold (published_eq hspace) n hn
    · exact covers_same hi (Or.inr fun _ => Ev.noConfusion)
        (published_congr (Function.update_of_ne (Ne.symm hm) _ _)) fun w' staged hw' =>
          ⟨staged, (writer_before rfl hw' (by simp [Ne.symm hm])).2, fun _ => rfl⟩

theorem covers_of_run (h : Run step new tr s) : Covers ns tr s :=
  h.invariant (I := Covers ns) (fun _ _ _ h => (Option.some_ne_none _ h.symm).elim)
    fun _ _ _ _ _ hr ih hs => covers_step ih (reach_gated hr) (step_cases hs)

theorem recent_same {e : Ev} {a : Reply} (hi : Recent ns tr s) (hpreparing : s'.preparing = s.preparing)
    (hpublished : s'.published ns = s.published ns) (hprepare : ∀ names, e ≠ .preparePublish ns names)
    (hcommit : ∀ w, e = .writer w .commit → openedIn w tr ≠ some ns) : Recent ns ((e, a) :: tr) s' := by
  intro p hp hns
  rw [hpreparing] at hp
  rw [hpublished]
  rcases hi p hp hns with hread | ⟨later, earlier, w, s1, staged, hsplit, h1, hw, hstaged, hnone, hlast⟩
  · exact Or.inl hread
  · refine Or.inr ⟨(e, a) :: later, earlier, w, s1, staged, by rw [hsplit]; rfl, h1, hw, hstaged, ?_, ?_⟩
    · intro names hmem
      rcases List.mem_cons.mp hmem with heq | hmem
      · cases heq
        exact hprepare names rfl
      · exact hnone names hmem
    · intro w' before hafter
      cases hafter with
      | here hopen => exact hcommit w' rfl (hsplit ▸ hopen)
      | before hafter => exact hlast w' before hafter

theorem recent_step {e : Ev} {a : Reply} (hi : Recent ns tr s) (hr : Run step new tr s)
    (hs : step s e = some (s', a)) : Recent ns ((e, a) :: tr) s' := by
  have hother : ∀ w m phase, e = .writer w .commit → s.writers w = some ⟨m, phase⟩ → m ≠ ns →
      ∀ w', e = .writer w' .commit → openedIn w' tr ≠ some ns := by
    intro w m phase he hw hm w' he' hopen
    rw [he] at he'
    cases he'
    rw [openedIn_of_run hr, hw] at hopen
    exact hm (Option.some.inj hopen)
  cases step_cases hs with
  | prepareRead m names =>
    intro p hp hns
    cases hp
    subst hns
    exact Or.inl rfl
  | preparePublish => exact fun p hp => (Option.some_ne_none _ hp.symm).elim
  | read => exact recent_same hi rfl rfl (fun _ => Ev.noConfusion) fun _ => Ev.noConfusion
  | openStore => exact recent_same hi rfl rfl (fun _ => Ev.noConfusion) fun _ => Ev.noConfusion
  | write => exact recent_same hi rfl rfl (fun _ => Ev.noConfusion) fun _ => Ev.noConfusion
  | look _ _ hdone hwriter =>
    refine recent_same hi rfl rfl (fun names he => ?_) fun w he => absurd he (hwriter w .commit)
    subst he
    obtain ⟨-, -, -, -, ha, -⟩ := publish_cases hs
    exact hdone ha
  | writer w call m phase phase' space space' a hw hspace hwrite =>
    by_cases hm : m = ns
    · subst hm
      by_cases hcall : call = .commit
      · subst hcall
        cases hwrite with
        | @commit staged =>
          exact fun p _ _ => Or.inr ⟨[], tr, w, s, staged, rfl, hr, hw, committed_published s w m space staged,
            fun _ => List.not_mem_nil, fun _ _ h => nomatch h⟩
        | look hlook => cases hlook
        | change hchange => cases hchange
        | refuse hchange => cases hchange
      · refine recent_same hi rfl ?_ (fun _ => Ev.noConfusion) fun w' he => absurd (by cases he; rfl) hcall
        rw [published_update rfl, published_eq hspace, writeStep_stores hwrite hcall]
    · refine recent_same hi rfl (published_congr (Function.update_of_ne (Ne.symm hm) _ _)) (fun _ => Ev.noConfusion) ?_
      intro w' he
      cases he
      exact hother w m phase rfl hw hm w rfl

theorem recent_of_run (h : Run step new tr s) : Recent ns tr s :=
  h.invariant (I := Recent ns) (fun _ h => (Option.some_ne_none _ h.symm).elim)
    fun _ _ _ _ _ hr ih hs => recent_step ih hr hs

theorem keeps_of_meets (h : Run step new tr s) (hC : Run.Meets step new (Undisturbed ns) tr) : Keeps ns tr s := by
  refine ⟨?_, hasListed_of_run h hC, ?_, ?_⟩
  · intro later earlier w s1 staged hsplit h1 hw n hlisted k hcommit
    exact keeps_data h hC hsplit h1 hw hlisted hcommit
  · intro later earlier w staged hsplit hw n hn
    exact keeps_writeOpens h hC hsplit hw hn
  · intro later earlier r hsplit n hn q hq
    exact keeps_readOpens h hC hsplit hn hq

/-- The publication of a prepare that undoes no committed data read what is published. -/
theorem undisturbed_publish {s2 : St} {p : Prepare} (hr : Run step new tr s) (hp : s.preparing = some p)
    (hns : p.ns = ns) (hs : step s (.preparePublish ns p.names) = some (s2, .done))
    (hk : Keeps ns ((.preparePublish ns p.names, .done) :: tr) s2) {stores : Stores}
    (hstores : s.published ns = some stores)
    {n : String} (hn : n ∈ p.names) (k : Bytes) :
    lookup (p.current.getD fun _ => none) n k = lookup stores n k := by
  rcases recent_of_run hr p hp hns with hread | ⟨later, earlier, w, s1, staged, hsplit, h1, hw, hstaged, hnone, hlast⟩
  · rw [← hread, hstores]
    rfl
  · rw [hstores] at hstaged
    obtain rfl := Option.some.inj hstaged
    have hdata := hk.data ((.preparePublish ns p.names, .done) :: later) earlier w s1 stores
      (by rw [hsplit]; rfl) h1 hw n
      (fun names hmem => ?_) k (fun w' before hafter => ?_)
    · obtain ⟨stores2, hstores2, hlookup⟩ := hdata
      obtain ⟨p', hp', -, -, -, rfl⟩ := publish_cases hs
      rw [hp] at hp'
      obtain rfl := Option.some.inj hp'
      rw [published_update rfl] at hstores2
      rw [← hlookup, ← Option.some.inj hstores2]
      exact (lookup_prepare hn k).symm
    · rcases List.mem_cons.mp hmem with heq | hmem
      · cases heq
        exact hn
      · exact absurd hmem (hnone names)
    · cases hafter with
      | before hafter => exact absurd hafter (hlast w' before)

/-- In every run: committed data stays and prepared stores open, in each of its states,
    exactly if each of its steps is undisturbed. -/
theorem keeps_iff (h : Run step new tr s) :
    (∀ later earlier s1, tr = later ++ earlier → Run step new earlier s1 → Keeps ns earlier s1) ↔
      Run.Meets step new (Undisturbed ns) tr := by
  constructor
  · intro hk later e a earlier s1 hsplit h1
    have hstep : ∃ s2, step s1 e = some (s2, a) ∧ Keeps ns ((e, a) :: earlier) s2 := by
      subst hsplit
      obtain ⟨s1', s2, h1', hs, -⟩ := h.around
      obtain rfl := h1.deterministic h1'
      exact ⟨s2, hs, hk later ((e, a) :: earlier) s2 rfl (Run.step h1 hs)⟩
    obtain ⟨s2, hs, hk2⟩ := hstep
    cases e with
    | preparePublish ns' names =>
      intro hns p stores hp hstores n hn k
      subst hns
      obtain ⟨p', hp', hpns, rfl, rfl, -⟩ := publish_cases hs
      rw [hp] at hp'
      obtain rfl := Option.some.inj hp'
      exact undisturbed_publish h1 hp hpns hs hk2 hstores hn k
    | writer w call =>
      cases call with
      | commit =>
        intro staged stores hw hstores n hn
        obtain ⟨m, staged', space, hw', hspace, rfl, rfl⟩ := commit_cases hs
        rw [hw] at hw'
        cases hw'
        rcases covers_of_run h1 w staged stores hw hstores n hn with hstaged | hlisted
        · exact hstaged
        · refine hk2.published staged (committed_published s1 w ns space staged) n ?_
          rw [listed_skip (Or.inr fun _ => Ev.noConfusion)]
          exact hlisted
      | _ => trivial
    | _ => trivial
  · intro hC later earlier s1 hsplit h1
    subst hsplit
    exact keeps_of_meets h1 (hC.earlier later)

end Exact

/-! ## The two races -/

def setUp : Trace Ev Reply :=
  [(.writer 0 (.set "__main" [1] [7]), .done), (.writer 0 .snapshot, .done), (.writer 0 .acquire, .done),
    (.write 0 "users", .done), (.preparePublish "users" ["__main"], .done), (.prepareRead "users" ["__main"], .done)]

/-- The record is committed, and then the namespace prepared again. -/
def preparedAgain : Trace Ev Reply :=
  [(.preparePublish "users" ["__main"], .done), (.prepareRead "users" ["__main"], .done), (.writer 0 .commit, .done)] ++
    setUp

theorem preparedAgain_undisturbed : Run.Meets step new (Undisturbed "users") preparedAgain := by
  have hfirst : ∀ s1, Run step new [(.prepareRead "users" ["__main"], .done)] s1 →
      Undisturbed "users" s1 (.preparePublish "users" ["__main"]) := by
    intro s1 h1
    obtain rfl := h1.deterministic (Run.step Run.nil rfl)
    intro _ p stores _ hstores
    cases hstores
  have hcommit : ∀ s1, Run step new setUp s1 → Undisturbed "users" s1 (.writer 0 .commit) := by
    intro s1 h1
    obtain rfl := h1.deterministic
      (Run.step (Run.step (Run.step (Run.step (Run.step (Run.step Run.nil rfl) rfl) rfl) rfl) rfl) rfl)
    intro staged stores hstaged hstores n hn
    cases hstaged
    cases hstores
    obtain rfl : n = "__main" := List.mem_singleton.mp (prepare_isSome.mp hn)
    rfl
  have hsecond : ∀ s1, Run step new
      ((.prepareRead "users" ["__main"], .done) :: (.writer 0 .commit, .done) :: setUp) s1 →
        Undisturbed "users" s1 (.preparePublish "users" ["__main"]) := by
    intro s1 h1
    obtain rfl := h1.deterministic (Run.step (Run.step (Run.step (Run.step (Run.step (Run.step (Run.step (Run.step
      Run.nil rfl) rfl) rfl) rfl) rfl) rfl) rfl) rfl)
    intro _ p stores hp hstores n _ k
    cases hp
    cases hstores
    rfl
  have hnil : Run.Meets step new (Undisturbed "users") [] := by
    intro later e a earlier s1 hsplit
    simp at hsplit
  have hsetUp : Run.Meets step new (Undisturbed "users") setUp :=
    Run.meets_cons (Run.meets_cons (Run.meets_cons (Run.meets_cons (Run.meets_cons (Run.meets_cons hnil
      fun _ _ => trivial) hfirst) fun _ _ => trivial) fun _ _ => trivial) fun _ _ => trivial) fun _ _ => trivial
  exact Run.meets_cons (Run.meets_cons (Run.meets_cons hsetUp hcommit) fun _ _ => trivial) hsecond

/-- In that order nothing is disturbed, and the record stays. -/
theorem keeps_iff_preparedAgain : ∃ s, Run step new preparedAgain s ∧
    ∀ later earlier s1, preparedAgain = later ++ earlier → Run step new earlier s1 → Keeps "users" earlier s1 := by
  have hrun : ∃ s, Run step new preparedAgain s :=
    ⟨_, Run.step (Run.step (Run.step (Run.step (Run.step (Run.step (Run.step (Run.step (Run.step Run.nil
      rfl) rfl) rfl) rfl) rfl) rfl) rfl) rfl) rfl⟩
  obtain ⟨s, hs⟩ := hrun
  exact ⟨s, hs, (keeps_iff hs).mpr preparedAgain_undisturbed⟩

/-- The record is committed while the namespace is prepared again. -/
def preparedMeanwhile : Trace Ev Reply :=
  [(.preparePublish "users" ["__main"], .done), (.writer 0 .commit, .done), (.prepareRead "users" ["__main"], .done)] ++
    setUp

/-- The record is committed after another store was prepared, which a reader then opens. -/
def preparedBefore : Trace Ev Reply :=
  [(.openStore 0 0 "by_email", .panic), (.read 0 "users", .done), (.writer 0 .commit, .done),
    (.preparePublish "users" ["__main", "by_email"], .done), (.prepareRead "users" ["__main", "by_email"], .done)] ++
    setUp

/-- The prepare publishes the map it read before the commit: the record is gone. -/
theorem prepare_loses_data : ∃ s stores, Run step new preparedMeanwhile s ∧ s.published "users" = some stores ∧
    lookup stores "__main" [1] = none ∧ ¬ Keeps "users" preparedMeanwhile s := by
  have hbefore : ∃ s1 staged, Run step new ((.prepareRead "users" ["__main"], .done) :: setUp) s1 ∧
      s1.writers 0 = some ⟨"users", .live staged⟩ ∧ lookup staged "__main" [1] = some [7] :=
    ⟨_, _, Run.step (Run.step (Run.step (Run.step (Run.step (Run.step (Run.step Run.nil
      rfl) rfl) rfl) rfl) rfl) rfl) rfl, rfl, rfl⟩
  have hafter : ∃ s stores, Run step new preparedMeanwhile s ∧ s.published "users" = some stores ∧
      lookup stores "__main" [1] = none :=
    ⟨_, _, Run.step (Run.step (Run.step (Run.step (Run.step (Run.step (Run.step (Run.step (Run.step Run.nil
      rfl) rfl) rfl) rfl) rfl) rfl) rfl) rfl) rfl, rfl, rfl⟩
  obtain ⟨s1, staged, h1, hw, hstaged⟩ := hbefore
  obtain ⟨s, stores, hs, hstores, hlost⟩ := hafter
  refine ⟨s, stores, hs, hstores, hlost, fun hk => ?_⟩
  obtain ⟨stores', hstores', hlookup⟩ :=
    hk.data [(.preparePublish "users" ["__main"], .done)] _ 0 s1 staged rfl h1 hw "__main" (by simp) [1]
      (fun w' before hafter => by cases hafter with | before h => cases h)
  rw [hstores] at hstores'
  obtain rfl := Option.some.inj hstores'
  rw [hlost, hstaged] at hlookup
  cases hlookup

/-- The commit publishes the map copied before the prepare: the new store is gone. -/
theorem commit_unprepares : ∃ s, Run step new preparedBefore s ∧ ¬ Keeps "users" preparedBefore s := by
  have hrun : ∃ s stores, Run step new preparedBefore s ∧ s.readers 0 = some stores ∧ stores "by_email" = none ∧
      s.opened 1 = none :=
    ⟨_, _, Run.step (Run.step (Run.step (Run.step (Run.step (Run.step (Run.step (Run.step (Run.step (Run.step (Run.step
      Run.nil rfl) rfl) rfl) rfl) rfl) rfl) rfl) rfl) rfl) rfl) rfl, rfl, rfl, rfl⟩
  obtain ⟨s, stores, hs, hr, hgone, hq⟩ := hrun
  refine ⟨s, hs, fun hk => ?_⟩
  obtain ⟨s', hopen⟩ :=
    hk.readOpens [(.openStore 0 0 "by_email", .panic)] _ 0 rfl "by_email" (by decide) 1 hq
  simp [step, hr, hgone, hq] at hopen

end Collette.Memory
