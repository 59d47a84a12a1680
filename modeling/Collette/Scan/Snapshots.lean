/-
  Collette.Scan.Snapshots — a scan in steps, among the commits of other clients.

  `index_scan()` reads a snapshot, `iter()` opens the scan's stores in it, and each
  `next()` looks one entry up in it; other clients commit in between. The machine takes
  these as events, in any order that the types of the API allow: `iter` consumes the
  builder, `next` needs an iterator, and a new scan may be started at any time.

  - `reach_sound`: the snapshot of a builder is a state some commit left, and an iterator
    has its entries from such a state, so no `next` fails (`next_answers`).
  - `run_draws`: since a scan was started, it has yielded the first entries of what the
    same scan returns at once on the stores committed then, and all of them once ended.
  - `index_scan_untorn`: so a full index scan yields the records of that state, once each,
    which are the records that a primary scan of that state returns.
-/

import Collette.Scan.Results
import Collette.Prog.Machine

namespace Collette

open Prog Collette.Lex Collette.Table

namespace Session

/-! ## The machine -/

inductive Phase (Record : Type) where
  | idle
  /-- `IndexScan` or `CollectionScan`, with its read handle. -/
  | started (handle : Stores)
  | iterating (it : ScanIterator Record)

structure St (Record : Type) where
  /-- The stores committed by now. -/
  db : Stores
  phase : Phase Record

inductive Ev (Record PO : Type) where
  /-- An operation of another client. -/
  | commit (F : List Event → Option BackendError) (op : Op Record PO)
  /-- `index_scan()`, or `scan()` of the primary store. -/
  | start
  | iter
  | next

inductive Ans (Record : Type) where
  | done
  | entry (entry : Entry Record)
  | ended
  | error (err : Error)
  | panic

section Machine

variable {Record PK PO PO' : Type} [Key PK PO] [Key PO PO'] [Debug PK] [Item Record PK]

def step (indexes : List (Index Record PK)) (e : ScanExecutor Record PK) (scan : Scan e.LogicalKey) :
    Machine (St Record) (Ev Record PO) (Ans Record)
  | s, .commit F op => some (⟨(op.exec indexes F s.db).2, s.phase⟩, .done)
  | s, .start =>
    match (read (World.start noFaults s.db)).1 with
    | .ok handle => some (⟨s.db, .started handle⟩, .done)
    | .error err => some (s, .error err)
    | .panic => some (s, .panic)
  | ⟨db, .started handle⟩, .iter =>
    match (e.iter handle scan (World.start noFaults db)).1 with
    | .ok it => some (⟨db, .iterating it⟩, .done)
    | .error err => some (⟨db, .idle⟩, .error err)
    | .panic => some (⟨db, .idle⟩, .panic)
  | ⟨db, .iterating it⟩, .next =>
    match it.next with
    | none => some (⟨db, .iterating it⟩, .ended)
    | some (result, it') =>
      match (result (World.start noFaults db)).1 with
      | .ok entry => some (⟨db, .iterating it'⟩, .entry entry)
      | .error err => some (⟨db, .iterating it'⟩, .error err)
      | .panic => some (⟨db, .iterating it'⟩, .panic)
  | _, _ => none

/-- The entries a trace answered, the first one first. -/
def yielded : Trace (Ev Record PO) (Ans Record) → List (Entry Record)
  | [] => []
  | (_, .entry entry) :: tr => yielded tr ++ [entry]
  | _ :: tr => yielded tr

/-! ## One step -/

variable {indexes : List (Index Record PK)} {e : ScanExecutor Record PK} {scan : Scan e.LogicalKey}
  {s s' : St Record} {db : Stores} {a : Ans Record}

theorem start_cases (h : step indexes e scan s (.start : Ev Record PO) = some (s', a)) :
    s' = ⟨s.db, .started s.db⟩ ∧ a = .done := by
  have hread : (read (World.start noFaults s.db)).1 = .ok s.db := (read_yields _ ⟨rfl, rfl⟩).1
  simp only [step, hread] at h
  cases h
  exact ⟨rfl, rfl⟩

/-- `iter` opens an iterator on the builder's snapshot, or fails and leaves nothing. -/
theorem iter_cases (h : step indexes e scan s (.iter : Ev Record PO) = some (s', a)) :
    ∃ handle, s.phase = .started handle ∧
      ((∃ it, (e.iter handle scan (World.start noFaults s.db)).1 = .ok it ∧ s' = ⟨s.db, .iterating it⟩ ∧ a = .done) ∨
        (∀ it, (e.iter handle scan (World.start noFaults s.db)).1 ≠ .ok it) ∧ s' = ⟨s.db, .idle⟩ ∧
          ∀ entry, a ≠ .entry entry) := by
  obtain ⟨db, phase⟩ := s
  cases phase with
  | idle => cases h
  | iterating it => cases h
  | started handle =>
    refine ⟨handle, rfl, ?_⟩
    cases hit : (e.iter handle scan (World.start noFaults db)).1 with
    | ok it =>
      simp only [step, hit] at h
      cases h
      exact Or.inl ⟨it, rfl, rfl, rfl⟩
    | error err =>
      simp only [step, hit] at h
      cases h
      exact Or.inr ⟨by simp, rfl, by simp⟩
    | panic =>
      simp only [step, hit] at h
      cases h
      exact Or.inr ⟨by simp, rfl, by simp⟩

/-- With these entries pending, `next` answers the first of them, or that there are none. -/
theorem next_cases {entries : List (Entry Record)} {it : ScanIterator Record} (hphase : s.phase = .iterating it)
    (hpending : Pending it entries) (h : step indexes e scan s (.next : Ev Record PO) = some (s', a)) :
    (entries = [] ∧ s' = s ∧ a = .ended) ∨
      ∃ entry rest it', entries = entry :: rest ∧ Pending it' rest ∧ s' = ⟨s.db, .iterating it'⟩ ∧
        a = .entry entry := by
  obtain ⟨db, phase⟩ := s
  obtain rfl : phase = .iterating it := hphase
  cases hpending with
  | ended hnext =>
    simp only [step, hnext] at h
    cases h
    exact Or.inl ⟨rfl, rfl, rfl⟩
  | entry hnext hresult hrest =>
    have hok := (hresult db (World.start noFaults db) ⟨rfl, rfl⟩).1
    simp only [step, hnext, hok] at h
    cases h
    exact Or.inr ⟨_, _, _, rfl, hrest, rfl, rfl⟩

theorem next_phase (h : step indexes e scan s (.next : Ev Record PO) = some (s', a)) :
    ∃ it, s.phase = .iterating it := by
  obtain ⟨db, phase⟩ := s
  cases phase with
  | idle => cases h
  | started handle => cases h
  | iterating it => exact ⟨it, rfl⟩

theorem next_keeps (h : step indexes e scan s (.next : Ev Record PO) = some (s', a)) :
    ∃ it, s'.db = s.db ∧ s'.phase = .iterating it := by
  obtain ⟨it, hphase⟩ := next_phase h
  obtain ⟨db, phase⟩ := s
  obtain rfl : phase = .iterating it := hphase
  simp only [step] at h
  split at h
  · cases h
    exact ⟨it, rfl, rfl⟩
  · rename_i it' hnext
    split at h
    all_goals
      cases h
      exact ⟨it', rfl, rfl⟩

/-! ## No `next` fails -/

/-- Every snapshot in use is a reachable state. -/
structure Sound (indexes : List (Index Record PK)) (s : St Record) : Prop where
  db : Reach indexes s.db
  started : ∀ handle, s.phase = .started handle → Reach indexes handle
  iterating : ∀ it, s.phase = .iterating it → ∃ entries, Pending it entries

section Runs

variable {own : PK → PO} (hk : KeysOk own) (hnames : (storeNames indexes).Nodup) (hlaw : LawfulCodec Record)
  (he : e.Registered indexes)
include hk hnames hlaw he

theorem step_sound {ev : Ev Record PO} (h : step indexes e scan s ev = some (s', a)) (hs : Sound indexes s) :
    Sound indexes s' := by
  cases ev with
  | commit F op =>
    cases h
    exact ⟨.step F op hs.db, hs.started, hs.iterating⟩
  | start =>
    obtain ⟨rfl, -⟩ := start_cases h
    refine ⟨hs.db, fun handle hphase => ?_, nofun⟩
    cases hphase
    exact hs.db
  | iter =>
    obtain ⟨handle, hphase, ⟨it, hit, rfl, -⟩ | ⟨-, rfl, -⟩⟩ := iter_cases h
    · refine ⟨hs.db, nofun, fun it hphase' => ?_⟩
      cases hphase'
      obtain ⟨M, hrep⟩ := rep_of_reach hk hnames hlaw (hs.started handle hphase)
      obtain ⟨entries, hpending, -⟩ := iter_pending hlaw hrep he hit
      exact ⟨entries, hpending⟩
    · exact ⟨hs.db, nofun, nofun⟩
  | next =>
    obtain ⟨it, hphase⟩ := next_phase h
    obtain ⟨entries, hpending⟩ := hs.iterating it hphase
    rcases next_cases hphase hpending h with ⟨-, rfl, -⟩ | ⟨entry, rest, it', -, hrest, rfl, -⟩
    · exact hs
    · refine ⟨hs.db, nofun, fun it hphase' => ?_⟩
      cases hphase'
      exact ⟨rest, hrest⟩

theorem reach_sound {s0 : St Record} {tr : Trace (Ev Record PO) (Ans Record)} (h0 : Sound indexes s0)
    (h : Run (step indexes e scan) s0 tr s) : Sound indexes s :=
  h.keeps (fun _ _ _ _ hstep hs => step_sound hk hnames hlaw he hstep hs) h0

theorem next_answers {s0 : St Record} {tr : Trace (Ev Record PO) (Ans Record)} (h0 : Sound indexes s0)
    (h : Run (step indexes e scan) s0 tr s) (hmem : (.next, a) ∈ tr) : a = .ended ∨ ∃ entry, a = .entry entry := by
  obtain ⟨later, earlier, rfl⟩ := List.append_of_mem hmem
  obtain ⟨s1, s2, hbefore, hstep, -⟩ := h.around
  obtain ⟨it, hphase⟩ := next_phase hstep
  obtain ⟨entries, hpending⟩ := (reach_sound hk hnames hlaw he h0 hbefore).iterating it hphase
  rcases next_cases hphase hpending hstep with ⟨-, -, ha⟩ | ⟨entry, -, -, -, -, -, ha⟩
  · exact Or.inl ha
  · exact Or.inr ⟨entry, ha⟩

/-! ## What a scan has yielded -/

/-- Since a scan was started on `snap`: what it has yielded, and what it will. -/
def Draws (e : ScanExecutor Record PK) (scan : Scan e.LogicalKey) (snap : Stores)
    (tr : Trace (Ev Record PO) (Ans Record)) : Phase Record → Prop
  | .idle => yielded tr = [] ∧ (.next, .ended) ∉ tr
  | .started handle => handle = snap ∧ yielded tr = [] ∧ (.next, .ended) ∉ tr
  | .iterating it => ∃ rest, (runScan e scan (World.start noFaults snap)).1 = .ok (yielded tr ++ rest) ∧
      Pending it rest ∧ ((.next, .ended) ∈ tr → rest = [])

omit [Debug PK] hk hnames hlaw he in
/-- What was yielded is the start of what the scan returns, and once it has ended all of it. -/
theorem draws_yielded {snap : Stores} {entries : List (Entry Record)} {tr : Trace (Ev Record PO) (Ans Record)}
    {phase : Phase Record} (hall : (runScan e scan (World.start noFaults snap)).1 = .ok entries)
    (h : Draws e scan snap tr phase) :
    ∃ rest, yielded tr ++ rest = entries ∧ ((.next, .ended) ∈ tr → rest = []) := by
  cases phase with
  | idle =>
    obtain ⟨hnone, hended⟩ := h
    exact ⟨entries, by rw [hnone]; rfl, fun hmem => absurd hmem hended⟩
  | started handle =>
    obtain ⟨-, hnone, hended⟩ := h
    exact ⟨entries, by rw [hnone]; rfl, fun hmem => absurd hmem hended⟩
  | iterating it =>
    obtain ⟨rest, hrest, -, hended⟩ := h
    exact ⟨rest, Outcome.ok.inj (hrest.symm.trans hall), hended⟩

omit hk hnames in
theorem step_draws {snap : Stores} {M : PO → Option Record} (hrep : Rep own indexes M snap) {ev : Ev Record PO}
    {tr : Trace (Ev Record PO) (Ans Record)} (h : step indexes e scan s ev = some (s', a)) (hev : ev ≠ .start)
    (hs : Draws e scan snap tr s.phase) : Draws e scan snap ((ev, a) :: tr) s'.phase := by
  cases ev with
  | start => exact absurd rfl hev
  | commit F op =>
    cases h
    obtain ⟨db, phase⟩ := s
    cases phase <;> simpa [Draws, yielded] using hs
  | iter =>
    obtain ⟨handle, hphase, hcases⟩ := iter_cases h
    rw [hphase] at hs
    obtain ⟨rfl, hnone, hended⟩ := hs
    rcases hcases with ⟨it, hit, rfl, rfl⟩ | ⟨-, rfl, ha⟩
    · obtain ⟨entries, hpending, hall⟩ := iter_pending hlaw hrep he hit
      refine ⟨entries, ?_, hpending, fun hmem => ?_⟩
      · show _ = Outcome.ok (yielded tr ++ entries)
        rw [hnone]
        exact hall
      · rcases List.mem_cons.mp hmem with heq | hmem
        · cases heq
        · exact absurd hmem hended
    · refine ⟨?_, fun hmem => ?_⟩
      · cases a with
        | entry entry => exact absurd rfl (ha entry)
        | _ => exact hnone
      · rcases List.mem_cons.mp hmem with heq | hmem
        · cases heq
        · exact hended hmem
  | next =>
    obtain ⟨it, hphase⟩ := next_phase h
    rw [hphase] at hs
    obtain ⟨rest, hall, hpending, hended⟩ := hs
    rcases next_cases hphase hpending h with ⟨rfl, rfl, rfl⟩ | ⟨entry, rest', it', rfl, hrest, rfl, rfl⟩
    · rw [hphase]
      exact ⟨[], hall, hpending, fun _ => rfl⟩
    · refine ⟨rest', ?_, hrest, fun hmem => ?_⟩
      · show _ = Outcome.ok (yielded tr ++ [entry] ++ rest')
        rw [List.append_assoc]
        exact hall
      · rcases List.mem_cons.mp hmem with heq | hmem
        · cases heq
        · cases hended hmem

omit hk hnames in
theorem run_draws {snap : Stores} {M : PO → Option Record} (hrep : Rep own indexes M snap)
    {tr : Trace (Ev Record PO) (Ans Record)} (h : Run (step indexes e scan) ⟨snap, .started snap⟩ tr s)
    (hsame : ∀ a, (.start, a) ∉ tr) : Draws e scan snap tr s.phase := by
  induction h with
  | nil => exact ⟨rfl, rfl, by simp⟩
  | @step tr s s' ev a _ hs ih =>
    refine step_draws hlaw he hrep hs (fun hev => ?_) (ih fun a hmem => hsame a (List.mem_cons_of_mem _ hmem))
    exact hsame a (by rw [hev]; exact List.mem_cons_self)

omit hk hnames in
/-- Where `iter` works on the snapshot, it works whenever it is called. -/
theorem iter_answers {snap : Stores} {M : PO → Option Record} (hrep : Rep own indexes M snap)
    (hiter : ∀ db, ∃ it, (e.iter snap scan (World.start noFaults db)).1 = .ok it)
    {tr : Trace (Ev Record PO) (Ans Record)} (h : Run (step indexes e scan) ⟨snap, .started snap⟩ tr s)
    (hsame : ∀ a, (.start, a) ∉ tr) (hmem : (.iter, a) ∈ tr) : a = .done := by
  obtain ⟨later, earlier, rfl⟩ := List.append_of_mem hmem
  obtain ⟨s1, s2, hbefore, hstep, -⟩ := h.around
  have hdraws := run_draws hlaw he hrep hbefore fun a hmem =>
    hsame a (List.mem_append_right _ (List.mem_cons_of_mem _ hmem))
  obtain ⟨handle, hphase, hcases⟩ := iter_cases hstep
  rw [hphase] at hdraws
  obtain ⟨rfl, -⟩ := hdraws
  obtain ⟨it, hit⟩ := hiter s1.db
  rcases hcases with ⟨-, -, -, ha⟩ | ⟨hfail, -⟩
  · exact ha
  · exact absurd hit (hfail it)

end Runs

/-! ## Full scans -/

theorem compile_full {K KO : Type} [Key K KO] :
    (Scan.full : Scan K).compile = .ok ⟨(.unbounded, .unbounded), .leftToRight⟩ := rfl

omit [Debug PK] in
/-- A full scan of an index returns the records that a full primary scan returns, which
    are those of the table. -/
theorem full_scans {own : PK → PO} (hk : KeysOk own) (hlaw : LawfulCodec Record) {M : PO → Option Record}
    (hrep : Rep own indexes M db) {I : Index Record PK} (hI : I ∈ indexes) :
    ∃ all entries : List (Entry Record),
      (runScan (.collection : ScanExecutor Record PK) .full (World.start noFaults db)).1 = .ok all ∧
      (runScan (.index I) .full (World.start noFaults db)).1 = .ok entries ∧
      (entries.map (·.record)).Perm (all.map (·.record)) ∧ (all.map (·.record)).Nodup ∧
      ∀ r, r ∈ all.map (·.record) ↔ Mem (pkey own) M r := by
  have hrecords : ∀ (e : ScanExecutor Record PK) (rs : List Record), (rs.map e.entry).map (·.record) = rs := by
    intro e rs
    rw [List.map_map]
    exact List.map_id rs
  obtain ⟨rs, hrun, hmem, hsorted⟩ :=
    runScan_ok hk hlaw hrep (show ScanExecutor.collection.Registered indexes from trivial) compile_full trivial
  obtain ⟨rs', hrun', hmem', hsorted'⟩ := runScan_ok (e := .index I) hk hlaw hrep hI compile_full trivial
  refine ⟨_, _, hrun, hrun', ?_, ?_, fun r => ?_⟩
  · rw [hrecords, hrecords, List.perm_ext_iff_of_nodup (nodup_of_before hsorted') (nodup_of_before hsorted)]
    intro r
    rw [hmem, hmem']
    exact and_congr_right fun _ => iff_of_true ⟨trivial, trivial⟩ ⟨trivial, trivial⟩
  · rw [hrecords]
    exact nodup_of_before hsorted
  · rw [hrecords, hmem]
    exact and_iff_left ⟨trivial, trivial⟩

end Machine

/-- However a scan of an index is interleaved with commits, none of its `next`s fails; and
    a full scan yields, once each, the records that the collection held when the scan was
    started, the same that a primary scan returned then. -/
theorem index_scan_untorn {Record : Type} {pk : KeyTy Scalar} [Debug pk.Val] [Item Record pk.Val]
    {indexes : List (Index Record pk.Val)} (hnames : (storeNames indexes).Nodup) (hlaw : LawfulCodec Record)
    {db : Stores} (hreach : Reach indexes db) {I : Index Record pk.Val} (hI : I ∈ indexes) (scan : Scan I.IndexKey)
    {tr : Trace (Ev Record pk.owned.Val) (Ans Record)} {s : St Record}
    (hrun : Run (step indexes (.index I) scan) ⟨db, .idle⟩ tr s) :
    (∀ a, (.next, a) ∈ tr → a = .ended ∨ ∃ entry, a = .entry entry) ∧
    ∀ later a earlier s1, tr = later ++ (.start, a) :: earlier →
      Run (step indexes (.index I) scan) ⟨db, .idle⟩ earlier s1 → (∀ a, (.start, a) ∉ later) → scan = .full →
      (∀ a, (.iter, a) ∈ later → a = .done) ∧
      ∃ (R : Set Record) (all : List (Entry Record)), Consistent indexes s1.db R ∧
        (runScan (.collection : ScanExecutor Record pk.Val) .full (World.start noFaults s1.db)).1 = .ok all ∧
        (∀ r, r ∈ all.map (·.record) ↔ r ∈ R) ∧ (all.map (·.record)).Nodup ∧
        (∃ rest, ((yielded later ++ rest).map (·.record)).Perm (all.map (·.record))) ∧
        ((.next, .ended) ∈ later → ((yielded later).map (·.record)).Perm (all.map (·.record))) := by
  have hk := keysOk_keyTy pk
  have hsound : Sound indexes (⟨db, .idle⟩ : St Record) := ⟨hreach, nofun, nofun⟩
  have hI' : (ScanExecutor.index I).Registered indexes := hI
  refine ⟨fun a hmem => next_answers hk hnames hlaw hI' hsound hrun hmem, ?_⟩
  intro later a earlier s1 hsplit hbefore hsame hfull
  subst hsplit hfull
  have hreach1 := (reach_sound hk hnames hlaw hI' hsound hbefore).db
  obtain ⟨M, hrep⟩ := rep_of_reach hk hnames hlaw hreach1
  obtain ⟨s1', s2, hbefore', hstart, hlater⟩ := hrun.around
  obtain rfl := hbefore'.deterministic hbefore
  obtain ⟨rfl, -⟩ := start_cases hstart
  obtain ⟨all, entries, hall, hentries, hperm, hnodup, hmem⟩ := full_scans hk hlaw hrep hI
  obtain ⟨rest, hyielded, hnone⟩ := draws_yielded hentries (run_draws hlaw hI' hrep hlater hsame)
  refine ⟨fun a ha => iter_answers hlaw hI' hrep (fun db => ?_) hlater hsame ha, _, all, hrep.consistent hk, hall, hmem,
    hnodup, ?_, ?_⟩
  · obtain ⟨st, main, hst, hmain⟩ := hrep.stores hI'
    exact ⟨_, (iter_ok hst hmain compile_full (scan_of_rangeOk (Or.inr trivial)) _ ⟨rfl, rfl⟩).1⟩
  · refine ⟨rest, ?_⟩
    rw [hyielded]
    exact hperm
  · intro hended
    rw [hnone hended, List.append_nil] at hyielded
    rw [hyielded]
    exact hperm

/-- A scan by region, once started: the only user is removed before `iter`. -/
def removedMeanwhile : Trace (Ev User (Unsigned 1)) (Ans User) :=
  [(.next, .ended), (.next, .entry ⟨⟨1, 1, 1⟩, .key [1, 1]⟩), (.iter, .done), (.commit noFaults (.remove ⟨1⟩), .done)]

theorem run_removedMeanwhile :
    ∃ s, Run (step [byEmail, byRegion] (.index byRegion) .full) ⟨oneUser, .idle⟩
      (removedMeanwhile ++ [(.start, .done)]) s :=
  ⟨_, .step (.step (.step (.step (.step .nil rfl) rfl) rfl) rfl) rfl⟩

theorem no_restart (a : Ans User) : (.start, a) ∉ removedMeanwhile := by simp [removedMeanwhile]

/-- The user is still there for the scan, as for a primary scan of what it started on. -/
theorem index_scan_untorn_users :
    ∃ (R : Set User) (all : List (Entry User)), Consistent [byEmail, byRegion] oneUser R ∧
      (runScan (.collection : ScanExecutor User (Unsigned 1)) .full (World.start noFaults oneUser)).1 = .ok all ∧
      [(⟨1, 1, 1⟩ : User)].Perm (all.map (·.record)) := by
  obtain ⟨s, hrun⟩ := run_removedMeanwhile
  have huntorn := @index_scan_untorn User (.leaf (.unsigned 1)) (inferInstanceAs (Debug (Unsigned 1)))
    (inferInstanceAs (Item User (Unsigned 1))) [byEmail, byRegion] (by decide) lawfulCodec_user _ reach_oneUser
    byRegion (show byRegion ∈ [byEmail, byRegion] by simp) .full _ s hrun
  obtain ⟨-, R, all, hR, hall, -, -, -, hperm⟩ := huntorn.2 removedMeanwhile .done [] _ rfl .nil no_restart rfl
  exact ⟨R, all, hR, hall, hperm List.mem_cons_self⟩

end Session

end Collette
