/-
  Collette.Store.Requests — requests to the redb backend one after another, as runs of it
  step by step.

  `Redb.call` answers a request at once, with nothing in between; `Registry.step` takes a
  prepare, a read or a write apart, any number at a time. `Plays` says where the second is
  when the first is between two requests: no prepare is under way, the registry is
  unlocked, and the handles are there with their copies and transactions.

  - `request_played`: a request is a few steps that keep this.
  - `requests_played`: so every run of requests is a run of the steps.
  - `openStore_found`: so what a handle's registry names, its transaction has.
  - `openStore_answered`: and opening a store fails on no table: it is done, or panics
    where the handle's registry does not name the store.
-/

import Collette.Store.Registry

namespace Collette.Registry

open Redb (ReadHandle WriteHandle tableName openTable register)

/-! ## Steps of one actor -/

section Steps

variable {m : St} {sh : Shared} {a : Ans}

theorem step_prepare {p : Nat} {c : Prepare} {e : PrepareEv}
    (h : prepareStep m.shared p (m.prepares p) e = some (sh, c, a)) : step m (.prepare p e) =
      some ({ m with shared := sh, prepares := Function.update m.prepares p (some c) }, a) := by
  simp only [step, h, Option.map_some]

theorem step_read {r : Nat} {c : Reader} {e : ReadEv} (h : readStep m.shared (m.readers r) e = some (c, a)) :
    step m (.read r e) = some ({ m with readers := Function.update m.readers r (some c) }, a) := by
  simp only [step, h, Option.map_some]

theorem step_write {w : Nat} {c : Writer} {e : WriteEv} (h : writeStep m.shared w (m.writers w) e = some (sh, c, a)) :
    step m (.write w e) = some ({ m with shared := sh, writers := Function.update m.writers w (some c) }, a) := by
  simp only [step, h, Option.map_some]

end Steps

/-! ## Between two requests -/

def readerOf (handle : ReadHandle) : Reader := ⟨handle.ns, handle.tables, some handle.read⟩

def writerOf (handle : WriteHandle) : Writer :=
  ⟨handle.ns, handle.tables, if handle.write.isSome then .live else .ended⟩

structure Plays (s : Redb.St) (m : St) : Prop where
  db : m.shared.db = s.db
  tables : m.shared.tables = s.tables
  unlocked : m.shared.lock = none
  /-- There is a name for one more prepare. -/
  fresh : ∃ bound, ∀ p, bound ≤ p → m.prepares p = none
  readers : ∀ r, m.readers r = (s.readers r).map readerOf
  writers : ∀ w, m.writers w = (s.writers w).map writerOf
  live : ∀ w ns tables write, s.writers w = some ⟨ns, tables, some write⟩ → m.shared.txn = some (.write w, write)
  idle : s.writing = false → m.shared.txn = none

theorem plays_create : Plays Redb.create (fromDatabase fun _ => none) :=
  ⟨rfl, rfl, rfl, ⟨0, fun _ _ => rfl⟩, fun _ => rfl, fun _ => rfl, nofun, fun _ => rfl⟩

/-! ## `prepare` -/

/-- The prepare `p` has gone on; nobody else has. -/
structure Moved (m : St) (p : Nat) (sh : Shared) (c : Prepare) (m' : St) : Prop where
  shared : m'.shared = sh
  prepares : m'.prepares = Function.update m.prepares p (some c)
  readers : m'.readers = m.readers
  writers : m'.writers = m.writers

section Prepare

variable {m m' : St} {p : Nat} {sh sh' : Shared} {c c' : Prepare}

theorem Moved.step {e : PrepareEv} {a : Ans} (h : Moved m p sh c m')
    (hstep : prepareStep sh p (some c) e = some (sh', c', a)) :
    ∃ m'', step m' (.prepare p e) = some (m'', a) ∧ Moved m p sh' c' m'' := by
  have hp : m'.prepares p = some c := by
    rw [h.prepares, Function.update_self]
  rw [← h.shared, ← hp] at hstep
  refine ⟨_, step_prepare hstep, rfl, ?_, h.readers, h.writers⟩
  show Function.update m'.prepares p (some c') = _
  rw [h.prepares, Function.update_idem]

theorem prepareStep_commit {ns : String} {names : List String} {write : Stores}
    (htxn : sh.txn = some (.prepare p, write)) : prepareStep sh p (some ⟨ns, names, .creating []⟩) .commit =
      some ({ sh with db := write, txn := none }, ⟨ns, names, .committed⟩, .done) := by
  simp [prepareStep, Shared.commit, transaction_eq_some.mpr htxn]

theorem prepareStep_lock {ns : String} {names : List String} (hlock : sh.lock = none) :
    prepareStep sh p (some ⟨ns, names, .committed⟩) .lock =
      some ({ sh with lock := some p }, ⟨ns, names, .locked⟩, .done) := by
  simp [prepareStep, hlock]

/-- The tables are opened one after another. -/
theorem openTables_played {ns : String} {names : List String} (rest : List String) {write : Stores}
    (h : Moved m p sh ⟨ns, names, .creating rest⟩ m') (htxn : sh.txn = some (.prepare p, write)) :
    ∃ tr m'', Run step m' tr m'' ∧
      Moved m p { sh with txn := some (.prepare p, (rest.map (tableName ns)).foldl openTable write) }
        ⟨ns, names, .creating []⟩ m'' := by
  induction rest generalizing sh write m' with
  | nil =>
    refine ⟨[], m', Run.nil, ?_⟩
    rw [List.map_nil, List.foldl_nil, ← htxn]
    exact h
  | cons name rest ih =>
    have hopen : prepareStep sh p (some ⟨ns, names, .creating (name :: rest)⟩) .openTable =
        some ({ sh with txn := some (.prepare p, openTable write (tableName ns name)) },
          ⟨ns, names, .creating rest⟩, .done) := by
      simp [prepareStep, Shared.stage, transaction_eq_some.mpr htxn]
    obtain ⟨m1, hstep, h1⟩ := h.step hopen
    obtain ⟨tr, m2, hrun, h2⟩ := ih h1 rfl
    exact ⟨_, m2, (Run.step Run.nil hstep).trans hrun, h2⟩

end Prepare

section Requests

variable {s s' : Redb.St} {m : St} {a : Reply}

theorem Plays.not_live (hs : Plays s m) (hfree : s.writing = false) {w : Nat} {ns : String}
    {tables : Redb.PreparedTables} {write : Stores} : s.writers w ≠ some ⟨ns, tables, some write⟩ := by
  intro hw
  have htxn := hs.live w ns tables write hw
  rw [hs.idle hfree] at htxn
  cases htxn

theorem prepare_played (hs : Plays s m) (hfree : s.writing = false) (ns : String) (names : List String) :
    ∃ tr m', Run step m tr m' ∧ Plays { s with
      db := (names.map (tableName ns)).foldl openTable s.db
      tables := register s.tables ns names } m' := by
  obtain ⟨p, hfresh⟩ := hs.fresh
  have hcall : prepareStep m.shared p (m.prepares p) (.call ns names) =
      some (m.shared, ⟨ns, names, .called⟩, .done) := by
    rw [hfresh p (le_refl p)]
    rfl
  have h1 := step_prepare hcall
  have hmoved1 : Moved m p m.shared ⟨ns, names, .called⟩
      { m with prepares := Function.update m.prepares p (some ⟨ns, names, .called⟩) } := ⟨rfl, rfl, rfl, rfl⟩
  have hbegin : prepareStep m.shared p (some ⟨ns, names, .called⟩) .beginWrite =
      some ({ m.shared with txn := some (.prepare p, m.shared.db) }, ⟨ns, names, .creating names⟩, .done) := by
    simp [prepareStep, Shared.beginWrite, hs.idle hfree]
  obtain ⟨m2, h2, hmoved2⟩ := hmoved1.step hbegin
  obtain ⟨tr, m3, h3, hmoved3⟩ := openTables_played names hmoved2 rfl
  obtain ⟨m4, h4, hmoved4⟩ := hmoved3.step (prepareStep_commit rfl)
  obtain ⟨m5, h5, hmoved5⟩ := hmoved4.step (prepareStep_lock hs.unlocked)
  obtain ⟨m6, h6, hmoved6⟩ := hmoved5.step (e := .edit) rfl
  obtain ⟨m7, h7, hmoved7⟩ := hmoved6.step (e := .publish) rfl
  have hrun := Run.step (Run.step (Run.step (Run.step ((Run.step (Run.step Run.nil h1) h2).trans h3) h4) h5) h6) h7
  refine ⟨_, m7, hrun, ?_⟩
  refine ⟨?_, ?_, ?_, ⟨p + 1, fun p' hp' => ?_⟩, fun r => ?_, fun w => ?_, ?_, ?_⟩
  · rw [hmoved7.shared, ← hs.db]
  · rw [hmoved7.shared, ← hs.tables]
  · rw [hmoved7.shared]
  · have hne : p' ≠ p := by omega
    rw [hmoved7.prepares, Function.update_of_ne hne]
    exact hfresh p' (by omega)
  · rw [hmoved7.readers]
    exact hs.readers r
  · rw [hmoved7.writers]
    exact hs.writers w
  · intro w ns' tables write hw
    exact absurd hw (hs.not_live hfree)
  · intro _
    rw [hmoved7.shared]

/-! ## Handles -/

theorem read_played (hs : Plays s m) {r : Nat} (hr : s.readers r = none) (ns : String) :
    ∃ tr m', Run step m tr m' ∧
      Plays { s with readers := Function.update s.readers r (some ⟨ns, s.tables, s.db⟩) } m' := by
  have hcall : readStep m.shared (m.readers r) (.call ns) = some (⟨ns, m.shared.tables, none⟩, .done) := by
    rw [hs.readers, hr]
    simp [readStep, hs.unlocked]
  have h1 := step_read hcall
  have hbegin : readStep m.shared (Function.update m.readers r (some ⟨ns, m.shared.tables, none⟩) r) .beginRead =
      some (readerOf ⟨ns, s.tables, s.db⟩, .done) := by
    rw [Function.update_self, ← hs.tables, ← hs.db]
    rfl
  have h2 := step_read (m := { m with
    readers := Function.update m.readers r (some ⟨ns, m.shared.tables, none⟩) }) hbegin
  refine ⟨_, _, Run.step (Run.step Run.nil h1) h2, hs.db, hs.tables, hs.unlocked, hs.fresh, fun r' => ?_, hs.writers,
    hs.live, hs.idle⟩
  simp only [Function.update_idem]
  exact map_update hs.readers r _ r'

theorem write_played (hs : Plays s m) (hfree : s.writing = false) {w : Nat} (hw : s.writers w = none) (ns : String) :
    ∃ tr m', Run step m tr m' ∧ Plays { s with
      writing := true
      writers := Function.update s.writers w (some ⟨ns, s.tables, some s.db⟩) } m' := by
  have hcall : writeStep m.shared w (m.writers w) (.call ns) =
      some (m.shared, ⟨ns, m.shared.tables, .copied⟩, .done) := by
    rw [hs.writers, hw]
    simp [writeStep, hs.unlocked]
  have h1 := step_write hcall
  have hbegin : writeStep m.shared w (Function.update m.writers w (some ⟨ns, m.shared.tables, .copied⟩) w) .beginWrite =
      some ({ m.shared with txn := some (.write w, m.shared.db) }, writerOf ⟨ns, s.tables, some s.db⟩, .done) := by
    rw [Function.update_self, ← hs.tables]
    simp [writeStep, Shared.beginWrite, hs.idle hfree, writerOf]
  have h2 := step_write (m := { m with
    writers := Function.update m.writers w (some ⟨ns, m.shared.tables, .copied⟩) }) hbegin
  refine ⟨_, _, Run.step (Run.step Run.nil h1) h2, hs.db, hs.tables, hs.unlocked, hs.fresh, hs.readers, fun w' => ?_,
    fun w' ns' tables write hw' => ?_, fun h => by cases h⟩
  · simp only [Function.update_idem]
    exact map_update hs.writers w _ w'
  · by_cases hne : w' = w
    · subst hne
      simp only [Function.update_self, Option.some.injEq, WriteHandle.mk.injEq] at hw'
      obtain ⟨-, -, rfl⟩ := hw'
      rw [← hs.db]
    · simp only [Function.update_of_ne hne] at hw'
      exact absurd hw' (hs.not_live hfree)

/-- A step of a live write handle. -/
theorem live_played (hs : Plays s m) {w : Nat} {ns : String} {tables : Redb.PreparedTables} {write : Stores}
    (hw : s.writers w = some ⟨ns, tables, some write⟩) {e : WriteEv} {sh : Shared} {c : Writer} {a : Ans}
    (hstep : writeStep m.shared w (some ⟨ns, tables, .live⟩) e = some (sh, c, a)) :
    Run step m [(.write w e, a)] { m with shared := sh, writers := Function.update m.writers w (some c) } := by
  have hlive : m.writers w = some ⟨ns, tables, .live⟩ := by
    rw [hs.writers, hw]
    rfl
  rw [← hlive] at hstep
  exact Run.step Run.nil (step_write hstep)

/-- A call on a store of a write handle opens the table, and changes it or not. -/
theorem withTable_played (hs : Plays s m) {w : Nat} {name : String} {f : KVStore → KVStore × Reply}
    {g : KVStore → KVStore} (hg : ∀ table, (f table).1 = g table) (h : Redb.withTable s w name f = some (s', a))
    {e : WriteEv} (he : ∀ ns tables, writeStep m.shared w (some ⟨ns, tables, .live⟩) e =
      withTable m.shared w ns tables name g) : ∃ tr m', Run step m tr m' ∧ Plays s' m' := by
  unfold Redb.withTable at h
  split at h
  · rename_i ns tables write hw
    split at h
    · rename_i table htable
      cases h
      have htxn := hs.live w ns tables write hw
      have hstep : writeStep m.shared w (some ⟨ns, tables, .live⟩) e =
          some ({ m.shared with txn := some (.write w, onTable g table write) },
            writerOf ⟨ns, tables, some (onTable g table write)⟩, .done) := by
        rw [he]
        simp [withTable, htable, Shared.stage, transaction_eq_some.mpr htxn, writerOf]
      refine ⟨_, _, live_played hs hw hstep, hs.db, hs.tables, hs.unlocked, hs.fresh, hs.readers, fun w' => ?_,
        fun w' ns' tables' write' hw' => ?_, fun hfree => ?_⟩
      · simp only [onTable, hg]
        exact map_update hs.writers w _ w'
      · by_cases hne : w' = w
        · subst hne
          simp only [Function.update_self, Option.some.injEq, WriteHandle.mk.injEq] at hw'
          obtain ⟨-, -, rfl⟩ := hw'
          simp only [onTable, hg]
        · simp only [Function.update_of_ne hne] at hw'
          have htxn' := hs.live w' ns' tables' write' hw'
          rw [htxn] at htxn'
          cases htxn'
          exact absurd rfl hne
      · exact absurd hw (hs.not_live hfree)
    · cases h
      exact ⟨[], m, Run.nil, hs⟩
  · cases h

/-- The end of a write handle's transaction. -/
theorem finish_played (hs : Plays s m) {w : Nat} {db : Stores → Stores} (h : Redb.finish s w db = some (s', a))
    {e : WriteEv} (he : ∀ ns tables write, m.shared.txn = some (.write w, write) →
      writeStep m.shared w (some ⟨ns, tables, .live⟩) e =
        some ({ m.shared with db := db write, txn := none }, ⟨ns, tables, .ended⟩, .done)) :
    ∃ tr m', Run step m tr m' ∧ Plays s' m' := by
  unfold Redb.finish at h
  split at h
  · rename_i ns tables write hw
    cases h
    have htxn := hs.live w ns tables write hw
    refine ⟨_, _, live_played hs hw (he ns tables write htxn), rfl, hs.tables, hs.unlocked, hs.fresh, hs.readers,
      fun w' => ?_, fun w' ns' tables' write' hw' => ?_, fun _ => rfl⟩
    · exact map_update hs.writers w ⟨ns, tables, none⟩ w'
    · by_cases hne : w' = w
      · subst hne
        simp only [Function.update_self, Option.some.injEq, WriteHandle.mk.injEq] at hw'
        cases hw'.2.2
      · simp only [Function.update_of_ne hne] at hw'
        have htxn' := hs.live w' ns' tables' write' hw'
        rw [htxn] at htxn'
        cases htxn'
        exact absurd rfl hne
  · cases h

/-! ## Requests -/

variable {range : KVStore → ScanRange → List (Bytes × Bytes)}

theorem request_played {request : Request} (h : Redb.call range s request = some (s', a)) (hs : Plays s m) :
    ∃ tr m', Run step m tr m' ∧ Plays s' m' := by
  -- A request that leaves the registry, the database and the handles as they are.
  have hsame : s'.db = s.db → s'.tables = s.tables → s'.readers = s.readers → s'.writers = s.writers →
      s'.writing = s.writing → ∃ tr m', Run step m tr m' ∧ Plays s' m' := by
    intro hdb htables hreaders hwriters hwriting
    exact ⟨[], m, Run.nil, by rw [hdb]; exact hs.db, by rw [htables]; exact hs.tables, hs.unlocked, hs.fresh,
      by rw [hreaders]; exact hs.readers, by rw [hwriters]; exact hs.writers, by rw [hwriters]; exact hs.live,
      by rw [hwriting]; exact hs.idle⟩
  cases request with
  | prepare ns names =>
    simp only [Redb.call] at h
    split at h
    · cases h
    · rename_i hfree
      cases h
      exact prepare_played hs (by simpa using hfree) ns names
  | read r ns =>
    simp only [Redb.call] at h
    split at h
    · cases h
    · rename_i hr
      cases h
      exact read_played hs (by simpa using hr) ns
  | openStore q r name =>
    simp only [Redb.call] at h
    split at h
    · split at h
      · cases h
      · split at h
        · split at h
          · cases h
            exact hsame rfl rfl rfl rfl rfl
          · cases h
            exact ⟨[], m, Run.nil, hs⟩
        · cases h
          exact ⟨[], m, Run.nil, hs⟩
    · cases h
  | get q key =>
    obtain ⟨table, -, hs'⟩ := Option.map_eq_some_iff.mp h
    cases hs'
    exact ⟨[], m, Run.nil, hs⟩
  | scan q bounds direction =>
    obtain ⟨table, -, hs'⟩ := Option.map_eq_some_iff.mp h
    cases hs'
    exact ⟨[], m, Run.nil, hs⟩
  | write w ns =>
    simp only [Redb.call] at h
    split at h
    · cases h
    · rename_i hfree
      obtain ⟨hwriting, hw⟩ := not_or.mp hfree
      cases h
      exact write_played hs (by simpa using hwriting) (by simpa using hw) ns
  | openStaged w name =>
    simp only [Redb.call] at h
    exact withTable_played hs (fun _ => rfl) h (e := .openStore name) fun _ _ => rfl
  | getStaged w name key =>
    simp only [Redb.call] at h
    exact withTable_played hs (fun _ => rfl) h (e := .openStore name) fun _ _ => rfl
  | scanStaged w name bounds direction =>
    simp only [Redb.call] at h
    exact withTable_played hs (fun _ => rfl) h (e := .openStore name) fun _ _ => rfl
  | set w name key value =>
    simp only [Redb.call] at h
    exact withTable_played hs (fun _ => rfl) h (e := .set name key value) fun _ _ => rfl
  | remove w name key =>
    simp only [Redb.call] at h
    exact withTable_played hs (fun _ => rfl) h (e := .remove name key) fun _ _ => rfl
  | commit w =>
    refine finish_played hs h (e := .commit) fun ns tables write htxn => ?_
    simp [writeStep, Shared.commit, transaction_eq_some.mpr htxn]
  | drop w =>
    refine finish_played hs h (e := .drop) fun ns tables write htxn => ?_
    simp [writeStep, Shared.abort, transaction_eq_some.mpr htxn, hs.db]

/-- Every run of requests is one of the steps, with the same database, registry and handles. -/
theorem requests_played {tr : Trace Request Reply} (h : Run (Redb.call range) Redb.create tr s) :
    ∃ tr' m, Run step (fromDatabase fun _ => none) tr' m ∧ Plays s m :=
  h.simulate (fun _ _ _ _ _ hstep hs => request_played hstep hs) plays_create

/-- What a handle's registry names, its transaction has. -/
theorem openStore_found {tr : Trace Request Reply} (h : Run (Redb.call range) Redb.create tr s) :
    (∀ r handle, s.readers r = some handle → Covers handle.read handle.tables) ∧
      ∀ w ns tables write, s.writers w = some ⟨ns, tables, some write⟩ → Covers write tables := by
  obtain ⟨tr', m, hrun, hplays⟩ := requests_played h
  obtain ⟨hm, -, -⟩ := inv_of_run hrun
  constructor
  · intro r handle hr
    have hmr : m.readers r = some (readerOf handle) := by
      rw [hplays.readers, hr]
      rfl
    exact hm.readers r _ hmr
  · intro w ns tables write hw
    have hmw : m.writers w = some ⟨ns, tables, .live⟩ := by
      rw [hplays.writers, hw]
      rfl
    obtain ⟨write', htxn, hcovers⟩ := hm.writers w _ hmw
    rw [hplays.live w ns tables write hw] at htxn
    cases htxn
    exact hcovers

/-- Opening a store through a read handle is never the database's error: it is done where
    the registry that the handle copied names the store, and a panic where it does not. -/
theorem openStore_answered {tr : Trace Request Reply} {q r : Nat} {name : String} {a : Reply}
    (h : Run (Redb.call range) Redb.create ((.openStore q r name, a) :: tr) s) :
    ∃ s1 handle, Run (Redb.call range) Redb.create tr s1 ∧ s1.readers r = some handle ∧
      (a = .done ∧ (handle.tables (handle.ns, name)).isSome = true ∨
        a = .panic ∧ handle.tables (handle.ns, name) = none) := by
  cases h with | @step _ s1 _ _ _ hbefore hstep
  obtain ⟨hcovers, -⟩ := openStore_found hbefore
  simp only [Redb.call] at hstep
  split at hstep
  · rename_i ns tables read hr
    refine ⟨s1, _, hbefore, hr, ?_⟩
    split at hstep
    · cases hstep
    · split at hstep
      · rename_i table htable
        have hfound : (read table).isSome = true := hcovers r _ hr (ns, name) table htable
        obtain ⟨store, hstore⟩ := Option.isSome_iff_exists.mp hfound
        simp only [hstore] at hstep
        cases hstep
        exact Or.inl ⟨rfl, by simp [htable]⟩
      · rename_i htable
        cases hstep
        exact Or.inr ⟨rfl, htable⟩
  · cases hstep

/-- The read handle is created before the store of the index is prepared. -/
def openedEarly : Trace Request Reply :=
  [(.openStore 0 0 "by_email", .panic), (.prepare "users" ["__main", "by_email"], .done), (.read 0 "users", .done),
    (.prepare "users" ["__main"], .done)]

theorem openStore_answered_early : ∃ s1 handle,
    Run (Redb.call fun table _ => table.toList) Redb.create openedEarly.tail s1 ∧ s1.readers 0 = some handle ∧
      handle.tables (handle.ns, "by_email") = none := by
  have hrun : ∃ s, Run (Redb.call fun table _ => table.toList) Redb.create openedEarly s :=
    ⟨_, Run.step (Run.step (Run.step (Run.step Run.nil rfl) rfl) rfl) rfl⟩
  obtain ⟨s, hrun⟩ := hrun
  obtain ⟨s1, handle, hbefore, hr, ⟨hdone, -⟩ | ⟨-, hunnamed⟩⟩ := openStore_answered hrun
  · cases hdone
  · exact ⟨s1, handle, hbefore, hr, hunnamed⟩

end Requests

end Collette.Registry
