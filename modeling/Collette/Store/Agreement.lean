/-
  Collette.Store.Agreement — the in-memory backend and the redb backend, given the same
  requests one after another.

  `Memory.call` makes the steps of a request without anything in between. The two
  states stay related (`Rel`): the stores of a namespace are the tables the registry
  has for them, with the same entries, in what is published and in every handle. A
  prepare is where this can break: it gives a store that it did not have an empty map,
  and the database a table that may still be there from an earlier prepare, since a
  prepare that leaves a store out drops its map and keeps its table.

  - `relisted_store_differs`: then the next read differs.
  - `backends_agree`: in every run that lists no such store, every answer is the same.
-/

import Collette.Prog.Family
import Collette.Store.Redb

namespace Collette

/-! ## Requests to the in-memory backend -/

def Request.events : Request → List Memory.Ev
  | .prepare ns names => [.prepareRead ns names, .preparePublish ns names]
  | .read r ns => [.read r ns]
  | .openStore q r name => [.openStore q r name]
  | .get q key => [.get q key]
  | .scan q range direction => [.scan q range direction]
  | .write w ns => [.write w ns, .writer w .acquire, .writer w .snapshot]
  | .openStaged w name => [.writer w (.openStore name)]
  | .getStaged w name key => [.writer w (.get name key)]
  | .scanStaged w name range direction => [.writer w (.scan name range direction)]
  | .set w name key value => [.writer w (.set name key value)]
  | .remove w name key => [.writer w (.remove name key)]
  | .commit w => [.writer w .commit, .writer w .drop]
  | .drop w => [.writer w .drop]

namespace Memory

/-- The steps one after another, up to the first that returns more than a handle. -/
def exec (s : St) : List Ev → Option (St × Reply)
  | [] => some (s, .done)
  | e :: es =>
    match step s e with
    | some (s', .done) => exec s' es
    | r => r

def call : Machine St Request Reply := fun s request => exec s request.events

end Memory

namespace Agreement

open Memory (NamespacedState Phase Writer)

/-! ## The relation -/

/-- The stores of the namespace are the tables registered for them. -/
structure SameStores (ns : String) (stores : Stores) (tables : Redb.PreparedTables) (db : Stores) : Prop where
  present : ∀ n store, stores n = some store →
    tables (ns, n) = some (Redb.tableName ns n) ∧ ∃ table, db (Redb.tableName ns n) = some table ∧ table.Equiv store
  absent : ∀ n, stores n = none → tables (ns, n) = none

inductive SameWriter (r : Redb.St) : Option Writer → Option Redb.WriteHandle → Prop
  | free : SameWriter r none none
  /-- The transaction has its own namespace's changes, and nothing else. -/
  | live {ns : String} {staged write : Stores} : r.writing = true → SameStores ns staged r.tables write →
      (∀ ns' n, ns' ≠ ns → write (Redb.tableName ns' n) = r.db (Redb.tableName ns' n)) →
      SameWriter r (some ⟨ns, .live staged⟩) (some ⟨ns, r.tables, some write⟩)
  | ended {ns ns' : String} {tables : Redb.PreparedTables} :
      SameWriter r (some ⟨ns, .dropped⟩) (some ⟨ns', tables, none⟩)

structure Rel (m : Memory.St) (r : Redb.St) : Prop where
  idle : m.preparing = none
  shared : m.shared = 0
  spaces : ∀ ns, SameStores ns ((m.published ns).getD fun _ => none) r.tables r.db
  readers : ∀ i, Option.Rel (fun stores handle => SameStores handle.ns stores handle.tables handle.read)
    (m.readers i) (r.readers i)
  opened : ∀ q, Option.Rel (fun store table => Std.TreeMap.Equiv table store) (m.opened q) (r.opened q)
  writers : ∀ w, SameWriter r (m.writers w) (r.writers w)
  /-- There is one write transaction at a time. -/
  alone : ∀ w w' h h' write write', r.writers w = some h → h.write = some write → r.writers w' = some h' →
    h'.write = some write' → w = w'

theorem rel_new : Rel Memory.new Redb.create :=
  ⟨rfl, rfl, fun _ => ⟨fun _ _ h => (Option.some_ne_none _ h.symm).elim, fun _ _ => rfl⟩, fun _ => .none,
    fun _ => .none,
    fun _ => .free, fun _ _ _ _ _ _ h => (Option.some_ne_none _ h.symm).elim⟩

/-- A store that a prepare lists and the namespace does not have has no entries left in
    the database. -/
def Emptied : Memory.St × Redb.St → Request → Prop
  | (m, r), .prepare ns names => ∀ n ∈ names, ((m.published ns).bind fun stores => stores n) = none →
      ∀ table, r.db (Redb.tableName ns n) = some table → table.isEmpty = true
  | _, _ => True

/-- The bounds of a scan are not inverted. -/
def NotInverted : ScanRange → Prop
  | (.included lo, .included hi) => lo ≤ hi
  | (.included lo, .excluded hi) => lo ≤ hi
  | (.excluded lo, .included hi) => lo ≤ hi
  | (.excluded lo, .excluded hi) => lo ≤ hi
  | _ => True

def ScanNotInverted : Request → Prop
  | .scan _ bounds _ => NotInverted bounds
  | .scanStaged _ _ bounds _ => NotInverted bounds
  | _ => True

/-- A table's range, of bounds not inverted: the entries within them, in key order. -/
def LawfulRange (range : KVStore → ScanRange → List (Bytes × Bytes)) : Prop :=
  ∀ table bounds, NotInverted bounds → range table bounds = table.toList.filter fun entry => contains bounds entry.1

theorem get_agree {store table : KVStore} (h : table.Equiv store) (key : Bytes) :
    getReply store key = getReply table key := by
  unfold getReply
  rw [h.getElem?_eq]

theorem scan_agree {range : KVStore → ScanRange → List (Bytes × Bytes)} (hrange : LawfulRange range)
    {store table : KVStore} (h : table.Equiv store) {bounds : ScanRange} (hbounds : NotInverted bounds)
    (direction : Direction) (hok : scanReply store bounds direction ≠ .panic) :
    scanReply store bounds direction = Redb.tableScan range table bounds direction := by
  unfold scanReply KVStore.scan at hok ⊢
  by_cases hread : store.isEmpty = true ∨ RangeOk bounds
  · rw [if_pos hread]
    cases direction <;> simp [Redb.tableScan, hrange table bounds hbounds, h.toList_eq]
  · rw [if_neg hread] at hok
    exact absurd rfl hok

/-! ## What requests do -/

section Memory

variable {m m' : Memory.St} {a : Reply}

theorem call_prepare {ns : String} {names : List String} (hidle : m.preparing = none) (hshared : m.shared = 0) :
    Memory.call m (.prepare ns names) = some ({ m with
      preparing := none
      spaces := Function.update m.spaces ns
        (some ((⟨ns, names, m.published ns⟩ : Memory.Prepare).publish (m.spaces ns))) },
      .done) := by
  simp [Memory.call, Memory.exec, Request.events, Memory.step, hidle, hshared, Memory.St.published]

/-- A write handle that `write` returned. -/
theorem call_write {w : Nat} {ns : String} (h : Memory.call m (.write w ns) = some (m', a)) (ha : a ≠ .panic) :
    ∃ space, m.spaces ns = some space ∧ m.writers w = none ∧ a = .done ∧
      m' = { m with
        spaces := Function.update m.spaces ns (some { space with gate := true })
        writers := Function.update m.writers w (some ⟨ns, .live space.stores⟩) } := by
  simp only [Memory.call, Memory.exec, Request.events, Memory.step] at h
  by_cases hfree : m.preparing.isSome ∨ (m.writers w).isSome
  · simp only [hfree, if_true] at h
    cases h
  · simp only [hfree, if_false] at h
    simp only [not_or, Option.not_isSome_iff_eq_none] at hfree
    cases hspace : m.spaces ns with
    | none =>
      simp only [hspace] at h
      cases h
      exact absurd rfl ha
    | some space =>
      cases hgate : space.gate with
      | true => simp [hspace, hgate, Memory.writeStep] at h
      | false =>
        simp [hspace, hgate, Memory.writeStep, Memory.WriteCall.shared] at h
        obtain ⟨rfl, rfl⟩ := h
        exact ⟨space, rfl, hfree.2, rfl, rfl⟩

theorem call_commit {w : Nat} (h : Memory.call m (.commit w) = some (m', a)) :
    ∃ ns staged space, m.writers w = some ⟨ns, .live staged⟩ ∧ m.spaces ns = some space ∧ a = .done ∧
      m' = { m with
        spaces := Function.update m.spaces ns (some { stores := staged, gate := false })
        writers := Function.update m.writers w (some ⟨ns, .dropped⟩) } := by
  simp only [Memory.call, Memory.exec, Request.events] at h
  cases hstep : Memory.step m (.writer w .commit) with
  | none => simp [hstep] at h
  | some r =>
    obtain ⟨m1, a1⟩ := r
    obtain ⟨ns, staged, space, hw, hspace, rfl, rfl⟩ := Memory.commit_cases hstep
    simp only [hstep] at h
    simp [Memory.St.committed, Memory.step, Memory.writeStep, Memory.WriteCall.shared] at h
    obtain ⟨rfl, rfl⟩ := h
    exact ⟨ns, staged, space, hw, hspace, rfl, rfl⟩

theorem call_drop {w : Nat} {ns : String} {staged : Stores} (hw : m.writers w = some ⟨ns, .live staged⟩)
    (h : Memory.call m (.drop w) = some (m', a)) :
    ∃ space, m.spaces ns = some space ∧ a = .done ∧
      m' = { m with
        spaces := Function.update m.spaces ns (some { space with gate := false })
        writers := Function.update m.writers w (some ⟨ns, .dropped⟩) } := by
  simp only [Memory.call, Memory.exec, Request.events, Memory.step, hw] at h
  cases hspace : m.spaces ns with
  | none => simp [hspace] at h
  | some space =>
    simp [hspace, Memory.writeStep, Memory.WriteCall.shared] at h
    obtain ⟨rfl, rfl⟩ := h
    exact ⟨space, rfl, rfl, rfl⟩

theorem exec_one (m : Memory.St) (e : Memory.Ev) : Memory.exec m [e] = Memory.step m e := by
  unfold Memory.exec
  split
  · rename_i s' hstep
    exact hstep.symm
  · rfl

/-- A call on the staged store `name`, which does `f` with it. -/
theorem exec_staged {w : Nat} {name ns : String} {staged : Stores} {call : Memory.WriteCall}
    {f : KVStore → KVStore × Reply} (hw : m.writers w = some ⟨ns, .live staged⟩)
    (hcall : ∀ space, Memory.writeStep space (.live staged) call =
      some (Memory.withStaged space staged name fun store => (upd staged name (f store).1, (f store).2)))
    (hshared : call.shared m.shared = m.shared) (h : Memory.exec m [.writer w call] = some (m', a)) (ha : a ≠ .panic) :
    ∃ space store, m.spaces ns = some space ∧ staged name = some store ∧ a = (f store).2 ∧
      m' = { m with
        spaces := Function.update m.spaces ns (some space)
        writers := Function.update m.writers w (some ⟨ns, .live (upd staged name (f store).1)⟩) } := by
  have hstep : Memory.step m (.writer w call) = some (m', a) := (exec_one m _).symm.trans h
  simp only [Memory.step, hw] at hstep
  cases hspace : m.spaces ns with
  | none =>
    rw [hspace] at hstep
    cases hstep
  | some space =>
    simp only [hspace, hcall, Option.map_some, hshared, Memory.withStaged] at hstep
    cases hstore : staged name with
    | none =>
      simp only [hstore] at hstep
      cases hstep
      exact absurd rfl ha
    | some store =>
      simp only [hstore] at hstep
      cases hstep
      exact ⟨space, store, rfl, rfl, rfl, rfl⟩

end Memory

theorem upd_same {stores : Stores} {n : String} {store : KVStore} (h : stores n = some store) :
    upd stores n store = stores := by
  funext n'
  by_cases hn : n' = n
  · rw [hn, upd_self, h]
  · exact upd_ne hn stores store

theorem withStaged_look (space : NamespacedState) (staged : Stores) (name : String) (f : KVStore → Reply) :
    Memory.withStaged space staged name (fun store => (staged, f store)) =
      Memory.withStaged space staged name fun store => (upd staged name store, f store) := by
  unfold Memory.withStaged
  cases h : staged name with
  | none => rfl
  | some store => simp only [upd_same h]

/-! ## The relation is kept -/

section Step

variable {m m' : Memory.St} {r r' : Redb.St} {a b : Reply}

theorem SameStores.set {ns name : String} {stores db : Stores} {tables : Redb.PreparedTables}
    {store store' table' : KVStore}
    (h : SameStores ns stores tables db) (hname : stores name = some store) (heq : table'.Equiv store') :
    SameStores ns (upd stores name store') tables (upd db (Redb.tableName ns name) table') := by
  refine ⟨fun n st hn => ?_, fun n hn => ?_⟩
  · by_cases hnn : n = name
    · subst hnn
      rw [upd_self] at hn
      obtain rfl := Option.some.inj hn
      exact ⟨(h.present n store hname).1, table', upd_self _ _ _, heq⟩
    · rw [upd_ne hnn] at hn
      have htable : Redb.tableName ns n ≠ Redb.tableName ns name := fun h => hnn (Redb.tableName_injective h).2
      rw [upd_ne htable]
      exact h.present n st hn
  · by_cases hnn : n = name
    · subst hnn
      rw [upd_self] at hn
      cases hn
    · rw [upd_ne hnn] at hn
      exact h.absent n hn

theorem sameWriter_congr {x : Option Writer} {y : Option Redb.WriteHandle} (h : SameWriter r x y)
    (hwriting : r'.writing = r.writing) (htables : r'.tables = r.tables) (hdb : r'.db = r.db) : SameWriter r' x y := by
  cases h with
  | free => exact .free
  | live hopen hsame hothers =>
    rw [← htables] at hsame ⊢
    exact .live (hwriting.trans hopen) hsame (by rw [hdb]; exact hothers)
  | ended => exact .ended

/-- A handle whose transaction is over is the same beside any database. -/
theorem sameWriter_ended {x : Option Writer} {y : Option Redb.WriteHandle} (h : SameWriter r x y)
    (hend : ∀ handle write, y = some handle → handle.write ≠ some write) : SameWriter r' x y := by
  cases h with
  | free => exact .free
  | live => exact absurd rfl (hend _ _ rfl)
  | ended => exact .ended

theorem alone_update {w : Nat} {handle : Redb.WriteHandle} (hr : Rel m r)
    (hwriters : r'.writers = Function.update r.writers w (some handle))
    (hno : handle.write = none ∨ ∀ w' h write, r.writers w' = some h → h.write = some write → w' = w) :
    ∀ w1 w2 h1 h2 write1 write2, r'.writers w1 = some h1 → h1.write = some write1 → r'.writers w2 = some h2 →
      h2.write = some write2 → w1 = w2 := by
  intro w1 w2 h1 h2 write1 write2 hw1 hopen1 hw2 hopen2
  rw [hwriters] at hw1 hw2
  by_cases e1 : w1 = w
  · by_cases e2 : w2 = w
    · rw [e1, e2]
    · subst e1
      rw [Function.update_self] at hw1
      obtain rfl := Option.some.inj hw1
      rw [Function.update_of_ne e2] at hw2
      rcases hno with hno | hno
      · rw [hopen1] at hno
        cases hno
      · exact (hno w2 h2 write2 hw2 hopen2).symm
  · rw [Function.update_of_ne e1] at hw1
    by_cases e2 : w2 = w
    · subst e2
      rw [Function.update_self] at hw2
      obtain rfl := Option.some.inj hw2
      rcases hno with hno | hno
      · rw [hopen2] at hno
        cases hno
      · exact hno w1 h1 write1 hw1 hopen1
    · rw [Function.update_of_ne e2] at hw2
      exact hr.alone w1 w2 h1 h2 write1 write2 hw1 hopen1 hw2 hopen2

/-- A call on a staged store: what it does to the store it does to the table. -/
theorem rel_staged {w : Nat} {name : String} {call : Memory.WriteCall} {f g : KVStore → KVStore × Reply} (hr : Rel m r)
    (hcall : ∀ space staged, Memory.writeStep space (.live staged) call =
      some (Memory.withStaged space staged name fun store => (upd staged name (f store).1, (f store).2)))
    (hshared : ∀ n, call.shared n = n)
    (hfg : ∀ store table, table.Equiv store → (f store).2 ≠ .panic →
      (f store).2 = (g table).2 ∧ (g table).1.Equiv (f store).1)
    (h : Memory.exec m [.writer w call] = some (m', a)) (h' : Redb.withTable r w name g = some (r', b))
    (ha : a ≠ .panic) : a = b ∧ Rel m' r' := by
  have hsame := hr.writers w
  cases hw : m.writers w with
  | none =>
    rw [hw] at hsame
    simp [Memory.exec, Memory.step, hw] at h
  | some writer =>
    cases hw' : r.writers w with
    | none =>
      simp [Redb.withTable, hw'] at h'
    | some handle =>
      rw [hw, hw'] at hsame
      cases hsame with
      | ended => simp [Redb.withTable, hw'] at h'
      | @live ns staged write hopen hstores hothers =>
        obtain ⟨space, store, hspace, hstore, rfl, rfl⟩ := exec_staged hw (hcall · staged) (hshared _) h ha
        obtain ⟨htable, table, hwrite, heq⟩ := hstores.present name store hstore
        obtain ⟨hans, heq'⟩ := hfg store table heq ha
        simp only [Redb.withTable, hw', htable, Redb.openTable, hwrite, Option.getD_some, Option.some.injEq,
          Prod.mk.injEq] at h'
        obtain ⟨rfl, rfl⟩ := h'
        refine ⟨hans, hr.idle, hr.shared, ?_, hr.readers, hr.opened, ?_, ?_⟩
        · intro ns'
          have hspaces : Function.update m.spaces ns (some space) = m.spaces := by
            rw [← hspace, Function.update_eq_self]
          simp only [Memory.St.published, hspaces]
          exact hr.spaces ns'
        · refine related_update ?_ fun w' _ => sameWriter_congr (hr.writers w') rfl rfl rfl
          refine .live hopen (hstores.set hstore heq') fun ns' n hne => ?_
          have hne' : Redb.tableName ns' n ≠ Redb.tableName ns name := fun h => hne (Redb.tableName_injective h).1
          rw [upd_ne hne']
          exact hothers ns' n hne
        · refine alone_update hr rfl (Or.inr fun w' h write' hw1 hopen1 => ?_)
          exact hr.alone w' w h _ write' write hw1 hopen1 hw' rfl

theorem closed_of_idle (hr : Rel m r) (hidle : r.writing = false) (w : Nat) (handle : Redb.WriteHandle) (write : Stores)
    (hw : r.writers w = some handle) : handle.write ≠ some write := by
  intro hopen
  have hsame := hr.writers w
  rw [hw] at hsame
  generalize m.writers w = x at hsame
  cases hsame with
  | live hwriting =>
    rw [hidle] at hwriting
    cases hwriting
  | ended => cases hopen

theorem rel_write {w : Nat} {ns : String} {range : KVStore → ScanRange → List (Bytes × Bytes)} (hr : Rel m r)
    (h : Memory.call m (.write w ns) = some (m', a)) (h' : Redb.call range r (.write w ns) = some (r', b))
    (ha : a ≠ .panic) : a = b ∧ Rel m' r' := by
  obtain ⟨space, hspace, hw, rfl, rfl⟩ := call_write h ha
  simp only [Redb.call] at h'
  split at h'
  · cases h'
  · rename_i hfree
    simp only [not_or, Bool.not_eq_true] at hfree
    cases h'
    have hnone := closed_of_idle hr hfree.1
    refine ⟨rfl, hr.idle, hr.shared, ?_, hr.readers, hr.opened, ?_, ?_⟩
    · intro ns'
      have hpublished : Memory.St.published
          { m with
            spaces := Function.update m.spaces ns (some { space with gate := true })
            writers := Function.update m.writers w (some ⟨ns, .live space.stores⟩) } ns' = m.published ns' := by
        by_cases hns : ns' = ns
        · subst hns
          simp [Memory.St.published, hspace]
        · exact Memory.published_congr (Function.update_of_ne hns _ _)
      rw [hpublished]
      exact hr.spaces ns'
    · refine related_update ?_ fun w' _ => sameWriter_ended (hr.writers w') (hnone w')
      refine .live rfl ?_ fun _ _ _ => rfl
      have hstores := hr.spaces ns
      rw [Memory.published_eq hspace] at hstores
      exact hstores
    · exact alone_update hr rfl (Or.inr fun w' h write hw' hopen => absurd hopen (hnone w' h write hw'))

/-- The end of a write handle: the namespace has `stores` and the database is `db`, each
    the staged or the old ones. -/
theorem rel_end {w : Nat} {ns : String} {staged write stores db : Stores} {space : NamespacedState} (hr : Rel m r)
    (hw : m.writers w = some ⟨ns, .live staged⟩) (hw' : r.writers w = some ⟨ns, r.tables, some write⟩)
    (hsame : SameStores ns stores r.tables db)
    (hothers : ∀ ns' n, ns' ≠ ns → db (Redb.tableName ns' n) = r.db (Redb.tableName ns' n))
    (hstores : space.stores = stores) :
    Rel { m with
        spaces := Function.update m.spaces ns (some space)
        writers := Function.update m.writers w (some ⟨ns, .dropped⟩) }
      { r with
        db := db
        writing := false
        writers := Function.update r.writers w (some ⟨ns, r.tables, none⟩) } := by
  refine ⟨hr.idle, hr.shared, ?_, hr.readers, hr.opened, ?_, ?_⟩
  · intro ns'
    by_cases hns : ns' = ns
    · subst hns
      simp only [Memory.St.published, Function.update_self, Option.map_some, Option.getD_some, hstores]
      exact hsame
    · simp only [Memory.St.published, Function.update_of_ne hns]
      have hold := hr.spaces ns'
      refine ⟨fun n store hn => ?_, hold.absent⟩
      rw [hothers ns' n hns]
      exact hold.present n store hn
  · refine related_update .ended fun w' hww => ?_
    refine sameWriter_ended (hr.writers w') fun handle write' h hopen => hww ?_
    exact hr.alone w' w handle _ write' write h hopen hw' rfl
  · exact alone_update hr rfl (Or.inl rfl)

/-- The two states of a handle that a request ends. -/
theorem ends_live {w : Nat} {f : Stores → Stores} (hr : Rel m r) (h : Redb.finish r w f = some (r', b)) :
    ∃ ns staged write, m.writers w = some ⟨ns, .live staged⟩ ∧ r.writers w = some ⟨ns, r.tables, some write⟩ ∧
      SameStores ns staged r.tables write ∧
      (∀ ns' n, ns' ≠ ns → write (Redb.tableName ns' n) = r.db (Redb.tableName ns' n)) ∧ b = .done ∧
      r' = { r with
        db := f write
        writing := false
        writers := Function.update r.writers w (some ⟨ns, r.tables, none⟩) } := by
  have hsame := hr.writers w
  cases hw' : r.writers w with
  | none => simp [Redb.finish, hw'] at h
  | some handle =>
    rw [hw'] at hsame
    generalize hw : m.writers w = x at hsame
    cases hsame with
    | ended => simp [Redb.finish, hw'] at h
    | @live ns staged write hopen hstores hothers =>
      simp only [Redb.finish, hw', Option.some.injEq, Prod.mk.injEq] at h
      obtain ⟨rfl, rfl⟩ := h
      exact ⟨ns, staged, write, rfl, rfl, hstores, hothers, rfl, rfl⟩

theorem rel_commit {w : Nat} {range : KVStore → ScanRange → List (Bytes × Bytes)} (hr : Rel m r)
    (h : Memory.call m (.commit w) = some (m', a)) (h' : Redb.call range r (.commit w) = some (r', b)) :
    a = b ∧ Rel m' r' := by
  obtain ⟨ns, staged, write, hw, hw', hstores, hothers, rfl, rfl⟩ := ends_live hr h'
  obtain ⟨ns', staged', space, hw1, hspace, rfl, rfl⟩ := call_commit h
  rw [hw] at hw1
  cases hw1
  exact ⟨rfl, rel_end hr hw hw' hstores hothers rfl⟩

theorem rel_drop {w : Nat} {range : KVStore → ScanRange → List (Bytes × Bytes)} (hr : Rel m r)
    (h : Memory.call m (.drop w) = some (m', a)) (h' : Redb.call range r (.drop w) = some (r', b)) :
    a = b ∧ Rel m' r' := by
  obtain ⟨ns, staged, write, hw, hw', hstores, hothers, rfl, rfl⟩ := ends_live hr h'
  obtain ⟨space, hspace, rfl, rfl⟩ := call_drop hw h
  have hold := hr.spaces ns
  rw [Memory.published_eq hspace] at hold
  exact ⟨rfl, rel_end hr hw hw' hold (fun _ _ _ => rfl) rfl⟩

theorem openTables_of_some {db : Stores} {t : String} {table : KVStore} (h : db t = some table) (names : List String) :
    names.foldl Redb.openTable db t = some table := by
  induction names generalizing db with
  | nil => exact h
  | cons name names ih => exact ih (Redb.openTable_of_some h name)

theorem openTables_mem {db : Stores} {names : List String} {t : String} (h : t ∈ names) :
    names.foldl Redb.openTable db t = some ((db t).getD ∅) := by
  induction names generalizing db with
  | nil => cases h
  | cons name names ih =>
    rw [List.foldl_cons]
    cases hdb : db t with
    | some table => exact openTables_of_some (Redb.openTable_of_some hdb name) names
    | none =>
      by_cases hname : t = name
      · subst hname
        exact openTables_of_some (Redb.openTable_of_none hdb) names
      · have hsame : Redb.openTable db name t = db t := by
          unfold Redb.openTable
          cases db name with
          | some _ => rfl
          | none => exact upd_ne hname _ _
        rw [ih ((List.mem_cons.mp h).resolve_left hname), hsame, hdb]

/-- A store that a prepare lists, and its table. -/
theorem prepared_table {ns n : String} {stores : Option Stores} {tables : Redb.PreparedTables} {db : Stores}
    (h : SameStores ns (stores.getD fun _ => none) tables db)
    (hempty : (stores.bind fun stores => stores n) = none →
      ∀ table, db (Redb.tableName ns n) = some table → table.isEmpty = true) :
    ((db (Redb.tableName ns n)).getD ∅).Equiv (((stores.getD fun _ => none) n).getD ∅) := by
  cases hn : (stores.getD fun _ => none) n with
  | some store =>
    obtain ⟨-, table, hdb, heq⟩ := h.present n store hn
    rw [hdb]
    exact heq
  | none =>
    have hnone : (stores.bind fun stores => stores n) = none := by
      cases stores with
      | none => rfl
      | some stores => exact hn
    cases hdb : db (Redb.tableName ns n) with
    | none => exact Std.TreeMap.Equiv.rfl
    | some table => exact Std.TreeMap.equiv_empty_iff_isEmpty.mpr (hempty hnone table hdb)

theorem rel_prepare {ns : String} {names : List String} {range : KVStore → ScanRange → List (Bytes × Bytes)}
    (hr : Rel m r) (hempty : Emptied (m, r) (.prepare ns names)) (h : Memory.call m (.prepare ns names) = some (m', a))
    (h' : Redb.call range r (.prepare ns names) = some (r', b)) : a = b ∧ Rel m' r' := by
  rw [call_prepare hr.idle hr.shared] at h
  cases h
  simp only [Redb.call] at h'
  split at h'
  · cases h'
  · rename_i hidle
    rw [Bool.not_eq_true] at hidle
    cases h'
    refine ⟨rfl, rfl, hr.shared, ?_, hr.readers, hr.opened, ?_, hr.alone⟩
    · intro ns'
      have hold := hr.spaces ns'
      by_cases hns : ns' = ns
      · subst hns
        simp only [Memory.St.published, Function.update_self, Option.map_some, Option.getD_some, Memory.Prepare.publish]
        refine ⟨fun n store hn => ?_, fun n hn => ?_⟩
        · by_cases hmem : n ∈ names
          · refine ⟨by simp [Redb.register, hmem], _, openTables_mem (List.mem_map_of_mem hmem), ?_⟩
            rw [prepare, if_pos hmem] at hn
            rw [← Option.some.inj hn]
            exact prepared_table hold (hempty n hmem)
          · rw [prepare, if_neg hmem] at hn
            cases hn
        · by_cases hmem : n ∈ names
          · rw [prepare, if_pos hmem] at hn
            cases hn
          · simp [Redb.register, hmem]
      · rw [Memory.published_congr (s := m) (Function.update_of_ne hns _ _)]
        refine ⟨fun n store hn => ?_, fun n hn => ?_⟩
        · obtain ⟨htable, table, hdb, heq⟩ := hold.present n store hn
          exact ⟨by simpa [Redb.register, hns] using htable, table, openTables_of_some hdb _, heq⟩
        · simpa [Redb.register, hns] using hold.absent n hn
    · intro w
      exact sameWriter_ended (hr.writers w) fun handle write hw => closed_of_idle hr hidle w handle write hw

theorem rel_read {i : Nat} {ns : String} {range : KVStore → ScanRange → List (Bytes × Bytes)} (hr : Rel m r)
    (h : Memory.call m (.read i ns) = some (m', a)) (h' : Redb.call range r (.read i ns) = some (r', b))
    (ha : a ≠ .panic) : a = b ∧ Rel m' r' := by
  have hstep : Memory.step m (.read i ns) = some (m', a) := (exec_one m _).symm.trans h
  simp only [Memory.step] at hstep
  simp only [Redb.call] at h'
  split at h'
  · cases h'
  · cases h'
    split at hstep
    · cases hstep
    · cases hspace : m.spaces ns with
      | none =>
        rw [hspace] at hstep
        cases hstep
        exact absurd rfl ha
      | some space =>
        rw [hspace] at hstep
        cases hstep
        refine ⟨rfl, hr.idle, hr.shared, hr.spaces, ?_, hr.opened, fun w => sameWriter_congr (hr.writers w) rfl rfl rfl,
          hr.alone⟩
        have hold := hr.spaces ns
        rw [Memory.published_eq hspace] at hold
        exact related_update (.some hold) fun i' _ => hr.readers i'

theorem rel_openStore {q i : Nat} {name : String} {range : KVStore → ScanRange → List (Bytes × Bytes)} (hr : Rel m r)
    (h : Memory.call m (.openStore q i name) = some (m', a))
    (h' : Redb.call range r (.openStore q i name) = some (r', b))
    (ha : a ≠ .panic) : a = b ∧ Rel m' r' := by
  have hstep : Memory.step m (.openStore q i name) = some (m', a) := (exec_one m _).symm.trans h
  simp only [Memory.step] at hstep
  simp only [Redb.call] at h'
  have hsame := hr.readers i
  cases hreader : m.readers i with
  | none =>
    rw [hreader] at hstep
    cases hstep
  | some stores =>
    rw [hreader] at hsame hstep
    cases hhandle : r.readers i with
    | none =>
      rw [hhandle] at hsame
      cases hsame
    | some handle =>
      rw [hhandle] at hsame h'
      cases hsame with
      | some hstores =>
        have hopened := hr.opened q
        simp only at hstep h'
        split at hstep
        · cases hstep
        · cases hname : stores name with
          | none =>
            rw [hname] at hstep
            cases hstep
            exact absurd rfl ha
          | some store =>
            rw [hname] at hstep
            cases hstep
            obtain ⟨htable, table, hread, heq⟩ := hstores.present name store hname
            simp only [htable, hread] at h'
            split at h'
            · cases h'
            · cases h'
              refine ⟨rfl, hr.idle, hr.shared, hr.spaces, hr.readers, ?_,
                fun w => sameWriter_congr (hr.writers w) rfl rfl rfl, hr.alone⟩
              exact related_update (.some heq) fun q' _ => hr.opened q'

/-- A look at an open store. -/
theorem rel_look {q : Nat} {f g : KVStore → Reply} (hr : Rel m r)
    (hfg : ∀ store table, table.Equiv store → f store ≠ .panic → f store = g table)
    (h : ((m.opened q).map fun store => (m, f store)) = some (m', a))
    (h' : ((r.opened q).map fun table => (r, g table)) = some (r', b)) (ha : a ≠ .panic) : a = b ∧ Rel m' r' := by
  obtain ⟨store, hstore, heq⟩ := Option.map_eq_some_iff.mp h
  obtain ⟨table, htable, heq'⟩ := Option.map_eq_some_iff.mp h'
  cases heq
  cases heq'
  have hsame := hr.opened q
  rw [hstore, htable] at hsame
  cases hsame with
  | some hsame => exact ⟨hfg store table hsame ha, hr⟩

theorem rel_step {range : KVStore → ScanRange → List (Bytes × Bytes)} (hrange : LawfulRange range) {request : Request}
    (hr : Rel m r) (hempty : Emptied (m, r) request) (hscan : ScanNotInverted request)
    (h : Memory.call m request = some (m', a)) (h' : Redb.call range r request = some (r', b)) (ha : a ≠ .panic) :
    a = b ∧ Rel m' r' := by
  cases request with
  | prepare ns names => exact rel_prepare hr hempty h h'
  | read i ns => exact rel_read hr h h' ha
  | openStore q i name => exact rel_openStore hr h h' ha
  | get q key => exact rel_look hr (fun _ _ heq _ => get_agree heq key) ((exec_one m _).symm.trans h) h' ha
  | scan q bounds direction =>
    exact rel_look hr (fun _ _ heq hok => scan_agree hrange heq hscan direction hok) ((exec_one m _).symm.trans h) h' ha
  | write w ns => exact rel_write hr h h' ha
  | openStaged w name =>
    refine rel_staged (f := fun store => (store, .done)) (g := fun table => (table, .done)) hr ?_ (fun _ => rfl)
      (fun _ _ heq _ => ⟨rfl, heq⟩) h h' ha
    intro space staged
    exact congrArg some (withStaged_look space staged name fun _ => .done)
  | getStaged w name key =>
    refine rel_staged (f := fun store => (store, getReply store key)) (g := fun table => (table, getReply table key)) hr
      ?_ (fun _ => rfl) (fun _ _ heq _ => ⟨get_agree heq key, heq⟩) h h' ha
    intro space staged
    exact congrArg some (withStaged_look space staged name fun store => getReply store key)
  | scanStaged w name bounds direction =>
    refine rel_staged (f := fun store => (store, scanReply store bounds direction))
      (g := fun table => (table, Redb.tableScan range table bounds direction)) hr ?_ (fun _ => rfl)
      (fun _ _ heq hok => ⟨scan_agree hrange heq hscan direction hok, heq⟩) h h' ha
    intro space staged
    exact congrArg some (withStaged_look space staged name fun store => scanReply store bounds direction)
  | set w name key value =>
    exact rel_staged (f := fun store => (store.insert key value, .done))
      (g := fun table => (table.insert key value, .done)) hr (fun _ _ => rfl) (fun _ => rfl)
      (fun _ _ heq _ => ⟨rfl, heq.insert key value⟩) h h' ha
  | remove w name key =>
    exact rel_staged (f := fun store => (store.erase key, .done)) (g := fun table => (table.erase key, .done)) hr
      (fun _ _ => rfl) (fun _ => rfl) (fun _ _ heq _ => ⟨rfl, heq.erase key⟩) h h' ha
  | commit w => exact rel_commit hr h h'
  | drop w => exact rel_drop hr h h'

end Step

/-! ## Agreement -/

/-- Every run of requests on the two backends together in which none panics and no
    prepare lists a store left out before with entries still in its table. -/
theorem backends_agree {range : KVStore → ScanRange → List (Bytes × Bytes)} (hrange : LawfulRange range)
    {tr : Trace Request (Reply × Reply)} {s : Memory.St × Redb.St}
    (h : Run (Machine.pair Memory.call (Redb.call range)) (Memory.new, Redb.create) tr s)
    (hempty : Run.Meets (Machine.pair Memory.call (Redb.call range)) (Memory.new, Redb.create) Emptied tr)
    (hscan : ∀ x ∈ tr, ScanNotInverted x.1) (hok : ∀ x ∈ tr, x.2.1 ≠ .panic ∧ x.2.2 ≠ .panic) :
    ∀ x ∈ tr, x.2.1 = x.2.2 := by
  have hmeets : Run.Meets (Machine.pair Memory.call (Redb.call range)) (Memory.new, Redb.create)
      (fun s request => Emptied s request ∧ ScanNotInverted request) tr := by
    intro later request a earlier s1 hsplit h1
    exact ⟨hempty later request a earlier s1 hsplit h1, hscan (request, a) (hsplit ▸ by simp)⟩
  refine (Run.agree (C := fun s request => Emptied s request ∧ ScanNotInverted request) (K := fun a => a ≠ .panic)
    rel_new ?_ h hmeets hok).1
  intro m r request m' r' a b hr hC h h' ha _
  exact rel_step hrange hr hC.1 hC.2 h h' ha

/-- What `BTreeMap` and redb do alike: the entries within the bounds. -/
def entriesIn (table : KVStore) (bounds : ScanRange) : List (Bytes × Bytes) :=
  table.toList.filter fun entry => contains bounds entry.1

theorem lawfulRange_entriesIn : LawfulRange entriesIn := fun _ _ _ => rfl

abbrev both : Machine (Memory.St × Redb.St) Request (Reply × Reply) := Machine.pair Memory.call (Redb.call entriesIn)

def preparedOnce : Trace Request (Reply × Reply) :=
  [(.get 0 [1], .value (some [7]), .value (some [7])), (.openStore 0 0 "a", .done, .done),
    (.read 0 "users", .done, .done),
    (.commit 0, .done, .done), (.set 0 "a" [1] [7], .done, .done), (.write 0 "users", .done, .done),
    (.prepare "users" ["a"], .done, .done)]

theorem backends_agree_preparedOnce : (∃ s, Run both (Memory.new, Redb.create) preparedOnce s) ∧
    ∀ x ∈ preparedOnce, x.2.1 = x.2.2 := by
  have hrun : ∃ s, Run both (Memory.new, Redb.create) preparedOnce s :=
    ⟨_, Run.step (Run.step (Run.step (Run.step (Run.step (Run.step (Run.step Run.nil rfl) rfl) rfl) rfl) rfl) rfl) rfl⟩
  have hmeets : Run.Meets both (Memory.new, Redb.create) Emptied preparedOnce := by
    refine Run.meets_cons (Run.meets_cons (Run.meets_cons (Run.meets_cons (Run.meets_cons (Run.meets_cons
      (Run.meets_cons ?_ ?_) ?_) ?_) ?_) ?_) ?_) ?_
    · intro later e a earlier s1 hsplit
      simp at hsplit
    · intro s1 h1 n hn hnone table hdb
      cases h1
      cases hdb
    all_goals exact fun _ _ => trivial
  obtain ⟨s, hs⟩ := hrun
  exact ⟨⟨s, hs⟩, backends_agree lawfulRange_entriesIn hs hmeets (by simp [preparedOnce, ScanNotInverted]) (by decide)⟩

/-- An entry is committed to the store `a`, which the second prepare leaves out and the
    third lists again. -/
def relisted : Trace Request (Reply × Reply) :=
  [(.get 0 [1], .value none, .value (some [7])), (.openStore 0 0 "a", .done, .done), (.read 0 "users", .done, .done),
    (.prepare "users" ["a"], .done, .done), (.prepare "users" ["b"], .done, .done), (.commit 0, .done, .done),
    (.set 0 "a" [1] [7], .done, .done), (.write 0 "users", .done, .done), (.prepare "users" ["a"], .done, .done)]

/-- The map of `a` is gone and its table is not. -/
theorem relisted_store_differs : LawfulRange entriesIn ∧ (∃ s, Run both (Memory.new, Redb.create) relisted s) ∧
    (∀ x ∈ relisted, ScanNotInverted x.1) ∧ (∀ x ∈ relisted, x.2.1 ≠ .panic ∧ x.2.2 ≠ .panic) ∧
    ¬ ∀ x ∈ relisted, x.2.1 = x.2.2 := by
  have hrun : ∃ s, Run both (Memory.new, Redb.create) relisted s :=
    ⟨_, Run.step (Run.step (Run.step (Run.step (Run.step (Run.step (Run.step (Run.step (Run.step Run.nil
      rfl) rfl) rfl) rfl) rfl) rfl) rfl) rfl) rfl⟩
  exact ⟨lawfulRange_entriesIn, hrun, by simp [relisted, ScanNotInverted], by decide, by decide⟩

end Agreement

end Collette
