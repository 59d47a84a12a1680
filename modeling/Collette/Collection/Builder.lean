/-
  Collette.Collection.Builder — registering the indexes of a collection (`collection.rs`:
  `collection`, `with_index`, `build`, `new`; `index_registry.rs`: `has_index`).

  A builder holds the indexes registered so far, the newest first. `with_index` refuses a
  name that one of them has, by a panic, and `build` hands the main store and their names
  to the backend. Nothing checks a name against the main store's.

  `Separate` is what the other modules assume of the names, and what it is for: nothing
  that maintains an index reads or changes any other store. That it reads nothing is about
  two runs: the rest of the world being the same, they do the same.

  - `separate_iff`: the indexes a builder accepts are separate exactly when none of them
    takes the main store's name. `index_in_main_store`: one that does is accepted.
-/

import Collette.Collection.Consistency

namespace Collette

open Prog

/-! ## The builder -/

structure CollectionBuilder (Record PK : Type) {PO : Type} [Key PK PO] where
  name : String
  indexes : List (Index Record PK)

section Builder

variable {Record PK PO : Type} [Key PK PO]

def collection (name : String) : CollectionBuilder Record PK := ⟨name, []⟩

/-- `IndexRegistry::has_index`. -/
def hasIndex : List (Index Record PK) → String → Bool
  | [], _ => false
  | I :: tail, name => I.NAME == name || hasIndex tail name

/-- The error is the panic's message. -/
def CollectionBuilder.withIndex (builder : CollectionBuilder Record PK) (I : Index Record PK) :
    Except String (CollectionBuilder Record PK) :=
  if hasIndex builder.indexes I.NAME then
    .error s!"index with name '{I.NAME}' already exists in collection '{builder.name}'"
  else .ok { builder with indexes := I :: builder.indexes }

/-- `Collection::new`, over the backend's `prepare`: the indexes of the collection. -/
def CollectionBuilder.build (builder : CollectionBuilder Record PK)
    (prepare : String → List String → Except BackendError Unit) : Except String (List (Index Record PK)) :=
  match prepare builder.name (storeNames builder.indexes) with
  | .ok () => .ok builder.indexes
  | .error err => .error s!"failed to prepare collection '{builder.name}': {err.source}"

/-- `collection(name, db)`, a `with_index` for each of `calls` in order, and `build()`. -/
def register (name : String) (prepare : String → List String → Except BackendError Unit)
    (calls : List (Index Record PK)) : Except String (List (Index Record PK)) := do
  let builder ← calls.foldlM CollectionBuilder.withIndex (collection name)
  builder.build prepare

/-! ## The names accepted -/

theorem hasIndex_iff {indexes : List (Index Record PK)} {name : String} :
    hasIndex indexes name = true ↔ name ∈ indexes.map (·.NAME) := by
  induction indexes with
  | nil => simp [hasIndex]
  | cons I tail ih =>
    rw [hasIndex, Bool.or_eq_true, beq_iff_eq, ih, List.map_cons, List.mem_cons]
    exact or_congr_left eq_comm

theorem withIndex_ok {builder builder' : CollectionBuilder Record PK} {I : Index Record PK}
    (h : builder.withIndex I = .ok builder') :
    builder'.indexes = I :: builder.indexes ∧ I.NAME ∉ builder.indexes.map (·.NAME) := by
  unfold CollectionBuilder.withIndex at h
  split at h
  · cases h
  · rename_i hnew
    cases h
    exact ⟨rfl, fun hmem => hnew (hasIndex_iff.mpr hmem)⟩

/-- Distinct names stay distinct, and every index accepted is kept. -/
theorem withIndexes_ok (calls : List (Index Record PK)) : ∀ {builder builder' : CollectionBuilder Record PK},
    calls.foldlM CollectionBuilder.withIndex builder = .ok builder' → (builder.indexes.map (·.NAME)).Nodup →
    builder'.indexes = calls.reverse ++ builder.indexes ∧ (builder'.indexes.map (·.NAME)).Nodup := by
  induction calls with
  | nil =>
    intro builder builder' h hnodup
    cases h
    exact ⟨rfl, hnodup⟩
  | cons I calls ih =>
    intro builder builder' h hnodup
    rw [List.foldlM_cons] at h
    cases hI : builder.withIndex I with
    | error message => rw [hI] at h; cases h
    | ok next =>
      rw [hI] at h
      obtain ⟨hindexes, hnew⟩ := withIndex_ok hI
      have hnext : (next.indexes.map (·.NAME)).Nodup := by
        rw [hindexes, List.map_cons]
        exact List.nodup_cons.mpr ⟨hnew, hnodup⟩
      obtain ⟨hlist, hdone⟩ := ih h hnext
      refine ⟨?_, hdone⟩
      rw [hlist, hindexes, List.reverse_cons, List.append_assoc]
      rfl

theorem register_ok {name : String} {prepare : String → List String → Except BackendError Unit}
    {calls indexes : List (Index Record PK)} (h : register name prepare calls = .ok indexes) :
    indexes = calls.reverse ∧ (indexes.map (·.NAME)).Nodup := by
  unfold register at h
  cases hcalls : calls.foldlM CollectionBuilder.withIndex (collection name : CollectionBuilder Record PK) with
  | error message => rw [hcalls] at h; cases h
  | ok builder =>
    rw [hcalls] at h
    obtain ⟨hlist, hnodup⟩ := withIndexes_ok calls hcalls List.nodup_nil
    have hbuild : builder.build prepare = .ok indexes := h
    unfold CollectionBuilder.build at hbuild
    split at hbuild
    · cases hbuild
      exact ⟨by rw [hlist]; exact List.append_nil _, hnodup⟩
    · cases hbuild

end Builder

/-! ## Leaving a store alone -/

/-- Inside one transaction, the same but for what the store `n` holds: `x` and `y`. -/
structure Beside (n : String) (x y : KVStore) (s t : World) : Prop where
  committed : s.committed = t.committed
  log : s.log = t.log
  faults : s.faults = t.faults
  tx : ∃ stores, stores n = some x ∧ s.tx = some stores ∧ t.tx = some (upd stores n y)

/-- Whatever the store `n` holds, a run ends the same and `n` holds that still. -/
def LeavesAlone {α : Type} (n : String) (p : Prog World Error α) : Prop := ∀ x y, Twins (Beside n x y) p

section Frame

variable {α : Type} {n m : String} {x y : KVStore}

theorem upd_comm (h : m ≠ n) (stores : Stores) (a b : KVStore) :
    upd (upd stores m a) n b = upd (upd stores n b) m a := by
  funext k
  unfold upd
  by_cases hm : k = m
  · by_cases hn : k = n
    · exact absurd (hm.symm.trans hn) h
    · simp [hm, h]
  · simp [hm]

theorem twins_observe (call : Call) {p : Prog World Error α} (hp : Twins (Beside n x y) p) :
    Twins (Beside n x y) (observe call p) := by
  intro s t h
  obtain ⟨hout, hbeside⟩ := hp s t h
  refine ⟨hout, hbeside.committed, ?_, hbeside.faults, hbeside.tx⟩
  show (p s).2.log ++ [⟨call, (p s).1.err⟩] = (p t).2.log ++ [⟨call, (p t).1.err⟩]
  rw [hbeside.log, hout]

theorem twins_fault : Twins (Beside n x y) fault := by
  intro s t h
  unfold fault
  rw [h.faults, h.log]
  split
  · exact ⟨rfl, h⟩
  · exact ⟨rfl, h⟩

theorem twins_backend (call : Call) {p : Prog World BackendError α} (hp : Twins (Beside n x y) p) :
    Twins (Beside n x y) (backend call p) :=
  twins_observe call (twins_fault.bind fun _ _ _ _ => hp).mapErr

theorem twins_staged (h : m ≠ n) : Twins (Beside n x y) (staged m) := by
  intro s t hst
  obtain ⟨stores, hn, hs, ht⟩ := hst.tx
  have hsame : t.tx.bind (· m) = s.tx.bind (· m) := by
    rw [hs, ht]
    exact upd_ne h stores y
  unfold staged
  rw [hsame]
  split
  · exact ⟨rfl, hst⟩
  · exact ⟨rfl, hst⟩

theorem twins_stage (h : m ≠ n) (store : KVStore) : Twins (Beside n x y) (stage m store) := by
  intro s t hst
  obtain ⟨stores, hn, hs, ht⟩ := hst.tx
  refine ⟨rfl, hst.committed, hst.log, hst.faults, upd stores m store, ?_, ?_, ?_⟩
  · rw [upd_ne h.symm]
    exact hn
  · show s.tx.map _ = _
    rw [hs]
    rfl
  · show t.tx.map _ = _
    rw [ht]
    exact congrArg some (upd_comm h stores store y).symm

theorem twins_openStore (h : m ≠ n) : Twins (Beside n x y) (openStore m) :=
  twins_backend _ ((twins_staged h).bind fun _ _ _ _ => Twins.pure _)

theorem twins_get (h : m ≠ n) (key : Bytes) : Twins (Beside n x y) (WriteStore.get ⟨m⟩ key) :=
  twins_backend _ ((twins_staged h).bind fun _ _ _ _ => Twins.pure _)

theorem twins_set (h : m ≠ n) (key value : Bytes) : Twins (Beside n x y) (WriteStore.set ⟨m⟩ key value) :=
  twins_backend _ ((twins_staged h).bind fun _ _ _ _ => twins_stage h _)

theorem twins_remove (h : m ≠ n) (key : Bytes) : Twins (Beside n x y) (WriteStore.remove ⟨m⟩ key) :=
  twins_backend _ ((twins_staged h).bind fun _ _ _ _ => twins_stage h _)

/-- A store opened is the one asked for. -/
theorem openStore_ok {store : WriteStore} {s s' : World} (h : openStore m s = (.ok store, s')) : store = ⟨m⟩ := by
  have hout : (((fault >>= fun _ => staged m >>= fun _ => pure ⟨m⟩).mapErr Error.backend) s).1 = .ok store :=
    congrArg Prod.fst h
  unfold mapErr at hout
  rcases bind_cases fault (fun _ => staged m >>= fun _ => pure (⟨m⟩ : WriteStore)) s with
    ⟨a, s1, h1, h2⟩ | ⟨e, s1, h1, h2⟩ | ⟨s1, h1, h2⟩
  · rw [h2] at hout
    rcases bind_cases (staged m) (fun _ => pure (⟨m⟩ : WriteStore)) s1 with
      ⟨b, s2, h3, h4⟩ | ⟨e, s2, h3, h4⟩ | ⟨s2, h3, h4⟩
    · rw [h4] at hout
      cases hout
      rfl
    · rw [h4] at hout
      cases hout
    · rw [h4] at hout
      cases hout
  · rw [h2] at hout
    cases hout
  · rw [h2] at hout
    cases hout

theorem twins_ite {c : Prop} [Decidable c] {p q : Prog World Error α} (hp : Twins (Beside n x y) p)
    (hq : Twins (Beside n x y) q) : Twins (Beside n x y) (if c then p else q) := by
  split
  · exact hp
  · exact hq

/-! ## Index maintenance -/

variable {Record PK PO : Type} [Key PK PO]

theorem update_leavesAlone (I : Index Record PK) (h : I.NAME ≠ n) (pk : PK) (old : Option Record) (new : Record) :
    LeavesAlone n (I.update pk old new) := by
  intro x y
  refine twins_observe _ ((twins_openStore h).bind fun store s s' hopen => ?_)
  obtain rfl := openStore_ok hopen
  have hset : Twins (Beside n x y) (do
      if (← WriteStore.get ⟨I.NAME⟩ (encode (I.kind.storeKey (I.key new) pk))).isSome then
        Prog.throw (.alreadyExists (Debug.fmt (I.kind.storeKey (I.key new) pk)))
      WriteStore.set ⟨I.NAME⟩ (encode (I.kind.storeKey (I.key new) pk)) (encode pk)) :=
    (twins_get h _).bind fun _ _ _ _ =>
      twins_ite ((Twins.throw _).bind fun _ _ _ _ => twins_set h _ _) (twins_set h _ _)
  cases old with
  | some item => exact twins_ite (Twins.pure _) ((twins_remove h _).bind fun _ _ _ _ => hset)
  | none => exact hset

theorem remove_leavesAlone (I : Index Record PK) (h : I.NAME ≠ n) (pk : PK) (item : Record) :
    LeavesAlone n (I.remove pk item) := by
  intro x y
  refine twins_observe _ ((twins_openStore h).bind fun store s s' hopen => ?_)
  obtain rfl := openStore_ok hopen
  exact twins_remove h _

/-- The stores have different names, and maintaining an index leaves alone the main store
    and the stores of the indexes before and after it. -/
structure Separate (indexes : List (Index Record PK)) : Prop where
  distinct : (storeNames indexes).Nodup
  update : ∀ before I after, indexes = before ++ I :: after → ∀ n ∈ storeNames (before ++ after),
    ∀ pk old new, LeavesAlone n (I.update pk old new)
  remove : ∀ before I after, indexes = before ++ I :: after → ∀ n ∈ storeNames (before ++ after),
    ∀ pk item, LeavesAlone n (I.remove pk item)

theorem ne_of_split {indexes before after : List (Index Record PK)} {I : Index Record PK}
    (hnames : (storeNames indexes).Nodup) (h : indexes = before ++ I :: after) {n : String}
    (hn : n ∈ storeNames (before ++ after)) : I.NAME ≠ n := by
  have hperm : (storeNames indexes).Perm (I.NAME :: storeNames (before ++ after)) := by
    rw [h]
    unfold storeNames
    refine List.Perm.trans ?_ (List.Perm.swap _ _ _)
    exact (List.perm_middle.map _).cons _
  have hnodup := hperm.nodup_iff.mp hnames
  intro he
  exact (List.nodup_cons.mp hnodup).1 (he ▸ hn)

theorem separate_of_nodup {indexes : List (Index Record PK)} (hnames : (storeNames indexes).Nodup) :
    Separate indexes where
  distinct := hnames
  update _ I _ h _ hn pk old new := update_leavesAlone I (ne_of_split hnames h hn) pk old new
  remove _ I _ h _ hn pk item := remove_leavesAlone I (ne_of_split hnames h hn) pk item

/-- Of the indexes of any builder that completes: the only name it misses is the main
    store's. -/
theorem separate_iff {name : String} {prepare : String → List String → Except BackendError Unit}
    {calls indexes : List (Index Record PK)} (h : register name prepare calls = .ok indexes) :
    Separate indexes ↔ ∀ I ∈ calls, I.NAME ≠ MAIN_STORE := by
  obtain ⟨hlist, hnodup⟩ := register_ok h
  have hmem : ∀ I, I ∈ calls ↔ I ∈ indexes := fun I => by rw [hlist, List.mem_reverse]
  constructor
  · intro hsep I hI he
    have hmain := (List.nodup_cons.mp hsep.distinct).1
    exact hmain (List.mem_map.mpr ⟨I, (hmem I).mp hI, he⟩)
  · intro hne
    refine separate_of_nodup (List.nodup_cons.mpr ⟨?_, hnodup⟩)
    intro hmain
    obtain ⟨I, hI, he⟩ := List.mem_map.mp hmain
    exact hne I ((hmem I).mpr hI) he

end Frame

theorem separate_iff_users : Separate [byRegion, byEmail] ↔ ∀ I ∈ [byEmail, byRegion], I.NAME ≠ MAIN_STORE :=
  @separate_iff _ _ _ _ "users" (fun _ _ => .ok ()) _ _ rfl

def inMainStore : Index User (Unsigned 1) := { byEmail with NAME := "__main" }

/-- The builder accepts an index in the main store. There the email of a user takes the
    place of another user's id: nobody has id 2. -/
theorem index_in_main_store :
    register "users" (fun _ _ => .ok ()) [inMainStore] = .ok [inMainStore] ∧ ¬ Separate [inMainStore] ∧
    (Op.exec [inMainStore] noFaults (.insert ⟨2, 3, 3⟩)
      (Op.exec [inMainStore] noFaults (.insert ⟨1, 2, 3⟩) (emptyDb [inMainStore])).2).1 =
        .error (.alreadyExists "2") := by
  refine ⟨rfl, fun h => ?_, by decide⟩
  exact absurd h.distinct (by decide)

end Collette
