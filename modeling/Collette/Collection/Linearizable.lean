/-
  Collette.Collection.Linearizable — a collection used by many threads at once
  (`collection.rs` over `backend/memory.rs`).

  Any number of threads insert, update, save, remove, get, look up and scan records of
  one collection on the in-memory backend, call by call and in any order, while others
  run transactions on other namespaces and queries on any. What the threads of the
  collection see is what they would see of one that does each request at once.

  - `collection_linearizable`: of the collection used by one client at a time. Nothing is
    assumed of the codec, the keys or the names.
  - `map_linearizable`: of the map it stands for, with its uniqueness constraints, under
    the assumptions by which a collection under one client refines the map.
  - `get_written`, `insert_once`: what threads may rely on without knowing each other. A
    record read was written, and of the inserts under one key one goes through.
  - `reads_consistent`: a query among writers is answered on one consistent state.
-/

import Collette.Collection.Refinement
import Collette.Collection.Scripts

namespace Collette.Scripts

open Memory Jobs Collette.Lex Collette.Table

/-- A request to a collection. -/
inductive Request (Record PO : Type) where
  | op (op : Op Record PO)
  | get (pk : PO)
  | read (q : ReadOp (Result Record))

/-! ## The map -/

section Map

variable {Record PK PO : Type} [Item Record PK] {own : PK → PO}

/-- The record an operation writes. -/
def writes : Op Record PO → Option Record
  | .insert r | .update r | .save r => some r
  | .remove _ => none

/-- An operation that wrote `r` under `pk` went through. -/
def Written (own : PK → PO) (l : List (Cmd Record PO × Option (Answer Record))) (pk : PO) (r : Record) : Prop :=
  pkey own r = pk ∧ ∃ op : Op Record PO, writes op = some r ∧ (.op op, some .done) ∈ l

section Written

variable {l : List (Cmd Record PO × Option (Answer Record))} {M : PO → Option Record} {pk : PO} {r : Record}

theorem Written.cons (h : Written own l pk r) (x : Cmd Record PO × Option (Answer Record)) :
    Written own (x :: l) pk r := by
  obtain ⟨hkey, op, hop, hmem⟩ := h
  exact ⟨hkey, op, hop, List.mem_cons_of_mem _ hmem⟩

theorem apply_eq_some {op : Op Record PO} (h : op.apply own M pk = some r) :
    (pkey own r = pk ∧ writes op = some r) ∨ M pk = some r := by
  have hput : ∀ new : Record, put (pkey own) M new pk = some r → (pkey own r = pk ∧ new = r) ∨ M pk = some r := by
    intro new hnew
    by_cases hpk : pk = pkey own new
    · subst hpk
      rw [put_self] at hnew
      cases hnew
      exact Or.inl ⟨rfl, rfl⟩
    · rw [put_ne hpk] at hnew
      exact Or.inr hnew
  cases op with
  | insert new | update new | save new => exact (hput new h).imp_left fun he => ⟨he.1, congrArg some he.2⟩
  | remove o =>
    by_cases hpk : pk = o
    · subst hpk
      simp [Op.apply] at h
    · exact Or.inr ((del_ne hpk).symm.trans h)

end Written

section Prescribe

variable [Key PK PO]

/-- The map with its uniqueness constraints. -/
noncomputable def mapObject (own : PK → PO) (indexes : List (Index Record PK)) :
    Object (PO → Option Record) (Cmd Record PO) (Option (Answer Record)) := fun M cmd =>
  (some (prescribe own indexes M cmd).1, (prescribe own indexes M cmd).2)

theorem prescribeInsert_cases (own : PK → PO) (indexes : List (Index Record PK)) (M : PO → Option Record) (r : Record) :
    (M (pkey own r) = none ∧ prescribeInsert own indexes M r = (.done, put (pkey own) M r)) ∨
      prescribeInsert own indexes M r = (.alreadyExists, M) := by
  unfold prescribeInsert
  split
  · exact Or.inr rfl
  · rename_i h
    exact Or.inl ⟨not_not.mp (not_or.mp h).1, rfl⟩

theorem prescribeUpdate_cases (own : PK → PO) (indexes : List (Index Record PK)) (M : PO → Option Record) (r : Record) :
    prescribeUpdate own indexes M r = (.done, put (pkey own) M r) ∨
      ∃ a, a ≠ .done ∧ prescribeUpdate own indexes M r = (a, M) := by
  unfold prescribeUpdate
  split
  · exact Or.inr ⟨.notFound, by simp, rfl⟩
  · split
    · exact Or.inr ⟨.alreadyExists, by simp, rfl⟩
    · exact Or.inl rfl

/-- An operation goes through, an `insert` only under a free key, or the map stays as it is. -/
theorem prescribe_cases (own : PK → PO) (indexes : List (Index Record PK)) (M : PO → Option Record)
    (op : Op Record PO) :
    ((∀ r, op = .insert r → M (pkey own r) = none) ∧ prescribe own indexes M (.op op) = (.done, op.apply own M)) ∨
      ∃ a, a ≠ .done ∧ prescribe own indexes M (.op op) = (a, M) := by
  cases op with
  | insert r =>
    rcases prescribeInsert_cases own indexes M r with ⟨hnone, h⟩ | h
    · refine Or.inl ⟨fun r' hr => ?_, h⟩
      cases hr
      exact hnone
    · exact Or.inr ⟨_, by simp, h⟩
  | update r => exact (prescribeUpdate_cases own indexes M r).imp_left fun h => ⟨by simp, h⟩
  | save r =>
    by_cases hsome : M (pkey own r) ≠ none
    · have hsave : prescribe own indexes M (.op (.save r)) = prescribeUpdate own indexes M r := if_pos hsome
      rw [hsave]
      exact (prescribeUpdate_cases own indexes M r).imp_left fun h => ⟨by simp, h⟩
    · have hsave : prescribe own indexes M (.op (.save r)) = prescribeInsert own indexes M r := if_neg hsome
      rw [hsave]
      rcases prescribeInsert_cases own indexes M r with ⟨-, h⟩ | h
      · exact Or.inl ⟨by simp, h⟩
      · exact Or.inr ⟨_, by simp, h⟩
  | remove pk => exact Or.inl ⟨by simp, rfl⟩

variable {indexes : List (Index Record PK)} {l : List (Cmd Record PO × Option (Answer Record))} {M : PO → Option Record}

/-- Where the map has a record, it was written, and what a `get` found was. -/
theorem map_written (h : Object.Legal (mapObject own indexes) (fun _ => none) l M) :
    (∀ pk r, M pk = some r → Written own l pk r) ∧
      ∀ pk r, (.get pk, some (.found (some r))) ∈ l → Written own l pk r := by
  induction h with
  | nil => exact ⟨by simp, by simp⟩
  | @cons l M cmd _ ih =>
    refine ⟨fun pk r hr => ?_, fun pk r hmem => ?_⟩
    · cases cmd with
      | get pk' => exact (ih.1 pk r hr).cons _
      | op op =>
        simp only [mapObject] at hr ⊢
        rcases prescribe_cases own indexes M op with ⟨-, h⟩ | ⟨a, -, h⟩
        · rw [h] at hr ⊢
          rcases apply_eq_some hr with ⟨hkey, hop⟩ | hr
          · exact ⟨hkey, op, hop, List.mem_cons_self⟩
          · exact (ih.1 pk r hr).cons _
        · rw [h] at hr ⊢
          exact (ih.1 pk r hr).cons _
    · rcases List.mem_cons.mp hmem with he | hmem
      · cases cmd with
        | op op => cases he
        | get pk' =>
          simp only [mapObject, prescribe, Prod.mk.injEq, Cmd.get.injEq, Option.some.injEq, Answer.found.injEq] at he
          obtain ⟨rfl, he⟩ := he
          exact (ih.1 _ r he.symm).cons _
      · exact (ih.2 pk r hmem).cons _

section Count

variable [DecidableEq PO]

/-- An `insert` under `pk` that went through. -/
def insertedAt (own : PK → PO) (pk : PO) : Cmd Record PO × Option (Answer Record) → Bool
  | (.op (.insert r), some .done) => pkey own r = pk
  | _ => false

def removedAt (pk : PO) : Cmd Record PO → Bool
  | .op (.remove pk') => pk' = pk
  | _ => false

omit [Key PK PO] in
theorem insertedAt_cons {a : Answer Record} (op : Op Record PO) (pk : PO) (h : a ≠ .done) :
    insertedAt own pk (.op op, some a) = false := by
  cases op with
  | insert r => cases a <;> first | rfl | exact absurd rfl h
  | update r | save r | remove pk' => rfl

/-- Whether an `insert` under `pk` goes through, counted. -/
def free (M : PO → Option Record) (pk : PO) : Nat :=
  match M pk with
  | none => 1
  | some _ => 0

omit [Key PK PO] [DecidableEq PO] in
theorem free_le_one (M : PO → Option Record) (pk : PO) : free M pk ≤ 1 := by
  unfold free
  split <;> decide

omit [Key PK PO] [DecidableEq PO] in
theorem free_put_self (own : PK → PO) (M : PO → Option Record) (r : Record) :
    free (put (pkey own) M r) (pkey own r) = 0 := by
  simp only [free, put_self]

omit [Key PK PO] [DecidableEq PO] in
theorem free_put_le (own : PK → PO) (M : PO → Option Record) (r : Record) (pk : PO) :
    free (put (pkey own) M r) pk ≤ free M pk := by
  by_cases hpk : pk = pkey own r
  · subst hpk
    rw [free_put_self]
    exact Nat.zero_le _
  · simp only [free, put_ne hpk, le_refl]

/-- Under one key an `insert` goes through once, and again once for each removal. -/
theorem map_inserted (h : Object.Legal (mapObject own indexes) (fun _ => none) l M) (pk : PO) :
    l.countP (insertedAt own pk) + free M pk ≤ (l.map (·.1)).countP (removedAt pk) + 1 := by
  induction h with
  | nil => simp [free]
  | @cons l M cmd _ ih =>
    rw [List.map_cons, List.countP_cons, List.countP_cons]
    cases cmd with
    | get pk' => exact ih
    | op op =>
      rcases prescribe_cases own indexes M op with ⟨hfree, h⟩ | ⟨a, ha, h⟩
      · have hobj : mapObject own indexes M (.op op) = (some .done, op.apply own M) := by simp only [mapObject, h]
        simp only [hobj]
        cases op with
        | insert r =>
          have hle := free_put_le own M r pk
          simp only [Op.apply, insertedAt, removedAt, decide_eq_true_eq, Bool.false_eq_true, if_false]
          by_cases hpk : pkey own r = pk
          · -- The key was free, and is not any more.
            have hone : free M pk = 1 := by simp only [free, ← hpk, hfree r rfl]
            have hzero : free (put (pkey own) M r) pk = 0 := hpk ▸ free_put_self own M r
            rw [if_pos hpk]
            omega
          · rw [if_neg hpk]
            omega
        | update r | save r =>
          have hle := free_put_le own M r pk
          simp only [Op.apply, insertedAt, removedAt, Bool.false_eq_true, if_false]
          omega
        | remove pk' =>
          simp only [Op.apply, insertedAt, removedAt, decide_eq_true_eq, Bool.false_eq_true, if_false]
          by_cases hpk : pk' = pk
          · have hle := free_le_one (del M pk') pk
            rw [if_pos hpk]
            omega
          · have hsame : free (del M pk') pk = free M pk := by simp only [free, del_ne (Ne.symm hpk)]
            rw [if_neg hpk]
            omega
      · have hobj : mapObject own indexes M (.op op) = (some a, M) := by simp only [mapObject, h]
        simp only [hobj, insertedAt_cons op pk ha, Bool.false_eq_true, if_false]
        omega

end Count

end Prescribe

end Map

/-! ## The collection -/

section Collection

variable {T Ω Record PK PO PO' : Type} [Key PK PO] [Key PO PO'] [Debug PK] [Item Record PK] {ns : String}
  {indexes : List (Index Record PK)}

/-- What the thread of a request does with the backend. -/
def requestJob (ns : String) (indexes : List (Index Record PK)) : Request Record PO → Job (Result Record)
  | .op op => .write ns (opTx indexes op)
  | .get pk => .read ns ((getRead Record pk).map .found).query
  | .read q => .read ns q.query

/-- The collection used by one client at a time. -/
def collectionObject (indexes : List (Index Record PK)) :
    Object Stores (Request Record PO) (Outcome Error (Result Record)) := fun db request =>
  match request with
  | .op op => ((op.exec indexes noFaults db).1.map fun _ => .done, (op.exec indexes noFaults db).2)
  | .get pk => ((Collette.get Record pk (World.start noFaults db)).1.map .found, db)
  | .read q => ((q.prog db (World.start noFaults db)).1, db)

/-- A transaction on another namespace, or a query. -/
def Elsewhere (ns : String) (job : Job (Result Record)) : Prop := ∀ tx, job ≠ .write ns tx

/-- The requests to the collection, and what other threads do. -/
def jobs (ns : String) (indexes : List (Index Record PK)) (others : Ω → Job (Result Record)) :
    Request Record PO ⊕ Ω → Job (Result Record) := Sum.elim (requestJob ns indexes) others

/-- A request, where it is one. -/
def request : Request Record PO ⊕ Ω → Option (Request Record PO) := Sum.elim some fun _ => none

omit [Key PK PO] [Debug PK] in
theorem getRead_map_run (pk : PO) (db : Stores) : ((getRead Record pk).map Result.found).query.run db =
    (Collette.get Record pk (World.start noFaults db)).1.map .found := by
  have hstart : (World.start noFaults db).faults = noFaults := rfl
  rw [ReadOp.query_run _ db hstart, ← getRead_run, ReadOp.query_run _ db hstart]
  exact prog_map _ _ _

/-- The jobs served at once are the requests answered at once. -/
theorem jobs_refine {others : Ω → Job (Result Record)} (helse : ∀ o, Elsewhere ns (others o)) :
    Refines (serve (jobs ns indexes others)) (collectionObject indexes) request (fun _ r => r)
      fun (published : String → Option Stores) (db : Stores) => published ns = some db where
  other published db op hdb hop := by
    cases op with
    | inl r => cases hop
    | inr o =>
      exact (serve_elsewhere (helse o) published).trans hdb
  same published db op op' hdb hop := by
    cases op with
    | inr o => cases hop
    | inl r =>
      cases hop
      cases op' with
      | op op =>
        have hserve := @serve_write _ _ (jobs ns indexes others) (.inl (.op op)) ns _ _ _ rfl hdb
        rw [hserve, opTx_run]
        exact ⟨Function.update_self _ _ _, rfl⟩
      | get pk =>
        have hserve := @serve_read _ _ (jobs ns indexes others) (.inl (.get pk)) ns _ _ _ rfl hdb
        rw [hserve, getRead_map_run]
        exact ⟨hdb, rfl⟩
      | read q =>
        have hserve := @serve_read _ _ (jobs ns indexes others) (.inl (.read q)) ns _ _ _ rfl hdb
        rw [hserve, q.query_run db (show (World.start noFaults db).faults = noFaults from rfl)]
        exact ⟨hdb, rfl⟩

/-- A request to the map. -/
def command : Request Record PO → Option (Cmd Record PO)
  | .op op => some (.op op)
  | .get pk => some (.get pk)
  | .read _ => none

/-- What a request returned with, as an answer of the map. -/
def answered : Request Record PO → Outcome Error (Result Record) → Option (Answer Record)
  | .op _, o => answer (o.map fun _ => ())
  | .get _, .ok (.found record) => some (.found record)
  | _, _ => none

variable {own : PK → PO}

theorem map_refines (hk : KeysOk own) (hI : ∀ I ∈ indexes, SelfDelimiting (encode : I.IndexKey → Bytes))
    (hnames : (storeNames indexes).Nodup) (hcodec : TotalCodec Record) :
    Refines (collectionObject indexes) (mapObject own indexes) command answered
      fun db M => Rep own indexes M db where
  other db M r hrep hr := by
    cases r with
    | op op => cases hr
    | get pk => cases hr
    | read q => exact hrep
  same db M r cmd hrep hr := by
    cases r with
    | op op =>
      cases hr
      obtain ⟨hanswer, hrep'⟩ := refines_step hk hI hnames hcodec hrep (.op op)
      refine ⟨hrep', Eq.trans ?_ hanswer⟩
      show answer (((op.exec indexes noFaults db).1.map _).map _) = answer (op.exec indexes noFaults db).1
      cases (op.exec indexes noFaults db).1 <;> rfl
    | get pk =>
      cases hr
      obtain ⟨hanswer, -⟩ := refines_step hk hI hnames hcodec hrep (.get pk)
      refine ⟨hrep, Eq.trans ?_ hanswer⟩
      show answered (.get pk) ((Collette.get Record pk (World.start noFaults db)).1.map _) = _
      rw [Cmd.exec]
      cases hget : Collette.get Record pk (World.start noFaults db) with
      | mk o s => cases o <;> rfl
    | read q => cases hr

/-! ## Linearizability -/

/-- What is seen of a request. -/
abbrev Call (ω Record : Type) := CallEv ω (Outcome Error (Result Record))

section Linearizable

variable [DecidableEq T] {others : Ω → Job (Result Record)} {setup : Trace Ev Reply} {mem : St}
  {tr : Trace (T × PoolEv (Request Record PO ⊕ Ω)) (Option (Call (Request Record PO ⊕ Ω) Record))}
  {p : Pool T (Request Record PO ⊕ Ω) (Result Record)}

/-- The requests in a history, with what they returned. -/
def requests (h : List (T × Call (Request Record PO ⊕ Ω) Record)) : List (T × Call (Request Record PO) Record) :=
  project request (fun _ r => r) h

/-- The commands among them, with what they answered. -/
def commands (h : List (T × Call (Request Record PO) Record)) :
    List (T × CallEv (Cmd Record PO) (Option (Answer Record))) := project command answered h

/-- Threads that use a collection call by call see what they would of one that answers
    each request at once. -/
theorem collection_linearizable (helse : ∀ o, Elsewhere ns (others o)) (hmem : Run step new setup mem)
    (hunused : Unused mem) {db : Stores} (hdb : mem.published ns = some db)
    (h : Run (poolStep (jobs ns indexes others)) (pool mem) tr p) :
    Linearizable (collectionObject indexes) db (requests (history id tr)) :=
  (jobs_linearizable hmem hunused h).refine (jobs_refine helse) hdb

/-- And what they would of the map. -/
theorem map_linearizable (helse : ∀ o, Elsewhere ns (others o)) (hk : KeysOk own)
    (hI : ∀ I ∈ indexes, SelfDelimiting (encode : I.IndexKey → Bytes)) (hnames : (storeNames indexes).Nodup)
    (hcodec : TotalCodec Record) (hmem : Run step new setup mem) (hunused : Unused mem)
    (hdb : mem.published ns = some (emptyDb indexes))
    (h : Run (poolStep (jobs ns indexes others)) (pool mem) tr p) :
    Linearizable (mapObject own indexes) (fun _ => none) (commands (requests (history id tr))) :=
  ((jobs_linearizable hmem hunused h).refine (jobs_refine helse) hdb).refine (map_refines hk hI hnames hcodec)
    (rep_empty own indexes)

/-! ### What threads may rely on -/

omit [DecidableEq T] in
theorem returned_command {hist : List (T × Call (Request Record PO ⊕ Ω) Record)} {t : T} {r : Request Record PO}
    {cmd : Cmd Record PO} {o : Outcome Error (Result Record)} (hr : command r = some cmd)
    (hmem : (t, .ret (.inl r) o) ∈ hist) : (cmd, answered r o) ∈ (returns (commands (requests hist))).map (·.2) := by
  have hrequest : (t, .ret r o) ∈ requests hist := ret_mem_project (f := request) rfl hmem
  exact List.mem_map.mpr ⟨_, mem_returns.mpr (ret_mem_project hr hrequest), rfl⟩

omit [DecidableEq T] in
theorem called_command {hist : List (T × Call (Request Record PO ⊕ Ω) Record)} {cmd : Cmd Record PO}
    (hmem : cmd ∈ (calls (commands (requests hist))).map (·.2)) :
    ∃ t r, command r = some cmd ∧ (t, .call (.inl r)) ∈ hist := by
  obtain ⟨⟨t, cmd'⟩, hcalled, rfl⟩ := List.mem_map.mp hmem
  obtain ⟨r, hr, hrequest⟩ := call_mem_project.mp (mem_calls.mp hcalled)
  obtain ⟨op, hop, hcall⟩ := call_mem_project.mp hrequest
  cases op with
  | inl r' =>
    cases hop
    exact ⟨t, r, hr, hcall⟩
  | inr o => cases hop

/-- A record that a `get` returns is under the key asked for, and a thread has called an
    operation that writes it. -/
theorem get_written (helse : ∀ o, Elsewhere ns (others o)) (hk : KeysOk own)
    (hI : ∀ I ∈ indexes, SelfDelimiting (encode : I.IndexKey → Bytes)) (hnames : (storeNames indexes).Nodup)
    (hcodec : TotalCodec Record) (hmem : Run step new setup mem) (hunused : Unused mem)
    (hdb : mem.published ns = some (emptyDb indexes))
    (h : Run (poolStep (jobs ns indexes others)) (pool mem) tr p) {t : T} {pk : PO} {r : Record}
    (hget : (t, .ret (.inl (.get pk)) (.ok (.found (some r)))) ∈ history id tr) :
    pkey own r = pk ∧ ∃ t' op, writes op = some r ∧ (t', .call (.inl (.op op))) ∈ history id tr := by
  have hlin := ((jobs_linearizable hmem hunused h).refine (jobs_refine helse) hdb).refine
    (map_refines hk hI hnames hcodec) (rep_empty own indexes)
  obtain ⟨l, M, hlegal, hreturns, hcalls⟩ := hlin.legal
  have hfound := hreturns.subset (returned_command (r := .get pk) rfl hget)
  obtain ⟨hkey, op, hop, hdone⟩ := (map_written hlegal).2 pk r hfound
  obtain ⟨t', req, hreq, hcall⟩ := called_command (hcalls.subset (List.mem_map_of_mem hdone))
  cases req with
  | op op' =>
    cases hreq
    exact ⟨hkey, t', op, hop, hcall⟩
  | get pk' => cases hreq
  | read q => cases hreq

section Count

variable [DecidableEq PO]

/-- How many inserts under `pk` have gone through, and how many removals of `pk` been called. -/
def inserted (own : PK → PO) (pk : PO) (hist : List (T × Call (Request Record PO ⊕ Ω) Record)) : Nat :=
  hist.countP fun x => match x.2 with
    | .ret (.inl (.op (.insert r))) (.ok .done) => pkey own r = pk
    | _ => false

def removals (pk : PO) (hist : List (T × Call (Request Record PO ⊕ Ω) Record)) : Nat :=
  hist.countP fun x => match x.2 with
    | .call (.inl (.op (.remove pk'))) => pk' = pk
    | _ => false

omit [Key PK PO] [Key PO PO'] [Debug PK] [DecidableEq T] in
theorem inserted_le (own : PK → PO) (pk : PO) (hist : List (T × Call (Request Record PO ⊕ Ω) Record)) :
    inserted own pk hist ≤ ((returns (commands (requests hist))).map (·.2)).countP (insertedAt own pk) := by
  unfold inserted returns commands requests project
  rw [List.countP_map, List.countP_filterMap, List.countP_filterMap, List.countP_filterMap]
  refine List.countP_mono_left fun x _ hx => ?_
  split at hx
  · rename_i r hret
    simpa [hret, CallEv.project, request, command, answered, answer, Outcome.map, insertedAt] using hx
  · cases hx

omit [DecidableEq T] in
theorem le_removals (pk : PO) (hist : List (T × Call (Request Record PO ⊕ Ω) Record)) :
    ((calls (commands (requests hist))).map (·.2)).countP (removedAt pk) ≤ removals pk hist := by
  unfold removals calls commands requests project
  rw [List.countP_map, List.countP_filterMap, List.countP_filterMap, List.countP_filterMap]
  refine List.countP_mono_left fun x _ hx => ?_
  obtain ⟨t, c⟩ := x
  cases c with
  | ret op o =>
    cases op with
    | inr o' => simp [CallEv.project, request] at hx
    | inl r => cases hr : command r <;> simp [CallEv.project, request, hr] at hx
  | call op =>
    cases op with
    | inr o => simp [CallEv.project, request] at hx
    | inl r =>
      cases r with
      | get pk' | read q => simp [CallEv.project, request, command, removedAt] at hx
      | op op =>
        cases op with
        | insert r | update r | save r => simp [CallEv.project, request, command, removedAt] at hx
        | remove pk' => simpa [CallEv.project, request, command, removedAt] using hx

/-- Of the inserts under one key, whatever the threads, at most one goes through, and one
    more for each call that removes the key. -/
theorem insert_once (helse : ∀ o, Elsewhere ns (others o)) (hk : KeysOk own)
    (hI : ∀ I ∈ indexes, SelfDelimiting (encode : I.IndexKey → Bytes)) (hnames : (storeNames indexes).Nodup)
    (hcodec : TotalCodec Record) (hmem : Run step new setup mem) (hunused : Unused mem)
    (hdb : mem.published ns = some (emptyDb indexes))
    (h : Run (poolStep (jobs ns indexes others)) (pool mem) tr p) (pk : PO) :
    inserted own pk (history id tr) ≤ removals pk (history id tr) + 1 := by
  have hlin := ((jobs_linearizable hmem hunused h).refine (jobs_refine helse) hdb).refine
    (map_refines hk hI hnames hcodec) (rep_empty own indexes)
  obtain ⟨l, M, hlegal, hreturns, hcalls⟩ := hlin.legal
  calc inserted own pk (history id tr)
      ≤ ((returns (commands (requests (history id tr)))).map (·.2)).countP (insertedAt own pk) := inserted_le own pk _
    _ ≤ l.countP (insertedAt own pk) := hreturns.countP_le _
    _ ≤ (l.map (·.1)).countP (removedAt pk) + 1 := le_trans (Nat.le_add_right _ _) (map_inserted hlegal pk)
    _ ≤ ((calls (commands (requests (history id tr)))).map (·.2)).countP (removedAt pk) + 1 :=
      Nat.add_le_add_right (hcalls.countP_le _) 1
    _ ≤ removals pk (history id tr) + 1 := Nat.add_le_add_right (le_removals pk _) 1

end Count

/-! ### What readers see -/

omit [DecidableEq T] in
/-- Each query is answered on stores that stand for a set of records. -/
theorem legal_reads (hk : KeysOk own) (hnames : (storeNames indexes).Nodup) (hlaw : LawfulCodec Record) {db : Stores}
    {l : List (Request Record PO × Outcome Error (Result Record))}
    (h : Object.Legal (collectionObject indexes) (emptyDb indexes) l db) :
    (∃ M, Rep own indexes M db) ∧ ∀ q o, (.read q, o) ∈ l →
      ∃ M db', Rep own indexes M db' ∧ o = (q.prog db' (World.start noFaults db')).1 := by
  induction h with
  | nil => exact ⟨⟨_, rep_empty own indexes⟩, by simp⟩
  | @cons l db r _ ih =>
    obtain ⟨⟨M, hrep⟩, hreads⟩ := ih
    refine ⟨?_, fun q o hmem => ?_⟩
    · cases r with
      | op op => exact rep_exec hk hnames hlaw hrep noFaults op
      | get pk | read q => exact ⟨M, hrep⟩
    · rcases List.mem_cons.mp hmem with he | hmem
      · cases he
        exact ⟨M, db, hrep, rfl⟩
      · exact hreads q o hmem

/-- A query that other threads write during is answered as it is alone, on stores that
    are those of a set of records, indexes included. -/
theorem reads_consistent (helse : ∀ o, Elsewhere ns (others o)) (hk : KeysOk own) (hnames : (storeNames indexes).Nodup)
    (hlaw : LawfulCodec Record) (hmem : Run step new setup mem) (hunused : Unused mem)
    (hdb : mem.published ns = some (emptyDb indexes))
    (h : Run (poolStep (jobs ns indexes others)) (pool mem) tr p) {t : T} {q : ReadOp (Result Record)}
    {o : Outcome Error (Result Record)} (hread : (t, .ret (.inl (.read q)) o) ∈ history id tr) :
    ∃ (db : Stores) (R : Set Record), Consistent indexes db R ∧ o = (q.prog db (World.start noFaults db)).1 := by
  have hlin := (jobs_linearizable hmem hunused h).refine (jobs_refine helse) hdb
  obtain ⟨l, _, hlegal, hreturns, -⟩ := hlin.legal
  have hrequest : (t, .ret (.read q) o) ∈ requests (history id tr) := ret_mem_project (f := request) rfl hread
  have hanswered := hreturns.subset (List.mem_map_of_mem (f := (·.2)) (mem_returns.mpr hrequest))
  obtain ⟨M, db, hrep, ho⟩ := (legal_reads hk hnames hlaw hlegal).2 q o hanswered
  exact ⟨db, _, hrep.consistent hk, ho⟩

end Linearizable

end Collection

/-! ## Two threads -/

section Users

/-- The backend once the collection of users is built. -/
def usersBuilt : St :=
  { new with spaces := Function.update new.spaces "users" (some ⟨emptyDb [byEmail, byRegion], false⟩) }

def usersSetup : Trace Ev Reply :=
  [(.preparePublish "users" (storeNames [byEmail, byRegion]), .done),
    (.prepareRead "users" (storeNames [byEmail, byRegion]), .done)]

theorem usersBuilt_run : Run step new usersSetup usersBuilt := Run.step (Run.step Run.nil rfl) rfl

theorem unused_usersBuilt : Unused usersBuilt := fun _ => ⟨rfl, rfl, rfl⟩

abbrev UserRequest := Request User (Unsigned 1) ⊕ Empty

def allByEmail : ReadOp (Result User) := (scanRead (.index byEmail : ScanExecutor User (Unsigned 1)) .full).map .entries

def steps (t : Bool) (n : Nat) : List (Bool × PoolEv UserRequest) := List.replicate n (t, .step)

/-- One thread inserts a user. The other gets it, all within the insert, and once more and
    scans after it. -/
def crossing : List (Bool × PoolEv UserRequest) :=
  [(true, .ret)] ++ steps true 6 ++ [(true, .call (.inl (.read allByEmail))), (true, .ret)] ++ steps true 4 ++
    [(true, .call (.inl (.get ⟨1⟩))), (false, .ret)] ++ steps false 12 ++ [(true, .ret)] ++ steps true 4 ++
    [(true, .call (.inl (.get ⟨1⟩)))] ++ steps false 2 ++ [(false, .call (.inl (.op (.insert ⟨1, 1, 1⟩))))]

/-- The `get` that finds the user. -/
def isFound : Bool × Call UserRequest User → Bool
  | (true, .ret (.inl (.get pk)) (.ok (.found (some r)))) => pk = ⟨1⟩ ∧ r = ⟨1, 1, 1⟩
  | _ => false

theorem eq_of_isFound {x : Bool × Call UserRequest User} (h : isFound x) :
    x = (true, .ret (.inl (.get ⟨1⟩)) (.ok (.found (some ⟨1, 1, 1⟩)))) := by
  unfold isFound at h
  split at h
  · obtain ⟨rfl, rfl⟩ := of_decide_eq_true h
    rfl
  · cases h

/-- The scan that yields one entry. -/
def isScan : Bool × Call UserRequest User → Bool
  | (true, .ret (.inl (.read _)) (.ok (.entries [_]))) => true
  | _ => false

theorem eq_of_isScan {x : Bool × Call UserRequest User} (h : isScan x) :
    ∃ q entry, x = (true, .ret (.inl (.read q)) (.ok (.entries [entry]))) := by
  unfold isScan at h
  split at h
  · exact ⟨_, _, rfl⟩
  · cases h

theorem crossing_run : ∃ tr p, Run (poolStep (jobs "users" [byEmail, byRegion] Empty.elim)) (pool usersBuilt) tr p ∧
    (∃ x ∈ history id tr, isFound x = true) ∧ ∃ x ∈ history id tr, isScan x = true := by
  have hplay : ((poolStep (jobs "users" [byEmail, byRegion] Empty.elim)).play (pool usersBuilt) crossing).any
      (fun x => (history id x.1).any isFound && (history id x.1).any isScan) = true := by decide +kernel
  obtain ⟨x, hx, hany⟩ := (Option.any_eq_true _ _).mp hplay
  obtain ⟨hfound, hscan⟩ := Bool.and_eq_true_iff.mp hany
  exact ⟨x.1, x.2, run_of_play hx, List.any_eq_true.mp hfound, List.any_eq_true.mp hscan⟩

theorem elsewhere_empty (o : Empty) : Elsewhere "users" (Empty.elim o : Job (Result User)) := o.elim

theorem selfDelimiting_users : ∀ I ∈ ([byEmail, byRegion] : List (Index User (Unsigned 1))),
    SelfDelimiting (encode : I.IndexKey → Bytes) := by
  intro I hI
  rcases List.mem_cons.mp hI with rfl | hI
  · exact (good_unsigned 1).selfDelimiting
  · rw [List.mem_singleton.mp hI]
    exact (good_tup1 (good_unsigned 1)).selfDelimiting

theorem totalCodec_users : TotalCodec User := fun _ => ⟨_, rfl, rfl⟩

theorem collection_linearizable_users : ∃ tr p,
    Run (poolStep (jobs "users" [byEmail, byRegion] Empty.elim)) (pool usersBuilt) tr p ∧
      Linearizable (T := Bool) (collectionObject [byEmail, byRegion]) (emptyDb [byEmail, byRegion])
        (requests (history id tr)) := by
  obtain ⟨tr, p, hrun, -⟩ := crossing_run
  exact ⟨tr, p, hrun, collection_linearizable elsewhere_empty usersBuilt_run unused_usersBuilt rfl hrun⟩

theorem map_linearizable_users : ∃ tr p,
    Run (poolStep (jobs "users" [byEmail, byRegion] Empty.elim)) (pool usersBuilt) tr p ∧
      Linearizable (T := Bool) (mapObject id [byEmail, byRegion]) (fun _ => none)
        (commands (requests (history id tr))) := by
  obtain ⟨tr, p, hrun, -⟩ := crossing_run
  exact ⟨tr, p, hrun, map_linearizable elsewhere_empty (keysOk_unsigned 1) selfDelimiting_users (by decide)
    totalCodec_users usersBuilt_run unused_usersBuilt rfl hrun⟩

theorem get_written_users : ∃ tr p,
    Run (poolStep (jobs "users" [byEmail, byRegion] Empty.elim)) (pool usersBuilt) tr p ∧
      ∃ (t : Bool) (op : Op User (Unsigned 1)), writes op = some ⟨1, 1, 1⟩ ∧
        (t, .call (.inl (.op op))) ∈ history id tr := by
  obtain ⟨tr, p, hrun, ⟨x, hx, hfound⟩, -⟩ := crossing_run
  rw [eq_of_isFound hfound] at hx
  exact ⟨tr, p, hrun, (get_written elsewhere_empty (keysOk_unsigned 1) selfDelimiting_users (by decide)
    totalCodec_users usersBuilt_run unused_usersBuilt rfl hrun hx).2⟩

theorem insert_once_users : ∃ tr p,
    Run (poolStep (jobs "users" [byEmail, byRegion] Empty.elim)) (pool usersBuilt) tr p ∧
      inserted id ⟨1⟩ (history id tr : List (Bool × _)) ≤ removals ⟨1⟩ (history id tr) + 1 := by
  obtain ⟨tr, p, hrun, -⟩ := crossing_run
  exact ⟨tr, p, hrun, insert_once elsewhere_empty (keysOk_unsigned 1) selfDelimiting_users (by decide)
    totalCodec_users usersBuilt_run unused_usersBuilt rfl hrun ⟨1⟩⟩

theorem reads_consistent_users : ∃ (q : ReadOp (Result User)) (entry : Entry User) (db : Stores) (R : Set User),
    Consistent [byEmail, byRegion] db R ∧ .ok (.entries [entry]) = (q.prog db (World.start noFaults db)).1 := by
  obtain ⟨tr, p, hrun, -, ⟨x, hx, hscan⟩⟩ := crossing_run
  obtain ⟨q, entry, rfl⟩ := eq_of_isScan hscan
  exact ⟨q, entry, reads_consistent elsewhere_empty (keysOk_unsigned 1) (by decide) lawfulCodec_user usersBuilt_run
    unused_usersBuilt rfl hrun hx⟩

end Users

end Collette.Scripts
