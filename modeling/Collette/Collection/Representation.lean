/-
  Collette.Collection.Representation — the stores of a collection as the rows of a table.

  The committed stores stand for a table of records under their owned primary keys
  (`Rep`): the main store holds exactly its rows by primary key, and each index store
  exactly its rows by store key. One lemma for each part of an operation says what it
  does to the rows, whichever calls fail:

  - `indexUpdate_triple`, `indexRemove_triple`: one index follows one change, or reports
    a clash. The entry of the old record goes first, so a record never clashes with its
    own old entry.
  - `updateIndexes_triple`, `removeIndexes_triple`: so does the whole registry, by
    induction on it; an index touches no store but its own, so distinct names keep the
    others' rows.
  - `store_triple`: what `insert`, `update` and `save` end with commits the table with
    the record put in, or fails on a clash, a backend error or a codec error, and then
    commits nothing.
-/

import Collette.Collection.Model
import Collette.Table.Rows

namespace Collette

open Prog Collette.Lex Collette.Table

/-! ## Stores -/

/-- The store is exactly the set of entries `S`. -/
def Holds (st : KVStore) (S : Bytes → Bytes → Prop) : Prop := ∀ k v, st[k]? = some v ↔ S k v

/-- The named store is there and exactly `S`. -/
def Stored (t : Stores) (name : String) (S : Bytes → Bytes → Prop) : Prop := ∃ st, t name = some st ∧ Holds st S

section Holds

variable {st : KVStore} {S S' : Bytes → Bytes → Prop}

theorem Holds.congr (h : Holds st S) (hS : ∀ k v, S' k v ↔ S k v) : Holds st S' :=
  fun k v => (h k v).trans (hS k v).symm

theorem Holds.eq_of_same (h : Holds st S) {k v v' : Bytes} (hv : S k v) (hv' : S k v') : v = v' := by
  have h1 := (h k v).mpr hv
  rw [(h k v').mpr hv'] at h1
  exact (Option.some.inj h1).symm

theorem Holds.get_eq_none (h : Holds st S) {k : Bytes} : st[k]? = none ↔ ∀ v, ¬ S k v := by
  cases hk : st[k]? with
  | none => exact iff_of_true rfl fun v hv => by rw [(h k v).mpr hv] at hk; cases hk
  | some v => exact iff_of_false (by simp) fun hno => hno v ((h k v).mp hk)

theorem holds_empty : Holds ∅ fun _ _ => False := fun k v => by simp

theorem Holds.insert (h : Holds st S) (k v : Bytes) :
    Holds (st.insert k v) fun k' v' => k' = k ∧ v' = v ∨ S k' v' ∧ k' ≠ k := by
  intro k' v'
  rw [Std.TreeMap.getElem?_insert]
  by_cases e : k' = k
  · rw [e, if_pos ((compare_eq_eq k k).mpr rfl)]
    simp [eq_comm]
  · rw [if_neg fun hc => e ((compare_eq_eq k k').mp hc).symm, h k' v']
    simp [e]

theorem Holds.erase (h : Holds st S) (k : Bytes) : Holds (st.erase k) fun k' v' => S k' v' ∧ k' ≠ k := by
  intro k' v'
  rw [Std.TreeMap.getElem?_erase]
  by_cases e : k' = k
  · rw [e, if_pos ((compare_eq_eq k k).mpr rfl)]
    simp
  · rw [if_neg fun hc => e ((compare_eq_eq k k').mp hc).symm, h k' v']
    simp [e]

end Holds

section Rep

variable {Record PK PO PO' : Type} [Key PK PO] [Key PO PO'] [Item Record PK] {own : PK → PO}

/-- Primary keys: the owned form encodes as the key does, and no two keys encode the
    same. -/
structure KeysOk (own : PK → PO) : Prop where
  encode_own : ∀ pk, encode (own pk) = encode pk
  injective : Function.Injective (encode : PK → Bytes)
  owned_injective : Function.Injective (encode : PO → Bytes)

theorem KeysOk.encode_eq_iff (hk : KeysOk own) {pk pk' : PK} : encode pk = encode pk' ↔ own pk = own pk' := by
  rw [← hk.encode_own, ← hk.encode_own, hk.owned_injective.eq_iff]

theorem KeysOk.eq_iff (hk : KeysOk own) {pk pk' : PK} : own pk = own pk' ↔ pk = pk' := by
  rw [← hk.encode_eq_iff, hk.injective.eq_iff]

/-- The owned primary key of a record. -/
def pkey (own : PK → PO) (r : Record) : PO := own (Item.key r)

/-- The bytes a record is stored under in the index. -/
def Index.place (I : Index Record PK) (r : Record) : Bytes := encode (I.kind.storeKey (I.key r) (Item.key r))

/-- The entries of the main store. -/
def mainRows (own : PK → PO) (M : PO → Option Record) : Bytes → Bytes → Prop :=
  Rows (pkey own) M (fun r => encode (Item.key r)) fun r v => Item.toBytes r = .ok v

/-- The entries of an index store. -/
def Index.rows (own : PK → PO) (M : PO → Option Record) (I : Index Record PK) : Bytes → Bytes → Prop :=
  Rows (pkey own) M I.place fun r v => v = encode (Item.key r)

/-- Another record has the place of `new` in the index. -/
def Index.Conflict (own : PK → PO) (M : PO → Option Record) (I : Index Record PK) (new : Record) : Prop :=
  Clash (pkey own) M I.place new

/-- The stores `db` stand for the table `M`. -/
structure Rep (own : PK → PO) (indexes : List (Index Record PK)) (M : PO → Option Record) (db : Stores) : Prop where
  keyed : Keyed (pkey own) M
  encodes : ∀ r, Mem (pkey own) M r → ∃ b, Item.toBytes r = .ok b
  main : Stored db MAIN_STORE (mainRows own M)
  index : ∀ I ∈ indexes, Stored db I.NAME (I.rows own M)

/-- Two records at one place of a store that follows the table are one record. -/
theorem Index.same_place (hk : KeysOk own) {M : PO → Option Record} {I : Index Record PK} {st : KVStore}
    (h : Holds st (I.rows own M)) {r r' : Record} (hr : Mem (pkey own) M r) (hr' : Mem (pkey own) M r')
    (he : I.place r = I.place r') : pkey own r = pkey own r' :=
  hk.encode_eq_iff.mp (h.eq_of_same ⟨r, hr, rfl, rfl⟩ ⟨r', hr', he, rfl⟩)

/-! ## One index -/

section OneIndex

variable {F : List Event → Option BackendError} {c t : Stores} {E : Error → Prop} {M : PO → Option Record}
  {I : Index Record PK}

/-- The transaction's store of `I` holds the rows of `M`, and no other store than in
    `t` has changed. -/
def Follows (F : List Event → Option BackendError) (c t : Stores) (own : PK → PO) (M : PO → Option Record)
    (I : Index Record PK) (s : World) : Prop :=
  ∃ t', InTx F c t' s ∧ Stored t' I.NAME (I.rows own M) ∧ ∀ n, n ≠ I.NAME → t' n = t n

omit [Key PO PO'] in
theorem Follows.setLog {s : World} (h : Follows F c t own M I s) (log : List Event) :
    Follows F c t own M I { s with log := log } := by
  obtain ⟨t', hs, h⟩ := h
  exact ⟨t', hs.setLog log, h⟩

/-- Check the place of `new` and fill it, the rows being those of the other records. -/
theorem claim_triple {t₀ : Stores} {new : Record} (hE : Tolerates F E)
    (hconf : I.Conflict own M new → ∀ key, E (.alreadyExists key))
    (hother : ∀ n, n ≠ I.NAME → t n = t₀ n) (hst : Stored t I.NAME (I.rows own (del M (pkey own new)))) :
    Triple (InTx F c t)
      (do
        if (← WriteStore.get ⟨I.NAME⟩ (I.place new)).isSome then
          Prog.throw (.alreadyExists (Debug.fmt (I.kind.storeKey (I.key new) (Item.key new))))
        WriteStore.set ⟨I.NAME⟩ (I.place new) (encode (Item.key new)))
      (fun _ s => ¬ I.Conflict own M new ∧ Follows F c t₀ own (put (pkey own) M new) I s) (Failed c E) := by
  obtain ⟨st, hn, hst⟩ := hst
  refine Triple.bind_eq (storeGet_triple hE hn _) ?_
  cases hget : st[I.place new]? with
  | some v =>
    obtain ⟨r, hr, hplace, -⟩ := (hst _ _).mp hget
    have hc : I.Conflict own M new := clash_iff.mpr ⟨r, hr, hplace.symm⟩
    refine Triple.bind (Q := fun _ _ => False) (Triple.throw fun s hs => ⟨hs.committed, hconf hc _⟩) ?_
    exact fun _ _ h => h.elim
  | none =>
    have hfree := hst.get_eq_none.mp hget
    refine (storeSet_triple hE hn _ _).conseq (fun _ hs => hs) (fun _ s hs => ⟨?_, ?_⟩) fun _ _ he => he
    · intro hc
      obtain ⟨r, hr, hplace⟩ := clash_iff.mp hc
      exact hfree _ ⟨r, hr, hplace.symm, rfl⟩
    · refine ⟨_, hs, ⟨_, upd_self _ _ _, (hst.insert _ _).congr fun k v => ?_⟩, fun n hne => ?_⟩
      · rw [Index.rows, rows_put]
        refine or_congr_right ⟨fun h => ⟨h, ?_⟩, fun h => h.1⟩
        intro he
        subst he
        exact hfree v h
      · rw [upd_ne hne, hother n hne]

theorem indexUpdate_triple (hk : KeysOk own) (hM : Keyed (pkey own) M) (hst : Stored t I.NAME (I.rows own M))
    (new : Record) (hE : Tolerates F E) (hconf : I.Conflict own M new → ∀ key, E (.alreadyExists key)) :
    Triple (InTx F c t) (I.update (Item.key new) (M (pkey own new)) new)
      (fun _ s => ¬ I.Conflict own M new ∧ Follows F c t own (put (pkey own) M new) I s) (Failed c E) := by
  refine observe_triple _ ?_ fun _ _ log h => ⟨h.1, h.2.setLog log⟩
  obtain ⟨st, hn, hrows⟩ := id hst
  refine Triple.bind_eq (openStore_triple hE hn) ?_
  cases hold : M (pkey own new) with
  | none =>
    refine claim_triple hE hconf (fun _ _ => rfl) ⟨st, hn, hrows.congr fun k v => ?_⟩
    exact rows_del_of_none hold k v
  | some item =>
    have hmem : Mem (pkey own) M item := hM.mem hold
    have hpk : pkey own item = pkey own new := hM _ _ hold
    have hplace : encode (I.kind.storeKey (I.key item) (Item.key new)) = I.place item := by
      rw [← hk.eq_iff.mp hpk]; rfl
    have hdel : ∀ k v, I.rows own (del M (pkey own new)) k v ↔ I.rows own M k v ∧ k ≠ I.place item := by
      rw [← hpk]
      exact rows_del_of_mem hmem fun r hr he => Index.same_place hk hrows hr hmem he
    show Triple _ (if I.kind.storeKey (I.key item) (Item.key new) = I.kind.storeKey (I.key new) (Item.key new)
      then _ else _) _ _
    split
    · -- the entry stays, and is the one of the new record
      rename_i heq
      have hsame : I.place new = I.place item := by rw [← hplace, heq]; rfl
      refine Triple.pure fun s hs => ⟨?_, t, hs, ⟨st, hn, hrows.congr fun k v => ?_⟩, fun _ _ => rfl⟩
      · intro hm
        obtain ⟨r, hr, hne, he⟩ := hm
        exact hne ((Index.same_place hk hrows hr hmem (he.trans hsame)).trans hpk)
      · rw [Index.rows, rows_put]
        show _ ∨ I.rows own (del M (pkey own new)) k v ↔ I.rows own M k v
        rw [hdel, hsame]
        constructor
        · intro hm
          rcases hm with ⟨rfl, rfl⟩ | ⟨h, -⟩
          · exact ⟨item, hmem, rfl, congrArg encode (hk.eq_iff.mp hpk).symm⟩
          · exact h
        · intro h
          by_cases e : k = I.place item
          · refine Or.inl ⟨e, ?_⟩
            subst e
            rw [hrows.eq_of_same h ⟨item, hmem, rfl, rfl⟩, hk.eq_iff.mp hpk]
          · exact Or.inr ⟨h, e⟩
    · rw [hplace]
      refine (storeRemove_triple hE hn _).bind fun _ => ?_
      refine claim_triple hE hconf (fun n hne => upd_ne hne _ _) ⟨_, upd_self _ _ _, (hrows.erase _).congr hdel⟩

theorem indexRemove_triple (hk : KeysOk own) (hst : Stored t I.NAME (I.rows own M)) {item : Record}
    (hmem : Mem (pkey own) M item) (hE : Tolerates F E) :
    Triple (InTx F c t) (I.remove (Item.key item) item) (fun _ => Follows F c t own (del M (pkey own item)) I)
      (Failed c E) := by
  refine observe_triple _ ?_ fun _ _ log h => h.setLog log
  obtain ⟨st, hn, hrows⟩ := hst
  refine Triple.bind_eq (openStore_triple hE hn) ?_
  refine (storeRemove_triple hE hn _).conseq (fun _ hs => hs) (fun _ s hs => ?_) fun _ _ he => he
  refine ⟨_, hs, ⟨_, upd_self _ _ _, (hrows.erase _).congr ?_⟩, fun n hne => upd_ne hne _ _⟩
  exact rows_del_of_mem hmem fun r hr he => Index.same_place hk hrows hr hmem he

/-! ## The registry -/

/-- The transaction's stores of the indexes hold the rows of `M`, and no other store
    than in `t` has changed. -/
def FollowsAll (F : List Event → Option BackendError) (c t : Stores) (own : PK → PO) (M : PO → Option Record)
    (indexes : List (Index Record PK)) (s : World) : Prop :=
  ∃ t', InTx F c t' s ∧ (∀ I ∈ indexes, Stored t' I.NAME (I.rows own M)) ∧
    ∀ n, n ∉ indexes.map (·.NAME) → t' n = t n

omit [Key PO PO'] in
/-- One index follows, then the others: the first one's store is not theirs. -/
theorem FollowsAll.cons {indexes : List (Index Record PK)} {s : World} {t' : Stores}
    (hnodup : I.NAME ∉ indexes.map (·.NAME)) (hst : Stored t' I.NAME (I.rows own M))
    (hother : ∀ n, n ≠ I.NAME → t' n = t n) (h : FollowsAll F c t' own M indexes s) :
    FollowsAll F c t own M (I :: indexes) s := by
  obtain ⟨t'', hs, hrows, hrest⟩ := h
  refine ⟨t'', hs, fun J hJ => ?_, fun n hn => ?_⟩
  · rcases List.mem_cons.mp hJ with rfl | hJ
    · obtain ⟨st, hn, hst⟩ := hst
      exact ⟨st, by rw [hrest _ hnodup, hn], hst⟩
    · exact hrows J hJ
  · rw [List.map_cons, List.mem_cons, not_or] at hn
    rw [hrest n hn.2, hother n hn.1]

omit [Key PO PO'] in
theorem stored_tail {indexes : List (Index Record PK)} {t' : Stores} {name : String}
    (hname : name ∉ indexes.map (·.NAME)) (hst : ∀ I ∈ indexes, Stored t I.NAME (I.rows own M))
    (hother : ∀ n, n ≠ name → t' n = t n) : ∀ I ∈ indexes, Stored t' I.NAME (I.rows own M) := by
  intro I hI
  obtain ⟨st, hn, hrows⟩ := hst I hI
  refine ⟨st, ?_, hrows⟩
  rw [hother _ fun e => hname (List.mem_map.mpr ⟨I, hI, e⟩), hn]

theorem updateIndexes_triple (hk : KeysOk own) (hM : Keyed (pkey own) M) (new : Record) (hE : Tolerates F E)
    {indexes : List (Index Record PK)} (hnodup : (indexes.map (·.NAME)).Nodup)
    (hst : ∀ I ∈ indexes, Stored t I.NAME (I.rows own M))
    (hconf : (∃ I ∈ indexes, I.Conflict own M new) → ∀ key, E (.alreadyExists key)) :
    Triple (InTx F c t) (updateIndexes (Item.key new) (M (pkey own new)) new indexes)
      (fun _ s => (∀ I ∈ indexes, ¬ I.Conflict own M new) ∧ FollowsAll F c t own (put (pkey own) M new) indexes s)
      (Failed c E) := by
  induction indexes generalizing t with
  | nil => exact Triple.pure fun s hs => ⟨by simp, t, hs, by simp, fun _ _ => rfl⟩
  | cons I tail ih =>
    rw [List.map_cons, List.nodup_cons] at hnodup
    have hI := indexUpdate_triple (c := c) hk hM (hst I (by simp)) new hE fun hc => hconf ⟨I, by simp, hc⟩
    refine hI.bind fun _ => Triple.and fun hno => Triple.exists fun t' => ?_
    intro s hs
    obtain ⟨hs, hI', hother⟩ := hs
    have htail := stored_tail hnodup.1 (fun J hJ => hst J (by simp [hJ])) hother
    have := ih hnodup.2 htail fun ⟨J, hJ, hc⟩ => hconf ⟨J, by simp [hJ], hc⟩
    refine this.conseq (fun _ h => h) (fun _ s' hs' => ⟨fun J hJ => ?_, FollowsAll.cons hnodup.1 hI' hother hs'.2⟩)
      (fun _ _ he => he) s hs
    rcases List.mem_cons.mp hJ with rfl | hJ
    · exact hno
    · exact hs'.1 J hJ

theorem removeIndexes_triple (hk : KeysOk own) {item : Record} (hmem : Mem (pkey own) M item) (hE : Tolerates F E)
    {indexes : List (Index Record PK)} (hnodup : (indexes.map (·.NAME)).Nodup)
    (hst : ∀ I ∈ indexes, Stored t I.NAME (I.rows own M)) :
    Triple (InTx F c t) (removeIndexes (Item.key item) item indexes)
      (fun _ => FollowsAll F c t own (del M (pkey own item)) indexes) (Failed c E) := by
  induction indexes generalizing t with
  | nil => exact Triple.pure fun s hs => ⟨t, hs, by simp, fun _ _ => rfl⟩
  | cons I tail ih =>
    rw [List.map_cons, List.nodup_cons] at hnodup
    refine (indexRemove_triple hk (hst I (by simp)) hmem hE).bind fun _ => Triple.exists fun t' => ?_
    intro s hs
    obtain ⟨hs, hI', hother⟩ := hs
    have htail := stored_tail hnodup.1 (fun J hJ => hst J (by simp [hJ])) hother
    refine (ih hnodup.2 htail).conseq (fun _ h => h) (fun _ s' hs' => FollowsAll.cons hnodup.1 hI' hother hs')
      (fun _ _ he => he) s hs

end OneIndex

/-! ## Operations -/

/-- Why an operation may fail: the backend, the codec, or a reason of its own. -/
inductive Blame (F : List Event → Option BackendError) (bytes : Except CodecError Bytes) (φ : Error → Prop) :
    Error → Prop where
  | backend {log : List Event} {e : BackendError} : F log = some e → Blame F bytes φ (.backend e)
  | codec {e : CodecError} : bytes = .error e → Blame F bytes φ (.codec e)
  | refused {e : Error} : φ e → Blame F bytes φ e

/-- The bytes an operation stores. -/
def Op.bytes : Op Record PO → Except CodecError Bytes
  | .insert value | .update value | .save value => Item.toBytes value
  | .remove _ => .ok []

noncomputable def Op.apply (own : PK → PO) (M : PO → Option Record) : Op Record PO → PO → Option Record
  | .insert value | .update value | .save value => put (pkey own) M value
  | .remove pk => del M pk

/-- What the table has to be like for the operation to go through. -/
def Op.Accepts (own : PK → PO) (indexes : List (Index Record PK)) (M : PO → Option Record) : Op Record PO → Prop
  | .insert value => M (pkey own value) = none ∧ ∀ I ∈ indexes, ¬ I.Conflict own M value
  | .update value => M (pkey own value) ≠ none ∧ ∀ I ∈ indexes, ¬ I.Conflict own M value
  | .save value => ∀ I ∈ indexes, ¬ I.Conflict own M value
  | .remove _ => True

/-- The errors an operation refuses the table with. -/
def Op.Refuses (own : PK → PO) (indexes : List (Index Record PK)) (M : PO → Option Record) :
    Op Record PO → Error → Prop
  | .insert value, e =>
    (∃ key, e = .alreadyExists key) ∧ (M (pkey own value) ≠ none ∨ ∃ I ∈ indexes, I.Conflict own M value)
  | .update value, e =>
    (∃ key, e = .notFound key) ∧ M (pkey own value) = none ∨
      (∃ key, e = .alreadyExists key) ∧ M (pkey own value) ≠ none ∧ ∃ I ∈ indexes, I.Conflict own M value
  | .save value, e => (∃ key, e = .alreadyExists key) ∧ ∃ I ∈ indexes, I.Conflict own M value
  | .remove _, _ => False

section Ops

variable {F : List Event → Option BackendError} {c : Stores} {E : Error → Prop} {M : PO → Option Record}
  {indexes : List (Index Record PK)}

theorem tolerates_blame (F : List Event → Option BackendError) (bytes : Except CodecError Bytes) (φ : Error → Prop) :
    Tolerates F (Blame F bytes φ) := fun _ _ h => .backend h

theorem encode_pkey (hk : KeysOk own) (r : Record) : encode (pkey own r) = encode (Item.key r) := hk.encode_own _

theorem mainRows_iff (hk : KeysOk own) (hM : Keyed (pkey own) M) (o : PO) (v : Bytes) :
    mainRows own M (encode o) v ↔ ∃ r : Record, M o = some r ∧ Item.toBytes r = .ok v := by
  constructor
  · intro hm
    obtain ⟨r, hr, he, hv⟩ := hm
    have ho : o = pkey own r := hk.owned_injective (he.trans (encode_pkey hk r).symm)
    exact ⟨r, ho ▸ hr, hv⟩
  · intro hm
    obtain ⟨r, hr, hv⟩ := hm
    refine ⟨r, hM.mem hr, ?_, hv⟩
    show encode o = encode (Item.key r)
    rw [← encode_pkey hk, hM o r hr]

theorem mainRows_del (hk : KeysOk own) (o : PO) (k v : Bytes) :
    mainRows own (del M o) k v ↔ mainRows own M k v ∧ k ≠ encode o := by
  have hne : ∀ r : Record, pkey own r ≠ o ↔ encode (Item.key r) ≠ encode o := fun r => by
    rw [← encode_pkey hk, hk.owned_injective.ne_iff]
  constructor
  · intro hm
    obtain ⟨r, hr, rfl, hv⟩ := hm
    obtain ⟨hr, ho⟩ := mem_del.mp hr
    exact ⟨⟨r, hr, rfl, hv⟩, (hne r).mp ho⟩
  · intro hm
    obtain ⟨⟨r, hr, rfl, hv⟩, ho⟩ := hm
    exact ⟨r, mem_del.mpr ⟨hr, (hne r).mpr ho⟩, rfl, hv⟩

theorem mainRows_put (hk : KeysOk own) {new : Record} {b : Bytes} (hb : Item.toBytes new = .ok b) (k v : Bytes) :
    mainRows own (put (pkey own) M new) k v ↔
      k = encode (Item.key new) ∧ v = b ∨ mainRows own M k v ∧ k ≠ encode (Item.key new) := by
  rw [mainRows, rows_put, ← encode_pkey hk, ← mainRows_del hk, hb]
  exact or_congr_left (and_congr_right fun _ => ⟨fun h => (Except.ok.inj h).symm, fun h => by rw [h]⟩)

/-- What the main store has under a key decodes to the record of the table. -/
theorem decode_triple (hk : KeysOk own) (hlaw : LawfulCodec Record) (hrep : Rep own indexes M c) {st : KVStore}
    (hst : Holds st (mainRows own M)) (o : PO) {P : World → Prop} (hP : ∀ s, P s → Idle F c s)
    (hlog : ∀ s log, P s → P { s with log := log }) :
    Triple P (decodeRecord st[encode o]?) (fun r s => r = M o ∧ P s) (Failed c E) := by
  cases hM : M o with
  | none =>
    have : st[encode o]? = none := hst.get_eq_none.mpr fun v hv => by
      obtain ⟨r, hr, -⟩ := (mainRows_iff hk hrep.keyed o v).mp hv
      rw [hM] at hr; cases hr
    rw [this]
    exact Triple.pure fun _ hs => ⟨rfl, hs⟩
  | some r =>
    obtain ⟨b, hb⟩ := hrep.encodes r (hrep.keyed.mem hM)
    rw [(hst _ _).mpr ((mainRows_iff hk hrep.keyed o b).mpr ⟨r, hM, hb⟩)]
    have hdec := hlaw r b hb
    refine Triple.bind (codec_triple _ (Item.fromBytes b) (fun e he => ?_) hP hlog) fun r' => ?_
    · rw [hdec] at he; cases he
    · refine Triple.and fun hr' => Triple.pure fun s hs => ⟨?_, hs⟩
      rw [hdec] at hr'
      rw [Except.ok.inj hr']

/-- What `insert`, `update` and `save` end with: the record goes into the main store, the
    indexes follow, and both are committed. -/
theorem store_triple (hk : KeysOk own) (hnames : (storeNames indexes).Nodup) (hrep : Rep own indexes M c)
    (new : Record) (hE : Tolerates F E) (hcodec : ∀ e, Item.toBytes new = .error e → E (.codec e))
    (hconf : (∃ I ∈ indexes, I.Conflict own M new) → ∀ key, E (.alreadyExists key)) :
    Triple (InTx F c c)
      (do
        WriteStore.set ⟨MAIN_STORE⟩ (encode (Item.key new)) (← codec .toBytes (Item.toBytes new))
        updateIndexes (Item.key new) (M (pkey own new)) new indexes
        commit)
      (fun _ s => (∀ I ∈ indexes, ¬ I.Conflict own M new) ∧ Rep own indexes (put (pkey own) M new) s.committed)
      (Failed c E) := by
  obtain ⟨st, hn, hst⟩ := hrep.main
  rw [storeNames, List.nodup_cons] at hnames
  refine (codec_triple .toBytes _ hcodec (fun _ hs => hs.idle) fun s log hs => hs.setLog log).bind fun b => ?_
  refine Triple.and fun hb => (storeSet_triple hE hn _ _).bind fun _ => ?_
  have hidx := stored_tail hnames.1 hrep.index
    fun n hne => upd_ne hne c (st.insert (encode (Item.key new)) b)
  refine (updateIndexes_triple hk hrep.keyed new hE hnames.2 hidx hconf).bind fun _ => ?_
  refine Triple.and fun hno => Triple.exists fun t' => ?_
  intro s hs
  obtain ⟨hs, hrows, hother⟩ := hs
  refine (commit_triple hE).conseq (fun _ h => h) (fun _ s' hs' => ⟨hno, ?_⟩) (fun _ _ he => he) s hs
  rw [hs']
  refine ⟨hrep.keyed.put new, fun r hr => ?_, ⟨_, ?_, (hst.insert _ b).congr (mainRows_put hk hb)⟩, hrows⟩
  · rcases mem_put.mp hr with rfl | hr
    · exact ⟨b, hb⟩
    · exact hrep.encodes r (mem_del.mp hr).1
  · rw [hother _ hnames.1, upd_self]

/-- The transaction opens on the main store and reads what is under a key. -/
theorem lookup_triple {α : Type} (hrep : Rep own indexes M c) (hE : Tolerates F E) (key : Bytes)
    {f : WriteStore → Option Bytes → Prog World Error α} {Q : α → World → Prop}
    (hf : ∀ st, c MAIN_STORE = some st → Holds st (mainRows own M) →
      Triple (InTx F c c) (f ⟨MAIN_STORE⟩ st[key]?) Q (Failed c E)) :
    Triple (Idle F c)
      (do
        write
        let store ← openStore MAIN_STORE
        let bytes ← store.get key
        f store bytes) Q (Failed c E) := by
  obtain ⟨st, hn, hst⟩ := hrep.main
  refine (write_triple hE).bind fun _ => Triple.bind_eq (openStore_triple hE hn) ?_
  exact Triple.bind_eq (storeGet_triple hE hn key) (hf st hn hst)

end Ops

end Rep

end Collette
