/-
  Collette.Collection.Consistency — every state a collection can reach is consistent.

  - `op_triple`: over stores that stand for a table, an operation either goes through,
    the table accepts it and the committed stores stand for the changed table, or it
    fails for a reason `Blame` names and the committed stores are as before.
  - `rep_of_reach`: so every state reachable from the empty collection, whichever calls
    failed on the way, stands for a table.
  - `index_consistency`: its main store and index stores are exactly the rows of one set
    of records with distinct primary keys, no two of which share a `Unique` key.
-/

import Collette.Collection.Representation

namespace Collette

open Prog Collette.Lex Collette.Table

section Rep

variable {Record PK PO PO' : Type} [Key PK PO] [Key PO PO'] [Item Record PK] {own : PK → PO}
  {F : List Event → Option BackendError} {c : Stores} {M : PO → Option Record} {indexes : List (Index Record PK)}

/-! ## Each operation -/

theorem save_triple (hk : KeysOk own) (hnames : (storeNames indexes).Nodup) (hlaw : LawfulCodec Record)
    (hrep : Rep own indexes M c) (value : Record) :
    Triple (Idle F c) (save indexes value)
      (fun _ s => (Op.save value).Accepts own indexes M ∧ Rep own indexes (put (pkey own) M value) s.committed)
      (Failed c (Blame F (Item.toBytes value) ((Op.save value).Refuses own indexes M))) := by
  have hE := tolerates_blame F (Item.toBytes value) ((Op.save value).Refuses own indexes M)
  refine lookup_triple hrep hE _ fun st _ hst => ?_
  have hstore := store_triple hk hnames hrep value hE (fun _ he => .codec he) fun hc _ => .refused ⟨⟨_, rfl⟩, hc⟩
  rw [← encode_pkey hk] at hstore ⊢
  exact Triple.bind_eq (decode_triple hk hlaw hrep hst _ (fun _ hs => hs.idle) fun _ log hs => hs.setLog log) hstore

theorem remove_triple (hk : KeysOk own) (hnames : (storeNames indexes).Nodup) (hlaw : LawfulCodec Record)
    (hrep : Rep own indexes M c) (pk : PO) :
    Triple (Idle F c) (remove indexes pk) (fun _ s => Rep own indexes (del M pk) s.committed)
      (Failed c (Blame F (.ok []) ((Op.remove pk).Refuses own indexes M))) := by
  have hE := tolerates_blame F (.ok []) ((Op.remove pk).Refuses own indexes M)
  refine lookup_triple hrep hE _ fun st hn hst => ?_
  refine Triple.bind_eq (decode_triple hk hlaw hrep hst _ (fun _ hs => hs.idle) fun _ log hs => hs.setLog log) ?_
  cases hM : M pk with
  | none =>
    refine Triple.pure fun s hs => ?_
    rw [del_eq_self hM, hs.committed]
    exact hrep
  | some r =>
    have hmem : Mem (pkey own) M r := hrep.keyed.mem hM
    have hpk : pkey own r = pk := hrep.keyed pk r hM
    subst hpk
    rw [storeNames, List.nodup_cons] at hnames
    refine (storeRemove_triple hE hn _).bind fun _ => ?_
    have hidx := stored_tail hnames.1 hrep.index
      fun n hne => upd_ne hne c (st.erase (encode (pkey own r)))
    refine (removeIndexes_triple hk hmem hE hnames.2 hidx).bind fun _ => Triple.exists fun t' => ?_
    intro s hs
    obtain ⟨hs, hrows, hother⟩ := hs
    refine (commit_triple hE).conseq (fun _ h => h) (fun _ s' hs' => ?_) (fun _ _ he => he) s hs
    rw [hs']
    refine ⟨hrep.keyed.del _, fun r' hr' => hrep.encodes r' (mem_del.mp hr').1,
      ⟨_, ?_, (hst.erase _).congr (mainRows_del hk (pkey own r))⟩, hrows⟩
    rw [hother _ hnames.1, upd_self]

theorem get_triple (hk : KeysOk own) (hlaw : LawfulCodec Record) (hrep : Rep own indexes M c) (pk : PO) :
    Triple (Idle F c) (get Record pk) (fun r s => r = M pk ∧ s.committed = c)
      (Failed c (Blame F (.ok []) fun _ => False)) := by
  have hE := tolerates_blame F (.ok []) fun _ => False
  obtain ⟨st, hn, hst⟩ := hrep.main
  refine Triple.bind_eq (read_triple hE) (Triple.bind_eq (openReadStore_triple hE hn) ?_)
  refine Triple.bind_eq (readGet_triple hE st _) ?_
  refine (decode_triple hk hlaw hrep hst pk (fun _ hs => hs) fun _ _ hs => ⟨hs.1, hs.2⟩).conseq (fun _ h => h)
    (fun _ _ h => ⟨h.1, h.2.committed⟩) fun _ _ he => he

/-- On a backend without faults `get` answers what the table has under the key. -/
theorem get_ok (hk : KeysOk own) (hlaw : LawfulCodec Record) (hrep : Rep own indexes M c) (pk : PO) :
    ∃ s, get Record pk (World.start noFaults c) = (.ok (M pk), s) ∧ s.committed = c := by
  have hpost := get_triple (F := noFaults) hk hlaw hrep pk (World.start noFaults c) ⟨rfl, rfl⟩
  cases hr : get Record pk (World.start noFaults c) with
  | mk o s =>
    rw [hr] at hpost
    cases o with
    | ok r =>
      obtain ⟨rfl, hc⟩ := hpost
      exact ⟨s, rfl, hc⟩
    | panic => exact hpost.elim
    | error e =>
      obtain ⟨-, hblame⟩ := hpost
      cases hblame with
      | backend h => cases h
      | codec h => cases h
      | refused h => exact h.elim

theorem rep_empty (own : PK → PO) (indexes : List (Index Record PK)) :
    Rep own indexes (fun _ => none) (emptyDb indexes) := by
  have hstored : ∀ name ∈ storeNames indexes, Stored (emptyDb indexes) name fun _ _ => False := fun name hmem =>
    ⟨∅, by rw [emptyDb, prepare, if_pos hmem]; rfl, holds_empty⟩
  have hrows : ∀ (φ : Record → Bytes) (ψ : Record → Bytes → Prop) k v,
      Rows (pkey own) (fun _ => none) φ ψ k v ↔ False := by
    intro φ ψ k v
    refine iff_of_false ?_ id
    intro hm
    obtain ⟨r, hr, -⟩ := hm
    cases hr
  refine ⟨keyed_empty _, fun r hr => absurd hr (by simp [Mem]), ?_, fun I hI => ?_⟩
  · obtain ⟨st, hn, hst⟩ := hstored MAIN_STORE (by simp [storeNames])
    exact ⟨st, hn, hst.congr (hrows _ _)⟩
  · obtain ⟨st, hn, hst⟩ := hstored I.NAME (name_mem_storeNames hI)
    exact ⟨st, hn, hst.congr (hrows _ _)⟩

variable [Debug PK]

theorem insert_triple (hk : KeysOk own) (hnames : (storeNames indexes).Nodup)
    (hrep : Rep own indexes M c) (value : Record) :
    Triple (Idle F c) (insert indexes value)
      (fun _ s => (Op.insert value).Accepts own indexes M ∧ Rep own indexes (put (pkey own) M value) s.committed)
      (Failed c (Blame F (Item.toBytes value) ((Op.insert value).Refuses own indexes M))) := by
  have hE := tolerates_blame F (Item.toBytes value) ((Op.insert value).Refuses own indexes M)
  refine lookup_triple hrep hE _ fun st _ hst => ?_
  cases hget : st[encode (Item.key value)]? with
  | some v =>
    rw [← encode_pkey hk] at hget
    obtain ⟨r, hr, -⟩ := (mainRows_iff hk hrep.keyed _ v).mp ((hst _ _).mp hget)
    have hsome : M (pkey own value) ≠ none := by rw [hr]; simp
    refine Triple.bind (Q := fun _ _ => False) (Triple.throw fun s hs => ⟨hs.committed, ?_⟩) fun _ _ h => h.elim
    exact .refused ⟨⟨_, rfl⟩, Or.inl hsome⟩
  | none =>
    have hnone : M (pkey own value) = none := by
      cases hM : M (pkey own value) with
      | none => rfl
      | some r =>
        obtain ⟨b, hb⟩ := hrep.encodes r (hrep.keyed.mem hM)
        have := (hst _ _).mpr ((mainRows_iff hk hrep.keyed _ b).mpr ⟨r, hM, hb⟩)
        rw [encode_pkey hk, hget] at this
        cases this
    have hstore := store_triple hk hnames hrep value hE (fun _ he => .codec he)
      fun hc _ => .refused ⟨⟨_, rfl⟩, Or.inr hc⟩
    rw [hnone] at hstore
    exact hstore.conseq (fun _ h => h) (fun _ _ h => ⟨⟨hnone, h.1⟩, h.2⟩) fun _ _ he => he

theorem update_triple (hk : KeysOk own) (hnames : (storeNames indexes).Nodup) (hlaw : LawfulCodec Record)
    (hrep : Rep own indexes M c) (value : Record) :
    Triple (Idle F c) (update indexes value)
      (fun _ s => (Op.update value).Accepts own indexes M ∧ Rep own indexes (put (pkey own) M value) s.committed)
      (Failed c (Blame F (Item.toBytes value) ((Op.update value).Refuses own indexes M))) := by
  have hE := tolerates_blame F (Item.toBytes value) ((Op.update value).Refuses own indexes M)
  refine lookup_triple hrep hE _ fun st _ hst => ?_
  rw [← encode_pkey hk]
  refine Triple.bind_eq (decode_triple hk hlaw hrep hst _ (fun _ hs => hs.idle) fun _ log hs => hs.setLog log) ?_
  cases hM : M (pkey own value) with
  | none =>
    refine Triple.bind (Q := fun _ _ => False) (Triple.throw fun s hs => ⟨hs.committed, ?_⟩) fun _ _ h => h.elim
    exact .refused (Or.inl ⟨⟨_, rfl⟩, hM⟩)
  | some old =>
    have hsome : M (pkey own value) ≠ none := by rw [hM]; simp
    have hstore := store_triple hk hnames hrep value hE (fun _ he => .codec he)
      fun hc _ => .refused (Or.inr ⟨⟨_, rfl⟩, hsome, hc⟩)
    rw [hM, ← encode_pkey hk] at hstore
    exact hstore.conseq (fun _ h => h) (fun _ _ h => ⟨⟨hsome, h.1⟩, h.2⟩) fun _ _ he => he

/-- An operation goes through on a table that accepts it, or fails for a reason and
    commits nothing. -/
theorem op_triple (hk : KeysOk own) (hnames : (storeNames indexes).Nodup) (hlaw : LawfulCodec Record)
    (hrep : Rep own indexes M c) (op : Op Record PO) :
    Triple (Idle F c) (op.run indexes)
      (fun _ s => op.Accepts own indexes M ∧ Rep own indexes (op.apply own M) s.committed)
      (Failed c (Blame F op.bytes (op.Refuses own indexes M))) := by
  cases op with
  | insert value => exact insert_triple hk hnames hrep value
  | update value => exact update_triple hk hnames hlaw hrep value
  | save value => exact save_triple hk hnames hlaw hrep value
  | remove pk =>
    exact (remove_triple hk hnames hlaw hrep pk).conseq (fun _ h => h) (fun _ _ h => ⟨trivial, h⟩) fun _ _ he => he

/-! ## Every reachable state -/

/-- Whichever calls of the operation fail, the stores after it stand for a table. -/
theorem rep_exec (hk : KeysOk own) (hnames : (storeNames indexes).Nodup) (hlaw : LawfulCodec Record)
    (hrep : Rep own indexes M c) (F : List Event → Option BackendError) (op : Op Record PO) :
    ∃ M', Rep own indexes M' (op.exec indexes F c).2 := by
  have hpost := op_triple (F := F) hk hnames hlaw hrep op (World.start F c) ⟨rfl, rfl⟩
  unfold Op.exec
  cases hr : op.run indexes (World.start F c) with
  | mk o s =>
    rw [hr] at hpost
    cases o with
    | ok a => exact ⟨_, hpost.2⟩
    | error e => exact ⟨M, show Rep own indexes M s.committed by rw [hpost.1]; exact hrep⟩
    | panic => exact hpost.elim

theorem rep_of_reach (hk : KeysOk own) (hnames : (storeNames indexes).Nodup) (hlaw : LawfulCodec Record) {db : Stores}
    (h : Reach indexes db) : ∃ M, Rep own indexes M db := by
  induction h with
  | empty => exact ⟨_, rep_empty own indexes⟩
  | step F op _ ih =>
    obtain ⟨M, hrep⟩ := ih
    exact rep_exec hk hnames hlaw hrep F op

end Rep

/-! ## Index consistency -/

section Consistency

variable {Record PK PO : Type} [Key PK PO] [Item Record PK]

def Index.IsUnique (I : Index Record PK) : Prop :=
  match I.kind with
  | .unique _ _ => True
  | .multi _ _ _ _ => False

/-- The stores are exactly those of the records in `R`. -/
structure Consistent (indexes : List (Index Record PK)) (db : Stores) (R : Set Record) : Prop where
  distinct : ∀ r ∈ R, ∀ r' ∈ R, Item.key r = Item.key r' → r = r'
  encodes : ∀ r ∈ R, ∃ b, Item.toBytes r = .ok b
  main : ∃ st, db MAIN_STORE = some st ∧
    ∀ k v, st[k]? = some v ↔ ∃ r ∈ R, k = encode (Item.key r) ∧ Item.toBytes r = .ok v
  index : ∀ I ∈ indexes, ∃ st, db I.NAME = some st ∧
    ∀ k v, st[k]? = some v ↔ ∃ r ∈ R, k = encode (I.kind.storeKey (I.key r) (Item.key r)) ∧ v = encode (Item.key r)
  unique : ∀ I ∈ indexes, I.IsUnique → ∀ r ∈ R, ∀ r' ∈ R, I.key r = I.key r' → r = r'

theorem Consistent.mem_of_stored {indexes : List (Index Record PK)} {db : Stores} {R : Set Record}
    (h : Consistent indexes db R) (hlaw : LawfulCodec Record) {st : KVStore} (hst : db MAIN_STORE = some st)
    {k v : Bytes} (hv : st[k]? = some v) {r : Record} (hr : Item.fromBytes v = .ok r) : r ∈ R := by
  obtain ⟨st', hst', hmain⟩ := h.main
  rw [hst] at hst'
  cases hst'
  obtain ⟨r', hr', -, hbytes⟩ := (hmain k v).mp hv
  rw [hlaw r' v hbytes] at hr
  cases hr
  exact hr'

theorem Index.place_of_unique {I : Index Record PK} (hI : I.IsUnique) {r r' : Record} (h : I.key r = I.key r') :
    I.place r = I.place r' := by
  unfold Index.IsUnique at hI
  unfold Index.place
  cases hkind : I.kind with
  | unique eq debug => rw [h]; rfl
  | multi key append eq debug => rw [hkind] at hI; exact hI.elim

theorem Rep.consistent {PO' : Type} [Key PO PO'] {own : PK → PO} {indexes : List (Index Record PK)}
    {M : PO → Option Record} {db : Stores} (hk : KeysOk own) (hrep : Rep own indexes M db) :
    Consistent indexes db {r | Mem (pkey own) M r} := by
  have hsame : ∀ r, Mem (pkey own) M r → ∀ r', Mem (pkey own) M r' → pkey own r = pkey own r' → r = r' := by
    intro r hr r' hr' he
    have : some r = some r' := by rw [← hr, he, hr']
    exact Option.some.inj this
  refine ⟨fun r hr r' hr' he => hsame r hr r' hr' (congrArg own he), hrep.encodes, hrep.main, hrep.index, ?_⟩
  intro I hI hu r hr r' hr' he
  obtain ⟨st, -, hst⟩ := hrep.index I hI
  exact hsame r hr r' hr' (Index.same_place hk hst hr hr' (Index.place_of_unique hu he))

end Consistency

theorem keysOk_keyTy (pk : KeyTy Scalar) : KeysOk pk.toOwned where
  encode_own := (roundTrip_keyTy pk).encode
  injective := (selfDelimiting_keyTy pk).injective
  owned_injective := (selfDelimiting_keyTy pk.owned).injective

theorem keysOk_unsigned (n : Nat) : KeysOk (id : Unsigned n → Unsigned n) := keysOk_keyTy (.leaf (.unsigned n))

/-! ## A collection of users -/

structure User where
  id : UInt8
  email : UInt8
  region : UInt8
  deriving DecidableEq

instance : Item User (Unsigned 1) where
  key user := ⟨user.id.toBitVec⟩
  toBytes user := .ok [user.id, user.email, user.region]
  fromBytes
    | [id, email, region] => .ok ⟨id, email, region⟩
    | _ => .error ⟨"bad length"⟩

instance {n : Nat} : Debug (Unsigned n) := ⟨fun k => toString k.bits.toNat⟩

instance : Debug (Tup2 (Unsigned 1) (Ref (Unsigned 1))) := ⟨fun k => s!"({Debug.fmt k.fst}, {Debug.fmt k.snd.val})"⟩

def byEmail : Index User (Unsigned 1) where
  NAME := "by_email"
  IndexKey := Unsigned 1
  IndexOwnedKey := Unsigned 1
  kind := .unique inferInstance inferInstance
  key user := ⟨user.email.toBitVec⟩

def byRegion : Index User (Unsigned 1) where
  NAME := "by_region"
  IndexKey := Tup1 (Unsigned 1)
  IndexOwnedKey := Tup1 (Unsigned 1)
  kind := .multi inferInstance inferInstance inferInstance inferInstance
  key user := ⟨⟨user.region.toBitVec⟩⟩

theorem lawfulCodec_user : LawfulCodec User := by
  intro user b hb
  obtain ⟨id, email, region⟩ := user
  cases hb
  rfl

/-- Every state reachable from the empty collection, whichever calls failed on the way,
    is exactly the main store and the index stores of one set of records. -/
theorem index_consistency {Record : Type} {pk : KeyTy Scalar} [Debug pk.Val] [Item Record pk.Val]
    (indexes : List (Index Record pk.Val)) (hnames : (storeNames indexes).Nodup) (hlaw : LawfulCodec Record)
    {db : Stores} (h : Reach indexes db) : ∃ R : Set Record, Consistent indexes db R := by
  obtain ⟨M, hrep⟩ := rep_of_reach (keysOk_keyTy pk) hnames hlaw h
  exact ⟨_, hrep.consistent (keysOk_keyTy pk)⟩

/-- A user inserted, then a second insert whose transaction fails at its first call. -/
def oneUser : Stores :=
  (Op.exec [byEmail, byRegion] (fun _ => some ⟨"disk"⟩) (.insert ⟨2, 2, 2⟩)
    (Op.exec [byEmail, byRegion] noFaults (.insert ⟨1, 1, 1⟩) (emptyDb [byEmail, byRegion])).2).2

theorem reach_oneUser : Reach [byEmail, byRegion] oneUser := .step _ _ (.step _ _ .empty)

theorem index_consistency_users : ∃ R : Set User, Consistent [byEmail, byRegion] oneUser R :=
  @index_consistency User (.leaf (.unsigned 1)) (inferInstanceAs (Debug (Unsigned 1)))
    (inferInstanceAs (Item User (Unsigned 1))) [byEmail, byRegion] (by decide) lawfulCodec_user _ reach_oneUser

end Collette
