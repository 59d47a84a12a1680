/-
  Collette.Scan.Lookup — point lookups through a `Unique` index (`IndexScan::get` in
  `scan.rs`).

  A lookup encodes the owned index key, reads the primary key stored under it and then
  the record stored under that, both in the snapshot read when the scan was started. An
  index entry without its record would be no record here, and an error of a range scan;
  in a snapshot that stands for a table there is none.

  - `lookup_yields`: a lookup returns the record of the table with that index key, and
    nothing where there is none, whatever is committed meanwhile.
  - `point_lookup`: in any reachable state, the range scan of the one key returns the same
    record, and so does `Collection::get` of its primary key.
-/

import Collette.Scan.Ranges

namespace Collette

open Prog Collette.Lex Collette.Table

/-- `IndexScan::get`, which only `Unique` indexes have. -/
def IndexScan.get {Record PK PO O : Type} [Key PK PO] [Item Record PK] (I : Index Record PK) [Key I.IndexOwnedKey O]
    (handle : Stores) (key : I.IndexOwnedKey) : Prog World Error (Option Record) := do
  let indexKey := encode key
  let indexStore ← openReadStore handle I.NAME
  match ← indexStore.get indexKey with
  | none => return none
  | some primaryKey =>
    let primaryStore ← openReadStore handle MAIN_STORE
    decodeRecord (← primaryStore.get primaryKey)

section Lookup

variable {Record PK PO PO' O : Type} [Key PK PO] [Key PO PO'] [Item Record PK] {own : PK → PO}
  {indexes : List (Index Record PK)} {M : PO → Option Record} {db : Stores} {I : Index Record PK}
  [Key I.IndexOwnedKey O] {ownI : I.IndexKey → I.IndexOwnedKey}

/-- The entry of a record of the table is where its index key says. -/
theorem place_eq_encode (hu : I.IsUnique) (hkI : KeysOk ownI) (r : Record) : I.place r = encode (ownI (I.key r)) := by
  rw [hkI.encode_own]
  exact place_exact (e := .index I) (fun h => h hu) r

theorem lookup_yields (hk : KeysOk own) (hlaw : LawfulCodec Record) (hrep : Rep own indexes M db) (hI : I ∈ indexes)
    (hu : I.IsUnique) (hkI : KeysOk ownI) (k : I.IndexOwnedKey) :
    ∃ found, (∀ r, found = some r ↔ Mem (pkey own) M r ∧ ownI (I.key r) = k) ∧
      ∀ db', Yields (Idle noFaults db') (IndexScan.get I db k) (.ok found) := by
  obtain ⟨st, hst, hidx⟩ := hrep.index I hI
  obtain ⟨main, hmain, hrows⟩ := hrep.main
  have hplace : ∀ r, I.place r = encode (ownI (I.key r)) := place_eq_encode hu hkI
  cases hget : st[encode k]? with
  | none =>
    refine ⟨none, fun r => ⟨nofun, fun hm => ?_⟩, fun db' => ?_⟩
    · obtain ⟨hr, rfl⟩ := hm
      exact absurd ⟨r, hr, (hplace r).symm, rfl⟩ (hidx.get_eq_none.mp hget (encode (Item.key r)))
    · refine (openReadStore_yields hst).bind ((readGet_yields st _).bind ?_)
      rw [hget]
      exact Yields.pure _
  | some v =>
    obtain ⟨r, hr, hk', rfl⟩ := (hidx _ _).mp hget
    have hkey : ownI (I.key r) = k := hkI.owned_injective ((hplace r).symm.trans hk'.symm)
    obtain ⟨b, hb⟩ := hrep.encodes r hr
    have hrecord : main[encode (Item.key r)]? = some b := (hrows _ b).mpr ⟨r, hr, rfl, hb⟩
    refine ⟨some r, fun r' => ⟨fun h => ?_, fun hm => ?_⟩, fun db' => ?_⟩
    · obtain rfl := Option.some.inj h
      exact ⟨hr, hkey⟩
    · obtain ⟨hr', hkey'⟩ := hm
      have hsame : I.place r = I.place r' := by rw [hplace, hplace, hkey, hkey']
      rw [place_injective (e := .index I) hrep hI hst hk hr hr' hsame]
    · refine (openReadStore_yields hst).bind ((storeGet_yields hget).bind ?_)
      refine (openReadStore_yields hmain).bind ((storeGet_yields hrecord).bind ?_)
      exact (codec_yields _ (hlaw r b hb)).bind (Yields.pure _)

/-- The range scan of one key returns the record that has it, if one does. -/
theorem runScan_key (hk : KeysOk own) (hlaw : LawfulCodec Record) (hrep : Rep own indexes M db) (hI : I ∈ indexes)
    (hu : I.IsUnique) (hkI : KeysOk ownI) {found : Option Record} {k : I.IndexKey}
    (hfound : ∀ r, found = some r ↔ Mem (pkey own) M r ∧ ownI (I.key r) = ownI k) :
    (runScan (.index I) ((Selection.range (.included k, .included k)).chain I.kind.boundsEncoder none none)
      (World.start noFaults db)).1 = .ok (found.toList.map (ScanExecutor.index I).entry) := by
  have hexact : ¬ (ScanExecutor.index I).IsMulti := fun h => h hu
  have hbounds : I.kind.boundsEncoder = exactEncoder := boundsEncoder_exact hexact
  have hc := compile_chain_none I.kind.boundsEncoder (Selection.range (.included k, .included k)) none
  rw [hbounds] at hc ⊢
  obtain ⟨rs, hrun, hmem, hsorted⟩ := runScan_ok (e := .index I) hk hlaw hrep hI hc (le_refl (encode k))
  have hperm : rs.Perm found.toList := by
    refine (List.perm_ext_iff_of_nodup (nodup_of_before hsorted) (Option.toList_nodup found)).mpr fun r => ?_
    rw [Option.mem_toList, hfound, hmem]
    refine and_congr_right fun _ => ?_
    show encode k ≤ I.place r ∧ I.place r ≤ encode k ↔ _
    rw [← le_antisymm_iff, eq_comm, place_eq_encode hu hkI, ← hkI.encode_own k, hkI.owned_injective.eq_iff]
  rw [hrun]
  cases found with
  | none => rw [List.perm_nil.mp hperm]; rfl
  | some r => rw [List.perm_singleton.mp hperm]; rfl

end Lookup

/-! ## Built-in index keys -/

/-- A `Unique` index over a built-in key type. -/
structure UniqueIndex (Record : Type) (ik : KeyTy Scalar) where
  NAME : String
  key : Record → ik.Val
  eq : DecidableEq ik.Val
  debug : Debug ik.Val

def UniqueIndex.index {Record PK PO : Type} [Key PK PO] {ik : KeyTy Scalar} (U : UniqueIndex Record ik) :
    Index Record PK where
  NAME := U.NAME
  IndexKey := ik.Val
  IndexOwnedKey := ik.owned.Val
  kind := .unique U.eq U.debug
  key := U.key

instance {Record PK PO : Type} [Key PK PO] {ik : KeyTy Scalar} (U : UniqueIndex Record ik) :
    Key (U.index : Index Record PK).IndexOwnedKey ik.owned.owned.Val :=
  inferInstanceAs (Key ik.owned.Val ik.owned.owned.Val)

/-- In any reachable state a point lookup returns the one record with that index key, or
    nothing where there is none, whatever is committed after the scan was started; the
    range scan of that key returns the same, and `Collection::get` finds the record. -/
theorem point_lookup {Record : Type} {pk ik : KeyTy Scalar} [Debug pk.Val] [Item Record pk.Val]
    {indexes : List (Index Record pk.Val)} (hnames : (storeNames indexes).Nodup) (hlaw : LawfulCodec Record)
    {db : Stores} (hreach : Reach indexes db) {U : UniqueIndex Record ik} (hU : U.index ∈ indexes) :
    ∃ R : Set Record, Consistent indexes db R ∧ ∀ k : ik.owned.Val, ∃ found : Option Record,
      (∀ r, found = some r ↔ r ∈ R ∧ ik.toOwned (U.key r) = k) ∧
      (∀ db', (IndexScan.get (U.index : Index Record pk.Val) db k (World.start noFaults db')).1 = .ok found) ∧
      (∀ k' : ik.Val, ik.toOwned k' = k →
        (runScan (.index (U.index : Index Record pk.Val))
          ((Selection.range (.included k', .included k')).chain exactEncoder none none)
          (World.start noFaults db)).1 = .ok (found.toList.map fun r => ⟨r, .key (encode (U.key r))⟩)) ∧
      ∀ r, found = some r → (get Record (pk.toOwned (Item.key r)) (World.start noFaults db)).1 = .ok (some r) := by
  have hk := keysOk_keyTy pk
  have hkI : KeysOk ik.toOwned := keysOk_keyTy ik
  obtain ⟨M, hrep⟩ := rep_of_reach hk hnames hlaw hreach
  refine ⟨_, hrep.consistent hk, fun k => ?_⟩
  obtain ⟨found, hfound, hget⟩ := lookup_yields hk hlaw hrep hU trivial hkI k
  refine ⟨found, hfound, fun db' => (hget db' _ ⟨rfl, rfl⟩).1, fun k' hk' => ?_, fun r hr => ?_⟩
  · subst hk'
    exact runScan_key hk hlaw hrep hU trivial hkI hfound
  · obtain ⟨s, hs, -⟩ := get_ok hk hlaw hrep (pk.toOwned (Item.key r))
    rw [hs]
    exact congrArg _ ((hfound r).mp hr).1

/-- `byEmail`, by the type of its keys. -/
def uniqueEmail : UniqueIndex User (.leaf (.unsigned 1)) where
  NAME := "by_email"
  key user := ⟨user.email.toBitVec⟩
  eq := inferInstanceAs (DecidableEq (Unsigned 1))
  debug := inferInstanceAs (Debug (Unsigned 1))

/-- The user with email 1, everything being removed before `get`. -/
theorem point_lookup_users :
    ∃ (R : Set User) (found : Option User), Consistent [byEmail, byRegion] oneUser R ∧
      (∀ r, found = some r ↔ r ∈ R ∧ uniqueEmail.key r = (⟨1⟩ : Unsigned 1)) ∧
      (IndexScan.get (uniqueEmail.index : Index User (Unsigned 1)) oneUser (⟨1⟩ : Unsigned 1)
        (World.start noFaults (emptyDb [byEmail, byRegion]))).1 = .ok found := by
  obtain ⟨R, hR, hlookup⟩ := @point_lookup User (.leaf (.unsigned 1)) (.leaf (.unsigned 1))
    (inferInstanceAs (Debug (Unsigned 1))) (inferInstanceAs (Item User (Unsigned 1))) [byEmail, byRegion] (by decide)
    lawfulCodec_user _ reach_oneUser uniqueEmail List.mem_cons_self
  obtain ⟨found, hfound, hget, -⟩ := hlookup (⟨1⟩ : Unsigned 1)
  exact ⟨R, found, hR, hfound, hget _⟩

end Collette
