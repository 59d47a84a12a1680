/-
  Collette.Collection.Model — a collection and its operations (`item.rs`, `index.rs`,
  `index_registry.rs`, `collection.rs`).

  A collection keeps each record in the main store under its encoded primary key and,
  for each registered index, an entry in the index's own store: from the encoded store
  key of the record to its encoded primary key. For a `Unique` index the store key is
  the index key; for a `Multi` index it is the index key with the primary key appended.

  An operation is one write transaction. It changes the main store, then lets every
  index of the registry follow in order, then commits. Any error on the way returns
  early, with the transaction dropped.
-/

import Collette.Store.Backend

namespace Collette

/-! ## Items -/

class Item (Record : Type) (PK : outParam Type) where
  key : Record → PK
  toBytes : Record → Except CodecError Bytes
  fromBytes : Bytes → Except CodecError Record

/-- Decoding undoes encoding. -/
def LawfulCodec (Record : Type) {PK : Type} [Item Record PK] : Prop :=
  ∀ (r : Record) b, Item.toBytes r = .ok b → Item.fromBytes b = .ok r

/-! ## Indexes -/

/-- `Unique` and `Multi`, each with the traits of its store keys. -/
inductive IndexKind (K PK : Type) {KO PO : Type} [Key K KO] [Key PK PO] : Type 1 where
  | unique (eq : DecidableEq K) (debug : Debug K)
  | multi {AK AKO : Type} (key : Key AK AKO) (append : AppendKey K PK AK AKO) (eq : DecidableEq AK) (debug : Debug AK)

section Kinds

variable {K PK KO PO : Type} [Key K KO] [Key PK PO]

@[reducible] def IndexKind.StoreKey : IndexKind K PK → Type
  | .unique _ _ => K
  | @IndexKind.multi _ _ _ _ _ _ AK _ _ _ _ _ => AK

@[reducible] def IndexKind.StoreKeyOwned : IndexKind K PK → Type
  | .unique _ _ => KO
  | @IndexKind.multi _ _ _ _ _ _ _ AKO _ _ _ _ => AKO

instance : (kind : IndexKind K PK) → Key kind.StoreKey kind.StoreKeyOwned
  | .unique _ _ => inferInstanceAs (Key K KO)
  | .multi key _ _ _ => key

instance : (kind : IndexKind K PK) → DecidableEq kind.StoreKey
  | .unique eq _ => eq
  | .multi _ _ eq _ => eq

instance : (kind : IndexKind K PK) → Debug kind.StoreKey
  | .unique _ debug => debug
  | .multi _ _ _ debug => debug

def IndexKind.storeKey : (kind : IndexKind K PK) → K → PK → kind.StoreKey
  | .unique _ _ => fun k _ => k
  | .multi _ append _ _ => append.append

def IndexKind.boundsEncoder : IndexKind K PK → BoundsEncoder K
  | .unique _ _ => exactEncoder
  | .multi _ _ _ _ => prefixEncoder

end Kinds

structure Index (Record PK : Type) {PO : Type} [Key PK PO] where
  NAME : String
  IndexKey : Type
  IndexOwnedKey : Type
  [keyImpl : Key IndexKey IndexOwnedKey]
  kind : IndexKind IndexKey PK
  key : Record → IndexKey

attribute [instance] Index.keyImpl

section Collection

variable {Record PK PO PO' : Type} [Key PK PO] [Key PO PO'] [Debug PK] [Item Record PK]

def Index.update (I : Index Record PK) (pk : PK) (old : Option Record) (new : Record) : Prog World Error Unit :=
  observe (.indexUpdate I.NAME) do
    let newSkey := I.kind.storeKey (I.key new) pk
    let store ← openStore I.NAME
    if let some item := old then
      let oldSkey := I.kind.storeKey (I.key item) pk
      if oldSkey = newSkey then
        return ()
      store.remove (encode oldSkey)
    let skey := encode newSkey
    if (← store.get skey).isSome then
      Prog.throw (.alreadyExists (Debug.fmt newSkey))
    store.set skey (encode pk)

def Index.remove (I : Index Record PK) (pk : PK) (item : Record) : Prog World Error Unit :=
  observe (.indexRemove I.NAME) do
    let store ← openStore I.NAME
    let skey := I.kind.storeKey (I.key item) pk
    store.remove (encode skey)

/-- `IndexRegistry::update`, over the list of registered indexes. -/
def updateIndexes (pk : PK) (old : Option Record) (new : Record) : List (Index Record PK) → Prog World Error Unit
  | [] => pure ()
  | I :: tail => do
    I.update pk old new
    updateIndexes pk old new tail

def removeIndexes (pk : PK) (item : Record) : List (Index Record PK) → Prog World Error Unit
  | [] => pure ()
  | I :: tail => do
    I.remove pk item
    removeIndexes pk item tail

/-! ## Collections -/

def MAIN_STORE : String := "__main"

def storeNames (indexes : List (Index Record PK)) : List String := MAIN_STORE :: indexes.map (·.NAME)

omit [Debug PK] [Item Record PK] in
theorem name_mem_storeNames {indexes : List (Index Record PK)} {I : Index Record PK} (h : I ∈ indexes) :
    I.NAME ∈ storeNames indexes := List.mem_cons_of_mem _ (List.mem_map_of_mem h)

/-- `.map(|bytes| from_bytes(bytes)).transpose()?`. -/
def decodeRecord (bytes : Option Bytes) : Prog World Error (Option Record) :=
  match bytes with
  | some bytes => do
    let record ← codec (.fromBytes bytes) (Item.fromBytes bytes)
    pure (some record)
  | none => pure none

def insert (indexes : List (Index Record PK)) (value : Record) : Prog World Error Unit := do
  let pk := Item.key value
  let encPk := encode pk
  write
  let store ← openStore MAIN_STORE
  if (← store.get encPk).isSome then
    Prog.throw (.alreadyExists (Debug.fmt pk))
  store.set encPk (← codec .toBytes (Item.toBytes value))
  updateIndexes pk none value indexes
  commit

def update (indexes : List (Index Record PK)) (value : Record) : Prog World Error Unit := do
  let pk := Item.key value
  let encPk := encode pk
  write
  let store ← openStore MAIN_STORE
  let old ← decodeRecord (← store.get encPk)
  if old.isNone then
    Prog.throw (.notFound (Debug.fmt pk))
  store.set encPk (← codec .toBytes (Item.toBytes value))
  updateIndexes pk old value indexes
  commit

def save (indexes : List (Index Record PK)) (value : Record) : Prog World Error Unit := do
  let pk := Item.key value
  let encPk := encode pk
  write
  let store ← openStore MAIN_STORE
  let old ← decodeRecord (← store.get encPk)
  store.set encPk (← codec .toBytes (Item.toBytes value))
  updateIndexes pk old value indexes
  commit

/-- By the owned form of the primary key. -/
def remove (indexes : List (Index Record PK)) (pk : PO) : Prog World Error Unit := do
  let encPk := encode pk
  write
  let store ← openStore MAIN_STORE
  match ← decodeRecord (← store.get encPk) with
  | none => return ()
  | some record =>
    store.remove (encode pk)
    removeIndexes (Item.key record) record indexes
    commit

def get (Record : Type) {PK : Type} [Item Record PK] (key : PO) : Prog World Error (Option Record) := do
  let handle ← read
  let store ← openReadStore handle MAIN_STORE
  decodeRecord (← store.get (encode key))

/-! ## Runs -/

inductive Op (Record PO : Type) where
  | insert (value : Record)
  | update (value : Record)
  | save (value : Record)
  | remove (pk : PO)

def Op.run (indexes : List (Index Record PK)) : Op Record PO → Prog World Error Unit
  | .insert value => Collette.insert indexes value
  | .update value => Collette.update indexes value
  | .save value => Collette.save indexes value
  | .remove pk => Collette.remove indexes pk

/-- An operation on a database: what it returns and the stores committed after it. -/
def Op.exec (indexes : List (Index Record PK)) (F : List Event → Option BackendError) (op : Op Record PO)
    (db : Stores) : Outcome Error Unit × Stores :=
  let r := op.run indexes (World.start F db)
  (r.1, r.2.committed)

/-- `Collection::new` over an empty backend. -/
def emptyDb (indexes : List (Index Record PK)) : Stores := prepare (fun _ => none) (storeNames indexes)

/-- The committed states after any operations, each with any calls of it failing. -/
inductive Reach (indexes : List (Index Record PK)) : Stores → Prop where
  | empty : Reach indexes (emptyDb indexes)
  | step {db : Stores} (F : List Event → Option BackendError) (op : Op Record PO) :
      Reach indexes db → Reach indexes (op.exec indexes F db).2

end Collection

end Collette
