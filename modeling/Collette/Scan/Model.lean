/-
  Collette.Scan.Model — scan builders and the iterators they open (`scan.rs`, `iter.rs`).

  A scan starts full and is refined by a chain of builders, each around the one before:
  `prefix`, `range`, `direction`, `after`. `compile` turns the chain into byte bounds and
  a direction; `iter` hands these to the executor, which opens the store of the scan in
  the snapshot read when the scan was started.

  The keys of the primary store are primary keys and its values records. The keys of an
  index store are store keys and its values primary keys, so its iterator looks every
  entry up in the primary store of the same snapshot.
-/

import Collette.Collection.Model

namespace Collette

/-! ## Cursors -/

inductive Cursor where
  | none
  | key (bytes : Bytes)
  deriving DecidableEq, Repr

def Cursor.intoKeyVec : Cursor → Option Bytes
  | .none => Option.none
  | .key bytes => some bytes

structure Entry (Record : Type) where
  record : Record
  key : Cursor

/-! ## Builders -/

structure CompiledScan where
  range : ScanRange
  direction : Direction
  deriving DecidableEq, Repr

/-- A scan over the logical keys `K`. A range is held encoded. -/
inductive Scan (K : Type) {KO : Type} [Key K KO] : Type 1 where
  | full
  | prefixed {P S PO SO : Type} [Key P PO] [Key S SO] [Prefixable K P S] (p : P) (inner : Scan K)
  | range (bounds : ScanRange) (inner : Scan K)
  | directed (direction : Direction) (inner : Scan K)
  | after (cursor : Cursor) (inner : Scan K)

section Builders

variable {K KO : Type} [Key K KO]

def Scan.compile : Scan K → Except Error CompiledScan
  | .full => .ok ⟨(.unbounded, .unbounded), .leftToRight⟩
  | @Scan.prefixed _ _ _ _ _ _ _ _ _ _ p inner => do
    let scan ← inner.compile
    pure { scan with range := encodePrefix p }
  | .range bounds inner => do
    let scan ← inner.compile
    pure { scan with range := bounds }
  | .directed direction inner => do
    let scan ← inner.compile
    pure { scan with direction := direction }
  | .after cursor inner => do
    let scan ← inner.compile
    match cursor.intoKeyVec with
    | none => pure scan
    | some cursor =>
      if ¬ contains scan.range cursor then
        throw .cursorOutOfBounds
      match scan.direction with
      | .leftToRight => pure { scan with range := (.excluded cursor, scan.range.2) }
      | .rightToLeft => pure { scan with range := (scan.range.1, .excluded cursor) }

/-- What a client selects, in logical keys: everything, `.range`, `.prefix`, or a range
    over the rest of the key after `.prefix`. -/
inductive Selection (K : Type) {KO : Type} [Key K KO] : Type 1 where
  | all
  | range (bounds : Bound K × Bound K)
  | prefixed {P S PO SO : Type} [Key P PO] [Key S SO] [Prefixable K P S] (p : P)
  | prefixedRange {P S PO SO : Type} [Key P PO] [Key S SO] [LinearOrder S] [Prefixable K P S] (p : P)
      (bounds : Bound S × Bound S)

def Selection.scan (E : BoundsEncoder K) : Selection K → Scan K
  | .all => .full
  | .range bounds => .range (E.encodeRange bounds) .full
  | @Selection.prefixed _ _ _ _ _ _ _ _ _ _ p => .prefixed p .full
  | @Selection.prefixedRange _ _ _ _ _ _ _ _ _ _ _ p bounds =>
    .range (E.encodePrefixedRange p bounds) (.prefixed p .full)

/-- The whole chain, `direction` and `after` being optional. -/
def Selection.chain (E : BoundsEncoder K) (selection : Selection K) (direction : Option Direction)
    (cursor : Option Cursor) : Scan K :=
  let scan := selection.scan E
  let scan := match direction with
    | some direction => Scan.directed direction scan
    | none => scan
  match cursor with
  | some cursor => .after cursor scan
  | none => scan

end Builders

/-! ## Executors -/

section Executors

variable {Record PK PO : Type} [Key PK PO]

/-- `CollectionScanExecutor` and `IndexScanExecutor`. -/
inductive ScanExecutor (Record PK : Type) {PO : Type} [Key PK PO] where
  | collection
  | index (I : Index Record PK)

@[reducible] def ScanExecutor.LogicalKey : ScanExecutor Record PK → Type
  | .collection => PK
  | .index I => I.IndexKey

@[reducible] def ScanExecutor.LogicalOwnedKey : ScanExecutor Record PK → Type
  | .collection => PO
  | .index I => I.IndexOwnedKey

instance : (e : ScanExecutor Record PK) → Key e.LogicalKey e.LogicalOwnedKey
  | .collection => inferInstanceAs (Key PK PO)
  | .index I => I.keyImpl

def ScanExecutor.boundsEncoder : (e : ScanExecutor Record PK) → BoundsEncoder e.LogicalKey
  | .collection => exactEncoder
  | .index I => I.kind.boundsEncoder

/-- The store the scan runs over. -/
def ScanExecutor.store : ScanExecutor Record PK → String
  | .collection => MAIN_STORE
  | .index I => I.NAME

/-- `ContainsIndex`: only registered indexes can be scanned. -/
def ScanExecutor.Registered (indexes : List (Index Record PK)) : ScanExecutor Record PK → Prop
  | .collection => True
  | .index I => I ∈ indexes

/-! ## Iterators -/

/-- `CollectionIterator` and `IndexIterator`, over what is left of a backend iterator. -/
inductive ScanIterator (Record : Type) where
  | collection (inner : List (Bytes × Bytes))
  | index (inner : List (Bytes × Bytes)) (primaryStore : ReadStore)

def ScanExecutor.open (handle : Stores) (range : ScanRange) (direction : Direction) :
    ScanExecutor Record PK → Prog World Error (ScanIterator Record)
  | .collection => do
    let store ← openReadStore handle MAIN_STORE
    let inner ← store.scan range direction
    pure (.collection inner)
  | .index I => do
    let store ← openReadStore handle I.NAME
    let inner ← store.scan range direction
    let primaryStore ← openReadStore handle MAIN_STORE
    pure (.index inner primaryStore)

/-- `Scan::iter`, on the snapshot read when the scan was started. -/
def ScanExecutor.iter (e : ScanExecutor Record PK) (handle : Stores) (scan : Scan e.LogicalKey) :
    Prog World Error (ScanIterator Record) := do
  let compiled ← Prog.ofExcept scan.compile
  e.open handle compiled.range compiled.direction

variable [Item Record PK]

/-- The next result, if there is one, and the iterator after it. -/
def ScanIterator.next : ScanIterator Record → Option (Prog World Error (Entry Record) × ScanIterator Record)
  | .collection [] => none
  | .collection (entry :: inner) =>
    let result := do
      let (key, value) ← backend .next (pure entry)
      let record ← codec (.fromBytes value) (Item.fromBytes value)
      pure ⟨record, .key key⟩
    some (result, .collection inner)
  | .index [] _ => none
  | .index (entry :: inner) primaryStore =>
    let result := do
      let (key, value) ← backend .next (pure entry)
      match ← primaryStore.get value with
      | none => Prog.throw (.unexpected s!"primary key from index not found: {value}")
      | some recordBytes =>
        let record ← codec (.fromBytes recordBytes) (Item.fromBytes recordBytes)
        pure ⟨record, .key key⟩
    some (result, .index inner primaryStore)

end Executors

end Collette
