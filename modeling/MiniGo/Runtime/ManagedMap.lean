/-
Managed maps (`runtime/managed_map.go`).

A map is an identity object with a header, a directory of slabs with 64 entries
each, and a table of bucket heads. The chains of the buckets and the list of
free entries are threaded through the next words of the entries. Payload words
are natural numbers with the limits of the source checked explicitly; keys and
values are kept in typed lanes, whose encoding is a parameter.
-/
import MiniGo.Lib.ObjectStore
import MiniGo.Runtime.Equality

namespace MiniGo.Runtime

open ObjectStore

def maxUint32 : Nat := 2 ^ 32 - 1

def managedMapSlabEntries : Nat := 64

def errManagedCollection : Fault :=
  .error "managed allocation requires an owner collection"

def errManagedLimit : Fault := .error "managed storage exceeds memory limit"

def errManagedReference : Fault := .error "invalid or stale managed reference"

/-- `vmMapKey`. -/
structure MapKey where
  kind : Nat := 0
  typeIdentity : String := ""
  bool : Bool := false
  int64 : Int := 0
  uint64 : Nat := 0
  text : String := ""
  nonReflexive : Bool := false
  sequence : Nat := 0
deriving Repr, DecidableEq, Inhabited

/-- `managedMapHeader`; 0 is the invalid reference. -/
structure MapHeader where
  directory : Nat := 0
  buckets : Nat := 0
  count : Nat := 0
  created : Nat := 0
  capacity : Nat := 0
  free : Nat := 0
deriving Repr, DecidableEq

/-- An entry of a slab: the metadata words and the lanes of key and value. -/
structure MapCell (RawKey RawValue : Type) where
  occupied : Bool
  generation : Nat
  hash : Nat
  next : Nat
  key : RawKey
  value : RawValue

/-- The objects of a map. The size of a directory or of a bucket table is the
length of its list. -/
inductive MapObject (RawKey RawValue : Type) where
  | identity (header : MapHeader)
  | directory (slabs : List Nat)
  | buckets (heads : List Nat)
  | slab (cells : List (MapCell RawKey RawValue))

/-- `vmMapEntry`. -/
structure MapEntry (Value : Type) where
  identity : Nat
  key : Value
  value : Value
deriving DecidableEq

/-- What a map uses of its module, its layouts and its heap. Reading back what
was encoded gives the same value, and a key with the same identity. -/
structure MapRuntime (Value RawKey RawValue : Type) where
  entryStride : Nat
  mapKey : Value → Except Fault MapKey
  managedMapKeyHash : MapKey → Nat
  managedMapValueNeedsAllocation : Value → Value → Bool
  encodeKey : Value → Except Fault RawKey
  encodeValue : Value → Except Fault RawValue
  decodeKey : RawKey → Value
  decodeValue : RawValue → Value
  clearedKey : RawKey
  clearedValue : RawValue
  /-- Which requests for memory fail. -/
  fails : Nat → Bool
  mapKey_decodeKey : ∀ key raw, encodeKey key = .ok raw → mapKey (decodeKey raw) = mapKey key
  decodeValue_encodeValue : ∀ value raw, encodeValue value = .ok raw → decodeValue raw = value

/-- Actions on the heap of a map. -/
abbrev MapM (RawKey RawValue : Type) := Action (MapObject RawKey RawValue) Fault

namespace ManagedMap

variable {Value RawKey RawValue : Type} (runtime : MapRuntime Value RawKey RawValue)

def cleared : MapCell RawKey RawValue :=
  ⟨false, 0, 0, 0, runtime.clearedKey, runtime.clearedValue⟩

def outsideRead : Fault := .error "managed read outside payload"

def outsideWrite : Fault := .error "managed write outside payload"

section Payloads

def readHeader (identity : Nat) : MapM RawKey RawValue MapHeader := do
  match ← resolve errManagedReference identity with
  | .identity header => pure header
  | _ => throw outsideRead

def headerWrite (header : MapHeader) :
    MapObject RawKey RawValue → Except Fault (MapObject RawKey RawValue)
  | .identity _ => .ok (.identity header)
  | _ => .error outsideWrite

def writeHeader (identity : Nat) (header : MapHeader) :
    MapM RawKey RawValue Unit :=
  modify errManagedReference identity (headerWrite header)

/-- `resolveObject` and the number of references in the directory. -/
def directorySize (directory : Nat) : MapM RawKey RawValue Nat := do
  match ← resolve errManagedReference directory with
  | .directory slabs => pure slabs.length
  | _ => throw outsideRead

def readReference (directory position : Nat) : MapM RawKey RawValue Nat := do
  match ← resolve errManagedReference directory with
  | .directory slabs =>
    match slabs[position]? with
    | some slab => pure slab
    | none => throw outsideRead
  | _ => throw outsideRead

def referenceWrite (position slab : Nat) :
    MapObject RawKey RawValue → Except Fault (MapObject RawKey RawValue)
  | .directory slabs =>
    if position < slabs.length then .ok (.directory (slabs.set position slab))
    else .error outsideWrite
  | _ => .error outsideWrite

def writeReference (directory position slab : Nat) : MapM RawKey RawValue Unit :=
  modify errManagedReference directory (referenceWrite position slab)

def referenceCopy (origin : List Nat) (count : Nat) :
    MapObject RawKey RawValue → Except Fault (MapObject RawKey RawValue)
  | .directory slabs =>
    if count ≤ origin.length ∧ count ≤ slabs.length then
      .ok (.directory (origin.take count ++ slabs.drop count))
    else .error (.error "managed copy outside payload")
  | _ => .error (.error "managed copy outside payload")

/-- `heap.copy` between directories. -/
def copyReferences (target source count : Nat) : MapM RawKey RawValue Unit := do
  match ← resolve errManagedReference source with
  | .directory origin =>
    modify errManagedReference target (referenceCopy origin count)
  | _ => throw (.error "managed copy outside payload")

/-- `resolveObject` and the number of words in the bucket table. -/
def bucketCount (buckets : Nat) : MapM RawKey RawValue Nat := do
  match ← resolve errManagedReference buckets with
  | .buckets heads => pure heads.length
  | _ => throw outsideRead

def readBucket (buckets bucket : Nat) : MapM RawKey RawValue Nat := do
  match ← resolve errManagedReference buckets with
  | .buckets heads =>
    match heads[bucket]? with
    | some head => pure head
    | none => throw outsideRead
  | _ => throw outsideRead

def bucketWrite (bucket head : Nat) :
    MapObject RawKey RawValue → Except Fault (MapObject RawKey RawValue)
  | .buckets heads =>
    if bucket < heads.length then .ok (.buckets (heads.set bucket head))
    else .error outsideWrite
  | _ => .error outsideWrite

def writeBucket (buckets bucket head : Nat) : MapM RawKey RawValue Unit :=
  modify errManagedReference buckets (bucketWrite bucket head)

def bucketClear :
    MapObject RawKey RawValue → Except Fault (MapObject RawKey RawValue)
  | .buckets heads => .ok (.buckets (heads.map fun _ => 0))
  | _ => .error (.error "managed clear outside payload")

def clearBuckets (buckets : Nat) : MapM RawKey RawValue Unit :=
  modify errManagedReference buckets bucketClear

def readCell (slab offset : Nat) : MapM RawKey RawValue (MapCell RawKey RawValue) := do
  match ← resolve errManagedReference slab with
  | .slab cells =>
    match cells[offset]? with
    | some cell => pure cell
    | none => throw outsideRead
  | _ => throw outsideRead

def cellWrite (offset : Nat)
    (change : MapCell RawKey RawValue → MapCell RawKey RawValue) :
    MapObject RawKey RawValue → Except Fault (MapObject RawKey RawValue)
  | .slab cells =>
    match cells[offset]? with
    | some cell => .ok (.slab (cells.set offset (change cell)))
    | none => .error outsideWrite
  | _ => .error outsideWrite

/-- A write to some words or lanes of an entry. -/
def modifyCell (slab offset : Nat)
    (change : MapCell RawKey RawValue → MapCell RawKey RawValue) :
    MapM RawKey RawValue Unit :=
  modify errManagedReference slab (cellWrite offset change)

def location (header : MapHeader) (index : Nat) :
    MapM RawKey RawValue (Nat × Nat) := do
  if index = 0 ∨ index > header.capacity then
    throw (.error "managed map index outside entries")
  else
    let slab ← readReference header.directory ((index - 1) / managedMapSlabEntries)
    pure (slab, (index - 1) % managedMapSlabEntries)

end Payloads

section Capacity

/-- `registerLayout`. -/
def registerLayout : MapM RawKey RawValue Unit := request runtime.fails errManagedLimit

/-- `reserveWithBatch` and `commit`. -/
def reserve (physical : Nat) (object : MapObject RawKey RawValue) :
    MapM RawKey RawValue Nat := do
  if physical > maxUint32 - 7 then throw errManagedLimit
  else
    request runtime.fails errManagedCollection
    allocate object

/-- The size of a directory or of a bucket table that may be missing. -/
def currentSize (ref : Nat) (size : Nat → MapM RawKey RawValue Nat) :
    MapM RawKey RawValue Nat :=
  if ref ≠ 0 then size ref else pure 0

/-- The references that a new directory takes over. -/
def copySlabs (header : MapHeader) (directory : Nat) : MapM RawKey RawValue Unit :=
  if header.capacity / managedMapSlabEntries ≠ 0 then
    copyReferences directory header.directory (header.capacity / managedMapSlabEntries)
  else pure ()

/-- The directory for a number of slabs: the old one if it is large enough. -/
def growDirectory (header : MapHeader) (slabs : Nat) :
    MapM RawKey RawValue Nat := do
  let old ← currentSize header.directory directorySize
  if slabs > old then
    if old * 2 > maxUint32 then throw errManagedLimit
    else
      let count := max 8 (max slabs (old * 2))
      let directory ← reserve runtime (count * 8) (.directory (List.replicate count 0))
      copySlabs header directory
      pure directory
  else pure header.directory

/-- The loop that allocates slabs. -/
def allocateSlabs : Nat → MapM RawKey RawValue (List Nat)
  | 0 => pure []
  | count + 1 => do
      let slab ← reserve runtime (runtime.entryStride * managedMapSlabEntries)
        (.slab (List.replicate managedMapSlabEntries (cleared runtime)))
      let rest ← allocateSlabs count
      pure (slab :: rest)

/-- The loop that doubles the number of buckets. -/
def doubleBuckets (target : Nat) : Nat → Nat → MapM RawKey RawValue Nat
  | 0, _ => throw errManagedLimit
  | fuel + 1, count =>
    if count < target then
      if count > maxUint32 / 2 then throw errManagedLimit
      else doubleBuckets target fuel (count * 2)
    else pure count

/-- The bucket table for a capacity and its size: the old one if it is large
enough. The size fits in a word, so 33 rounds of the loop are enough. -/
def growBuckets (header : MapHeader) (capacity : Nat) :
    MapM RawKey RawValue (Nat × Nat) := do
  let old ← currentSize header.buckets bucketCount
  if capacity * 2 > maxUint32 then throw errManagedLimit
  else if old < capacity * 2 then
    let count ← doubleBuckets (capacity * 2) 33 1
    let buckets ← reserve runtime (count * 4) (.buckets (List.replicate count 0))
    pure (buckets, count)
  else pure (header.buckets, old)

/-- The body of the loop that fills a new bucket table. -/
def rehashEntry (header : MapHeader) (buckets count index : Nat) :
    MapM RawKey RawValue Unit := do
  let (slab, offset) ← location header index
  let cell ← readCell slab offset
  if cell.occupied then
    let bucket := cell.hash &&& (count - 1)
    let head ← readBucket buckets bucket
    modifyCell slab offset fun cell => { cell with next := head }
    writeBucket buckets bucket index

def rehash (header : MapHeader) (buckets count : Nat) :
    List Nat → MapM RawKey RawValue Unit
  | [] => pure ()
  | index :: rest => do
      rehashEntry header buckets count index
      rehash header buckets count rest

/-- Fills the bucket table of a map unless it is the old one. -/
def fillBuckets (header : MapHeader) (buckets count : Nat) :
    MapM RawKey RawValue Unit :=
  if buckets ≠ header.buckets then
    rehash header buckets count (List.range' 1 header.created)
  else pure ()

/-- The loop that enters the new slabs in the directory. -/
def publishSlabs (directory : Nat) : Nat → List Nat → MapM RawKey RawValue Unit
  | _, [] => pure ()
  | position, slab :: rest => do
      writeReference directory position slab
      publishSlabs directory (position + 1) rest

/-- The part of `ensureCapacity` that is rolled back when it fails. -/
def grow (identity : Nat) (header : MapHeader) (capacity : Nat) :
    MapM RawKey RawValue MapHeader := do
  let slabs := capacity / managedMapSlabEntries
  let oldSlabs := header.capacity / managedMapSlabEntries
  let directory ← growDirectory runtime header slabs
  let newSlabs ← allocateSlabs runtime (slabs - oldSlabs)
  let (buckets, count) ← growBuckets runtime header capacity
  fillBuckets header buckets count
  publishSlabs directory oldSlabs newSlabs
  let header := { header with directory, buckets, capacity }
  writeHeader identity header
  pure header

/-- `ensureCapacity`. -/
def ensureCapacity (identity : Nat) (header : MapHeader) (index : Nat) :
    MapM RawKey RawValue MapHeader := do
  if index ≤ header.capacity then pure header
  else
    registerLayout runtime
    registerLayout runtime
    registerLayout runtime
    if index > maxUint32 - managedMapSlabEntries then throw errManagedLimit
    else
      rollback (grow runtime identity header
        ((index + managedMapSlabEntries - 1) / managedMapSlabEntries * managedMapSlabEntries))

end Capacity

section Entries

def fallible {α : Type} : Except Fault α → MapM RawKey RawValue α
  | .ok value => pure value
  | .error fault => throw fault

/-- `writeInlineValueWithLayout`; nested values are allocated. -/
def encode {Raw : Type} (encoded : Except Fault Raw) :
    MapM RawKey RawValue Raw := do
  request runtime.fails errManagedCollection
  fallible encoded

def readEntry (header : MapHeader) (index generation : Nat) :
    MapM RawKey RawValue (Option (MapEntry Value)) := do
  if index = 0 ∨ index > header.created then pure none
  else
    let (slab, offset) ← location header index
    let cell ← readCell slab offset
    if !cell.occupied ∨ (generation ≠ 0 ∧ generation ≠ cell.generation) then
      pure none
    else
      pure (some {
        identity := cell.generation * 2 ^ 32 + index
        key := runtime.decodeKey cell.key
        value := runtime.decodeValue cell.value })

/-- The test of an entry with the right hash in the loop of `find`. -/
def candidate (header : MapHeader) (key : MapKey) (index : Nat) :
    MapM RawKey RawValue (Option (MapEntry Value)) := do
  match ← readEntry runtime header index 0 with
  | none => pure none
  | some entry =>
    let candidate ← fallible (runtime.mapKey entry.key)
    pure (if candidate = key then some entry else none)

/-- The test of an entry in the loop of `find`. -/
def matching (header : MapHeader) (key : MapKey) (hash index found : Nat) :
    MapM RawKey RawValue (Option (MapEntry Value)) :=
  if found = hash then candidate runtime header key index else pure none

/-- The loop of `find` along a chain, with a bound on its length. -/
def findFrom (header : MapHeader) (key : MapKey) (hash : Nat) :
    Nat → Nat → Nat → MapM RawKey RawValue (Nat × Nat × Option (MapEntry Value))
  | 0, _, _ => throw (.error "managed map chain does not end")
  | fuel + 1, index, previous =>
    if index = 0 then pure (0, 0, none)
    else do
      let (slab, offset) ← location header index
      let cell ← readCell slab offset
      match ← matching runtime header key hash index cell.hash with
      | some entry => pure (index, previous, some entry)
      | none => findFrom header key hash fuel cell.next index

/-- `find`: the index of the entry of a key and the index before it on its
chain, or 0. A chain is no longer than the number of entries. -/
def find (header : MapHeader) (key : MapKey) (hash : Nat) :
    MapM RawKey RawValue (Nat × Nat × Option (MapEntry Value)) := do
  if key.nonReflexive ∨ header.buckets = 0 then pure (0, 0, none)
  else
    let count ← bucketCount header.buckets
    if count = 0 then throw (.error "managed map has an empty bucket table")
    else
      let index ← readBucket header.buckets (hash % count)
      findFrom runtime header key hash (header.created + 1) index 0

/-- The place of a new entry. -/
def newIndex (header : MapHeader) : MapM RawKey RawValue Nat :=
  if header.free ≠ 0 then pure header.free
  else if header.created = maxUint32 then throw errManagedLimit
  else pure (header.created + 1)

/-- The header after a new entry at an index whose link was `next`. -/
def insertedHeader (header : MapHeader) (index next : Nat) : MapHeader :=
  if header.free ≠ 0 then { header with count := header.count + 1, free := next }
  else { header with count := header.count + 1, created := index }

/-- The writes of `storeEntryWithBatch` for a new entry. -/
def placeEntry (identity : Nat) (header : MapHeader) (index hash : Nat)
    (key : RawKey) (value : RawValue) : MapM RawKey RawValue Unit := do
  let (slab, offset) ← location header index
  let cell ← readCell slab offset
  if cell.generation = maxUint32 then
    throw (.error "retired managed map entry in free list")
  else
    let count ← bucketCount header.buckets
    let bucket := hash % count
    let head ← readBucket header.buckets bucket
    modifyCell slab offset fun _ =>
      ⟨true, cell.generation + 1, hash, head, key, value⟩
    writeBucket header.buckets bucket index
    writeHeader identity (insertedHeader header index cell.next)

/-- The part of `storeEntryWithBatch` for a new entry. -/
def insertEntry (identity : Nat) (header : MapHeader) (hash : Nat)
    (key : RawKey) (value : RawValue) : MapM RawKey RawValue Unit := do
  let index ← newIndex header
  let header ← ensureCapacity runtime identity header index
  placeEntry identity header index hash key value

/-- `storeEntryWithBatch` with a batch at hand. -/
def storeWithBatch (identity : Nat) (key : MapKey) (guestKey value : Value) :
    MapM RawKey RawValue Unit := do
  let header ← readHeader identity
  let hash := runtime.managedMapKeyHash key
  let (index, _, _) ← find runtime header key hash
  let rawValue ← encode runtime (runtime.encodeValue value)
  if index ≠ 0 then
    let (slab, offset) ← location header index
    modifyCell slab offset fun cell => { cell with value := rawValue }
  else
    let rawKey ← encode runtime (runtime.encodeKey guestKey)
    insertEntry runtime identity header hash rawKey rawValue

/-- `storeEntry`; a mutation batch is acquired for values that need memory, and
what it published is released when the store fails. -/
def storeEntry (identity : Nat) (key : MapKey) (guestKey value : Value) :
    MapM RawKey RawValue Unit := do
  if runtime.managedMapValueNeedsAllocation guestKey value then
    request runtime.fails errManagedCollection
    rollback (storeWithBatch runtime identity key guestKey value)
  else storeWithBatch runtime identity key guestKey value

/-- The link of the entry before, or the head of the bucket, moves on. -/
def unlinkEntry (header : MapHeader) (hash previous next : Nat) :
    MapM RawKey RawValue Unit :=
  if previous = 0 then do
    let count ← bucketCount header.buckets
    if count = 0 then throw (.error "managed map has an empty bucket table")
    else writeBucket header.buckets (hash % count) next
  else do
    let (slab, offset) ← location header previous
    modifyCell slab offset fun cell => { cell with next }

/-- The last writes of `deleteEntryWithBatch`: an entry keeps its generation and
is free unless its generations are used up. -/
def vacateEntry (identity : Nat) (header : MapHeader)
    (slab offset index generation : Nat) : MapM RawKey RawValue Unit := do
  modifyCell slab offset fun _ => cleared runtime
  modifyCell slab offset fun cell => { cell with generation }
  if generation ≠ maxUint32 then
    modifyCell slab offset fun cell => { cell with next := header.free }
    writeHeader identity { header with free := index, count := header.count - 1 }
  else writeHeader identity { header with count := header.count - 1 }

/-- `deleteEntryWithBatch`. -/
def deleteEntry (identity : Nat) (key : MapKey) : MapM RawKey RawValue Unit := do
  let header ← readHeader identity
  let hash := runtime.managedMapKeyHash key
  match ← find runtime header key hash with
  | (index, previous, some entry) =>
    let (slab, offset) ← location header index
    let cell ← readCell slab offset
    unlinkEntry header hash previous cell.next
    vacateEntry runtime identity header slab offset index (entry.identity / 2 ^ 32)
  | (_, _, none) => pure ()

/-- The loop of `clearWithBatch`, from the last entry down; it gives the head of
the list of free entries. -/
def clearEntries (header : MapHeader) : Nat → Nat → MapM RawKey RawValue Nat
  | 0, free => pure free
  | index + 1, free => do
      let (slab, offset) ← location header (index + 1)
      let cell ← readCell slab offset
      modifyCell slab offset fun _ => cleared runtime
      modifyCell slab offset fun emptied =>
        { emptied with generation := cell.generation }
      if cell.generation ≠ maxUint32 then
        modifyCell slab offset fun cell => { cell with next := free }
        clearEntries header index (index + 1)
      else clearEntries header index free

/-- `clearWithBatch`. -/
def clear (identity : Nat) : MapM RawKey RawValue Unit := do
  let header ← readHeader identity
  if header.buckets = 0 then pure ()
  else
    clearBuckets header.buckets
    let free ← clearEntries runtime header header.created 0
    writeHeader identity { header with free, count := 0 }

/-- The answer of a query that has none when it fails. -/
def query {α : Type} (failed : α) (action : MapM RawKey RawValue α) :
    MapM RawKey RawValue α := fun store =>
  match action store with
  | .ok result after => .ok result after
  | .error _ after => .ok failed after

def length (identity : Nat) : MapM RawKey RawValue Nat :=
  query 0 do
    let header ← readHeader identity
    pure header.count

def loadEntry (identity : Nat) (key : MapKey) :
    MapM RawKey RawValue (Option (MapEntry Value)) :=
  query none do
    let header ← readHeader identity
    let (_, _, entry) ← find runtime header key (runtime.managedMapKeyHash key)
    pure entry

/-- `loadIdentity`; an identity is a generation and an index. -/
def loadIdentity (identity entry : Nat) :
    MapM RawKey RawValue (Option (MapEntry Value)) :=
  query none do
    if entry = 0 then pure none
    else
      let header ← readHeader identity
      readEntry runtime header (entry % 2 ^ 32) (entry / 2 ^ 32)

/-- The loop of `entryIdentities`. -/
def identitiesFrom (header : MapHeader) : List Nat → MapM RawKey RawValue (List Nat)
  | [] => pure []
  | index :: rest => do
      let (slab, offset) ← location header index
      let cell ← readCell slab offset
      let identities ← identitiesFrom header rest
      pure (if cell.occupied then
        (cell.generation * 2 ^ 32 + index) :: identities else identities)

def entryIdentities (identity : Nat) : MapM RawKey RawValue (List Nat) :=
  query [] do
    let header ← readHeader identity
    identitiesFrom header (List.range' 1 header.created)

end Entries

section Create

/-- The loop of `newManagedMapWithBatch` over the initial entries. -/
def storeSeeds (identity : Nat) :
    List (MapKey × Value × Value) → MapM RawKey RawValue Unit
  | [] => pure ()
  | (key, guestKey, value) :: rest => do
      storeEntry runtime identity key guestKey value
      storeSeeds identity rest

/-- `newManagedMapWithBatch`. -/
def newManagedMap (seeds : List (MapKey × Value × Value)) (capacity : Nat) :
    MapM RawKey RawValue Nat := rollback do
  registerLayout runtime
  let identity ← reserve runtime 32 (.identity {})
  let capacity := max capacity seeds.length
  if capacity > maxUint32 - managedMapSlabEntries then throw errManagedLimit
  else
    if capacity > 0 then
      let _ ← ensureCapacity runtime identity {} capacity
    storeSeeds runtime identity seeds
    pure identity

end Create

end ManagedMap

end MiniGo.Runtime
