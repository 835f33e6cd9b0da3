/-
Runs of a managed map.

A new map holds its initial entries. Every finite sequence of operations on it is
answered as a Go map answers it: a reflexive key has the value that was stored last,
every store under another key adds an entry, and an operation that fails changes
nothing. The hash function and the requests for memory that fail are arbitrary; a store
fails only if one of its requests does, if its key or value is refused, or at a limit.
-/
import MiniGo.Runtime.ManagedMapSound

namespace MiniGo.Runtime

open List

/-- The operations on a map. -/
inductive MapOperation (Value : Type) where
  | store (guestKey : Value) (sequence : Nat) (value : Value)
  | delete (guestKey : Value)
  | clear
  | load (guestKey : Value)
  | length
  | identities

/-- The answers. The identities come with the entries they stand for. -/
inductive MapAnswer (Value : Type) where
  | done
  | loaded (value : Option Value)
  | count (entries : Nat)
  | listed (entries : List (Nat × Option (MapEntry Value)))
deriving DecidableEq

namespace GoMap

variable {Value RawKey RawValue : Type} (runtime : MapRuntime Value RawKey RawValue)

/-- The identity of a key and its value. -/
def Holds (map : Multiset (MapKey × Value)) (key : MapKey) : Option Value → Prop
  | some value => key.nonReflexive = false ∧ (key, value) ∈ map
  | none => key.nonReflexive = false → ∀ value, (key, value) ∉ map

/-- Every entry of the map is listed once. -/
structure Lists (map : Multiset (MapKey × Value))
    (entries : List (Nat × Option (MapEntry Value))) : Prop where
  distinct : (entries.map Prod.fst).Nodup
  present : ∀ listed ∈ entries, ∃ entry, listed.2 = some entry ∧ entry.identity = listed.1
  content : ∃ keys : List MapKey,
    entries.map (fun listed => listed.2.map fun entry => runtime.mapKey entry.key) =
      keys.map (fun key => some (.ok key)) ∧
    map = (keys.zip (entries.filterMap fun listed =>
      listed.2.map MapEntry.value) : List (MapKey × Value))

/-- What an operation answers and does. -/
inductive Step : Multiset (MapKey × Value) → MapOperation Value → MapAnswer Value →
    Multiset (MapKey × Value) → Prop where
  | store {map guestKey sequence value key} : runtime.mapKey guestKey = .ok key →
      Step map (.store guestKey sequence value) .done (GoMap.store key value map)
  | delete {map guestKey key} : runtime.mapKey guestKey = .ok key →
      Step map (.delete guestKey) .done (without key map)
  | clear {map} : Step map .clear .done 0
  | load {map guestKey key found} : runtime.mapKey guestKey = .ok key →
      Holds map key found → Step map (.load guestKey) (.loaded found) map
  | length {map} : Step map .length (.count map.card) map
  | identities {map entries} : Lists runtime map entries →
      Step map .identities (.listed entries) map

end GoMap

namespace ManagedMap

open ObjectStore Chain Ensures

variable {Value RawKey RawValue : Type} (runtime : MapRuntime Value RawKey RawValue)

/-- The entries of some identities. -/
def loadAll (identity : Nat) :
    List Nat → MapM RawKey RawValue (List (Nat × Option (MapEntry Value)))
  | [] => pure []
  | entry :: rest => do
      let found ← loadIdentity runtime identity entry
      let others ← loadAll identity rest
      pure ((entry, found) :: others)

/-- One operation on the map behind an identity. -/
def perform (identity : Nat) :
    MapOperation Value → MapM RawKey RawValue (MapAnswer Value)
  | .store guestKey sequence value => do
      let key ← fallible (runtime.mapKey guestKey)
      storeEntry runtime identity (keyForStore key sequence) guestKey value
      pure .done
  | .delete guestKey => do
      let key ← fallible (runtime.mapKey guestKey)
      deleteEntry runtime identity key
      pure .done
  | .clear => do
      clear runtime identity
      pure .done
  | .load guestKey => do
      let key ← fallible (runtime.mapKey guestKey)
      let entry ← loadEntry runtime identity key
      pure (.loaded (entry.map MapEntry.value))
  | .length => do
      let count ← length identity
      pure (.count count)
  | .identities => do
      let identities ← entryIdentities identity
      let entries ← loadAll runtime identity identities
      pure (.listed entries)

/-- An operation with the heaps before and after it. -/
structure Outcome (Value RawKey RawValue : Type) where
  before : Store (MapObject RawKey RawValue)
  answer : Except Fault (MapAnswer Value)
  after : Store (MapObject RawKey RawValue)

/-- What comes of a sequence of operations. -/
def performAll (identity : Nat) : List (MapOperation Value) →
    Store (MapObject RawKey RawValue) → List (Outcome Value RawKey RawValue)
  | [], _ => []
  | operation :: rest, store =>
    match perform runtime identity operation store with
    | .ok answer after => ⟨store, .ok answer, after⟩ :: performAll identity rest after
    | .error fault after => ⟨store, .error fault, after⟩ :: performAll identity rest after

/-- When an operation may fail. A store needs an identity of its key, an encoding of the
key and of the value, room for one more entry, and memory; the others need an identity
of their key. -/
def MayFail (identity : Nat) (before after : Store (MapObject RawKey RawValue)) :
    MapOperation Value → Prop
  | .store guestKey _ value => (∀ key, runtime.mapKey guestKey ≠ .ok key) ∨
      ¬Storable runtime before identity guestKey value ∨ Pressed runtime.fails before after
  | .delete guestKey | .load guestKey => ∀ key, runtime.mapKey guestKey ≠ .ok key
  | .clear | .length | .identities => False

/-- Outcomes as of operations on a Go map. -/
inductive Run (identity : Nat) : Multiset (MapKey × Value) → List (MapOperation Value) →
    List (Outcome Value RawKey RawValue) → Prop where
  | nil {map} : Run identity map [] []
  | failed {map operation before fault after operations outcomes} :
      MayFail runtime identity before after operation → Run identity map operations outcomes →
      Run identity map (operation :: operations) (⟨before, .error fault, after⟩ :: outcomes)
  | answered {map operation before answer after map' operations outcomes} :
      GoMap.Step runtime map operation answer map' → Run identity map' operations outcomes →
      Run identity map (operation :: operations) (⟨before, .ok answer, after⟩ :: outcomes)

variable {runtime} {store after : Store (MapObject RawKey RawValue)} {identity : Nat}
  {table : MapTable RawKey RawValue} {map : Multiset (MapKey × Value)}
  {places : Nat → Slot Value}

section Queries

theorem query_ok {α : Type} {failed res : α} {action : MapM RawKey RawValue α}
    (ha : action store = .ok res after) :
    query failed action store = .ok res after := by
  rw [query, ha]

theorem length_eq (hm : Represents runtime store identity map places) :
    length identity store = .ok map.card store := by
  obtain ⟨table, hv, hvl, rfl, rfl⟩ := hm
  refine query_ok ?_
  rw [bind_ok hv.readHeader, card_content, ← hvl.count]
  rfl

theorem loadEntry_eq (hm : Represents runtime store identity map places)
    (key : MapKey) : ∃ found, loadEntry runtime identity key store = .ok found store ∧
      GoMap.Holds map key (found.map MapEntry.value) := by
  obtain ⟨table, hv, hvl, rfl, rfl⟩ := hm
  obtain ⟨chain, hc⟩ := hvl.chains
  rcases find_eq hv hvl hc key with ⟨hfi, ha⟩ | ⟨pre, index, rest, hfi, hr, hl, hf, -⟩
  · refine ⟨none, query_ok ?_, fun hr val hmem => ?_⟩
    · rw [bind_ok hv.readHeader, bind_ok hfi]
      rfl
    · obtain ⟨index, hl, heq⟩ := mem_content.mp hmem
      exact ha hr index hl (congrArg Prod.fst heq).symm
  · refine ⟨some (entryOf runtime table index), query_ok ?_, hr, mem_content.mpr ⟨index, hl, ?_⟩⟩
    · rw [bind_ok hv.readHeader, bind_ok hfi]
      rfl
    · rw [hf]
      rfl

/-- The number of an entry: how often its place has been used, and the place. -/
def identityOf (generation index : Nat) : Nat := generation * 2 ^ 32 + index

theorem identityOf_div {generation index : Nat} (hi : index ≤ maxUint32) :
    identityOf generation index / 2 ^ 32 = generation := by
  unfold maxUint32 at hi
  unfold identityOf
  omega

theorem identityOf_mod {gen index : Nat} (hi : index ≤ maxUint32) :
    identityOf gen index % 2 ^ 32 = index := by
  unfold maxUint32 at hi
  unfold identityOf
  omega

variable {index : Nat} {indexes : List Nat}

theorem readEntry_of_not_live (hv : View store identity table)
    (hvl : Valid runtime table) (hl : ¬Live table index) (gen : Nat) :
    readEntry runtime table.header index gen store = .ok none store := by
  unfold readEntry
  by_cases hr : index = 0 ∨ index > table.header.created
  · rw [if_pos hr]
    rfl
  · obtain ⟨hz, hm⟩ := not_or.mp hr
    have hi : InTable table.header index :=
      ⟨hz, Nat.le_trans (Nat.le_of_not_lt hm) hvl.created_le⟩
    have hf : (table.cells index).occupied = false := by
      by_contra ho
      exact hl ⟨hz, Nat.le_of_not_lt hm, by simpa using ho⟩
    rw [if_neg hr, bind_ok (hv.cells.location hi)]
    dsimp only
    rw [bind_ok (hv.cells.readCell hi), if_pos (.inl (by simp [hf]))]
    rfl

theorem identitiesFrom_eq (hv : View store identity table)
    (hi : ∀ index ∈ indexes, InTable table.header index) :
    identitiesFrom table.header indexes store =
      .ok ((indexes.filter fun index => (table.cells index).occupied).map fun index =>
        identityOf (table.cells index).generation index) store := by
  induction indexes with
  | nil => rfl
  | cons index rest ih =>
    have hid := hi index mem_cons_self
    rw [identitiesFrom, bind_ok (hv.cells.location hid)]
    dsimp only
    rw [bind_ok (hv.cells.readCell hid), bind_ok (ih fun other ho =>
      hi other (mem_cons_of_mem _ ho))]
    cases hoc : (table.cells index).occupied with
    | true =>
      simp only [filter_cons, hoc, if_true, map_cons]
      rfl
    | false =>
      simp only [filter_cons, hoc]
      rfl

theorem entryIdentities_eq (hv : View store identity table) (hvl : Valid runtime table) :
    entryIdentities identity store = .ok ((liveIndexes table).map fun index =>
      identityOf (table.cells index).generation index) store := by
  refine query_ok ?_
  rw [bind_ok hv.readHeader, identitiesFrom_eq hv]
  · rfl
  · intro index hi
    have hr := mem_range'_1.mp hi
    exact ⟨by omega, Nat.le_trans (by omega) hvl.created_le⟩

theorem Live.le_maxUint32 (hv : Valid runtime table) (hl : Live table index) : index ≤ maxUint32 :=
  Nat.le_trans (hl.inTable hv).2 hv.bounded

theorem loadIdentity_live (hv : View store identity table)
    (hvl : Valid runtime table) (hl : Live table index) :
    loadIdentity runtime identity (identityOf (table.cells index).generation index) store =
      .ok (some (entryOf runtime table index)) store := by
  have hbd := hl.le_maxUint32 hvl
  refine query_ok ?_
  have hz : identityOf (table.cells index).generation index ≠ 0 := by
    have hi := hl.1
    unfold identityOf
    omega
  rw [if_neg hz, bind_ok hv.readHeader, identityOf_div hbd,
    identityOf_mod hbd, readEntry_eq hv hvl hl, if_neg (by simp)]

theorem loadAll_live (hv : View store identity table) (hvl : Valid runtime table)
    (hl : ∀ index ∈ indexes, Live table index) :
    loadAll runtime identity (indexes.map fun index =>
        identityOf (table.cells index).generation index) store =
      .ok (indexes.map fun index => (identityOf (table.cells index).generation index,
        some (entryOf runtime table index))) store := by
  induction indexes with
  | nil => rfl
  | cons index rest ih =>
    rw [map_cons, loadAll, bind_ok (loadIdentity_live hv hvl (hl index mem_cons_self)),
      bind_ok (ih fun other ho => hl other (mem_cons_of_mem _ ho))]
    rfl

theorem nodup_liveIndexes : (liveIndexes table).Nodup :=
  List.Nodup.filter _ nodup_range'

/-- Different entries have different identities. -/
theorem nodup_identities (hv : Valid runtime table) : ((liveIndexes table).map fun index =>
      identityOf (table.cells index).generation index).Nodup := by
  refine List.Nodup.map_on (fun first hfs second hsn heq => ?_) nodup_liveIndexes
  have hf := (mem_liveIndexes.mp hfs).le_maxUint32 hv
  have hs := (mem_liveIndexes.mp hsn).le_maxUint32 hv
  rw [← identityOf_mod hf, heq, identityOf_mod hs]

theorem lists_content (hv : Valid runtime table) :
    GoMap.Lists runtime (content runtime table) ((liveIndexes table).map fun index =>
      (identityOf (table.cells index).generation index, some (entryOf runtime table index))) := by
  refine ⟨?_, fun listed hl => ?_,
    (liveIndexes table).map fun index => keyOf runtime (table.cells index), ?_, ?_⟩
  · rw [map_map]
    exact nodup_identities hv
  · obtain ⟨index, -, rfl⟩ := mem_map.mp hl
    exact ⟨_, rfl, rfl⟩
  · simp only [map_map]
    refine map_congr_left fun index hi => ?_
    simp only [Function.comp_apply, Option.map_some, entryOf,
      (hv.keyed index (mem_liveIndexes.mp hi)).mapKey]
  · simp only [filterMap_map, Function.comp_def, Option.map_some, filterMap_eq_map', zip_map']
    rfl

end Queries

section Run

theorem fallible_spec {α : Type} {res : Except Fault α}
    {post : α → Store (MapObject RawKey RawValue) → Prop}
    {failed : Store (MapObject RawKey RawValue) → Prop}
    (hok : ∀ val, res = .ok val → post val store)
    (he : (∀ val, res ≠ .ok val) → failed store) :
    Ensures (fallible res) store post failed := by
  cases res with
  | ok val => exact Ensures.pure (hok val rfl)
  | error fault => exact throw (he fun val => by simp)

/-- One operation is a step of the Go map, or fails and changes nothing. -/
theorem perform_spec (hm : Represents runtime store identity map places) (op : MapOperation Value) :
    Ensures (perform runtime identity op) store (fun answer after => ∃ map' places',
        GoMap.Step runtime map op answer map' ∧
        Represents runtime after identity map' places')
      (fun after => MayFail runtime identity store after op ∧
        Represents runtime after identity map places) := by
  cases op with
  | store guestKey sequence val =>
    refine Ensures.bind (fallible_spec (fun key hk => ?_) fun hnone => ⟨.inl hnone, hm⟩)
    refine Ensures.bind (Ensures.mono (storeEntry_spec sequence hm hk)
      (fun _ after ha => ?_) fun after hs => ⟨.inr (or_iff_not_imp_left.mpr fun hstorable =>
        hs.2 (not_not.mp hstorable)), hm.keeps hs.1⟩)
    obtain ⟨places', -, ha⟩ := ha
    exact Ensures.pure ⟨_, places', .store hk, ha⟩
  | delete guestKey =>
    refine Ensures.bind (fallible_spec (fun key hk => ?_) fun hnone => ⟨hnone, hm⟩)
    obtain ⟨after, places', hd, -, ha⟩ := deleteEntry_eq hm key
    exact Ensures.bind (of_ok hd (Ensures.pure ⟨_, places', .delete hk, ha⟩))
  | clear =>
    obtain ⟨after, places', hc, -, ha⟩ := clear_eq hm
    exact Ensures.bind (of_ok hc (Ensures.pure ⟨_, places', .clear, ha⟩))
  | load guestKey =>
    refine Ensures.bind (fallible_spec (fun key hk => ?_) fun hnone => ⟨hnone, hm⟩)
    obtain ⟨found, hload, hf⟩ := loadEntry_eq hm key
    exact Ensures.bind (of_ok hload (Ensures.pure ⟨_, places, .load hk hf, hm⟩))
  | length =>
    exact Ensures.bind (of_ok (length_eq hm) (Ensures.pure ⟨_, places, .length, hm⟩))
  | identities =>
    have hma := hm
    obtain ⟨table, hv, hvl, rfl, rfl⟩ := hma
    exact Ensures.bind (of_ok (entryIdentities_eq hv hvl)
      (Ensures.bind (of_ok (loadAll_live hv hvl fun index hi =>
        mem_liveIndexes.mp hi)
        (Ensures.pure ⟨_, _, .identities (lists_content hvl), hm⟩))))

/-- A sequence of operations is answered as by a Go map. -/
theorem performAll_run (hm : Represents runtime store identity map places)
    (ops : List (MapOperation Value)) :
    Run runtime identity map ops (performAll runtime identity ops store) := by
  induction ops generalizing store map places with
  | nil => exact .nil
  | cons op rest ih =>
    have hs := perform_spec hm op
    unfold Ensures at hs
    unfold performAll
    split
    · next answer after heq =>
      rw [heq] at hs
      obtain ⟨map', places', hst, ha⟩ := hs
      exact .answered hst (ih ha)
    · next fault after heq =>
      rw [heq] at hs
      exact .failed hs.1 (ih hs.2)

end Run

section Create

/-- The table of a map without entries. -/
def emptyTable (runtime : MapRuntime Value RawKey RawValue) :
    MapTable RawKey RawValue where
  header := {}
  directory := []
  heads := []
  cells := fun _ => cleared runtime

theorem not_live_emptyTable (index : Nat) : ¬Live (emptyTable runtime) index :=
  fun hl => absurd hl.2.2 (by simp [emptyTable, cleared])

theorem valid_emptyTable : Valid runtime (emptyTable runtime) where
  chains := ⟨fun _ => [], fun bkt hb => absurd hb (Nat.not_lt_zero bkt)⟩
  free := ⟨[], Linked.nil, by simp⟩
  created_le := Nat.le_refl 0
  bounded := Nat.zero_le _
  fresh := fun _ _ => rfl
  sized := fun hc => absurd hc (Nat.lt_irrefl 0)
  count := rfl
  keyed := fun index hl => absurd hl (not_live_emptyTable index)
  unique := fun first _ hf => absurd hf (not_live_emptyTable first)

theorem view_emptyTable (runtime : MapRuntime Value RawKey RawValue)
    (ho : store.objects identity = some (.identity {})) :
    View store identity (emptyTable runtime) where
  header := ho
  empty := fun _ => ⟨rfl, rfl⟩
  buckets := fun hc => absurd hc (Nat.lt_irrefl 0)
  cells := {
    whole := rfl
    root := fun hc => absurd hc (Nat.lt_irrefl 0)
    slabs := {
      slabs := fun slab hs => by simp [emptyTable] at hs
      distinct := fun first hf => by simp [emptyTable] at hf } }

/-- The key of an initial entry is that of its guest key, numbered if it is not
reflexive. -/
def Seeded (runtime : MapRuntime Value RawKey RawValue)
    (seed : MapKey × Value × Value) (key : MapKey) : Prop :=
  runtime.mapKey seed.2.1 = .ok key ∧ ∃ sequence, seed.1 = keyForStore key sequence

/-- The content of a new map: the initial entries are stored one after the other. -/
inductive Created (runtime : MapRuntime Value RawKey RawValue) :
    List (MapKey × Value × Value) → Multiset (MapKey × Value) →
    Multiset (MapKey × Value) → Prop where
  | nil (map : Multiset (MapKey × Value)) : Created runtime [] map map
  | cons {seed : MapKey × Value × Value} {key : MapKey}
      {rest : List (MapKey × Value × Value)} {map after : Multiset (MapKey × Value)} :
      Seeded runtime seed key → Created runtime rest (GoMap.store key seed.2.2 map) after →
      Created runtime (seed :: rest) map after

/-- The places of a new map: the initial entries are stored one after the other. -/
inductive Placed (runtime : MapRuntime Value RawKey RawValue) :
    List (MapKey × Value × Value) → (Nat → Slot Value) → (Nat → Slot Value) →
    Prop where
  | nil (places : Nat → Slot Value) : Placed runtime [] places places
  | cons {seed : MapKey × Value × Value} {key : MapKey}
      {rest : List (MapKey × Value × Value)} {places middle after : Nat → Slot Value} :
      Seeded runtime seed key → Slots.Stored key seed.2.2 places middle →
      Placed runtime rest middle after → Placed runtime (seed :: rest) places after

variable {seeds : List (MapKey × Value × Value)}

theorem storeSeeds_spec (hse : ∀ seed ∈ seeds, ∃ key, Seeded runtime seed key)
    (hm : Represents runtime store identity map places) :
    Ensures (storeSeeds runtime identity seeds) store
      (fun _ after => ∃ map' places', Created runtime seeds map map' ∧
        Placed runtime seeds places places' ∧
        Represents runtime after identity map' places') fun _ => True := by
  induction seeds generalizing store map places with
  | nil => exact Ensures.pure ⟨map, places, .nil map, .nil places, hm⟩
  | cons seed rest ih =>
    obtain ⟨key, guestKey, val⟩ := seed
    obtain ⟨base, hsee⟩ := hse _ mem_cons_self
    obtain ⟨hb, sequence, hs⟩ := id hsee
    refine Ensures.bind (Ensures.mono (hs ▸ storeEntry_spec sequence hm hb) (fun _ after ha => ?_)
      fun _ _ => trivial)
    obtain ⟨places', hst, ha⟩ := ha
    refine Ensures.mono (ih (fun other ho =>
      hse other (mem_cons_of_mem _ ho)) ha)
      (fun _ last hl => ?_) fun _ => id
    obtain ⟨map', places'', hma, hp, hl⟩ := hl
    exact ⟨map', places'', .cons hsee hma, .cons hsee hst hp, hl⟩

theorem reserve_spec {physical : Nat} {obj : MapObject RawKey RawValue}
    {post : Nat → Store (MapObject RawKey RawValue) → Prop}
    (hp : ∀ ref after, after.objects ref = some obj → post ref after) :
    Ensures (reserve runtime physical obj) store post fun _ => True := by
  unfold reserve
  split
  · exact throw trivial
  · refine Ensures.bind (Ensures.request fun first _ => ⟨?_, fun _ => trivial⟩)
    refine Ensures.allocate fun after ho _ _ => hp _ _ ?_
    rw [ho, Function.update_self]

/-- A new map holds its initial entries. -/
theorem newManagedMap_spec (hse : ∀ seed ∈ seeds, ∃ key, Seeded runtime seed key) (cap : Nat)
    (hn : newManagedMap runtime seeds cap store = .ok identity after) :
    ∃ map places, Created runtime seeds 0 map ∧ Placed runtime seeds (fun _ => ⟨0, none⟩) places ∧
      Represents runtime after identity map places := by
  have hp : slots runtime (emptyTable runtime) = fun _ => ⟨0, none⟩ := rfl
  have hs : ∀ (identity : Nat) (third : Store (MapObject RawKey RawValue))
      (table : MapTable RawKey RawValue), View third identity table →
      Valid runtime table → content runtime table = 0 →
      slots runtime table = (fun _ => ⟨0, none⟩) →
      Ensures (do
        storeSeeds runtime identity seeds
        pure identity) third (fun identity after => ∃ map places, Created runtime seeds 0 map ∧
          Placed runtime seeds (fun _ => ⟨0, none⟩) places ∧
          Represents runtime after identity map places) fun _ => True := by
    intro identity third table ht hvl hc he
    exact Ensures.bind (Ensures.mono (storeSeeds_spec hse ⟨table, ht, hvl, hc, he⟩)
      (fun _ last hl => Ensures.pure hl) fun _ => id)
  unfold newManagedMap at hn
  refine Ensures.result (fun identity after => ∃ map places,
    Created runtime seeds 0 map ∧ Placed runtime seeds (fun _ => ⟨0, none⟩) places ∧
    Represents runtime after identity map places) ?_ (rollback_ok hn)
  refine Ensures.bind (Ensures.request fun first _ => ⟨?_, fun _ => trivial⟩)
  refine Ensures.bind (reserve_spec fun identity second ho => ?_)
  have hv := view_emptyTable runtime ho
  dsimp only
  split
  · exact throw trivial
  · split
    · refine Ensures.bind (Ensures.mono (ensureCapacity_spec hv valid_emptyTable _)
        (fun header third ht => ?_) fun _ _ => trivial)
      obtain ⟨table, hth, hgr, -, -⟩ := ht
      exact hs identity third table hth hgr.1 hgr.content (hgr.slots.trans hp)
    · exact hs identity second _ hv valid_emptyTable rfl hp

/-- Whatever is done with a new map, in whatever order and with whichever requests
for memory failing, it is answered as by a Go map. -/
theorem newManagedMap_refines (runtime : MapRuntime Value RawKey RawValue)
    (store after : Store (MapObject RawKey RawValue))
    (seeds : List (MapKey × Value × Value)) (capacity identity : Nat)
    (hseeds : ∀ seed ∈ seeds, ∃ key, Seeded runtime seed key)
    (hnew : newManagedMap runtime seeds capacity store = .ok identity after)
    (operations : List (MapOperation Value)) :
    ∃ map, Created runtime seeds 0 map ∧
      Run runtime identity map operations
        (performAll runtime identity operations after) := by
  obtain ⟨map, places, hcreated, -, hmap⟩ := newManagedMap_spec hseeds capacity hnew
  exact ⟨map, hcreated, performAll_run hmap operations⟩

/-- Numbers as keys and values, all with the same hash, on a heap that never fails. -/
def numberRuntime : MapRuntime Nat Nat Nat where
  entryStride := 32
  mapKey := fun key => .ok { uint64 := key }
  managedMapKeyHash := fun _ => 0
  managedMapValueNeedsAllocation := fun _ _ => false
  encodeKey := .ok
  encodeValue := .ok
  decodeKey := id
  decodeValue := id
  clearedKey := 0
  clearedValue := 0
  fails := fun _ => false
  mapKey_decodeKey := fun key raw hraw => by
    cases hraw
    rfl
  decodeValue_encodeValue := fun value raw hraw => by
    cases hraw
    rfl

def emptyStore : Store (MapObject Nat Nat) where
  objects := fun _ => none
  next := 1
  positive := Nat.one_pos
  null := rfl
  fresh := fun _ _ => rfl

/-- Two stores, a load and a listing on a new map, all of which succeed. -/
theorem newManagedMap_refines_numbers :
    ∃ identity after map, newManagedMap numberRuntime [] 0 emptyStore = .ok identity after ∧
      Created numberRuntime [] 0 map ∧
      Run numberRuntime identity map [.store 7 0 1, .store 8 0 2, .load 7, .identities]
        (performAll numberRuntime identity
          [.store 7 0 1, .store 8 0 2, .load 7, .identities] after) ∧
      (performAll numberRuntime identity [.store 7 0 1, .store 8 0 2, .load 7, .identities]
        after).map (fun outcome => outcome.answer.toOption) =
        [some .done, some .done, some (.loaded (some 1)),
          some (.listed [(2 ^ 32 + 1, some ⟨2 ^ 32 + 1, 7, 1⟩),
            (2 ^ 32 + 2, some ⟨2 ^ 32 + 2, 8, 2⟩)])] := by
  obtain ⟨identity, after, hnew, hanswers⟩ : ∃ identity after,
      newManagedMap numberRuntime [] 0 emptyStore = .ok identity after ∧
      (performAll numberRuntime identity [.store 7 0 1, .store 8 0 2, .load 7, .identities]
        after).map (fun outcome => outcome.answer.toOption) =
        [some .done, some .done, some (.loaded (some 1)),
          some (.listed [(2 ^ 32 + 1, some ⟨2 ^ 32 + 1, 7, 1⟩),
            (2 ^ 32 + 2, some ⟨2 ^ 32 + 2, 8, 2⟩)])] :=
    ⟨1, _, rfl, by decide +kernel⟩
  obtain ⟨map, hcreated, hrun⟩ := newManagedMap_refines numberRuntime emptyStore after [] 0
    identity (by simp) hnew [.store 7 0 1, .store 8 0 2, .load 7, .identities]
  exact ⟨identity, after, map, hnew, hcreated, hrun, hanswers⟩

end Create

end ManagedMap

end MiniGo.Runtime
