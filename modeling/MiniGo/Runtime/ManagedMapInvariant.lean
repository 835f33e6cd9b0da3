/-
The representation of a managed map.

The occupied entries lie on the chains of their buckets, each on the chain that
its hash selects; the free entries lie on a list of their own. The content of a
table is the collection of the keys and values of its occupied entries.
-/
import MiniGo.Runtime.ManagedMapTable

namespace MiniGo.Runtime.ManagedMap

open ObjectStore Chain Function List

variable {Value RawKey RawValue : Type} (runtime : MapRuntime Value RawKey RawValue)
  (table : MapTable RawKey RawValue)

/-- The successor of an entry on its chain or list. -/
def nextOf (cells : Nat → MapCell RawKey RawValue) (index : Nat) : Nat :=
  (cells index).next

/-- An occupied entry. -/
def Live (index : Nat) : Prop :=
  index ≠ 0 ∧ index ≤ table.header.created ∧ (table.cells index).occupied = true

def keyOf (cell : MapCell RawKey RawValue) : MapKey :=
  match runtime.mapKey (runtime.decodeKey cell.key) with
  | .ok key => key
  | .error _ => default

def valueOf (cell : MapCell RawKey RawValue) : Value :=
  runtime.decodeValue cell.value

def liveIndexes : List Nat :=
  (List.range' 1 table.header.created).filter fun index =>
    (table.cells index).occupied

/-- The content of a map: its keys and values, in no order. -/
def content : Multiset (MapKey × Value) :=
  ((liveIndexes table).map fun index =>
    (keyOf runtime (table.cells index), valueOf runtime (table.cells index)) :
      List (MapKey × Value))

/-- The stored key has an identity, and the stored hash is that of the key. -/
def Keyed (cell : MapCell RawKey RawValue) : Prop :=
  ∃ key, runtime.mapKey (runtime.decodeKey cell.key) = .ok key ∧
    (key.nonReflexive = false → cell.hash = runtime.managedMapKeyHash key)

/-- The chain of every bucket holds the occupied entries that belong there. -/
def Chained (heads : List Nat) (cells : Nat → MapCell RawKey RawValue)
    (live : Nat → Prop) (chain : Nat → List Nat) : Prop :=
  ∀ bucket < heads.length, Linked (nextOf cells) (heads.getD bucket 0) (chain bucket) ∧
      ∀ index, index ∈ chain bucket ↔ live index ∧ (cells index).hash % heads.length = bucket

/-- The list of free entries. -/
def Free (items : List Nat) : Prop :=
  Linked (nextOf table.cells) table.header.free items ∧
    ∀ index ∈ items, index ≤ table.header.created ∧ (table.cells index).occupied = false ∧
      (table.cells index).generation ≠ maxUint32

/-- The representation invariant of a map. -/
structure Valid : Prop where
  chains : ∃ chain, Chained table.heads table.cells (Live table) chain
  free : ∃ items, Free table items
  created_le : table.header.created ≤ table.header.capacity
  bounded : table.header.capacity ≤ maxUint32
  fresh : ∀ index, table.header.created < index → table.cells index = cleared runtime
  sized : 0 < table.header.capacity → ∃ power, table.heads.length = 2 ^ power
  count : table.header.count = (liveIndexes table).length
  keyed : ∀ index, Live table index → Keyed runtime (table.cells index)
  unique : ∀ first second, Live table first → Live table second →
    keyOf runtime (table.cells first) = keyOf runtime (table.cells second) →
    (keyOf runtime (table.cells first)).nonReflexive = false → first = second

variable {runtime table} {store : Store (MapObject RawKey RawValue)} {identity index : Nat}

theorem mem_liveIndexes : index ∈ liveIndexes table ↔ Live table index := by
  simp only [liveIndexes, mem_filter, mem_range'_1, Live, ← and_assoc]
  exact and_congr_left fun _ => by omega

theorem Live.inTable (hvl : Valid runtime table) (hl : Live table index) :
    InTable table.header index :=
  ⟨hl.1, Nat.le_trans hl.2.1 hvl.created_le⟩

theorem Live.capacity (hvl : Valid runtime table) (hl : Live table index) :
    0 < table.header.capacity :=
  Nat.lt_of_lt_of_le (Nat.pos_of_ne_zero hl.1) (hl.inTable hvl).2

variable {cell : MapCell RawKey RawValue}

theorem Keyed.mapKey (hke : Keyed runtime cell) :
    runtime.mapKey (runtime.decodeKey cell.key) = .ok (keyOf runtime cell) := by
  obtain ⟨key, hk, -⟩ := hke
  rw [keyOf, hk]

theorem Keyed.hash (hke : Keyed runtime cell) (hr : (keyOf runtime cell).nonReflexive = false) :
    cell.hash = runtime.managedMapKeyHash (keyOf runtime cell) := by
  obtain ⟨key, hk, hh⟩ := hke
  have hs : keyOf runtime cell = key := by rw [keyOf, hk]
  rw [hs] at hr ⊢
  exact hh hr

variable {cells : Nat → MapCell RawKey RawValue}

section Find

/-- The entry that `readEntry` builds. -/
def entryOf (runtime : MapRuntime Value RawKey RawValue)
    (table : MapTable RawKey RawValue) (index : Nat) : MapEntry Value where
  identity := (table.cells index).generation * 2 ^ 32 + index
  key := runtime.decodeKey (table.cells index).key
  value := runtime.decodeValue (table.cells index).value

section

variable (hv : View store identity table)
include hv

theorem readEntry_eq (hvl : Valid runtime table) (hl : Live table index) (gen : Nat) :
    readEntry runtime table.header index gen store =
      .ok (if gen ≠ 0 ∧ gen ≠ (table.cells index).generation then none
        else some (entryOf runtime table index)) store := by
  have hi := hl.inTable hvl
  obtain ⟨hz, hm, ho⟩ := hl
  rw [readEntry, if_neg (by omega), bind_ok (hv.cells.location hi)]
  dsimp only
  rw [bind_ok (hv.cells.readCell hi)]
  simp only [ho]
  by_cases hs : gen ≠ 0 ∧ gen ≠ (table.cells index).generation
  · rw [if_pos (.inr hs), if_pos hs]
    rfl
  · rw [if_neg (by simpa using hs), if_neg hs]
    rfl

theorem candidate_eq (hvl : Valid runtime table) (hl : Live table index) (key : MapKey) :
    candidate runtime table.header key index store =
      .ok (if keyOf runtime (table.cells index) = key then
        some (entryOf runtime table index) else none) store := by
  rw [candidate, bind_ok (readEntry_eq hv hvl hl 0)]
  simp only [ne_eq, not_true_eq_false, false_and, if_false]
  have hk : (fallible (runtime.mapKey (entryOf runtime table index).key) :
      MapM RawKey RawValue MapKey) store = .ok (keyOf runtime (table.cells index)) store := by
    rw [entryOf, (hvl.keyed index hl).mapKey]
    rfl
  rw [bind_ok hk]
  rfl

/-- An entry that `find` stops at. -/
def Matches (runtime : MapRuntime Value RawKey RawValue)
    (table : MapTable RawKey RawValue) (key : MapKey) (hash index : Nat) : Prop :=
  (table.cells index).hash = hash ∧ keyOf runtime (table.cells index) = key

theorem matching_eq (hvl : Valid runtime table) (hl : Live table index) (key : MapKey)
    (hash : Nat) :
    matching runtime table.header key hash index (table.cells index).hash store =
      .ok (if (table.cells index).hash = hash ∧ keyOf runtime (table.cells index) = key then
        some (entryOf runtime table index) else none) store := by
  unfold matching
  by_cases hh : (table.cells index).hash = hash
  · rw [if_pos hh, candidate_eq hv hvl hl]
    simp [hh]
  · simp only [hh, false_and, if_false]
    rfl

theorem findFrom_eq (hvl : Valid runtime table) {key : MapKey} {hash fuel start : Nat}
    {rest : List Nat} (prev : Nat) (hln : Linked (nextOf table.cells) start rest)
    (hl : ∀ index ∈ rest, Live table index) (hf : rest.length < fuel) :
    ((∀ index ∈ rest, ¬Matches runtime table key hash index) ∧
        findFrom runtime table.header key hash fuel start prev store = .ok (0, 0, none) store) ∨
      ∃ pre index after, rest = pre ++ index :: after ∧ Matches runtime table key hash index ∧
        findFrom runtime table.header key hash fuel start prev store =
          .ok (index, pre.getLast?.getD prev, some (entryOf runtime table index)) store := by
  induction rest generalizing start fuel prev with
  | nil =>
    obtain ⟨fuel, rfl⟩ := Nat.exists_eq_succ_of_ne_zero (Nat.ne_of_gt hf)
    rw [linked_nil.mp hln]
    exact .inl ⟨by simp, rfl⟩
  | cons item rest ih =>
    obtain ⟨fuel, rfl⟩ := Nat.exists_eq_succ_of_ne_zero
      (Nat.ne_of_gt (Nat.lt_of_le_of_lt (Nat.zero_le _) hf))
    obtain ⟨rfl, hz, hr⟩ := linked_cons.mp hln
    have hi := hl start mem_cons_self
    have hid := hi.inTable hvl
    rw [findFrom, if_neg hz, bind_ok (hv.cells.location hid)]
    dsimp only
    rw [bind_ok (hv.cells.readCell hid), bind_ok (matching_eq hv hvl hi key hash)]
    by_cases hm : (table.cells start).hash = hash ∧ keyOf runtime (table.cells start) = key
    · refine .inr ⟨[], start, rest, rfl, hm, ?_⟩
      rw [if_pos hm]
      rfl
    · rw [if_neg hm]
      dsimp only
      rcases ih start hr (fun index hmem => hl index (mem_cons_of_mem _ hmem))
        (Nat.lt_of_succ_lt_succ hf) with
        ⟨hnone, heq⟩ | ⟨pre, index, after, rfl, hfs, heq⟩
      · refine .inl ⟨fun index hmem => ?_, heq⟩
        rcases mem_cons.mp hmem with rfl | hmem
        · exact hm
        · exact hnone index hmem
      · refine .inr ⟨start :: pre, index, after, rfl, hfs, ?_⟩
        rw [show (table.cells start).next = nextOf table.cells start from rfl, heq]
        cases pre with
        | nil => rfl
        | cons first others => simp [getLast?_cons]

end

variable {chain : Nat → List Nat}

/-- The entries of a chain are distinct entries of the table. -/
theorem Chained.length_le {heads : List Nat} (hc : Chained heads cells (Live table) chain)
    {bkt : Nat} (hb : bkt < heads.length) :
    (chain bkt).length ≤ table.header.created := by
  obtain ⟨hl, hmem⟩ := hc bkt hb
  have hsub : chain bkt ⊆ range' 1 table.header.created := by
    intro index hi
    obtain ⟨hz, hm, -⟩ := ((hmem index).mp hi).1
    exact mem_range'_1.mpr (by omega)
  simpa using (subperm_of_subset hl.nodup hsub).length_le

theorem Valid.heads_pos (hvl : Valid runtime table)
    (hc : 0 < table.header.capacity) : 0 < table.heads.length := by
  obtain ⟨power, hp⟩ := hvl.sized hc
  rw [hp]
  exact Nat.two_pow_pos power

theorem View.capacity_pos (hv : View store identity table)
    (hb : table.header.buckets ≠ 0) : 0 < table.header.capacity :=
  Nat.pos_of_ne_zero fun hz => hb (hv.empty hz).2

theorem find_eq (hv : View store identity table) (hvl : Valid runtime table)
    (hc : Chained table.heads table.cells (Live table) chain)
    (key : MapKey) :
    (find runtime table.header key (runtime.managedMapKeyHash key) store = .ok (0, 0, none) store ∧
      (key.nonReflexive = false → ∀ index, Live table index →
        keyOf runtime (table.cells index) ≠ key)) ∨
    ∃ pre index after, find runtime table.header key (runtime.managedMapKeyHash key) store =
        .ok (index, pre.getLast?.getD 0, some (entryOf runtime table index)) store ∧
      key.nonReflexive = false ∧ Live table index ∧
      keyOf runtime (table.cells index) = key ∧
      chain (runtime.managedMapKeyHash key % table.heads.length) = pre ++ index :: after := by
  unfold find
  by_cases hs : key.nonReflexive ∨ table.header.buckets = 0
  · refine .inl ⟨by rw [if_pos hs]; rfl, fun hr index hl => ?_⟩
    rcases hs with hn | he
    · rw [hr] at hn
      cases hn
    · have hb := hv.buckets (hl.capacity hvl)
      rw [he, store.null] at hb
      cases hb
  · obtain ⟨hr, hb⟩ := not_or.mp hs
    have hr : key.nonReflexive = false := by simpa using hr
    have hca := hv.capacity_pos hb
    have hpos := hvl.heads_pos hca
    have ho := hv.buckets hca
    have hbk : runtime.managedMapKeyHash key % table.heads.length <
        table.heads.length := Nat.mod_lt _ hpos
    obtain ⟨hln, hmem⟩ := hc _ hbk
    rw [if_neg hs, bind_ok (bucketCount_eq ho),
      if_neg (Nat.ne_of_gt hpos), bind_ok (readBucket_eq ho hbk)]
    rcases findFrom_eq hv hvl 0 hln (fun index hi =>
        ((hmem index).mp hi).1)
        (Nat.lt_succ_of_le (hc.length_le hbk)) with
      ⟨hnone, heq⟩ | ⟨pre, index, after, hsp, hm, heq⟩
    · refine .inl ⟨heq, fun _ index hl hk => ?_⟩
      have hh := (hvl.keyed index hl).hash (hk ▸ hr)
      rw [hk] at hh
      exact hnone index ((hmem index).mpr ⟨hl, by rw [hh]⟩) ⟨hh, hk⟩
    · refine .inr ⟨pre, index, after, heq, hr, ?_, hm.2, hsp⟩
      exact ((hmem index).mp (hsp ▸ by simp)).1

end Find

section Content

/-- What a cell adds to the content. -/
def contribution (runtime : MapRuntime Value RawKey RawValue)
    (cell : MapCell RawKey RawValue) : Multiset (MapKey × Value) :=
  if cell.occupied then {(keyOf runtime cell, valueOf runtime cell)} else 0

/-- The content of some entries. -/
def contentAt (runtime : MapRuntime Value RawKey RawValue)
    (cells : Nat → MapCell RawKey RawValue) (indexes : List Nat) :
    Multiset (MapKey × Value) :=
  (indexes.map fun index => contribution runtime (cells index)).sum

theorem content_eq_contentAt : content runtime table =
    contentAt runtime table.cells (List.range' 1 table.header.created) := by
  unfold content liveIndexes contentAt
  induction range' 1 table.header.created with
  | nil => rfl
  | cons index rest ih =>
    rw [map_cons, sum_cons, ← ih, contribution]
    cases ho : (table.cells index).occupied with
    | true => simp [ho]
    | false => simp [ho]

variable {entry : MapKey × Value} {indexes : List Nat}

theorem contentAt_congr {other : Nat → MapCell RawKey RawValue} (hs : ∀ index ∈ indexes,
      contribution runtime (cells index) = contribution runtime (other index)) :
    contentAt runtime cells indexes = contentAt runtime other indexes := by
  rw [contentAt, contentAt, map_congr_left hs]

theorem mem_contentAt :
    entry ∈ contentAt runtime cells indexes ↔ ∃ index ∈ indexes, (cells index).occupied = true ∧
        entry = (keyOf runtime (cells index), valueOf runtime (cells index)) := by
  induction indexes with
  | nil => simp [contentAt]
  | cons index rest ih =>
    have hs : contentAt runtime cells (index :: rest) =
        contribution runtime (cells index) + contentAt runtime cells rest := by
      simp [contentAt]
    rw [hs, Multiset.mem_add, ih]
    cases ho : (cells index).occupied <;>
      simp [contribution, ho]

theorem mem_content : entry ∈ content runtime table ↔ ∃ index, Live table index ∧
      entry = (keyOf runtime (table.cells index), valueOf runtime (table.cells index)) := by
  rw [content_eq_contentAt, mem_contentAt]
  refine exists_congr fun index => ?_
  rw [mem_range'_1, Live]
  constructor
  · rintro ⟨hi, ho, heq⟩
    exact ⟨⟨by omega, by omega, ho⟩, heq⟩
  · rintro ⟨⟨hz, hm, ho⟩, heq⟩
    exact ⟨by omega, ho, heq⟩

theorem card_content (runtime : MapRuntime Value RawKey RawValue)
    (table : MapTable RawKey RawValue) :
    (content runtime table).card = (liveIndexes table).length := by
  simp [content]

/-- A change of one cell changes what this cell contributes. -/
theorem content_update (runtime : MapRuntime Value RawKey RawValue)
    (cell : MapCell RawKey RawValue) (hz : index ≠ 0)
    (hm : index ≤ table.header.created) : ∃ rest,
      content runtime table = contribution runtime (table.cells index) + rest ∧
      content runtime { table with cells := update table.cells index cell } =
        contribution runtime cell + rest ∧
      ∀ entry ∈ rest, ∃ other, other ≠ index ∧ Live table other ∧
        entry.1 = keyOf runtime (table.cells other) := by
  obtain ⟨pre, after, hs⟩ := append_of_mem
    (mem_range'_1.mpr (⟨by omega, by omega⟩ : 1 ≤ index ∧ index < 1 + table.header.created))
  have hnd : (pre ++ index :: after).Nodup := hs ▸ nodup_range'
  have ho : ∀ other ∈ pre ++ after, other ≠ index := by
    rintro other hmem rfl
    rw [nodup_middle, nodup_cons] at hnd
    exact hnd.1 hmem
  have hsu : ∀ cells : Nat → MapCell RawKey RawValue,
      contentAt runtime cells (pre ++ index :: after) = contribution runtime (cells index) +
          contentAt runtime cells (pre ++ after) := by
    intro cells
    simp only [contentAt, map_append, map_cons, sum_append, sum_cons]
    abel
  refine ⟨contentAt runtime table.cells (pre ++ after), ?_, ?_, ?_⟩
  · rw [content_eq_contentAt, hs, hsu]
  · rw [content_eq_contentAt]
    show contentAt runtime (update table.cells index cell) (range' 1 table.header.created) = _
    rw [hs, hsu, update_self]
    congr 1
    refine contentAt_congr fun other hmem => ?_
    rw [update_of_ne (ho other hmem)]
  · intro entry he
    obtain ⟨other, hmem, hoc, heq⟩ := mem_contentAt.mp he
    have hr : other ∈ range' 1 table.header.created := by
      rw [hs]
      rcases mem_append.mp hmem with hmem | hmem
      · exact mem_append_left _ hmem
      · exact mem_append_right _ (mem_cons_of_mem _ hmem)
    have hr := mem_range'_1.mp hr
    exact ⟨other, ho other hmem, ⟨by omega, by omega, hoc⟩, congrArg Prod.fst heq⟩

end Content

section Slots

/-- What a place of the table holds: how often it has been used, and its entry if
it is occupied. -/
structure Slot (Value : Type) where
  generation : Nat
  entry : Option (MapKey × Value)

def slotOf (runtime : MapRuntime Value RawKey RawValue)
    (cell : MapCell RawKey RawValue) : Slot Value where
  generation := cell.generation
  entry := if cell.occupied then some (keyOf runtime cell, valueOf runtime cell)
    else none

def slots (runtime : MapRuntime Value RawKey RawValue)
    (table : MapTable RawKey RawValue) (index : Nat) : Slot Value :=
  slotOf runtime (table.cells index)

theorem Live.slot (hl : Live table index) :
    slots runtime table index = ⟨(table.cells index).generation,
      some (keyOf runtime (table.cells index), valueOf runtime (table.cells index))⟩ := by
  rw [slots, slotOf, if_pos hl.2.2]

theorem slots_of_unoccupied (hf : (table.cells index).occupied = false) :
    slots runtime table index = ⟨(table.cells index).generation, none⟩ := by
  rw [slots, slotOf, if_neg (by simp [hf])]

/-- A place with an entry is occupied. -/
theorem live_of_slot {key : MapKey} {value : Value} (hvl : Valid runtime table)
    (hz : index ≠ 0) (he : (slots runtime table index).entry = some (key, value)) :
    Live table index ∧ keyOf runtime (table.cells index) = key ∧
      valueOf runtime (table.cells index) = value := by
  have ho : (table.cells index).occupied = true := by
    by_contra hf
    rw [slots_of_unoccupied (by simpa using hf)] at he
    cases he
  have hl : Live table index := by
    refine ⟨hz, ?_, ho⟩
    by_contra hn
    rw [hvl.fresh index (by omega)] at ho
    cases ho
  rw [hl.slot] at he
  obtain ⟨rfl, rfl⟩ := Prod.mk.inj (Option.some.inj he)
  exact ⟨hl, rfl, rfl⟩

/-- Only links change. -/
theorem slots_congr {other : MapTable RawKey RawValue}
    (hc : ∀ index, ∃ link, other.cells index = { table.cells index with next := link }) :
    slots runtime other = slots runtime table := by
  funext index
  obtain ⟨link, hl⟩ := hc index
  rw [slots, slots, hl]
  rfl

theorem slots_update {header : MapHeader} {dir heads : List Nat} :
    slots runtime ⟨header, dir, heads, update cells index cell⟩ =
      update (slots runtime ⟨header, dir, heads, cells⟩) index (slotOf runtime cell) := by
  funext other
  by_cases hs : other = index
  · subst hs
    simp [slots]
  · simp [slots, hs]

/-- A store changes the value of the entry of its key, or makes an entry at a place
that is free and whose generations are not used up. -/
inductive Slots.Stored (key : MapKey) (value : Value) (before after : Nat → Slot Value) :
    Prop where
  | replaced (index : Nat) (old : Value) (positive : index ≠ 0)
      (reflexive : key.nonReflexive = false)
      (entry : (before index).entry = some (key, old))
      (same : after = Function.update before index ⟨(before index).generation, some (key, value)⟩)
  | inserted (index : Nat) (positive : index ≠ 0) (bounded : index ≤ maxUint32)
      (usable : (before index).generation ≠ maxUint32)
      (free : (before index).entry = none)
      (absent : key.nonReflexive = false → ∀ other, other ≠ 0 →
        ∀ old, (before other).entry ≠ some (key, old))
      (same : after = Function.update before index
        ⟨(before index).generation + 1, some (key, value)⟩)

/-- A deletion empties the place of the one entry of its key. -/
inductive Slots.Removed (key : MapKey) (before after : Nat → Slot Value) : Prop where
  | missing (absent : key.nonReflexive = false → ∀ other, other ≠ 0 →
        ∀ old, (before other).entry ≠ some (key, old))
      (same : after = before)
  | emptied (index : Nat) (old : Value) (positive : index ≠ 0)
      (reflexive : key.nonReflexive = false)
      (entry : (before index).entry = some (key, old))
      (unique : ∀ other, other ≠ 0 → other ≠ index →
        ∀ value, (before other).entry ≠ some (key, value))
      (same : after = Function.update before index ⟨(before index).generation, none⟩)

def Slots.Cleared (before after : Nat → Slot Value) : Prop :=
  ∀ index, index ≠ 0 → after index = ⟨(before index).generation, none⟩

end Slots

end MiniGo.Runtime.ManagedMap
