/-
Finite tables whose entries are counted.

`tally` is the number of entries of some kind. A new entry adds itself to it, a removed
entry takes itself away, and an entry that replaces another does both; `revise` and
`restrict` change or drop entries all over the table.
-/
import Mathlib

namespace MiniGo

open AList List Option

abbrev Table (α β : Type) := AList fun _ : α => β

namespace Table

variable {α β : Type}

/-- The number of entries of a kind. -/
def tally (kind : β → Bool) (table : Table α β) : Nat :=
  table.entries.countP fun entry => kind entry.2

def size (table : Table α β) : Nat := table.entries.length

@[simp] theorem tally_empty (kind : β → Bool) : tally kind (∅ : Table α β) = 0 := rfl

@[simp] theorem size_empty : size (∅ : Table α β) = 0 := rfl

section Updates

variable [DecidableEq α] {kind : β → Bool} {table : Table α β} {key other : α} {value old found : β}

theorem lookup_insert_cases (hf : (table.insert key value).lookup other = some found) :
    other = key ∧ found = value ∨ other ≠ key ∧ table.lookup other = some found := by
  by_cases ho : other = key
  · subst ho
    rw [lookup_insert, some.injEq] at hf
    exact .inl ⟨rfl, hf.symm⟩
  · rw [lookup_insert_ne ho] at hf
    exact .inr ⟨ho, hf⟩

theorem lookup_erase_cases (hf : (table.erase key).lookup other = some found) :
    other ≠ key ∧ table.lookup other = some found := by
  by_cases ho : other = key
  · subst ho
    rw [lookup_erase] at hf
    cases hf
  · rw [lookup_erase_ne ho] at hf
    exact ⟨ho, hf⟩

variable {holds : α → β → Prop}

theorem forall_insert (hall : ∀ other found, table.lookup other = some found → holds other found)
    (hn : holds key value) :
    ∀ other found, (table.insert key value).lookup other = some found → holds other found := by
  intro other found hf
  rcases lookup_insert_cases hf with ⟨rfl, rfl⟩ | ⟨-, hf⟩
  · exact hn
  · exact hall other found hf

theorem forall_erase (hall : ∀ other found, table.lookup other = some found → holds other found) :
    ∀ other found, (table.erase key).lookup other = some found → holds other found :=
  fun other found hf => hall other found (lookup_erase_cases hf).2

theorem mem_of_lookup (hl : table.lookup key = some value) : key ∈ table :=
  lookup_isSome.mp (isSome_of_mem hl)

theorem exists_of_mem (hk : key ∈ table) : ∃ value, table.lookup key = some value :=
  isSome_iff_exists.mp (lookup_isSome.mpr hk)

theorem tally_insert_of_notMem (hk : key ∉ table) :
    tally kind (table.insert key value) = tally kind table + (kind value).toNat := by
  rw [tally, entries_insert_of_notMem hk, countP_cons]
  cases kind value <;> rfl

theorem size_insert_of_notMem (hk : key ∉ table) :
    size (table.insert key value) = size table + 1 := by
  rw [size, entries_insert_of_notMem hk, length_cons, size]

/-- The entries of a table around one of them. -/
theorem entries_split (hold : table.lookup key = some old) :
    ∃ pre after, table.entries = pre ++ ⟨key, old⟩ :: after ∧
      (table.erase key).entries = pre ++ after := by
  have hk : key ∈ table.keys :=
    mem_keys.mp (lookup_isSome.mp (isSome_of_mem hold))
  obtain ⟨found, pre, after, hb, he, her⟩ := exists_of_kerase hk
  have hf : found ∈ table.lookup key := by
    rw [mem_lookup_iff, he]
    exact mem_append_right pre mem_cons_self
  obtain rfl := some.inj (hold.symm.trans hf)
  exact ⟨pre, after, he, her⟩

theorem tally_erase (hold : table.lookup key = some old) :
    tally kind (table.erase key) + (kind old).toNat = tally kind table := by
  obtain ⟨pre, after, he, her⟩ := entries_split hold
  rw [tally, tally, he, her, countP_append, countP_append, countP_cons]
  cases kind old
  · rfl
  · exact Nat.add_assoc _ _ _

theorem size_erase_le : size (table.erase key) ≤ size table :=
  (kerase_sublist key table.entries).length_le

theorem insert_eq_erase_insert : table.insert key value = (table.erase key).insert key value := by
  refine ext ?_
  rw [entries_insert, entries_insert_of_notMem fun hmem => (mem_erase.mp hmem).1 rfl]
  rfl

theorem tally_insert_of_lookup (hold : table.lookup key = some old) :
    tally kind (table.insert key value) + (kind old).toNat =
      tally kind table + (kind value).toNat := by
  rw [insert_eq_erase_insert,
    tally_insert_of_notMem fun hmem => (mem_erase.mp hmem).1 rfl, ← tally_erase hold]
  omega

theorem size_insert_le : size (table.insert key value) ≤ size table + 1 := by
  exact Nat.succ_le_succ size_erase_le

theorem size_insert_of_mem (hk : key ∈ table) : size (table.insert key value) = size table := by
  obtain ⟨old, hold⟩ := exists_of_mem hk
  obtain ⟨pre, after, he, her⟩ := entries_split hold
  rw [insert_eq_erase_insert,
    size_insert_of_notMem fun hmem => (mem_erase.mp hmem).1 rfl, size, size, he,
    her, length_append, length_append, length_cons]
  omega

theorem tally_eq_zero (hnone : ∀ key value, table.lookup key = some value → kind value = false) :
    tally kind table = 0 := by
  rw [tally, countP_eq_zero]
  intro entry he
  rw [Bool.not_eq_true]
  exact hnone entry.1 entry.2 (mem_lookup_iff.mpr he)

theorem lookup_ne_some_of_size_eq_zero (hz : size table = 0) : table.lookup key ≠ some value := by
  intro hl
  have hmem := mem_lookup_iff.mp hl
  rw [length_eq_zero_iff.mp hz] at hmem
  exact nomatch hmem

theorem eq_false_of_tally_eq_zero (hz : tally kind table = 0)
    (hl : table.lookup key = some value) : kind value = false := by
  rw [tally, countP_eq_zero] at hz
  exact Bool.eq_false_iff.mpr (hz ⟨key, value⟩ (mem_lookup_iff.mp hl))

theorem eq_of_tally_le_one (hon : tally kind table ≤ 1) (hk : table.lookup key = some value)
    (hki : kind value = true) (ho : table.lookup other = some found)
    (hf : kind found = true) : other = key := by
  by_contra hne
  have hs := @tally_erase _ _ _ kind _ _ _ hk
  rw [hki, Bool.toNat_true] at hs
  have hr := @eq_false_of_tally_eq_zero _ _ _ kind (table.erase key) other found
    (by omega) ((lookup_erase_ne hne).trans ho)
  rw [hr] at hf
  cases hf

/-- The table with an entry set or removed. -/
def put (table : Table α β) (key : α) : Option β → Table α β
  | some value => table.insert key value
  | none => table.erase key

@[simp] theorem lookup_put_self (entry : Option β) : (table.put key entry).lookup key = entry := by
  cases entry with
  | none => exact lookup_erase key table
  | some value => exact lookup_insert table

theorem lookup_put_of_ne (entry : Option β) (hne : other ≠ key) :
    (table.put key entry).lookup other = table.lookup other := by
  cases entry with
  | none => exact lookup_erase_ne hne
  | some value => exact lookup_insert_ne hne

theorem tally_put (entry : Option β) :
    tally kind (table.put key entry) + ((table.lookup key).any kind).toNat =
      tally kind table + (entry.any kind).toNat := by
  cases hold : table.lookup key with
  | none =>
    have hk : key ∉ table := lookup_eq_none.mp hold
    cases entry with
    | none =>
      have hs : (table.erase key).entries = table.entries :=
        kerase_of_notMem_keys fun hmem => hk (mem_keys.mpr hmem)
      rw [put, tally, tally, hs]
    | some value => exact tally_insert_of_notMem hk
  | some old =>
    cases entry with
    | none => exact tally_erase hold
    | some value => exact tally_insert_of_lookup hold

end Updates

section Everywhere

/-- The table with every entry changed. -/
def revise (change : α → β → β) (table : Table α β) : Table α β where
  entries := table.entries.map fun entry => ⟨entry.1, change entry.1 entry.2⟩
  nodupKeys := by
    have hkeys := table.nodupKeys
    rw [List.NodupKeys, List.keys] at hkeys ⊢
    rwa [List.map_map]

theorem lookup_revise [DecidableEq α] (change : α → β → β) (table : Table α β) (key : α) :
    (revise change table).lookup key = (table.lookup key).map (change key) := by
  refine ext fun value => ?_
  rw [map_eq_some_iff, ← mem_def, mem_lookup_iff]
  simp only [revise, List.mem_map, ← mem_def, mem_lookup_iff]
  constructor
  · rintro ⟨⟨found, old⟩, hmem, heq⟩
    cases heq
    exact ⟨old, hmem, rfl⟩
  · rintro ⟨old, hmem, rfl⟩
    exact ⟨⟨key, old⟩, hmem, rfl⟩

variable {change : α → β → β} {table : Table α β} {key : α}

theorem lookup_revise_cases [DecidableEq α]
    {value : β} (hv : (revise change table).lookup key = some value) :
    ∃ old, table.lookup key = some old ∧ value = change key old := by
  rw [lookup_revise, map_eq_some_iff] at hv
  obtain ⟨old, hold, rfl⟩ := hv
  exact ⟨old, hold, rfl⟩

theorem forall_revise [DecidableEq α] {holds : α → β → Prop}
    (hall : ∀ key value, table.lookup key = some value → holds key (change key value)) :
    ∀ key value, (revise change table).lookup key = some value → holds key value := by
  intro key value hv
  obtain ⟨old, hold, rfl⟩ := lookup_revise_cases hv
  exact hall key old hold

theorem lookup_revise_eq_some [DecidableEq α] {value : β} (hv : table.lookup key = some value) :
    (revise change table).lookup key = some (change key value) := by
  rw [lookup_revise, hv, map_some]

theorem mem_revise [DecidableEq α] : key ∈ revise change table ↔ key ∈ table := by
  rw [← lookup_isSome, lookup_revise, isSome_map, lookup_isSome]

@[simp] theorem size_revise (change : α → β → β) (table : Table α β) :
    size (revise change table) = size table := List.length_map _

/-- The entries that satisfy a condition. -/
def restrict (keep : α → β → Bool) (table : Table α β) : Table α β where
  entries := table.entries.filter fun entry => keep entry.1 entry.2
  nodupKeys := table.nodupKeys.sublist List.filter_sublist

theorem size_restrict_le (keep : α → β → Bool) (table : Table α β) :
    size (restrict keep table) ≤ size table := List.length_filter_le _ _

end Everywhere

end Table

end MiniGo
