/-
Changes of a managed map's table.

Each change that an operation makes to the table keeps the representation
invariant and does to the content what the corresponding operation of a Go map
does: a reflexive key has at most one entry, every store under another key adds
an entry.
-/
import MiniGo.Runtime.ManagedMapInvariant

namespace MiniGo.Runtime

open Function List

namespace GoMap

variable {Value : Type}

/-- The entries that a store or a delete of a key leaves alone. -/
def without (key : MapKey) (content : Multiset (MapKey × Value)) :
    Multiset (MapKey × Value) :=
  if key.nonReflexive then content
  else content.filter fun entry => entry.1 ≠ key

def store (key : MapKey) (value : Value) (content : Multiset (MapKey × Value)) :
    Multiset (MapKey × Value) :=
  (key, value) ::ₘ without key content

theorem without_of_absent {key : MapKey} {content : Multiset (MapKey × Value)}
    (ha : key.nonReflexive = false → ∀ entry ∈ content, entry.1 ≠ key) :
    without key content = content := by
  unfold without
  split
  · rfl
  · next hr =>
    exact Multiset.filter_eq_self.mpr (ha (by simpa using hr))

theorem without_add_entry {key : MapKey} {val : Value}
    {rest : Multiset (MapKey × Value)} (hr : key.nonReflexive = false)
    (ha : ∀ entry ∈ rest, entry.1 ≠ key) :
    without key ({(key, val)} + rest) = rest := by
  rw [without, if_neg (by simp [hr]), Multiset.filter_add, Multiset.filter_eq_self.mpr ha]
  simp

end GoMap

namespace ManagedMap

open ObjectStore Chain

variable {Value RawKey RawValue : Type} {rt : MapRuntime Value RawKey RawValue}
  {table : MapTable RawKey RawValue} {index : Nat}
  {cell : MapCell RawKey RawValue}

theorem nextOf_update {cells : Nat → MapCell RawKey RawValue} :
    nextOf (update cells index cell) = update (nextOf cells) index cell.next := by
  funext other
  by_cases hsa : other = index
  · subst hsa
    simp [nextOf]
  · simp [nextOf, hsa]

theorem contribution_live (hl : Live table index) : contribution rt (table.cells index) =
      {(keyOf rt (table.cells index), valueOf rt (table.cells index))} := by
  rw [contribution, if_pos hl.2.2]

/-- A change of the value of an entry. -/
theorem Valid.replaceValue (hv : Valid rt table) (hl : Live table index)
    (hre : (keyOf rt (table.cells index)).nonReflexive = false)
    (value : RawValue) :
    let changed := { table with
      cells := update table.cells index { table.cells index with value } }
    Valid rt changed ∧ content rt changed =
      GoMap.store (keyOf rt (table.cells index)) (rt.decodeValue value) (content rt table) := by
  intro changed
  have hc : ∀ other, (changed.cells other).occupied = (table.cells other).occupied ∧
      (changed.cells other).generation = (table.cells other).generation ∧
      (changed.cells other).hash = (table.cells other).hash ∧
      (changed.cells other).next = (table.cells other).next ∧
      (changed.cells other).key = (table.cells other).key := by
    intro other
    by_cases hsa : other = index
    · subst hsa
      simp [changed]
    · simp [changed, hsa]
  have hli : ∀ other, Live changed other ↔ Live table other := by
    intro other
    rw [Live, Live, (hc other).1]
  have hke : ∀ other, keyOf rt (changed.cells other) = keyOf rt (table.cells other) := by
    intro other
    rw [keyOf, keyOf, (hc other).2.2.2.2]
  have hnext : nextOf changed.cells = nextOf table.cells :=
    funext fun other => (hc other).2.2.2.1
  obtain ⟨chain, hch⟩ := hv.chains
  obtain ⟨items, hf⟩ := hv.free
  refine ⟨⟨⟨chain, fun bucket hbkt => ?_⟩, ⟨items, ?_⟩, hv.created_le,
    hv.bounded, fun other ho => ?_, hv.sized, ?_, fun other ho => ?_,
    fun first second hfs hsn hsa hre => ?_⟩, ?_⟩
  · obtain ⟨hlin, hmem⟩ := hch bucket hbkt
    rw [hnext]
    refine ⟨hlin, fun other => ?_⟩
    rw [hli, (hc other).2.2.1]
    exact hmem other
  · refine ⟨hnext ▸ hf.1, fun other ho => ?_⟩
    rw [(hc other).1, (hc other).2.1]
    exact hf.2 other ho
  · have hne : other ≠ index := fun heq => by
      have hbd := hl.2.1
      have ho : table.header.created < other := ho
      omega
    simpa [changed, hne] using hv.fresh other ho
  · rw [hv.count]
    exact congrArg List.length (List.filter_congr fun other _ =>
      (hc other).1.symm)
  · rw [Keyed, (hc other).2.2.2.2, (hc other).2.2.1]
    exact hv.keyed other ((hli other).mp ho)
  · rw [hke] at hre
    rw [hke, hke] at hsa
    exact hv.unique first second ((hli first).mp hfs) ((hli second).mp hsn) hsa hre
  · obtain ⟨rest, hold, hn, hr⟩ := content_update rt { table.cells index with value } hl.1 hl.2.1
    have hk : keyOf rt { table.cells index with value } = keyOf rt (table.cells index) := rfl
    rw [contribution_live hl] at hold
    rw [contribution, if_pos hl.2.2, hk] at hn
    rw [hn, GoMap.store, hold, GoMap.without_add_entry hre]
    · rfl
    · intro entry he heq
      obtain ⟨other, hne, ho, hk⟩ := hr entry he
      exact hne (hv.unique other index ho hl (hk.symm.trans heq) ((hk.symm.trans heq) ▸ hre))

/-- The table with a new entry in front of the chain of its bucket. -/
def occupied (table : MapTable RawKey RawValue) (index : Nat)
    (cell : MapCell RawKey RawValue) : MapTable RawKey RawValue where
  header := { table.header with count := table.header.count + 1 }
  directory := table.directory
  heads := table.heads.set (cell.hash % table.heads.length) index
  cells := Function.update table.cells index cell

theorem live_occupied {other : Nat} (hz : index ≠ 0)
    (hm : index ≤ table.header.created) (hc : cell.occupied = true) :
    Live (occupied table index cell) other ↔ other = index ∨ Live table other := by
  by_cases hsa : other = index
  · subst hsa
    simp [Live, occupied, hz, hm, hc]
  · simp [Live, occupied, hsa]

theorem Chained.occupy {chain : Nat → List Nat}
    (hch : Chained table.heads table.cells (Live table) chain)
    (hz : index ≠ 0) (hm : index ≤ table.header.created)
    (hf : ¬Live table index) (hc : cell.occupied = true)
    (hnext : cell.next = table.heads.getD (cell.hash % table.heads.length) 0) :
    Chained (occupied table index cell).heads (occupied table index cell).cells
      (Live (occupied table index cell))
      (update chain (cell.hash % table.heads.length)
        (index :: chain (cell.hash % table.heads.length))) := by
  intro bucket hbkt
  have hlen : (occupied table index cell).heads.length = table.heads.length := by
    simp [occupied]
  rw [hlen] at hbkt
  obtain ⟨hl, hmem⟩ := hch bucket hbkt
  have hnot : index ∉ chain bucket := fun hi =>
    hf ((hmem index).mp hi).1
  have hce : nextOf (occupied table index cell).cells =
      update (nextOf table.cells) index cell.next := nextOf_update
  rw [hlen, hce]
  by_cases hsa : bucket = cell.hash % table.heads.length
  · subst hsa
    have hh : (occupied table index cell).heads.getD
        (cell.hash % table.heads.length) 0 = index := by
      simp [occupied, getD_eq_getElem?_getD, hbkt]
    rw [hh, update_self, hnext]
    refine ⟨hl.push hz hnot, fun other => ?_⟩
    rw [mem_cons, hmem, live_occupied hz hm hc]
    by_cases ho : other = index
    · subst ho
      simp [occupied]
    · simp [occupied, ho]
  · have hh : (occupied table index cell).heads.getD bucket 0 = table.heads.getD bucket 0 := by
      simp [occupied, getD_eq_getElem?_getD, Ne.symm hsa]
    rw [hh, update_of_ne hsa]
    refine ⟨hl.update_of_notMem hnot, fun other => ?_⟩
    rw [hmem, live_occupied hz hm hc]
    by_cases ho : other = index
    · subst ho
      simp [occupied, hf, Ne.symm hsa]
    · simp [occupied, ho]

variable {items : List Nat}

/-- A new entry in a place that is neither occupied nor free to others. -/
theorem Valid.occupy (hv : Valid rt table)
    (hi : Free table items) (hnot : index ∉ items) (hz : index ≠ 0)
    (hm : index ≤ table.header.created)
    (hf : (table.cells index).occupied = false) (hc : cell.occupied = true)
    (hnext : cell.next = table.heads.getD (cell.hash % table.heads.length) 0)
    (hk : Keyed rt cell)
    (ha : (keyOf rt cell).nonReflexive = false → ∀ other, Live table other →
        keyOf rt (table.cells other) ≠ keyOf rt cell) :
    Valid rt (occupied table index cell) ∧ content rt (occupied table index cell) =
        GoMap.store (keyOf rt cell) (valueOf rt cell) (content rt table) := by
  have hd : ¬Live table index := fun hl => by simp [hl.2.2] at hf
  have hli : ∀ other, Live (occupied table index cell) other ↔ other = index ∨ Live table other :=
    fun _ => live_occupied hz hm hc
  have ho : ∀ other, other ≠ index → (occupied table index cell).cells other = table.cells other :=
    fun other hne => update_of_ne hne _ _
  have hse : (occupied table index cell).cells index = cell :=
    update_self _ _ _
  have hco : content rt (occupied table index cell) =
      (keyOf rt cell, valueOf rt cell) ::ₘ content rt table := by
    obtain ⟨rest, hold, hn, -⟩ := content_update rt cell hz hm
    rw [contribution, if_neg (by simp [hf]), zero_add] at hold
    rw [contribution, if_pos hc, ← hold] at hn
    exact hn
  obtain ⟨chain, hch⟩ := hv.chains
  refine ⟨⟨⟨_, hch.occupy hz hm hd hc hnext⟩, ⟨items, ?_⟩,
    hv.created_le, hv.bounded, fun other hfr => ?_, fun hca => ?_,
    ?_, fun other hl => ?_, fun first second hfs hsn hsa hr => ?_⟩,
    ?_⟩
  · have hce : nextOf (occupied table index cell).cells =
        update (nextOf table.cells) index cell.next := nextOf_update
    refine ⟨hce ▸ hi.1.update_of_notMem hnot, fun other hmem => ?_⟩
    rw [ho other fun heq => hnot (heq ▸ hmem)]
    exact hi.2 other hmem
  · have hfr : table.header.created < other := hfr
    rw [ho other (by omega)]
    exact hv.fresh other hfr
  · simpa [occupied] using hv.sized hca
  · rw [← card_content rt, hco, Multiset.card_cons, card_content, ← hv.count]
    rfl
  · rcases (hli other).mp hl with rfl | hl
    · rw [hse]
      exact hk
    · rw [ho other fun heq => hd (heq ▸ hl)]
      exact hv.keyed other hl
  · rcases (hli first).mp hfs with rfl | hold <;>
      rcases (hli second).mp hsn with rfl | hol
    · rfl
    · rw [hse] at hsa hr
      rw [ho second fun heq => hd (heq ▸ hol)] at hsa
      exact absurd hsa.symm (ha hr second hol)
    · rw [hse, ho first fun heq => hd (heq ▸ hold)] at hsa
      rw [ho first fun heq => hd (heq ▸ hold), hsa] at hr
      exact absurd hsa (ha hr first hold)
    · rw [ho first fun heq => hd (heq ▸ hold)] at hsa hr
      rw [ho second fun heq => hd (heq ▸ hol)] at hsa
      exact hv.unique first second hold hol hsa hr
  · rw [hco, GoMap.store, GoMap.without_of_absent]
    intro hr entry he
    obtain ⟨other, hl, rfl⟩ := mem_content.mp he
    exact ha hr other hl

/-- The first entry after the created ones. -/
theorem Valid.extend (hv : Valid rt table) (hf : table.header.free = 0)
    (hsp : table.header.created + 1 ≤ table.header.capacity) :
    let extended := { table with
      header := { table.header with created := table.header.created + 1 } }
    Valid rt extended ∧ Free extended [] ∧ content rt extended = content rt table := by
  intro extended
  have hn : (table.cells (table.header.created + 1)).occupied = false := by
    rw [hv.fresh _ (Nat.lt_succ_self _)]
    rfl
  have hl : ∀ other, Live extended other ↔ Live table other := by
    intro other
    by_cases hsa : other = table.header.created + 1
    · subst hsa
      simp [Live, extended, hn]
    · simp only [Live, extended]
      refine and_congr_right fun _ => and_congr_left fun _ => ?_
      omega
  have hi : liveIndexes extended = liveIndexes table := by
    simp [liveIndexes, extended, range'_concat, filter_append, Nat.add_comm 1, hn]
  have hnone : Free extended [] := ⟨by rw [linked_nil]; exact hf, by simp⟩
  obtain ⟨chain, hch⟩ := hv.chains
  refine ⟨⟨⟨chain, fun bucket hbkt => ?_⟩, ⟨[], hnone⟩, hsp, hv.bounded,
    fun other ho => ?_, hv.sized, ?_, fun other ho => ?_,
    fun first second hfs hsn => ?_⟩, hnone, ?_⟩
  · refine ⟨(hch bucket hbkt).1, fun other => ?_⟩
    rw [hl]
    exact (hch bucket hbkt).2 other
  · exact hv.fresh other (Nat.lt_of_succ_lt ho)
  · rw [hi]
    exact hv.count
  · exact hv.keyed other ((hl other).mp ho)
  · exact hv.unique first second ((hl first).mp hfs) ((hl second).mp hsn)
  · rw [content, hi]
    rfl

/-- The first entry of the list of free entries. -/
theorem Valid.popFree (hv : Valid rt table) (hi : Free table (index :: items)) :
    let popped := { table with
      header := { table.header with free := (table.cells index).next } }
    Valid rt popped ∧ Free popped items ∧ content rt popped = content rt table := by
  intro popped
  have hf : Free popped items :=
    ⟨(linked_cons.mp hi.1).2.2, fun other ho => hi.2 other (mem_cons_of_mem _ ho)⟩
  exact ⟨⟨hv.chains, ⟨items, hf⟩, hv.created_le, hv.bounded,
    hv.fresh, hv.sized, hv.count, hv.keyed, hv.unique⟩,
    hf, rfl⟩

section Vacate

variable {bucket previous free : Nat} {pre after : List Nat} {chain : Nat → List Nat}

/-- The heads and cells after an entry is taken off its chain; an entry without
a predecessor is the head of its bucket. -/
def unlinkedHeads (table : MapTable RawKey RawValue)
    (bucket previous next : Nat) : List Nat :=
  if previous = 0 then table.heads.set bucket next else table.heads

def unlinkedCells (table : MapTable RawKey RawValue) (previous next : Nat) :
    Nat → MapCell RawKey RawValue :=
  if previous = 0 then table.cells
  else Function.update table.cells previous { table.cells previous with next }

/-- The table without an entry, whose place now holds `vacant`. -/
def vacated (table : MapTable RawKey RawValue) (bucket previous index free : Nat)
    (vacant : MapCell RawKey RawValue) : MapTable RawKey RawValue where
  header := { table.header with free, count := table.header.count - 1 }
  directory := table.directory
  heads := unlinkedHeads table bucket previous (table.cells index).next
  cells := Function.update (unlinkedCells table previous (table.cells index).next) index vacant

theorem length_unlinkedHeads {next : Nat} :
    (unlinkedHeads table bucket previous next).length = table.heads.length := by
  unfold unlinkedHeads
  split
  · simp
  · rfl

/-- Only links change. -/
theorem unlinkedCells_same {next : Nat} (other : Nat) : unlinkedCells table previous next other =
      { table.cells other with next := (unlinkedCells table previous next other).next } := by
  unfold unlinkedCells
  split
  · rfl
  · by_cases hsa : other = previous
    · simp [hsa]
    · simp [hsa]

section Split

variable (hch : Chained table.heads table.cells (Live table) chain)
  (hbkt : bucket < table.heads.length) (hs : chain bucket = pre ++ index :: after)
include hch hbkt hs

theorem Chained.before_live : pre.getLast?.getD 0 = 0 ∨ Live table (pre.getLast?.getD 0) := by
  rcases eq_nil_or_concat pre with rfl | ⟨rest, last, rfl⟩
  · exact .inl rfl
  · have hl : last ∈ chain bucket := by
      rw [hs]
      simp
    exact .inr (by simpa using (((hch bucket hbkt).2 last).mp hl).1)

theorem Chained.unlink {other : Nat} (ho : other < table.heads.length) :
    Linked (nextOf (unlinkedCells table (pre.getLast?.getD 0) (table.cells index).next))
      ((unlinkedHeads table bucket (pre.getLast?.getD 0) (table.cells index).next).getD other 0)
      (update chain bucket (pre ++ after) other) := by
  have hz := (hch bucket hbkt).1.ne_zero
  have hl := (hch bucket hbkt).1
  rw [hs] at hz hl
  rcases eq_nil_or_concat pre with rfl | ⟨rest, last, rfl⟩
  · -- The head of the bucket moves on.
    simp only [getLast?_nil, Option.getD_none, unlinkedCells, unlinkedHeads, if_true, nil_append]
    by_cases hsa : other = bucket
    · subst hsa
      have ht : Linked (nextOf table.cells) (table.cells index).next after :=
        (linked_cons.mp hl).2.2
      simpa [getD_eq_getElem?_getD, hbkt] using ht
    · rw [update_of_ne hsa]
      simpa [getD_eq_getElem?_getD, Ne.symm hsa] using (hch other ho).1
  · -- The entry before takes over the link.
    have hla : last ≠ 0 := hz last (by simp)
    simp only [concat_eq_append, getLast?_append, getLast?_singleton,
      Option.some_or, Option.getD_some, unlinkedCells, unlinkedHeads,
      if_neg hla, nextOf_update]
    by_cases hsa : other = bucket
    · subst hsa
      rw [update_self]
      simp only [concat_eq_append, append_assoc, singleton_append] at hl ⊢
      exact hl.remove
    · rw [update_of_ne hsa]
      refine (hch other ho).1.update_of_notMem fun hmem => hsa ?_
      have hh := ((hch bucket hbkt).2 last).mp (by rw [hs]; simp)
      have hth := ((hch other ho).2 last).mp hmem
      exact hth.2.symm.trans hh.2

end Split

section Vacated

variable {vacant : MapCell RawKey RawValue}

theorem vacated_self : (vacated table bucket previous index free vacant).cells index = vacant :=
  update_self _ _ _

variable {other : Nat}

/-- Of the other entries only the predecessor changes, and only its link. -/
theorem vacated_other (hne : other ≠ index) :
    (vacated table bucket previous index free vacant).cells other = { table.cells other with
        next := ((vacated table bucket previous index free vacant).cells other).next } := by
  simp only [vacated, update_of_ne hne]
  exact unlinkedCells_same other

theorem vacated_untouched (hne : other ≠ index) (hp : other ≠ previous) :
    (vacated table bucket previous index free vacant).cells other = table.cells other := by
  simp only [vacated, update_of_ne hne, unlinkedCells]
  split
  · rfl
  · exact update_of_ne hp _ _

theorem live_vacated (hv : vacant.occupied = false) :
    Live (vacated table bucket previous index free vacant) other ↔
      other ≠ index ∧ Live table other := by
  by_cases hsa : other = index
  · subst hsa
    simp [Live, vacated_self, hv]
  · rw [Live, vacated_other hsa]
    simp only [ne_eq, hsa, not_false_eq_true, true_and]
    rfl

theorem keyOf_vacated (hne : other ≠ index) :
    keyOf rt ((vacated table bucket previous index free vacant).cells other) =
      keyOf rt (table.cells other) := by
  rw [vacated_other hne]
  rfl

theorem content_vacated (hl : Live table index) (hv : vacant.occupied = false) : ∃ rest,
      content rt table = {(keyOf rt (table.cells index),
        valueOf rt (table.cells index))} + rest ∧
      content rt (vacated table bucket previous index free vacant) = rest ∧
      ∀ entry ∈ rest, ∃ other, other ≠ index ∧ Live table other ∧
        entry.1 = keyOf rt (table.cells other) := by
  obtain ⟨rest, hold, hn, hr⟩ :=
    content_update rt vacant hl.1 hl.2.1
  rw [contribution_live hl] at hold
  rw [contribution, if_neg (by simp [hv]), zero_add] at hn
  refine ⟨rest, hold, ?_, hr⟩
  rw [← hn, content_eq_contentAt, content_eq_contentAt]
  refine contentAt_congr fun other _ => ?_
  by_cases hsa : other = index
  · subst hsa
    rw [vacated_self]
    simp
  · rw [vacated_other hsa]
    simp [contribution, keyOf, valueOf, hsa]

theorem nextOf_vacated : nextOf (vacated table bucket previous index free vacant).cells =
      update (nextOf (unlinkedCells table previous
        (table.cells index).next)) index vacant.next := nextOf_update

theorem Chained.vacate (hch : Chained table.heads table.cells (Live table) chain)
    (hbkt : bucket < table.heads.length)
    (hs : chain bucket = pre ++ index :: after)
    (hv : vacant.occupied = false) :
    let changed := vacated table bucket (pre.getLast?.getD 0) index free vacant
    Chained changed.heads changed.cells (Live changed) (update chain bucket (pre ++ after)) := by
  intro changed other ho
  have hlen : changed.heads.length = table.heads.length := length_unlinkedHeads
  rw [hlen] at ho ⊢
  have hnd := (hch bucket hbkt).1.nodup
  rw [hs, nodup_middle, nodup_cons] at hnd
  have hi := ((hch bucket hbkt).2 index).mp (by rw [hs]; simp)
  have hmem : ∀ x, x ∈ update chain bucket (pre ++ after) other ↔ x ≠ index ∧ x ∈ chain other := by
    intro x
    by_cases hsa : other = bucket
    · subst hsa
      rw [update_self, hs]
      by_cases hx : x = index
      · simpa [hx] using hnd.1
      · simp [hx]
    · rw [update_of_ne hsa]
      refine ⟨fun hx => ⟨?_, hx⟩, And.right⟩
      rintro rfl
      exact hsa ((((hch other ho).2 x).mp hx).2.symm.trans hi.2)
  refine ⟨?_, fun x => ?_⟩
  · rw [nextOf_vacated]
    refine (hch.unlink hbkt hs ho).update_of_notMem fun hx => ?_
    exact ((hmem index).mp hx).1 rfl
  · rw [hmem, live_vacated hv, (hch other ho).2, and_assoc]
    refine and_congr_right fun hne => ?_
    rw [vacated_other hne]

/-- The list of free entries after a place has been vacated: the place comes in
front unless its generations are used up. -/
def Freed (table : MapTable RawKey RawValue) (index free : Nat)
    (vacant : MapCell RawKey RawValue) : Prop :=
  free = table.header.free ∨ (free = index ∧ vacant.next = table.header.free ∧
      vacant.generation ≠ maxUint32)

theorem Free.vacate (hi : Free table items)
    (hl : Live table index) (hp : previous = 0 ∨ Live table previous)
    (hv : vacant.occupied = false)
    (hfr : Freed table index free vacant) :
    ∃ items, Free (vacated table bucket previous index free vacant) items := by
  have hid : index ∉ items := fun hmem =>
    absurd (hl.2.2.symm.trans (hi.2 index hmem).2.1) (by simp)
  have hb : previous ∉ items := by
    intro hmem
    rcases hp with hz | hl
    · exact hi.1.ne_zero previous hmem hz
    · exact absurd (hl.2.2.symm.trans (hi.2 previous hmem).2.1) (by simp)
  have hc : ∀ other ∈ items, (vacated table bucket previous index free vacant).cells other =
        table.cells other := by
    intro other hmem
    exact vacated_untouched (fun heq => hid (heq ▸ hmem)) fun heq => hb (heq ▸ hmem)
  have hli : Linked (nextOf (vacated table bucket previous index free vacant).cells)
      table.header.free items :=
    hi.1.congr fun other hmem => congrArg MapCell.next (hc other hmem)
  have hf : ∀ other ∈ items, other ≤ table.header.created ∧
      ((vacated table bucket previous index free vacant).cells other).occupied = false ∧
      ((vacated table bucket previous index free vacant).cells other).generation ≠
        maxUint32 := by
    intro other hmem
    rw [hc other hmem]
    exact hi.2 other hmem
  rcases hfr with rfl | ⟨rfl, hnext, hg⟩
  · exact ⟨items, hli, hf⟩
  · refine ⟨free :: items, .cons hl.1 ?_, fun other hmem => ?_⟩
    · have hfs : nextOf (vacated table bucket previous free free vacant).cells
          free = table.header.free := by
        rw [nextOf, vacated_self, hnext]
      exact hfs ▸ hli
    · rcases mem_cons.mp hmem with rfl | hmem
      · rw [vacated_self]
        exact ⟨hl.2.1, hv, hg⟩
      · exact hf other hmem

/-- Taking an entry off its chain and out of the table. -/
theorem Valid.vacate (hvl : Valid rt table)
    (hch : Chained table.heads table.cells (Live table) chain)
    (hl : Live table index)
    (hre : (keyOf rt (table.cells index)).nonReflexive = false)
    (hbkt : bucket < table.heads.length)
    (hs : chain bucket = pre ++ index :: after)
    (hv : vacant.occupied = false)
    (hf : Freed table index free vacant) :
    let changed := vacated table bucket (pre.getLast?.getD 0) index free vacant
    Valid rt changed ∧ content rt changed =
      GoMap.without (keyOf rt (table.cells index)) (content rt table) := by
  intro changed
  have hli : ∀ other, Live changed other ↔ other ≠ index ∧ Live table other :=
    fun _ => live_vacated hv
  have hp := hch.before_live hbkt hs
  obtain ⟨rest, hold, hnew, hr⟩ : ∃ rest, content rt table = _ ∧
      content rt changed = rest ∧ _ := content_vacated hl hv
  obtain ⟨items, hi⟩ := hvl.free
  refine ⟨⟨⟨_, hch.vacate hbkt hs hv⟩, hi.vacate hl hp hv hf, hvl.created_le, hvl.bounded,
    fun other ho => ?_, fun hc => ?_, ?_, fun other ho => ?_,
    fun first second hfs hsn hsa hre => ?_⟩, ?_⟩
  · have ho : table.header.created < other := ho
    have hid := hl.2.1
    have hne : other ≠ pre.getLast?.getD 0 := by
      rcases hp with hz | hl
      · omega
      · have := hl.2.1
        omega
    exact (vacated_untouched (by omega) hne).trans (hvl.fresh other ho)
  · have hlen : changed.heads.length = table.heads.length := length_unlinkedHeads
    rw [hlen]
    exact hvl.sized hc
  · rw [← card_content rt, hnew]
    show table.header.count - 1 = _
    rw [hvl.count, ← card_content rt, hold]
    simp
  · obtain ⟨hne, ho⟩ := (hli other).mp ho
    rw [vacated_other hne]
    exact hvl.keyed other ho
  · obtain ⟨hne, hfs⟩ := (hli first).mp hfs
    obtain ⟨hn, hsn⟩ := (hli second).mp hsn
    rw [keyOf_vacated hne] at hsa hre
    rw [keyOf_vacated hn] at hsa
    exact hvl.unique first second hfs hsn hsa hre
  · rw [hnew, hold, GoMap.without_add_entry hre]
    intro entry he heq
    obtain ⟨other, hne, ho, hk⟩ := hr entry he
    exact hne (hvl.unique other index ho hl (hk.symm.trans heq) ((hk.symm.trans heq) ▸ hre))

end Vacated

end Vacate

end ManagedMap

end MiniGo.Runtime
