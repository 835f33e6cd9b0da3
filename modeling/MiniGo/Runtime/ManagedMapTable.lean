/-
The table behind a managed map.

`CellView` says which cells the slabs of a directory hold, `View` says what all
objects of a map hold. The lemmas run the payload operations of the source on
these views: reading gives what the view says, and a write changes one cell, one
bucket head or the header and nothing else.
-/
import MiniGo.Lib.Chain
import MiniGo.Runtime.ManagedMap

namespace MiniGo.Runtime

open ObjectStore Function

/-- The contents of the objects of a map; entries are numbered from 1. -/
structure MapTable (RawKey RawValue : Type) where
  header : MapHeader
  directory : List Nat
  heads : List Nat
  cells : Nat → MapCell RawKey RawValue

namespace ManagedMap

variable {Value RawKey RawValue : Type} {rt : MapRuntime Value RawKey RawValue}
  {store after : Store (MapObject RawKey RawValue)} {identity : Nat}
  {header : MapHeader} {directory : List Nat}
  {cells : Nat → MapCell RawKey RawValue} {table : MapTable RawKey RawValue}

/-- The slab of an entry. -/
def slabOf (directory : List Nat) (index : Nat) : Nat :=
  (directory[(index - 1) / managedMapSlabEntries]?).getD 0

/-- The place of an entry in its slab. -/
def offsetOf (index : Nat) : Nat := (index - 1) % managedMapSlabEntries

/-- The slabs of a directory, each under its own reference, hold the cells. -/
structure SlabView (store : Store (MapObject RawKey RawValue))
    (directory : List Nat) (count : Nat)
    (cells : Nat → MapCell RawKey RawValue) : Prop where
  slabs : ∀ slab < count, ∃ ref content, directory[slab]? = some ref ∧
    store.objects ref = some (.slab content) ∧
    ∀ offset < managedMapSlabEntries, content[offset]? =
      some (cells (managedMapSlabEntries * slab + offset + 1))
  distinct : ∀ first < count, ∀ second < count,
    directory[first]? = directory[second]? → first = second

/-- The entries that a header reaches. -/
structure CellView (store : Store (MapObject RawKey RawValue))
    (header : MapHeader) (directory : List Nat)
    (cells : Nat → MapCell RawKey RawValue) : Prop where
  whole : header.capacity % managedMapSlabEntries = 0
  root : 0 < header.capacity → store.objects header.directory = some (.directory directory)
  slabs : SlabView store directory (header.capacity / managedMapSlabEntries) cells

/-- The store holds the table behind an identity. -/
structure View (store : Store (MapObject RawKey RawValue)) (identity : Nat)
    (table : MapTable RawKey RawValue) : Prop where
  header : store.objects identity = some (.identity table.header)
  empty : table.header.capacity = 0 → table.header.directory = 0 ∧ table.header.buckets = 0
  buckets : 0 < table.header.capacity →
    store.objects table.header.buckets = some (.buckets table.heads)
  cells : CellView store table.header table.directory table.cells

/-- An entry of a table. -/
def InTable (header : MapHeader) (index : Nat) : Prop :=
  index ≠ 0 ∧ index ≤ header.capacity

section Keeps

/-- A view depends on the objects it speaks of only. -/
theorem SlabView.congr {count : Nat} (hv : SlabView store directory count cells)
    (hk : ∀ ref content, store.objects ref = some (.slab content) →
      after.objects ref = some (.slab content)) :
    SlabView after directory count cells := by
  refine ⟨fun slab hs => ?_, hv.distinct⟩
  obtain ⟨ref, content, hr, hobj, hc⟩ := hv.slabs slab hs
  exact ⟨ref, content, hr, hk ref content hobj, hc⟩

theorem CellView.congr (hv : CellView store header directory cells)
    (hk : ∀ ref obj, (∀ heads, obj ≠ .buckets heads) →
      store.objects ref = some obj → after.objects ref = some obj) :
    CellView after header directory cells :=
  ⟨hv.whole, fun hc => hk _ _ (by simp) (hv.root hc), hv.slabs.congr fun _ _ => hk _ _ (by simp)⟩

theorem View.keeps (hv : View store identity table) (hk : Keeps store after) :
    View after identity table where
  header := hk.2 _ _ hv.header
  empty := hv.empty
  buckets hc := hk.2 _ _ (hv.buckets hc)
  cells := hv.cells.congr fun _ _ _ => hk.2 _ _

end Keeps

section Cells

variable {index : Nat}

theorem slab_eq {slab off : Nat} (ho : off < managedMapSlabEntries)
    (hidx : managedMapSlabEntries * slab + off + 1 = index) :
    slab = (index - 1) / managedMapSlabEntries := by
  unfold managedMapSlabEntries at ho hidx ⊢
  omega

theorem offset_eq {slab off : Nat} (ho : off < managedMapSlabEntries)
    (hidx : managedMapSlabEntries * slab + off + 1 = index) :
    off = offsetOf index := by
  unfold offsetOf managedMapSlabEntries at *
  omega

theorem index_eq (hidx : InTable header index) :
    managedMapSlabEntries * ((index - 1) / managedMapSlabEntries) + offsetOf index + 1 = index := by
  rw [offsetOf, Nat.div_add_mod, Nat.sub_add_cancel (Nat.pos_of_ne_zero hidx.1)]

section

variable (hv : CellView store header directory cells) (hidx : InTable header index)
include hv hidx

theorem slab_lt : (index - 1) / managedMapSlabEntries <
      header.capacity / managedMapSlabEntries := by
  have hwh := hv.whole
  obtain ⟨hz, hbd⟩ := hidx
  unfold managedMapSlabEntries at hwh ⊢
  omega

/-- The slab object of an entry. -/
theorem CellView.slab : ∃ content, directory[(index - 1) / managedMapSlabEntries]? =
          some (slabOf directory index) ∧
        store.objects (slabOf directory index) = some (.slab content) ∧
        (∀ off < managedMapSlabEntries, content[off]? = some (cells (managedMapSlabEntries *
            ((index - 1) / managedMapSlabEntries) + off + 1))) ∧
        content[offsetOf index]? = some (cells index) := by
  obtain ⟨ref, content, hr, hobj, hc⟩ :=
    hv.slabs.slabs _ (slab_lt hv hidx)
  have hs : slabOf directory index = ref := by
    rw [slabOf, hr]
    rfl
  refine ⟨content, hs ▸ hr, hs ▸ hobj, hc, ?_⟩
  have ho : offsetOf index < managedMapSlabEntries :=
    Nat.mod_lt _ (by decide)
  rw [hc _ ho, index_eq hidx]

theorem CellView.location :
    location header index store = .ok (slabOf directory index, offsetOf index) store := by
  obtain ⟨hz, hbd⟩ := hidx
  obtain ⟨content, hs, -, -⟩ := hv.slab ⟨hz, hbd⟩
  have hr : readReference header.directory ((index - 1) / managedMapSlabEntries) store =
        .ok (slabOf directory index) store := by
    rw [readReference, bind_ok (resolve_eq (hv.root (by omega)))]
    simp only [hs]
    rfl
  rw [ManagedMap.location, if_neg (by omega), bind_ok hr]
  rfl

theorem CellView.readCell :
    readCell (slabOf directory index) (offsetOf index) store = .ok (cells index) store := by
  obtain ⟨content, -, hobj, -, hc⟩ := hv.slab hidx
  rw [ManagedMap.readCell, bind_ok (resolve_eq hobj)]
  simp only [hc]
  rfl

/-- A write to an entry changes one cell and one slab. -/
theorem CellView.modifyCell (change : MapCell RawKey RawValue → MapCell RawKey RawValue) : ∃ after,
      modifyCell (slabOf directory index) (offsetOf index) change store = .ok () after ∧
        CellView after header directory (update cells index (change (cells index))) ∧
        ∀ ref, ref ≠ slabOf directory index → after.objects ref = store.objects ref := by
  obtain ⟨content, hsl, hobj, hco, hc⟩ := hv.slab hidx
  have hlen : offsetOf index < content.length :=
    (List.getElem?_eq_some_iff.mp hc).1
  have hwr : cellWrite (offsetOf index) change (.slab content) =
      .ok (.slab (content.set (offsetOf index) (change (cells index)))) := by
    simp only [cellWrite, hc]
  obtain ⟨after, ha, hob, -⟩ : ∃ after, modify errManagedReference (slabOf directory index)
          (cellWrite (offsetOf index) change) store = .ok () after ∧ _ :=
    modify_eq hobj hwr
  have ho : ∀ ref, ref ≠ slabOf directory index → after.objects ref = store.objects ref := by
    intro ref hne
    rw [hob, update_of_ne hne]
  refine ⟨after, ha, ⟨hv.whole, fun hca => ?_, fun slab hs => ?_, hv.slabs.distinct⟩, ho⟩
  · have hr := hv.root hca
    rw [ho _ fun heq => ?_]
    · exact hr
    · rw [heq, hobj] at hr
      cases hr
  · obtain ⟨ref, found, hre, hf, hce⟩ := hv.slabs.slabs slab hs
    by_cases hsa : ref = slabOf directory index
    · -- The slab that is written; distinct slabs have distinct references.
      subst hsa
      have hpos : slab = (index - 1) / managedMapSlabEntries :=
        hv.slabs.distinct slab hs _ (slab_lt hv hidx) (hre.trans hsl.symm)
      refine ⟨slabOf directory index, _, hre, by rw [hob, update_self], fun off hof => ?_⟩
      by_cases hw : off = offsetOf index
      · subst hw
        rw [List.getElem?_set_self hlen, hpos, index_eq hidx, update_self]
      · have hne : managedMapSlabEntries * slab + off + 1 ≠ index := by
          intro heq
          have hoff := offset_eq hof heq
          exact hw hoff
        rw [List.getElem?_set_ne (Ne.symm hw), hpos, hco off hof, ← hpos, update_of_ne hne]
    · refine ⟨ref, found, hre, (ho ref hsa).trans hf, fun off hof => ?_⟩
      rw [hce off hof, update_of_ne]
      intro heq
      have hslab'' : slabOf directory index = ref := by
        rw [slabOf, ← slab_eq hof heq, hre]
        rfl
      exact hsa hslab''.symm

end

end Cells

section Buckets

variable {bkts bkt head : Nat} {heads : List Nat}

section

variable (hobj : store.objects bkts = some (.buckets heads))
include hobj

theorem bucketCount_eq : bucketCount bkts store = .ok heads.length store := by
  rw [bucketCount, bind_ok (resolve_eq hobj)]
  rfl

theorem readBucket_eq (hb : bkt < heads.length) :
    readBucket bkts bkt store = .ok (heads.getD bkt 0) store := by
  rw [readBucket, bind_ok (resolve_eq hobj)]
  simp only [List.getElem?_eq_getElem hb, List.getD_eq_getElem?_getD]
  rfl

theorem writeBucket_eq (hb : bkt < heads.length) : ∃ after,
      writeBucket bkts bkt head store = .ok () after ∧
        after.objects bkts = some (.buckets (heads.set bkt head)) ∧
        ∀ ref, ref ≠ bkts → after.objects ref = store.objects ref := by
  have hwr : (bucketWrite bkt head (.buckets heads) :
      Except Fault (MapObject RawKey RawValue)) = .ok (.buckets (heads.set bkt head)) := by
    simp only [bucketWrite, if_pos hb]
  obtain ⟨after, ha, ho, -⟩ : ∃ after,
      modify errManagedReference bkts (bucketWrite bkt head) store =
        .ok () after ∧ _ := modify_eq hobj hwr
  refine ⟨after, ha, by rw [ho, update_self], fun ref hne => ?_⟩
  rw [ho, update_of_ne hne]

/-- A change of a bucket table does not touch the entries. -/
theorem CellView.of_buckets (hv : CellView store header directory cells)
    (ho : ∀ ref, ref ≠ bkts → after.objects ref = store.objects ref) :
    CellView after header directory cells := by
  refine hv.congr fun ref obj hk hl => ?_
  by_cases hs : ref = bkts
  · rw [hs, hobj] at hl
    exact absurd (Option.some.inj hl).symm (hk heads)
  · rw [ho ref hs]
    exact hl

end

end Buckets

section Table

section

variable (hv : View store identity table)
include hv

theorem View.readHeader : readHeader identity store = .ok table.header store := by
  rw [ManagedMap.readHeader, bind_ok (resolve_eq hv.header)]
  rfl

theorem View.modifyCell {index : Nat} (hidx : InTable table.header index)
    (change : MapCell RawKey RawValue → MapCell RawKey RawValue) : ∃ after,
      modifyCell (slabOf table.directory index) (offsetOf index) change store = .ok () after ∧
        View after identity { table with
          cells := update table.cells index (change (table.cells index)) } := by
  obtain ⟨content, -, hs, -, -⟩ := hv.cells.slab hidx
  obtain ⟨after, ha, hc, ho⟩ := hv.cells.modifyCell hidx change
  refine ⟨after, ha, ?_, hv.empty, fun hca => ?_, hc⟩
  · rw [ho _ fun heq => ?_]
    · exact hv.header
    · have := hv.header
      rw [heq, hs] at this
      cases this
  · rw [ho _ fun heq => ?_]
    · exact hv.buckets hca
    · have := hv.buckets hca
      rw [heq, hs] at this
      cases this

theorem View.writeBucket {bucket head : Nat} (hca : 0 < table.header.capacity)
    (hb : bucket < table.heads.length) :
    ∃ after, writeBucket table.header.buckets bucket head store = .ok () after ∧
      View after identity { table with heads := table.heads.set bucket head } := by
  obtain ⟨after, ha, hc, ho⟩ :=
    writeBucket_eq (hv.buckets hca) hb
  refine ⟨after, ha, ?_, hv.empty, fun _ => hc, hv.cells.of_buckets (hv.buckets hca) ho⟩
  rw [ho _ fun heq => ?_]
  · exact hv.header
  · have := hv.header
    rw [heq, hv.buckets hca] at this
    cases this

theorem View.clearBuckets (hc : 0 < table.header.capacity) : ∃ after,
      clearBuckets table.header.buckets store = .ok () after ∧
        View after identity { table with heads := table.heads.map fun _ => 0 } := by
  obtain ⟨after, ha, hob, -⟩ : ∃ after,
      modify errManagedReference table.header.buckets bucketClear store =
        .ok () after ∧ _ := modify_eq (hv.buckets hc) rfl
  have ho : ∀ ref, ref ≠ table.header.buckets → after.objects ref = store.objects ref := by
    intro ref hne
    rw [hob, update_of_ne hne]
  refine ⟨after, ha, ?_, hv.empty, fun _ => by rw [hob, update_self],
    hv.cells.of_buckets (hv.buckets hc) ho⟩
  rw [ho _ (ne_of_objects hv.header (hv.buckets hc) (by simp))]
  exact hv.header

/-- Writing back a header that names the same objects. -/
theorem View.writeHeader (header : MapHeader) (hd : header.directory = table.header.directory)
    (hb : header.buckets = table.header.buckets)
    (hc : header.capacity = table.header.capacity) :
    ∃ after, writeHeader identity header store = .ok () after ∧
      View after identity { table with header } := by
  obtain ⟨after, ha, hob, -⟩ : ∃ after,
      modify errManagedReference identity (headerWrite header) store =
        .ok () after ∧ _ := modify_eq hv.header rfl
  have ho : ∀ ref, ref ≠ identity → after.objects ref = store.objects ref := by
    intro ref hne
    rw [hob, update_of_ne hne]
  have hke : ∀ ref object, (∀ found, object ≠ .identity found) →
      store.objects ref = some object → after.objects ref = some object := by
    intro ref object hk hl
    rw [ho ref fun heq => ?_]
    · exact hl
    · rw [heq, hv.header] at hl
      exact hk _ (Option.some.inj hl).symm
  refine ⟨after, ha, by rw [hob, update_self], ?_, ?_, ?_, ?_, ?_⟩
  · simpa [hd, hb, hc] using hv.empty
  · intro hp
    rw [hb]
    exact hke _ _ (by simp) (hv.buckets (hc ▸ hp))
  · simpa [hc] using hv.cells.whole
  · intro hp
    rw [hd]
    exact hke _ _ (by simp) (hv.cells.root (hc ▸ hp))
  · rw [hc]
    exact hv.cells.slabs.congr fun _ _ => hke _ _ (by simp)

end

end Table

end ManagedMap

end MiniGo.Runtime
