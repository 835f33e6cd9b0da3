/-
Growth of a managed map.

All memory is requested before a chain is touched, so a failure leaves every
object of the map as it was. Afterwards nothing can fail: the entries are linked
into the new bucket table, the new slabs are entered in the directory, and the
header is written.
-/
import MiniGo.Runtime.ManagedMapUpdate

namespace MiniGo.Runtime.ManagedMap

open ObjectStore Chain Keeps Function List Ensures

variable {Value RawKey RawValue : Type} {runtime : MapRuntime Value RawKey RawValue}
  {base store after : Store (MapObject RawKey RawValue)} {ident : Nat}
  {table : MapTable RawKey RawValue}

/-- A failure that keeps all objects. Without a request that failed, it needs more than
the limits allow. -/
def Stopped (runtime : MapRuntime Value RawKey RawValue) (within : Prop)
    (base after : Store (MapObject RawKey RawValue)) : Prop :=
  Keeps base after ∧ (within → Pressed runtime.fails base after)

section Stopped

variable {within : Prop}

theorem Stopped.of_pressed (hb : Keeps base store) (hk : Keeps store after)
    (hp : Pressed runtime.fails store after) : Stopped runtime within base after :=
  ⟨hb.trans hk, fun _ => hp.of_keeps hb⟩

theorem Stopped.of_limit (hb : Keeps base store) (hlimit : ¬within) :
    Stopped runtime within base store :=
  ⟨hb, fun hw => absurd hw hlimit⟩

theorem Stopped.of_keeps (hb : Keeps base store) (hs : Stopped runtime within store after) :
    Stopped runtime within base after :=
  ⟨hb.trans hs.1, fun hw => (hs.2 hw).of_keeps hb⟩

theorem Stopped.undone {undone : Store (MapObject RawKey RawValue)} (hb : Keeps base undone)
    (hs : Stopped runtime within base after) (hsame : undone.requests = after.requests) :
    Stopped runtime within base undone :=
  ⟨hb, fun hw => (hs.2 hw).congr hsame⟩

end Stopped

/-- What the sizes of a map fit in: the slabs, the directory and the bucket table of
so many entries are no larger than an object may be. -/
structure WithinLimits (runtime : MapRuntime Value RawKey RawValue) (entries : Nat) : Prop where
  slab : runtime.entryStride * managedMapSlabEntries ≤ maxUint32 - 7
  entries : entries ≤ 2 ^ 28

theorem WithinLimits.mono {fewer entries : Nat} (hle : fewer ≤ entries)
    (hw : WithinLimits runtime entries) : WithinLimits runtime fewer :=
  ⟨hw.slab, Nat.le_trans hle hw.entries⟩

section Allocate

variable {post : Nat → Store (MapObject RawKey RawValue) → Prop} {within : Prop}

/-- A new object; the old ones are kept, also on failure. -/
theorem Ensures.reserve {physical : Nat} {obj : MapObject RawKey RawValue} (hb : Keeps base store)
    (hw : within → physical ≤ maxUint32 - 7)
    (hp : ∀ ref after, store.next ≤ ref → Keeps store after →
      after.objects ref = some obj → ref < after.next → post ref after) :
    Ensures (reserve runtime physical obj) store post (Stopped runtime within base) := by
  unfold ManagedMap.reserve
  split
  · next hlarge =>
    exact throw (.of_limit hb fun hfits => absurd (hw hfits) (Nat.not_le.mpr hlarge))
  · refine Ensures.bind (Ensures.request fun middle hm => ?_)
    refine ⟨Ensures.allocate fun after ha haf hreq => ?_, .of_pressed hb hm⟩
    refine hp _ _ hm.1 (hm.update hm.1 ha (by omega) (Nat.le_of_eq hreq.symm)) ?_ (by omega)
    rw [ha, update_self]

/-- The directory has room for the slabs and begins with the old ones. -/
def DirectoryGrown (table : MapTable RawKey RawValue)
    (base store : Store (MapObject RawKey RawValue)) (slabs directory : Nat) : Prop :=
  ∃ refs, store.objects directory = some (.directory refs) ∧ slabs ≤ refs.length ∧
    (∀ position < table.header.capacity / managedMapSlabEntries,
      refs[position]? = table.directory[position]?) ∧
    (directory = table.header.directory ∨ base.next ≤ directory)

theorem View.directory_pos (hv : View store ident table)
    (hd : table.header.directory ≠ 0) : 0 < table.header.capacity :=
  Nat.pos_of_ne_zero fun hz => hd (hv.empty hz).1

variable {dir : Nat} {refs : List Nat}

theorem directorySize_eq (ho : store.objects dir = some (.directory refs)) :
    directorySize dir store = .ok refs.length store := by
  rw [directorySize, bind_ok (resolve_eq ho)]
  rfl

/-- The copy of the old references goes to the new directory. -/
theorem copySlabs_spec (hv : View store ident table) (hb : Keeps base store) (hn : base.next ≤ dir)
    (hob : store.objects dir = some (.directory refs))
    (hlen : table.header.capacity / managedMapSlabEntries ≤ refs.length) :
    ∃ after copied, copySlabs table.header dir store = .ok () after ∧
      Keeps base after ∧ after.objects dir = some (.directory copied) ∧
      copied.length = refs.length ∧
      ∀ position < table.header.capacity / managedMapSlabEntries,
        copied[position]? = table.directory[position]? := by
  unfold copySlabs
  split
  · next hs =>
    have hca : 0 < table.header.capacity := Nat.pos_of_ne_zero fun hz => hs (by simp [hz])
    have hr := hv.cells.root hca
    have hold : table.header.capacity / managedMapSlabEntries ≤ table.directory.length := by
      obtain ⟨ref, -, hre, -⟩ := hv.cells.slabs.slabs
        (table.header.capacity / managedMapSlabEntries - 1)
        (Nat.sub_lt (Nat.pos_of_ne_zero hs) Nat.one_pos)
      have := (List.getElem?_eq_some_iff.mp hre).1
      omega
    have hc : (referenceCopy table.directory
        (table.header.capacity / managedMapSlabEntries) (.directory refs) :
        Except Fault (MapObject RawKey RawValue)) = .ok (.directory
          (table.directory.take (table.header.capacity / managedMapSlabEntries) ++
            refs.drop (table.header.capacity / managedMapSlabEntries))) := by
      simp only [referenceCopy, if_pos (And.intro hold hlen)]
    obtain ⟨after, ha, ho, hnext, hreq⟩ : ∃ after,
        modify errManagedReference dir (referenceCopy table.directory
          (table.header.capacity / managedMapSlabEntries)) store =
          .ok () after ∧ _ := modify_eq hob hc
    refine ⟨after, _, ?_, hb.update hn ho (by omega) (Nat.le_of_eq hreq.symm),
      by rw [ho, update_self], ?_, fun position hpos => ?_⟩
    · rw [copyReferences, bind_ok (resolve_eq hr)]
      exact ha
    · rw [length_append, length_take, length_drop]
      omega
    · rw [getElem?_append_left (by rw [length_take]; omega), getElem?_take_of_lt hpos]
  · next hs =>
    refine ⟨store, refs, rfl, hb, hob, rfl, fun position hpos => ?_⟩
    omega

theorem growDirectory_spec {slabs : Nat} (hv : View store ident table)
    (hsl : table.header.capacity / managedMapSlabEntries < slabs)
    (hw : within → slabs ≤ 2 ^ 22) :
    Ensures (growDirectory runtime table.header slabs) store (fun dir after => Keeps store after ∧
        DirectoryGrown table store after slabs dir) (Stopped runtime within store) := by
  obtain ⟨old, hold, hs⟩ : ∃ old,
      currentSize table.header.directory directorySize store = .ok old store ∧
        (slabs ≤ old → table.header.directory ≠ 0 ∧ old = table.directory.length) := by
    unfold currentSize
    split
    · next hd =>
      exact ⟨_, directorySize_eq (hv.cells.root (hv.directory_pos hd)), fun _ => ⟨hd, rfl⟩⟩
    · exact ⟨0, rfl, fun hnone => absurd (Nat.lt_of_lt_of_le hsl hnone) (Nat.not_lt_zero _)⟩
  refine Ensures.bind (of_ok hold ?_)
  split
  · next hmore =>
    split
    · next hlarge =>
      refine throw (.of_limit (refl store) fun hfits => ?_)
      have := hw hfits
      unfold maxUint32 at hlarge
      omega
    · refine Ensures.bind (Ensures.reserve (refl store) (fun hfits => ?_)
        fun dir mid hn hm ho _ => ?_)
      · have := hw hfits
        unfold maxUint32
        omega
      obtain ⟨after, copied, hc, hk, hd, hlen, hco⟩ :=
        copySlabs_spec (hv.keeps hm) hm hn ho (by rw [length_replicate]; omega)
      refine Ensures.bind (of_ok hc (Ensures.pure ⟨hk, copied, hd, ?_, hco, .inr hn⟩))
      rw [hlen, length_replicate]
      omega
  · next he =>
    obtain ⟨hd, hlen⟩ := hs (by omega)
    exact Ensures.pure ⟨refl store, table.directory, hv.cells.root (hv.directory_pos hd), by omega,
      fun _ _ => rfl, .inl rfl⟩

/-- New slabs under new references, all of them clear. -/
def SlabsAllocated (runtime : MapRuntime Value RawKey RawValue)
    (base store : Store (MapObject RawKey RawValue)) (slabs : List Nat) : Prop :=
  slabs.Nodup ∧ ∀ slab ∈ slabs, base.next ≤ slab ∧ store.objects slab = some
      (.slab (List.replicate managedMapSlabEntries (cleared runtime)))

theorem allocateSlabs_spec (count : Nat) (hb : Keeps base store)
    (hw : within → runtime.entryStride * managedMapSlabEntries ≤ maxUint32 - 7) :
    Ensures (allocateSlabs runtime count) store
      (fun slabs after => Keeps store after ∧ slabs.length = count ∧
        SlabsAllocated runtime store after slabs) (Stopped runtime within base) := by
  induction count generalizing store with
  | zero =>
    exact Ensures.pure ⟨refl store, rfl, nodup_nil, by simp⟩
  | succ count ih =>
    refine Ensures.bind (Ensures.reserve hb hw fun slab mid hn hm hob hs => ?_)
    refine Ensures.bind (Ensures.mono (ih (hb.trans hm)) (fun rest after hr => ?_) fun _ => id)
    obtain ⟨hk, hlen, hnd, hsl⟩ := hr
    refine Ensures.pure ⟨hm.trans hk, by simp [hlen],
      nodup_cons.mpr ⟨fun hmem => ?_, hnd⟩, fun other ho => ?_⟩
    · have := (hsl slab hmem).1
      omega
    · rcases mem_cons.mp ho with rfl | ho
      · exact ⟨hn, hk.2 _ _ hob⟩
      · exact ⟨Nat.le_trans hm.1 (hsl other ho).1, (hsl other ho).2⟩

/-- A bucket table whose size is a power of two: the old one, or a new one that
is empty. -/
def BucketsGrown (table : MapTable RawKey RawValue)
    (base store : Store (MapObject RawKey RawValue)) (buckets count : Nat) : Prop :=
  (∃ power, count = 2 ^ power) ∧ ((buckets = table.header.buckets ∧ 0 < table.header.capacity ∧
        count = table.heads.length) ∨
      (base.next ≤ buckets ∧ store.objects buckets = some (.buckets (List.replicate count 0))))

/-- The number of buckets stays a power of two, and below the limits it has no more than
29 doublings. -/
theorem doubleBuckets_spec {tgt fuel power : Nat} (hfuel : power + fuel = 33)
    (hw : within → tgt ≤ 2 ^ 29) (hpower : within → power ≤ 29) :
    Ensures (doubleBuckets tgt fuel (2 ^ power) : MapM RawKey RawValue Nat) store
      (fun res after => after = store ∧ (∃ power, res = 2 ^ power) ∧ (within → res ≤ 2 ^ 29))
      (fun after => after = store ∧ ¬within) := by
  induction fuel generalizing power with
  | zero =>
    refine throw ⟨rfl, fun hfits => ?_⟩
    have := hpower hfits
    omega
  | succ fuel ih =>
    unfold doubleBuckets
    split
    · next hless =>
      have hnext : within → power < 29 := fun hfits =>
        (Nat.pow_lt_pow_iff_right Nat.one_lt_two).mp (Nat.lt_of_lt_of_le hless (hw hfits))
      split
      · next hlarge =>
        refine throw ⟨rfl, fun hfits => ?_⟩
        have := hw hfits
        unfold maxUint32 at hlarge
        omega
      · rw [← Nat.pow_succ]
        exact ih (by omega) hnext
    · exact Ensures.pure ⟨rfl, ⟨power, rfl⟩, fun hfits =>
        Nat.pow_le_pow_right Nat.two_pos (hpower hfits)⟩

theorem growBuckets_spec {capacity : Nat} (hv : View store ident table)
    (hvl : Valid runtime table) (hba : Keeps base store)
    (hca : 0 < capacity) (hw : within → capacity ≤ 2 ^ 28) :
    Ensures (growBuckets runtime table.header capacity) store (fun res after => Keeps store after ∧
        BucketsGrown table store after res.1 res.2) (Stopped runtime within base) := by
  obtain ⟨old, hold, hs⟩ : ∃ old,
      currentSize table.header.buckets bucketCount store = .ok old store ∧
        (0 < old → table.header.buckets ≠ 0 ∧ old = table.heads.length) := by
    unfold currentSize
    split
    · next hb =>
      exact ⟨_, bucketCount_eq (hv.buckets (hv.capacity_pos hb)), fun _ => ⟨hb, rfl⟩⟩
    · exact ⟨0, rfl, fun hnone => absurd hnone (Nat.lt_irrefl _)⟩
  refine Ensures.bind (of_ok hold ?_)
  split
  · next hlarge =>
    refine throw (.of_limit hba fun hfits => ?_)
    have := hw hfits
    unfold maxUint32 at hlarge
    omega
  · split
    · have hdouble : within → capacity * 2 ≤ 2 ^ 29 := fun hfits => by
        have := hw hfits
        omega
      refine Ensures.bind (Ensures.mono (doubleBuckets_spec (Nat.zero_add 33) hdouble
        fun _ => Nat.zero_le 29) (fun count mid hc => ?_) fun after ha => ?_)
      swap
      · obtain ⟨rfl, hlimit⟩ := ha
        exact .of_limit hba hlimit
      obtain ⟨rfl, hpo, hsize⟩ := hc
      refine Ensures.bind (Ensures.reserve hba (fun hfits => ?_) fun buckets after hn hk ho _ => ?_)
      · have := hsize hfits
        unfold maxUint32
        omega
      exact Ensures.pure ⟨hk, hpo, .inr ⟨hn, ho⟩⟩
    · next he =>
      obtain ⟨hb, hlen⟩ := hs (by omega)
      have hp := hv.capacity_pos hb
      exact Ensures.pure ⟨refl store, hlen ▸ hvl.sized hp, .inl ⟨rfl, hp, hlen⟩⟩

end Allocate

section Rehash

variable {header : MapHeader} {directory : List Nat} {buckets count index : Nat}
  {cells cells' : Nat → MapCell RawKey RawValue} {done : List Nat}

/-- Only links of occupied entries differ. -/
def Relinked (cells cells' : Nat → MapCell RawKey RawValue) : Prop :=
  ∀ index, ∃ link, cells' index = { cells index with next := link } ∧
    ((cells index).occupied = false → link = (cells index).next)

theorem Relinked.refl (cells : Nat → MapCell RawKey RawValue) :
    Relinked cells cells := fun _ => ⟨_, rfl, fun _ => rfl⟩

theorem Relinked.trans {cells'' : Nat → MapCell RawKey RawValue}
    (hfs : Relinked cells cells') (hsn : Relinked cells' cells'') :
    Relinked cells cells'' := by
  intro index
  obtain ⟨first, hfi, hf⟩ := hfs index
  obtain ⟨second, hse, hs⟩ := hsn index
  rw [hfi] at hse hs
  exact ⟨second, hse, fun ho =>
    (hs ho).trans (hf ho)⟩

theorem Relinked.of_unoccupied (hr : Relinked cells cells') (ho : (cells index).occupied = false) :
    cells' index = cells index := by
  obtain ⟨link, hl, hs⟩ := hr index
  rw [hl, hs ho]

/-- The chain of a bucket when some entries have been linked, last first. -/
def chainOf (cells : Nat → MapCell RawKey RawValue) (count : Nat)
    (done : List Nat) (bucket : Nat) : List Nat :=
  done.filter fun index =>
    (cells index).occupied && (cells index).hash % count == bucket

theorem Relinked.chainOf_eq (hr : Relinked cells cells') (bucket : Nat) :
    chainOf cells' count done bucket = chainOf cells count done bucket := by
  refine filter_congr fun index _ => ?_
  obtain ⟨link, hl, -⟩ := hr index
  rw [hl]

/-- The state of the loop that fills a bucket table. -/
structure Rehashed (store : Store (MapObject RawKey RawValue))
    (header : MapHeader) (directory : List Nat) (buckets count : Nat)
    (cells : Nat → MapCell RawKey RawValue) (heads done : List Nat) : Prop where
  view : CellView store header directory cells
  object : store.objects buckets = some (.buckets heads)
  length : heads.length = count
  chains : ∀ bucket < count, Linked (nextOf cells) (heads.getD bucket 0)
    (chainOf cells count done bucket)

/-- Everything but the bucket table and the slabs of the directory is the same. -/
def Framed (header : MapHeader) (directory : List Nat) (buckets : Nat)
    (store after : Store (MapObject RawKey RawValue)) : Prop :=
  ∀ ref, ref ≠ buckets → (∀ index, InTable header index → ref ≠ slabOf directory index) →
      after.objects ref = store.objects ref

theorem rehashEntry_eq {heads : List Nat}
    (hs : Rehashed store header directory buckets count cells heads done)
    (hc : ∃ power, count = 2 ^ power) (hi : InTable header index)
    (hn : index ∉ done) : ∃ after cells' he,
      rehashEntry header buckets count index store = .ok () after ∧
        Rehashed after header directory buckets count cells' he (index :: done) ∧
        Relinked cells cells' ∧ Framed header directory buckets store after := by
  unfold rehashEntry
  rw [bind_ok (hs.view.location hi)]
  dsimp only
  rw [bind_ok (hs.view.readCell hi)]
  cases hoc : (cells index).occupied with
  | false =>
    refine ⟨store, cells, heads, by simp; rfl, ⟨hs.view, hs.object,
      hs.length, fun bucket hb => ?_⟩, Relinked.refl cells,
      fun _ _ _ => rfl⟩
    simpa [chainOf, hoc] using hs.chains bucket hb
  | true =>
    obtain ⟨power, rfl⟩ := hc
    have hb : (cells index).hash % 2 ^ power < heads.length := by
      rw [hs.length]
      exact Nat.mod_lt _ (Nat.two_pow_pos power)
    simp only [if_true, Nat.and_two_pow_sub_one_eq_mod]
    rw [bind_ok (readBucket_eq hs.object hb)]
    obtain ⟨content, -, hsl, -, -⟩ := hs.view.slab hi
    obtain ⟨mid, hm, hv, ho⟩ := hs.view.modifyCell hi
      fun cell => { cell with next := heads.getD ((cells index).hash % 2 ^ power) 0 }
    have hmi : mid.objects buckets = some (.buckets heads) := by
      rw [ho buckets fun heq => ?_]
      · exact hs.object
      · have := hs.object
        rw [heq, hsl] at this
        cases this
    obtain ⟨after, hwr, hcha, hr⟩ : ∃ after, writeBucket buckets
        ((cells index).hash % 2 ^ power) index mid = .ok () after ∧ _ :=
      writeBucket_eq hmi hb
    rw [bind_ok hm]
    have hre : Relinked cells (update cells index { cells index with
          next := heads.getD ((cells index).hash % 2 ^ power) 0 }) := by
      intro other
      by_cases hsa : other = index
      · subst hsa
        exact ⟨_, update_self _ _ _, by simp [hoc]⟩
      · exact ⟨_, update_of_ne hsa _ _, fun _ => rfl⟩
    refine ⟨after, _, _, hwr, ⟨hv.of_buckets hmi hr, hcha,
      by rw [length_set, hs.length], fun bucket hlt => ?_⟩, hre,
      fun ref hne hsls => ?_⟩
    · rw [hre.chainOf_eq, nextOf_update]
      have hch := hs.chains bucket hlt
      have hnot : index ∉ chainOf cells (2 ^ power) done bucket :=
        fun hmem => hn (mem_filter.mp hmem).1
      by_cases hsa : (cells index).hash % 2 ^ power = bucket
      · subst hsa
        have hh : (heads.set ((cells index).hash % 2 ^ power) index).getD
            ((cells index).hash % 2 ^ power) 0 = index := by
          simp [getD_eq_getElem?_getD, hb]
        have hcons : chainOf cells (2 ^ power) (index :: done)
            ((cells index).hash % 2 ^ power) = index ::
              chainOf cells (2 ^ power) done ((cells index).hash % 2 ^ power) := by
          simp [chainOf, hoc]
        rw [hh, hcons]
        exact hch.push hi.1 hnot
      · have hh : (heads.set ((cells index).hash % 2 ^ power) index).getD
            bucket 0 = heads.getD bucket 0 := by
          simp [getD_eq_getElem?_getD, hsa]
        have hcons : chainOf cells (2 ^ power) (index :: done) bucket =
            chainOf cells (2 ^ power) done bucket := by
          simp [chainOf, hsa]
        rw [hh, hcons]
        exact hch.update_of_notMem hnot
    · rw [hr ref hne, ho ref (hsls index hi)]

theorem rehash_eq {heads todo : List Nat}
    (hs : Rehashed store header directory buckets count cells heads done)
    (hc : ∃ power, count = 2 ^ power)
    (ht : ∀ index ∈ todo, InTable header index)
    (hnd : todo.Nodup) (hn : ∀ index ∈ todo, index ∉ done) :
    ∃ after cells' hea, rehash header buckets count todo store = .ok () after ∧
      Rehashed after header directory buckets count cells' hea (todo.reverse ++ done) ∧
      Relinked cells cells' ∧ Framed header directory buckets store after := by
  induction todo generalizing store cells heads done with
  | nil =>
    exact ⟨store, cells, heads, rfl, hs, Relinked.refl cells, fun _ _ _ => rfl⟩
  | cons index rest ih =>
    obtain ⟨hi, hr⟩ := nodup_cons.mp hnd
    obtain ⟨mid, cells', hea, he, hm, hrel, hfr⟩ :=
      rehashEntry_eq hs hc (ht index mem_cons_self) (hn index mem_cons_self)
    obtain ⟨after, cells'', heads'', hl, ha, hre, hf⟩ :=
      ih hm (fun other ho => ht other (mem_cons_of_mem _ ho)) hr (fun other ho hmem => by
          rcases mem_cons.mp hmem with rfl | hmem
          · exact hi ho
          · exact hn other (mem_cons_of_mem _ ho) hmem)
    refine ⟨after, cells'', heads'', ?_, by simpa using ha, hrel.trans hre, fun ref hne hsl => ?_⟩
    · rw [rehash, bind_ok he]
      exact hl
    · rw [hf ref hne hsl, hfr ref hne hsl]

end Rehash

section Publish

variable {dir pos : Nat} {refs slabs : List Nat}

theorem writeReference_eq {slab : Nat} (hob : store.objects dir = some (.directory refs))
    (hpos : pos < refs.length) : ∃ after, writeReference dir pos slab store = .ok () after ∧
        after.objects dir = some (.directory (refs.set pos slab)) ∧
        ∀ ref, ref ≠ dir → after.objects ref = store.objects ref := by
  have hwr : (referenceWrite pos slab (.directory refs) :
      Except Fault (MapObject RawKey RawValue)) = .ok (.directory (refs.set pos slab)) := by
    simp only [referenceWrite, if_pos hpos]
  obtain ⟨after, ha, ho, -⟩ : ∃ after,
      modify errManagedReference dir (referenceWrite pos slab) store =
        .ok () after ∧ _ := modify_eq hob hwr
  refine ⟨after, ha, by rw [ho, update_self], fun ref hne => ?_⟩
  rw [ho, update_of_ne hne]

/-- The directory after the new slabs have been entered. -/
theorem publishSlabs_eq (hob : store.objects dir = some (.directory refs))
    (hsp : pos + slabs.length ≤ refs.length) : ∃ after refs',
      publishSlabs dir pos slabs store = .ok () after ∧
        after.objects dir = some (.directory refs') ∧
        (∀ place < pos, refs'[place]? = refs[place]?) ∧
        (∀ place < slabs.length, refs'[pos + place]? = slabs[place]?) ∧
        ∀ ref, ref ≠ dir → after.objects ref = store.objects ref := by
  induction slabs generalizing store pos refs with
  | nil => exact ⟨store, refs, rfl, hob, fun _ _ => rfl, by simp, fun _ _ => rfl⟩
  | cons slab rest ih =>
    rw [length_cons] at hsp
    obtain ⟨mid, hwr, hm, ho⟩ : ∃ mid, writeReference dir pos slab store = .ok () mid ∧ _ :=
      writeReference_eq hob (by omega)
    obtain ⟨after, refs', hl, ha, hb, hp, hot⟩ :
        ∃ after refs', publishSlabs dir (pos + 1) rest mid =
          .ok () after ∧ _ := ih hm (by rw [length_set]; omega)
    refine ⟨after, refs', ?_, ha, fun place hpl => ?_, fun place hpl => ?_, fun ref hne => ?_⟩
    · rw [publishSlabs, bind_ok hwr]
      exact hl
    · rw [hb place (by omega), getElem?_set_ne (by omega)]
    · cases place with
      | zero =>
        rw [Nat.add_zero, hb pos (by omega), getElem?_set_self (by omega)]
        rfl
      | succ place =>
        have hr := hp place (by simpa using hpl)
        rw [show pos + (place + 1) = pos + 1 + place by omega, hr]
        rfl
    · rw [hot ref hne, ho ref hne]

end Publish

section Grow

variable {directory buckets count capacity : Nat} {newSlabs : List Nat}

theorem View.lt_next (hv : View base ident table) :
    table.header.directory < base.next ∧ table.header.buckets < base.next := by
  by_cases hz : table.header.capacity = 0
  · rw [(hv.empty hz).1, (hv.empty hz).2]
    exact ⟨base.positive, base.positive⟩
  · have hc := Nat.pos_of_ne_zero hz
    exact ⟨lt_next_of_live (hv.cells.root hc), lt_next_of_live (hv.buckets hc)⟩

/-- The bucket table of the map links the occupied entries. -/
theorem fillBuckets_eq (hv : View store ident table) (hvl : Valid runtime table)
    (hbk : BucketsGrown table base store buckets count)
    (hba : table.header.buckets < base.next) :
    ∃ after cells' he, fillBuckets table.header buckets count store = .ok () after ∧
      CellView after table.header table.directory cells' ∧
      after.objects buckets = some (.buckets he) ∧ he.length = count ∧
      Relinked table.cells cells' ∧
      (∃ chain, Chained he cells' (Live table) chain) ∧
      Framed table.header table.directory buckets store after := by
  obtain ⟨hp, ⟨rfl, hc, rfl⟩ | ⟨hn, ho⟩⟩ := hbk
  · refine ⟨store, table.cells, table.heads, by simp [fillBuckets]; rfl, hv.cells,
      hv.buckets hc, rfl, Relinked.refl _, hvl.chains, fun _ _ _ => rfl⟩
  · have hne : buckets ≠ table.header.buckets := by omega
    have hs : Rehashed store table.header table.directory buckets count
        table.cells (replicate count 0) [] := by
      refine ⟨hv.cells, ho, length_replicate, fun bkt hb => ?_⟩
      simpa [getD_eq_getElem?_getD, hb, chainOf] using Linked.nil
    have hrn : ∀ index ∈ range' 1 table.header.created, InTable table.header index := by
      intro index hi
      have hi := mem_range'_1.mp hi
      have hm := hvl.created_le
      exact ⟨by omega, by omega⟩
    obtain ⟨after, cells', he, hru, ha, hr, hf⟩ :=
      rehash_eq hs hp hrn nodup_range' (by simp)
    refine ⟨after, cells', he, by rw [fillBuckets, if_pos hne]; exact hru,
      ha.view, ha.object, ha.length, hr,
      ⟨chainOf cells' count ((range' 1 table.header.created).reverse ++ []), fun bkt hb => ?_⟩, hf⟩
    rw [ha.length] at hb ⊢
    refine ⟨ha.chains bkt hb, fun index => ?_⟩
    obtain ⟨link, hl, -⟩ := hr index
    rw [chainOf, mem_filter, append_nil, mem_reverse,
      mem_range'_1, hl, Live, Bool.and_eq_true, beq_iff_eq, ← and_assoc]
    refine and_congr_left fun _ => ?_
    rw [← and_assoc]
    refine and_congr_left fun _ => ?_
    omega

/-- The table after a growth. -/
def Grown (runtime : MapRuntime Value RawKey RawValue)
    (table table' : MapTable RawKey RawValue) (capacity : Nat) : Prop :=
  Valid runtime table' ∧ Relinked table.cells table'.cells ∧ table'.header = { table.header with
      directory := table'.header.directory
      buckets := table'.header.buckets
      capacity }

/-- The old slabs, followed by the new ones, hold the cells. -/
theorem SlabView.extend {cells : Nat → MapCell RawKey RawValue}
    {old refs : List Nat} {oldSlabs : Nat}
    (hv : SlabView store old oldSlabs cells)
    (hne : SlabsAllocated runtime base store newSlabs)
    (hold : ∀ slab < oldSlabs, ∀ ref, old[slab]? = some ref → ref < base.next)
    (hb : ∀ place < oldSlabs, refs[place]? = old[place]?)
    (hp : ∀ place < newSlabs.length, refs[oldSlabs + place]? = newSlabs[place]?)
    (hc : ∀ index, managedMapSlabEntries * oldSlabs < index → cells index = cleared runtime) :
    SlabView store refs (oldSlabs + newSlabs.length) cells := by
  have hn : ∀ slab, oldSlabs ≤ slab → slab < oldSlabs + newSlabs.length →
      ∃ ref, refs[slab]? = some ref ∧ newSlabs[slab - oldSlabs]? = some ref ∧ ref ∈ newSlabs := by
    intro slab hge hlt
    have hpl : slab - oldSlabs < newSlabs.length := by omega
    have hsa := hp _ hpl
    rw [show oldSlabs + (slab - oldSlabs) = slab by omega, getElem?_eq_getElem hpl] at hsa
    exact ⟨_, hsa, getElem?_eq_getElem hpl, getElem_mem hpl⟩
  have ho : ∀ slab < oldSlabs, ∃ ref, refs[slab]? = some ref ∧
      old[slab]? = some ref ∧ ref < base.next := by
    intro slab hs
    obtain ⟨ref, -, hr, -⟩ := hv.slabs slab hs
    exact ⟨ref, (hb slab hs).trans hr, hr, hold slab hs ref hr⟩
  refine ⟨fun slab hs => ?_, fun first hf second hsn hsa => ?_⟩
  · by_cases hlt : slab < oldSlabs
    · rw [hb slab hlt]
      exact hv.slabs slab hlt
    · obtain ⟨ref, hr, -, hmem⟩ := hn slab (by omega) hs
      refine ⟨ref, _, hr, (hne.2 ref hmem).2, fun off hof => ?_⟩
      rw [getElem?_replicate_of_lt hof, hc]
      unfold managedMapSlabEntries
      omega
  · by_cases hlt : first < oldSlabs <;> by_cases hl : second < oldSlabs
    · rw [hb first hlt, hb second hl] at hsa
      exact hv.distinct first hlt second hl hsa
    · obtain ⟨ref, hr, -, hbd⟩ := ho first hlt
      obtain ⟨ref', hre, -, hmem⟩ := hn second (by omega) hsn
      rw [hr, hre] at hsa
      have := (hne.2 ref' hmem).1
      have := Option.some.inj hsa
      omega
    · obtain ⟨ref, hr, -, hbd⟩ := ho second hl
      obtain ⟨ref', hre, -, hmem⟩ := hn first (by omega) hf
      rw [hr, hre] at hsa
      have := (hne.2 ref' hmem).1
      have := Option.some.inj hsa
      omega
    · obtain ⟨ref, hr, hpl, -⟩ := hn first (by omega) hf
      obtain ⟨ref', hre, hpla, -⟩ := hn second (by omega) hsn
      rw [hr, hre] at hsa
      rw [Option.some.inj hsa] at hpl
      obtain ⟨_, hget⟩ := List.getElem?_eq_some_iff.mp hpl
      obtain ⟨_, hg⟩ := List.getElem?_eq_some_iff.mp hpla
      have hinj := hne.1.getElem_inj_iff.mp (hget.trans hg.symm)
      omega

theorem View.slab_lt_next (hv : View base ident table) :
    ∀ slab < table.header.capacity / managedMapSlabEntries, ∀ ref,
      table.directory[slab]? = some ref → ref < base.next := by
  intro slab hs ref hr
  obtain ⟨found, content, hf, ho, -⟩ := hv.cells.slabs.slabs slab hs
  rw [hr] at hf
  exact Option.some.inj hf ▸ lt_next_of_live ho

theorem BucketsGrown.object (hv : View store ident table)
    (hb : BucketsGrown table base store buckets count) :
    ∃ heads, store.objects buckets = some (.buckets heads) := by
  obtain ⟨-, ⟨rfl, hc, -⟩ | ⟨-, ho⟩⟩ := hb
  · exact ⟨_, hv.buckets hc⟩
  · exact ⟨_, ho⟩

theorem Valid.grow {table' : MapTable RawKey RawValue} (hv : Valid runtime table)
    (hr : Relinked table.cells table'.cells)
    (hcha : ∃ chain, Chained table'.heads table'.cells (Live table) chain)
    (hp : ∃ power, table'.heads.length = 2 ^ power)
    (hhd : table'.header = { table.header with
      directory := table'.header.directory
      buckets := table'.header.buckets
      capacity := table'.header.capacity })
    (hca : table.header.capacity ≤ table'.header.capacity)
    (hb : table'.header.capacity ≤ maxUint32) : Valid runtime table' := by
  have hm : table'.header.created = table.header.created := by rw [hhd]
  have hli : ∀ index, Live table' index ↔ Live table index := by
    intro index
    obtain ⟨link, hl, -⟩ := hr index
    rw [Live, Live, hl, hm]
  have hke : ∀ index, keyOf runtime (table'.cells index) = keyOf runtime (table.cells index) := by
    intro index
    obtain ⟨link, hl, -⟩ := hr index
    rw [hl]
    rfl
  obtain ⟨chain, hch⟩ := hcha
  obtain ⟨items, hi⟩ := hv.free
  have hs : ∀ index ∈ items, table'.cells index = table.cells index :=
    fun index hmem => hr.of_unoccupied (hi.2 index hmem).2.1
  refine ⟨⟨chain, fun bkt hbk => ⟨(hch bkt hbk).1, fun index => ?_⟩⟩,
    ⟨items, ?_, fun index hmem => ?_⟩, ?_, hb, fun index hid => ?_,
    fun _ => hp, ?_, fun index hid => ?_,
    fun first second hf hsn hk hre => ?_⟩
  · rw [hli]
    exact (hch bkt hbk).2 index
  · rw [hhd]
    exact hi.1.congr fun index hmem => congrArg MapCell.next (hs index hmem)
  · rw [hs index hmem, hm]
    exact hi.2 index hmem
  · rw [hm]
    exact Nat.le_trans hv.created_le hca
  · rw [hm] at hid
    have hfr := hv.fresh index hid
    rw [hr.of_unoccupied (by rw [hfr]; rfl), hfr]
  · have hc : table'.header.count = table.header.count := by rw [hhd]
    rw [hc, hv.count, liveIndexes, liveIndexes, hm]
    refine congrArg List.length (List.filter_congr fun index _ => ?_)
    obtain ⟨link, hl, -⟩ := hr index
    rw [hl]
  · obtain ⟨link, hl, -⟩ := hr index
    rw [hl]
    exact hv.keyed index ((hli index).mp hid)
  · rw [hke] at hre
    rw [hke, hke] at hk
    exact hv.unique first second ((hli first).mp hf) ((hli second).mp hsn) hk hre

/-- Once all memory is there, the growth goes through. -/
theorem finishGrowth (hv : View base ident table)
    (hvl : Valid runtime table) (hke : Keeps base store)
    (hd : DirectoryGrown table base store (capacity / managedMapSlabEntries) directory)
    (hsls : SlabsAllocated runtime base store newSlabs)
    (hbk : BucketsGrown table base store buckets count)
    (hc : table.header.capacity / managedMapSlabEntries + newSlabs.length =
      capacity / managedMapSlabEntries)
    (hwh : capacity % managedMapSlabEntries = 0)
    (hg : table.header.capacity < capacity) (hbo : capacity ≤ maxUint32) :
    ∃ filled published after table', fillBuckets table.header buckets count store = .ok () filled ∧
      publishSlabs directory (table.header.capacity / managedMapSlabEntries)
        newSlabs filled = .ok () published ∧
      writeHeader ident { table.header with directory, buckets, capacity }
        published = .ok () after ∧
      View after ident table' ∧ Grown runtime table table' capacity ∧
      table'.header = { table.header with directory, buckets, capacity } := by
  have hs := hv.keeps hke
  obtain ⟨oldHeads, hbu⟩ := hbk.object hs
  obtain ⟨refs, hr, hro, hb, -⟩ := hd
  -- The new bucket table.
  obtain ⟨filled, cells, heads, hfill, hce, hh, hlen, hre, hch,
    hfra⟩ := fillBuckets_eq hs hvl hbk hv.lt_next.2
  have hou : ∀ ref object, store.objects ref = some object →
      (∀ found, object ≠ .slab found) → ∀ index, InTable table.header index →
        ref ≠ slabOf table.directory index := by
    intro ref object hobj hk index hi
    obtain ⟨content, -, hsl, -, -⟩ := hs.cells.slab hi
    exact ne_of_objects hobj hsl (hk content)
  have hf : filled.objects directory = some (.directory refs) := by
    rw [hfra directory (ne_of_objects hr hbu (by simp)) (hou _ _ hr (by simp))]
    exact hr
  have hfil : filled.objects ident = some (.identity table.header) := by
    rw [hfra ident (ne_of_objects hs.header hbu (by simp)) (hou _ _ hs.header (by simp))]
    exact hs.header
  have hfi : SlabsAllocated runtime base filled newSlabs := by
    refine ⟨hsls.1, fun slab hsl => ⟨(hsls.2 slab hsl).1, ?_⟩⟩
    obtain ⟨hn, hobj⟩ := hsls.2 slab hsl
    rw [hfra slab (ne_of_objects hobj hbu (by simp)) fun index hi =>
      ?_]
    · exact hobj
    · obtain ⟨content, hpl, -⟩ := hs.cells.slab hi
      have := hv.slab_lt_next _ (slab_lt hv.cells hi) _ hpl
      omega
  -- The new directory.
  obtain ⟨published, refs', hpu, hpub, hkep, hpla, ho⟩ : ∃ published refs', publishSlabs directory
        (table.header.capacity / managedMapSlabEntries) newSlabs filled =
          .ok () published ∧ _ := publishSlabs_eq hf (by omega)
  have hp : ∀ ref object, filled.objects ref = some object →
      (∀ found, object ≠ .directory found) → published.objects ref = some object := by
    intro ref object hobj hk
    rw [ho ref (ne_of_objects hobj hf (hk refs))]
    exact hobj
  have hal : SlabView published refs' (capacity / managedMapSlabEntries)
      cells := by
    rw [← hc]
    refine (hce.slabs.congr fun ref content hobj => hp ref _ hobj
      (by simp)).extend ⟨hfi.1, fun slab hsl => ⟨(hfi.2 slab hsl).1,
        hp slab _ (hfi.2 slab hsl).2 (by simp)⟩⟩
      hv.slab_lt_next (fun place hpl => ?_) hpla fun index hi => ?_
    · rw [hkep place hpl, hb place hpl]
    · have hm := hvl.created_le
      have hold := hv.cells.whole
      have hfr := hvl.fresh index (by
        unfold managedMapSlabEntries at hi hold
        omega)
      rw [hre.of_unoccupied (by rw [hfr]; rfl), hfr]
  -- The new header.
  obtain ⟨after, hwr, hob, -⟩ : ∃ after, modify errManagedReference ident
      (headerWrite { table.header with directory, buckets, capacity }) published =
        .ok () after ∧ _ :=
    modify_eq (hp ident _ hfil (by simp)) rfl
  have ha : ∀ ref object, published.objects ref = some object →
      (∀ found, object ≠ .identity found) → after.objects ref = some object := by
    intro ref object hobj hk
    rw [hob, update_of_ne (ne_of_objects hobj (hp ident _ hfil (by simp)) (hk _))]
    exact hobj
  have hfin : View after ident
      ⟨{ table.header with directory, buckets, capacity }, refs', heads, cells⟩ := by
    have hca := Nat.ne_of_gt (Nat.lt_of_le_of_lt (Nat.zero_le _) hg)
    refine ⟨by rw [hob, update_self], fun hz => absurd hz hca,
      fun _ => ha buckets _ (hp buckets _ hh (by simp)) (by simp),
      hwh, fun _ => ha directory _ hpub (by simp), ?_⟩
    exact hal.congr fun ref content hobj =>
      ha ref _ hobj (by simp)
  refine ⟨filled, published, after, _, hfill, hpu, hwr, hfin, ⟨?_, hre, rfl⟩, rfl⟩
  exact hvl.grow hre hch (hlen ▸ hbk.1) rfl (Nat.le_of_lt hg) hbo

theorem DirectoryGrown.keeps {slabs : Nat} (hk : Keeps store after)
    (hd : DirectoryGrown table base store slabs directory) :
    DirectoryGrown table base after slabs directory := by
  obtain ⟨refs, hre, hr⟩ := hd
  exact ⟨refs, hk.2 _ _ hre, hr⟩

theorem SlabsAllocated.keeps {older : Store (MapObject RawKey RawValue)}
    (holder : older.next ≤ base.next) (hk : Keeps store after)
    (hsl : SlabsAllocated runtime base store newSlabs) :
    SlabsAllocated runtime older after newSlabs :=
  ⟨hsl.1, fun slab hs => ⟨Nat.le_trans holder (hsl.2 slab hs).1, hk.2 _ _ (hsl.2 slab hs).2⟩⟩

theorem BucketsGrown.older {older : Store (MapObject RawKey RawValue)}
    (holder : older.next ≤ base.next)
    (hb : BucketsGrown table base store buckets count) :
    BucketsGrown table older store buckets count :=
  ⟨hb.1, hb.2.imp_right fun hn =>
    ⟨Nat.le_trans holder hn.1, hn.2⟩⟩

theorem grow_spec (hv : View store ident table) (hvl : Valid runtime table)
    (hwh : capacity % managedMapSlabEntries = 0)
    (hg : table.header.capacity < capacity) (hb : capacity ≤ maxUint32) :
    Ensures (grow runtime ident table.header capacity) store
      (fun header after => ∃ table', View after ident table' ∧
        Grown runtime table table' capacity ∧ table'.header = header)
      (Stopped runtime (WithinLimits runtime capacity) store) := by
  have hs : table.header.capacity / managedMapSlabEntries < capacity / managedMapSlabEntries := by
    have hold := hv.cells.whole
    unfold managedMapSlabEntries at hwh hold ⊢
    omega
  unfold grow
  refine Ensures.bind (Ensures.mono (growDirectory_spec hv hs fun hw =>
    Nat.div_le_of_le_mul hw.entries) (fun directory first hfs => ?_) fun _ => id)
  obtain ⟨hk, hd⟩ := hfs
  refine Ensures.bind (Ensures.mono (allocateSlabs_spec _ hk WithinLimits.slab)
    (fun newSlabs second hsn => ?_) fun _ => id)
  obtain ⟨hkee, hlen, hn⟩ := hsn
  have hkeep := hk.trans hkee
  refine Ensures.bind (Ensures.mono (growBuckets_spec (hv.keeps hkeep) hvl
    hkeep (by omega) WithinLimits.entries) (fun res third ht => ?_) fun _ => id)
  obtain ⟨buckets, count⟩ := res
  obtain ⟨hke, hbk⟩ := ht
  obtain ⟨filled, published, after, table', hf, hp, hwr, ha, hgr,
    hhd⟩ := finishGrowth hv hvl (hkeep.trans hke) (hd.keeps (hkee.trans hke))
      (hn.keeps hk.1 hke) (hbk.older hkeep.1)
      (by rw [hlen]; exact Nat.add_sub_cancel' (Nat.le_of_lt hs)) hwh hg hb
  refine Ensures.bind (of_ok hf (Ensures.bind (of_ok hp (Ensures.bind (of_ok hwr ?_)))))
  exact Ensures.pure ⟨table', ha, hgr, hhd⟩

theorem WithinLimits.whole {index : Nat} (hw : WithinLimits runtime index) :
    WithinLimits runtime ((index + managedMapSlabEntries - 1) / managedMapSlabEntries *
      managedMapSlabEntries) := by
  refine ⟨hw.slab, ?_⟩
  have := hw.entries
  unfold managedMapSlabEntries
  omega

/-- `ensureCapacity` makes room for an index, or fails and keeps all objects. -/
theorem ensureCapacity_spec (hv : View store ident table)
    (hvl : Valid runtime table) (index : Nat) :
    Ensures (ensureCapacity runtime ident table.header index) store
      (fun header after => ∃ table', View after ident table' ∧
        Grown runtime table table' header.capacity ∧ table'.header = header ∧
        index ≤ header.capacity) (Stopped runtime (WithinLimits runtime index) store) := by
  unfold ensureCapacity
  split
  · next he =>
    exact Ensures.pure ⟨table, hv, ⟨hvl, Relinked.refl _, rfl⟩, rfl, he⟩
  · next hm =>
    refine Ensures.bind (Ensures.request fun first hfirst => ?_)
    refine ⟨Ensures.bind (Ensures.request fun second hsecond => ?_),
      .of_pressed (refl store) hfirst⟩
    have hs := hfirst.trans hsecond
    refine ⟨Ensures.bind (Ensures.request fun third hthird => ?_), .of_pressed hfirst hsecond⟩
    have ht := hs.trans hthird
    refine ⟨?_, .of_pressed hs hthird⟩
    split
    · next hlarge =>
      refine throw (.of_limit ht fun hw => ?_)
      have := hw.entries
      unfold maxUint32 managedMapSlabEntries at hlarge
      omega
    · next hl =>
      refine Ensures.rollback (Ensures.mono (grow_spec (hv.keeps ht) hvl ?_ ?_ ?_)
        (fun header after ha => ?_) fun _ => id) (fun after => And.left)
        fun after undone hs hkeeps hsame => .of_keeps ht
          ((Stopped.undone hkeeps hs hsame).imp_right fun hp hw => hp hw.whole)
      · exact Nat.mul_mod_left _ _
      · unfold managedMapSlabEntries
        omega
      · unfold managedMapSlabEntries at hl ⊢
        omega
      · obtain ⟨table', hav, hgr, hhd⟩ := ha
        have hc : header.capacity = (index + managedMapSlabEntries - 1) /
            managedMapSlabEntries * managedMapSlabEntries :=
          hhd ▸ congrArg MapHeader.capacity hgr.2.2
        refine ⟨table', hav, hc ▸ hgr, hhd, ?_⟩
        rw [hc]
        unfold managedMapSlabEntries
        omega

end Grow

end MiniGo.Runtime.ManagedMap
