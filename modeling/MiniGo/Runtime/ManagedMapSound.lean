/-
Managed maps are Go maps.

Every operation of a managed map answers as a Go map with the same content does
and has the same effect on the content; an operation that fails leaves the content
as it was. This holds along every sequence of operations on a new map, whatever
the hash function and whichever requests for memory fail.
-/
import MiniGo.Runtime.ManagedMapGrow

namespace MiniGo.Runtime.ManagedMap

open ObjectStore Chain Ensures Function Nat

variable {Value RawKey RawValue : Type} {runtime : MapRuntime Value RawKey RawValue}
  {store after : Store (MapObject RawKey RawValue)} {identity : Nat}
  {table : MapTable RawKey RawValue}

variable {map : Multiset (MapKey × Value)} {places : Nat → Slot Value}

section Insert

variable {index : Nat}

/-- A place that `newIndex` may give. -/
def Place (header : MapHeader) (index : Nat) : Prop :=
  (header.free ≠ 0 ∧ index = header.free) ∨
    (header.free = 0 ∧ index = header.created + 1 ∧ index ≤ header.capacity)

/-- A place for a new entry: the first free one, or the first after the created
ones. Taking it from the list of free entries or from the end of the table keeps
the invariant. -/
theorem Valid.claim (hv : Valid runtime table) (hid : Place table.header index) :
    ∃ header items, Valid runtime { table with header } ∧
      Free { table with header } items ∧ index ∉ items ∧
      InTable table.header index ∧ index ≤ header.created ∧
      (table.cells index).occupied = false ∧
      (table.cells index).generation ≠ maxUint32 ∧
      content runtime { table with header } = content runtime table ∧
      insertedHeader table.header index (table.cells index).next =
        { header with count := header.count + 1 } ∧
      header.directory = table.header.directory ∧
      header.buckets = table.header.buckets ∧
      header.capacity = table.header.capacity ∧
      ∀ other, Live { table with header } other → Live table other := by
  rcases hid with ⟨hf, rfl⟩ | ⟨hf, rfl, hsp⟩
  · obtain ⟨items, hi⟩ := hv.free
    obtain ⟨rest, rfl⟩ : ∃ rest, items = table.header.free :: rest := by
      cases items with
      | nil => exact absurd (linked_nil.mp hi.1) hf
      | cons first rest => exact ⟨rest, by rw [(linked_cons.mp hi.1).1]⟩
    obtain ⟨hp, hr, hc⟩ := hv.popFree hi
    obtain ⟨hm, ho, hge⟩ := hi.2 _ List.mem_cons_self
    refine ⟨_, rest, hp, hr, (List.nodup_cons.mp hi.1.nodup).1,
      ⟨hf, Nat.le_trans hm hv.created_le⟩, hm, ho,
      hge, hc, ?_, rfl, rfl, rfl, fun _ => id⟩
    rw [insertedHeader, if_pos hf]
  · obtain ⟨he, hnone, hc⟩ := hv.extend hf hsp
    have hfr := hv.fresh _ (lt_succ_self table.header.created)
    refine ⟨_, [], he, hnone, by simp, ⟨succ_ne_zero _, hsp⟩,
      Nat.le_refl _, by rw [hfr]; rfl, by rw [hfr]; simp [cleared, maxUint32],
      hc, ?_, rfl, rfl, rfl, fun other hl => ⟨hl.1, ?_, hl.2.2⟩⟩
    · rw [insertedHeader, if_neg (by simp [hf])]
    · have hbd : other ≤ table.header.created + 1 := hl.2.1
      have hne : other ≠ table.header.created + 1 := by
        rintro rfl
        have ho : (table.cells _).occupied = true := hl.2.2
        rw [hfr] at ho
        cases ho
      omega

/-- The store holds a map with a content, whose entries are at these places. -/
def Represents (runtime : MapRuntime Value RawKey RawValue)
    (store : Store (MapObject RawKey RawValue)) (identity : Nat)
    (map : Multiset (MapKey × Value)) (places : Nat → Slot Value) : Prop :=
  ∃ table, View store identity table ∧ Valid runtime table ∧
    content runtime table = map ∧ slots runtime table = places

theorem Represents.keeps (hmap : Represents runtime store identity map places)
    (hk : Keeps store after) :
    Represents runtime after identity map places := by
  obtain ⟨table, hv, hvl, hc⟩ := hmap
  exact ⟨table, hv.keeps hk, hvl, hc⟩

/-- The store holds the map after a store of a key and a value. -/
def Updated (runtime : MapRuntime Value RawKey RawValue)
    (store : Store (MapObject RawKey RawValue)) (identity : Nat) (key : MapKey)
    (value : Value) (map : Multiset (MapKey × Value)) (places : Nat → Slot Value) :
    Prop :=
  ∃ after, Slots.Stored key value places after ∧
    Represents runtime store identity (GoMap.store key value map) after

section Grown

variable {table' : MapTable RawKey RawValue} {cap : Nat} (hg : Grown runtime table table' cap)
include hg

theorem Grown.live : Live table' index ↔ Live table index := by
  obtain ⟨link, hl, -⟩ := hg.2.1 index
  have hm := congrArg MapHeader.created hg.2.2
  rw [Live, Live, hl, hm]

theorem Grown.keyOf : keyOf runtime (table'.cells index) = keyOf runtime (table.cells index) := by
  obtain ⟨link, hl, -⟩ := hg.2.1 index
  rw [hl]
  rfl

theorem Grown.content : content runtime table' = content runtime table := by
  have hm := congrArg MapHeader.created hg.2.2
  rw [content_eq_contentAt, content_eq_contentAt, hm]
  refine contentAt_congr fun index _ => ?_
  obtain ⟨link, hl, -⟩ := hg.2.1 index
  rw [hl]
  rfl

theorem Grown.slots : slots runtime table' = slots runtime table :=
  slots_congr fun index => (hg.2.1 index).imp fun _ => And.left

end Grown

variable {key : MapKey} {rawValue : RawValue} {rawKey : RawKey} {hash : Nat}

/-- No entry has the key. -/
theorem absent_of_keyOf (hv : Valid runtime table)
    (ha : ∀ other, Live table other → keyOf runtime (table.cells other) ≠ key) :
    ∀ other, other ≠ 0 → ∀ old, (slots runtime table other).entry ≠ some (key, old) :=
  fun other hz _ he =>
    have hl := live_of_slot hv hz he
    ha other hl.1 hl.2.1

/-- The stored key is new if it is reflexive, and the hash is that of the key. -/
structure NewKey (runtime : MapRuntime Value RawKey RawValue)
    (table : MapTable RawKey RawValue) (rawKey : RawKey) (hash : Nat)
    (key : MapKey) : Prop where
  mapKey : runtime.mapKey (runtime.decodeKey rawKey) = .ok key
  hash : key.nonReflexive = false → hash = runtime.managedMapKeyHash key
  absent : key.nonReflexive = false →
    ∀ other, Live table other → keyOf runtime (table.cells other) ≠ key

/-- The cell of a new entry. -/
def newCell (table : MapTable RawKey RawValue) (index hash : Nat) (key : RawKey)
    (value : RawValue) : MapCell RawKey RawValue :=
  ⟨true, (table.cells index).generation + 1, hash,
    table.heads.getD (hash % table.heads.length) 0, key, value⟩

theorem placeEntry_eq (hv : View store identity table)
    (hvl : Valid runtime table) (hid : Place table.header index)
    (hkey : NewKey runtime table rawKey hash key) :
    ∃ after, placeEntry identity table.header index hash rawKey rawValue store = .ok () after ∧
      Updated runtime after identity key (runtime.decodeValue rawValue)
        (content runtime table) (slots runtime table) := by
  obtain ⟨header, items, hc, hi, hnot, hin, hm, hoc, hge, hco, hhd, hd, hb, hca, hl⟩ :=
    hvl.claim hid
  have hpos : 0 < table.header.capacity :=
    Nat.lt_of_lt_of_le (Nat.pos_of_ne_zero hin.1) hin.2
  have hbk : hash % table.heads.length < table.heads.length :=
    mod_lt _ (hvl.heads_pos hpos)
  -- What the table becomes.
  have hk : keyOf runtime (newCell table index hash rawKey rawValue) = key := by
    rw [keyOf, newCell, hkey.mapKey]
  have hke : Keyed runtime (newCell table index hash rawKey rawValue) :=
    ⟨key, hkey.mapKey, hkey.hash⟩
  obtain ⟨hp, hn⟩ := hc.occupy hi hnot hin.1 hm
    hoc (rfl : (newCell table index hash rawKey rawValue).occupied = true) rfl
    hke (by
      rw [hk]
      exact fun hr other ho =>
        hkey.absent hr other (hl other ho))
  -- What the writes do.
  obtain ⟨first, hf, hfv⟩ := hv.modifyCell hin fun _ => newCell table index hash rawKey rawValue
  obtain ⟨second, hs, hsv⟩ : ∃ second,
      writeBucket table.header.buckets (hash % table.heads.length) index first =
        .ok () second ∧ _ := hfv.writeBucket hpos hbk
  obtain ⟨after, ha, hav⟩ : ∃ after, writeHeader identity (insertedHeader table.header index
        (table.cells index).next) second = .ok () after ∧ _ :=
    hsv.writeHeader _ (by rw [hhd]; exact hd) (by rw [hhd]; exact hb) (by rw [hhd]; exact hca)
  refine ⟨after, ?_, _, .inserted index hin.1 (Nat.le_trans hin.2 hvl.bounded) hge
    (congrArg Slot.entry (slots_of_unoccupied hoc))
    (fun hr => absent_of_keyOf hvl (hkey.absent hr)) rfl,
    occupied { table with header } index (newCell table index hash rawKey rawValue), ?_, hp, ?_, ?_⟩
  · rw [placeEntry, bind_ok (hv.cells.location hin)]
    dsimp only
    rw [bind_ok (hv.cells.readCell hin), if_neg hge, bind_ok (bucketCount_eq (hv.buckets hpos)),
      bind_ok (readBucket_eq (hv.buckets hpos) hbk)]
    rw [newCell] at hf
    rw [bind_ok hf, bind_ok hs]
    exact ha
  · rw [hhd] at hav
    exact hav
  · rw [hn, hk, hco]
    rfl
  · rw [occupied, slots_update, slotOf, hk]
    rfl

theorem Valid.free_le (hv : Valid runtime table) (hf : table.header.free ≠ 0) :
    table.header.free ≤ table.header.created := by
  obtain ⟨items, hlinked, hitems⟩ := hv.free
  cases items with
  | nil => exact absurd (linked_nil.mp hlinked) hf
  | cons first rest =>
    rw [(linked_cons.mp hlinked).1]
    exact (hitems first List.mem_cons_self).1

theorem insertEntry_spec (hvi : View store identity table)
    (hvl : Valid runtime table) (hkey : NewKey runtime table rawKey hash key) :
    Ensures (insertEntry runtime identity table.header hash rawKey rawValue) store
      (fun _ after => Updated runtime after identity key
        (runtime.decodeValue rawValue) (content runtime table) (slots runtime table))
      (Stopped runtime (WithinLimits runtime (table.header.created + 1)) store) := by
  have hp : ∀ index, (∀ capacity, index ≤ capacity → Place { table.header with capacity } index) →
      index ≤ table.header.created + 1 →
      Ensures (do
        let header ← ensureCapacity runtime identity table.header index
        placeEntry identity header index hash rawKey rawValue) store
        (fun _ after => Updated runtime after identity key
          (runtime.decodeValue rawValue) (content runtime table)
          (slots runtime table))
        (Stopped runtime (WithinLimits runtime (table.header.created + 1)) store) := by
    intro index hi hle
    refine bind (mono (ensureCapacity_spec hvi hvl index) (fun header mid hm => ?_)
      fun after hs => hs.imp_right fun hpressed hw => hpressed (hw.mono hle))
    obtain ⟨table', hv, hg, rfl, hsp⟩ := hm
    have hpl : Place table'.header index := by
      rw [hg.2.2]
      exact hi _ hsp
    obtain ⟨after, ha, hr⟩ : ∃ after, placeEntry identity table'.header index
        hash rawKey rawValue mid = .ok () after ∧ Updated runtime after identity key
          (runtime.decodeValue rawValue) (content runtime table')
          (slots runtime table') :=
      placeEntry_eq hv hg.1 hpl ⟨hkey.mapKey, hkey.hash, fun hre other ho => by
          rw [hg.keyOf]
          exact hkey.absent hre other (hg.live.mp ho)⟩
    rw [hg.content, hg.slots] at hr
    exact of_ok ha hr
  unfold insertEntry newIndex
  split
  · next hf =>
    exact bind (pure (hp _ (fun _ _ => .inl ⟨hf, rfl⟩) (le_succ_of_le (hvl.free_le hf))))
  · next hf =>
    split
    · next hlarge =>
      refine bind (throw (.of_limit (Keeps.refl store) fun hw => ?_))
      have := hw.entries
      unfold maxUint32 at hlarge
      omega
    · exact bind (pure (hp _ (fun _ hsp => .inr ⟨by simpa using hf, rfl, hsp⟩)
        (Nat.le_refl _)))

end Insert

section Store

/-- `keyForStore`: other keys than reflexive ones are numbered. -/
def keyForStore (key : MapKey) (sequence : Nat) : MapKey :=
  if key.nonReflexive then { key with sequence } else key

theorem encode_spec {Raw : Type} {encoded : Except Fault Raw}
    {post : Raw → Store (MapObject RawKey RawValue) → Prop} {within : Prop}
    {base : Store (MapObject RawKey RawValue)} (hb : Keeps base store)
    (hw : within → ∃ raw, encoded = .ok raw)
    (hp : ∀ raw after, encoded = .ok raw → Keeps store after → post raw after) :
    Ensures (encode runtime encoded) store post (Stopped runtime within base) := by
  refine bind (request fun after hk => ⟨?_, .of_pressed hb hk⟩)
  cases he : encoded with
  | ok raw => exact pure (hp raw after he hk)
  | error fault =>
    refine throw (.of_limit (hb.trans hk) fun hfits => ?_)
    obtain ⟨raw, hraw⟩ := hw hfits
    rw [he] at hraw
    cases hraw

/-- The key and the value can be encoded, and the map has room for one more entry. -/
structure Storable (runtime : MapRuntime Value RawKey RawValue)
    (store : Store (MapObject RawKey RawValue)) (identity : Nat) (guestKey value : Value) :
    Prop where
  key : ∃ raw, runtime.encodeKey guestKey = .ok raw
  value : ∃ raw, runtime.encodeValue value = .ok raw
  room : ∀ header, store.objects identity = some (.identity header) →
    WithinLimits runtime (header.created + 1)

variable {map : Multiset (MapKey × Value)} {places : Nat → Slot Value} {key : MapKey}
  {guestKey value : Value} (sequence : Nat) {base : Store (MapObject RawKey RawValue)}
  (hmap : Represents runtime base identity map places)
  (hkey : runtime.mapKey guestKey = .ok key)
include hmap hkey

theorem storeWithBatch_spec (hb : Keeps base store) :
    Ensures (storeWithBatch runtime identity (keyForStore key sequence) guestKey value) store
      (fun _ after => Updated runtime after identity key value map places)
      (Stopped runtime (Storable runtime base identity guestKey value) base) := by
  obtain ⟨table, hbase, hvl, rfl, rfl⟩ := hmap
  have hv := hbase.keeps hb
  obtain ⟨chain, hc⟩ := hvl.chains
  have hr : key.nonReflexive = false → keyForStore key sequence = key :=
    fun hre => by rw [keyForStore, if_neg (by simp [hre])]
  have hs : (keyForStore key sequence).nonReflexive = key.nonReflexive := by
    unfold keyForStore
    split <;> rfl
  refine bind (of_ok hv.readHeader ?_)
  rcases find_eq hv hvl hc (keyForStore key sequence) with
    ⟨hfi, hab⟩ | ⟨before, index, rest, hfi, hre, hl, hf, -⟩
  · -- A new entry.
    refine bind (of_ok hfi ?_)
    refine bind (encode_spec hb Storable.value fun rawValue first hva hfs => ?_)
    refine bind (encode_spec (hb.trans hfs) Storable.key fun rawKey second hra hsn => ?_)
    have hk := hfs.trans hsn
    have hn : NewKey runtime table rawKey
        (runtime.managedMapKeyHash (keyForStore key sequence)) key :=
      ⟨(runtime.mapKey_decodeKey guestKey rawKey hra).trans hkey, fun hre => by rw [hr hre],
        fun hre other ho => by
          rw [← hr hre]
          exact hab (hs.trans hre) other ho⟩
    refine mono (insertEntry_spec (hv.keeps hk) hvl hn) (fun _ after ha => ?_) fun after hs =>
      .of_keeps (hb.trans hk) (hs.imp_right fun hpressed hw => hpressed (hw.room _ hbase.header))
    rw [runtime.decodeValue_encodeValue value rawValue hva] at ha
    exact ha
  · -- The entry of the key gets a new value.
    have hre : key.nonReflexive = false := hs ▸ hre
    rw [hr hre] at hf
    refine bind (of_ok hfi ?_)
    refine bind (encode_spec hb Storable.value fun rawValue first hva hfs => ?_)
    have hvi := hv.keeps hfs
    have hi := hl.inTable hvl
    rw [if_pos hl.1]
    obtain ⟨after, ha, hav⟩ := hvi.modifyCell hi fun cell => { cell with value := rawValue }
    refine bind (of_ok (hvi.cells.location hi) ?_)
    obtain ⟨hrep, hco⟩ :=
      hvl.replaceValue hl (hf ▸ hre) rawValue
    have hd := runtime.decodeValue_encodeValue value rawValue hva
    refine of_ok ha ⟨_, .replaced index _ hl.1 hre (by rw [hl.slot, hf]) rfl, _, hav, hrep, ?_, ?_⟩
    · rw [hco, hf, hd]
    · have hke : keyOf runtime { table.cells index with value := rawValue } = key :=
        hf
      rw [slots_update, slotOf, if_pos hl.2.2, hke, valueOf, hd]
      rfl

/-- A store that fails keeps the map, and it fails for want of memory unless the entry
cannot be stored at all. -/
theorem storeEntry_spec :
    Ensures (storeEntry runtime identity (keyForStore key sequence) guestKey value) base
      (fun _ after => Updated runtime after identity key value map places)
      (Stopped runtime (Storable runtime base identity guestKey value) base) := by
  unfold storeEntry
  split
  · refine bind (request fun mid hm => ⟨?_, .of_pressed (Keeps.refl base) hm⟩)
    have hmid := hmap.keeps hm
    refine rollback (storeWithBatch_spec sequence hmid hkey (Keeps.refl mid)) (fun _ => And.left)
      fun after undone hs hkeeps hsame => .of_keeps hm
        ((Stopped.undone hkeeps hs hsame).imp_right fun hpressed hw => hpressed ⟨hw.key, hw.value,
          fun header hheader => ?_⟩)
    obtain ⟨table, hv, -⟩ := hmap
    have hsame := (hv.keeps hm).header.symm.trans hheader
    cases hsame
    exact hw.room _ hv.header
  · exact storeWithBatch_spec sequence hmap hkey (Keeps.refl base)

end Store

section Delete

variable {idx bkt : Nat} {pre rest : List Nat} {chain : Nat → List Nat}

theorem unlinkEntry_eq {hash : Nat} (hv : View store identity table) (hvl : Valid runtime table)
    (hc : Chained table.heads table.cells (Live table) chain)
    (hca : 0 < table.header.capacity)
    (hs : chain (hash % table.heads.length) = pre ++ idx :: rest) (next : Nat) :
    ∃ after, unlinkEntry table.header hash (pre.getLast?.getD 0) next store = .ok () after ∧
      View after identity { table with
        heads := unlinkedHeads table (hash % table.heads.length) (pre.getLast?.getD 0) next
        cells := unlinkedCells table (pre.getLast?.getD 0) next } := by
  have hpos := hvl.heads_pos hca
  have hb : hash % table.heads.length < table.heads.length :=
    mod_lt _ hpos
  unfold unlinkEntry unlinkedHeads unlinkedCells
  by_cases hz : pre.getLast?.getD 0 = 0
  · simp only [if_pos hz]
    rw [bind_ok (bucketCount_eq (hv.buckets hca)), if_neg (Nat.ne_of_gt hpos)]
    exact hv.writeBucket hca hb
  · simp only [if_neg hz]
    have hi := ((hc.before_live hb hs).resolve_left hz).inTable hvl
    rw [bind_ok (hv.cells.location hi)]
    exact hv.modifyCell hi _

/-- The cell of an entry that has been deleted. -/
def vacantCell (runtime : MapRuntime Value RawKey RawValue) (generation free : Nat) :
    MapCell RawKey RawValue :=
  { cleared runtime with
    generation
    next := if generation ≠ maxUint32 then free else 0 }

theorem vacateEntry_eq (runtime : MapRuntime Value RawKey RawValue)
    (generation : Nat) {heads : List Nat} {cells : Nat → MapCell RawKey RawValue}
    (hv : View store identity { table with heads, cells })
    (hi : InTable table.header idx) :
    ∃ after, vacateEntry runtime identity table.header (slabOf table.directory idx)
        (offsetOf idx) idx generation store = .ok () after ∧
      View after identity {
        header := { table.header with
          free := if generation ≠ maxUint32 then idx else table.header.free
          count := table.header.count - 1 }
        directory := table.directory
        heads
        cells := update cells idx
          (vacantCell runtime generation table.header.free) } := by
  obtain ⟨first, hf, hfv⟩ := hv.modifyCell hi fun _ => cleared runtime
  obtain ⟨second, hs, hsv⟩ := hfv.modifyCell hi fun cell => { cell with generation }
  unfold vacateEntry
  rw [bind_ok hf, bind_ok hs]
  by_cases hge : generation ≠ maxUint32
  · obtain ⟨third, ht, hth⟩ := hsv.modifyCell hi fun cell => { cell with next := table.header.free }
    obtain ⟨after, ha, hav⟩ := hth.writeHeader
      { table.header with free := idx, count := table.header.count - 1 }
      rfl rfl rfl
    rw [if_pos hge, bind_ok ht]
    refine ⟨after, ha, ?_⟩
    simpa [vacantCell, hge, update_idem] using hav
  · obtain ⟨after, ha, hav⟩ := hsv.writeHeader
      { table.header with count := table.header.count - 1 } rfl rfl rfl
    rw [if_neg hge]
    refine ⟨after, ha, ?_⟩
    simpa [vacantCell, hge, update_idem, cleared] using hav

/-- `deleteEntry` takes the entry of a key out of the map. -/
theorem deleteEntry_eq (hmap : Represents runtime store identity map places) (key : MapKey) :
    ∃ after places', deleteEntry runtime identity key store = .ok () after ∧
      Slots.Removed key places places' ∧
      Represents runtime after identity (GoMap.without key map) places' := by
  obtain ⟨table, hvi, hv, rfl, rfl⟩ := hmap
  obtain ⟨chain, hc⟩ := hv.chains
  unfold deleteEntry
  rw [bind_ok hvi.readHeader]
  rcases find_eq hvi hv hc key with ⟨hfi, hab⟩ | ⟨pre, idx, rest, hfi, hr, hli, hf, hs⟩
  · rw [bind_ok hfi]
    refine ⟨store, _, rfl, .missing (fun hr => absent_of_keyOf hv (hab hr)) rfl,
      table, hvi, hv, ?_, rfl⟩
    rw [GoMap.without_of_absent]
    intro hr entry he
    obtain ⟨other, ho, rfl⟩ := mem_content.mp he
    exact hab hr other ho
  · have hi := hli.inTable hv
    have hca := hli.capacity hv
    have hge : (entryOf runtime table idx).identity / 2 ^ 32 = (table.cells idx).generation := by
      have hbd := hi.2
      have hl := hv.bounded
      unfold maxUint32 at hl
      show ((table.cells idx).generation * 2 ^ 32 + idx) / 2 ^ 32 = _
      omega
    obtain ⟨first, hfs, hfv⟩ := unlinkEntry_eq hvi hv hc hca hs (table.cells idx).next
    obtain ⟨after, ha, hav⟩ := vacateEntry_eq runtime (table.cells idx).generation hfv hi
    rw [bind_ok hfi]
    dsimp only
    rw [bind_ok (hvi.cells.location hi)]
    rw [bind_ok (hvi.cells.readCell hi), bind_ok hfs, hge]
    have hfr : Freed table idx (if (table.cells idx).generation ≠ maxUint32 then idx
          else table.header.free)
        (vacantCell runtime (table.cells idx).generation table.header.free) := by
      by_cases hla : (table.cells idx).generation ≠ maxUint32
      · exact .inr ⟨if_pos hla, if_pos hla, hla⟩
      · exact .inl (if_neg hla)
    have hva := hv.vacate hc hli (hf ▸ hr) (mod_lt _ (hv.heads_pos hca)) hs rfl hfr
    rw [hf] at hva
    refine ⟨after, _, ha, .emptied idx _ hli.1 (hf ▸ hr)
      (by rw [hli.slot, hf]) (fun other hz hne value he => ?_) rfl, _,
      hav, hva.1, hva.2, ?_⟩
    · obtain ⟨ho, hkey, -⟩ := live_of_slot hv hz he
      exact hne (hv.unique other idx ho hli (hkey.trans hf.symm) (hkey ▸ hr))
    rw [slots_update]
    congr 1
    exact slots_congr fun other => ⟨_, unlinkedCells_same other⟩

end Delete

section Clear

/-- The entries up to an index have been emptied and those that can be used again
are in front of the list of free entries. -/
theorem clearEntries_eq (runtime : MapRuntime Value RawKey RawValue)
    {index free : Nat} {items : List Nat}
    (hv : View store identity table) (hid : index ≤ table.header.created)
    (hbd : table.header.created ≤ table.header.capacity)
    (hln : Linked (nextOf table.cells) free items)
    (hi : ∀ item ∈ items, index < item ∧ item ≤ table.header.created ∧
      (table.cells item).occupied = false ∧
      (table.cells item).generation ≠ maxUint32) :
    ∃ after cells free' items',
      clearEntries runtime table.header index free store = .ok free' after ∧
      View after identity { table with cells } ∧
      (∀ other, index < other → cells other = table.cells other) ∧
      (∀ other, other ≠ 0 → other ≤ index → (cells other).occupied = false ∧
        (cells other).generation = (table.cells other).generation) ∧
      Linked (nextOf cells) free' items' ∧
      ∀ item ∈ items', item ≤ table.header.created ∧
        (cells item).occupied = false ∧ (cells item).generation ≠ maxUint32 := by
  induction index generalizing store table free items with
  | zero =>
    exact ⟨store, table.cells, free, items, rfl, hv, fun _ _ => rfl,
      fun other hne hle => absurd (le_zero.mp hle) hne, hln,
      fun item hmem => (hi item hmem).2⟩
  | succ index ih =>
    have hin : InTable table.header (index + 1) :=
      ⟨succ_ne_zero _, Nat.le_trans hid hbd⟩
    have hnot : index + 1 ∉ items := fun hmem =>
      absurd (hi _ hmem).1 (Nat.lt_irrefl _)
    obtain ⟨first, hfs, hfv⟩ := hv.modifyCell hin fun _ => cleared runtime
    obtain ⟨second, hsn, hsv⟩ := hfv.modifyCell hin fun emptied =>
        { emptied with generation := (table.cells (index + 1)).generation }
    unfold clearEntries
    rw [bind_ok (hv.cells.location hin)]
    dsimp only
    rw [bind_ok (hv.cells.readCell hin), bind_ok hfs, bind_ok hsn]
    -- The rest of the loop works on a table with the entry emptied.
    have hl : ∀ (mid : Store (MapObject RawKey RawValue)) (start : Nat)
        (rest : List Nat) (cell : MapCell RawKey RawValue),
        View mid identity { table with
          cells := update table.cells (index + 1) cell } →
        cell.occupied = false →
        cell.generation = (table.cells (index + 1)).generation →
        Linked (update (nextOf table.cells) (index + 1) cell.next) start rest →
        (∀ item ∈ rest, item = index + 1 ∧ cell.generation ≠ maxUint32 ∨ item ∈ items) →
        ∃ after cells free' items',
          clearEntries runtime table.header index start mid = .ok free' after ∧
          View after identity { table with cells } ∧
          (∀ other, index + 1 < other → cells other = table.cells other) ∧
          (∀ other, other ≠ 0 → other ≤ index + 1 → (cells other).occupied = false ∧
              (cells other).generation = (table.cells other).generation) ∧
          Linked (nextOf cells) free' items' ∧
          ∀ item ∈ items', item ≤ table.header.created ∧ (cells item).occupied = false ∧
            (cells item).generation ≠ maxUint32 := by
      intro mid start rest cell hm hc hk hst hr
      obtain ⟨after, cells, free', items', hru, ha, hab, hb, he,
        hf⟩ := ih hm (le_of_succ_le hid) hbd (nextOf_update ▸ hst) (fun item hmem => by
            dsimp only
            rcases hr item hmem with ⟨rfl, hge⟩ | hmem
            · rw [update_self]
              exact ⟨lt_succ_self _, hid, hc, hge⟩
            · rw [update_of_ne fun heq : item = index + 1 =>
                hnot (heq ▸ hmem)]
              exact ⟨lt_of_succ_lt (hi item hmem).1, (hi item hmem).2⟩)
      refine ⟨after, cells, free', items', hru, ha, fun other ho => ?_,
        fun other hne hle => ?_, he, hf⟩
      · rw [hab other (lt_of_succ_lt ho)]
        exact update_of_ne (Nat.ne_of_gt ho) _ _
      · by_cases hs : other = index + 1
        · rw [hab other (hs ▸ lt_succ_self _), hs]
          simp only [update_self]
          exact ⟨hc, hk⟩
        · have ho := hb other hne (by omega)
          dsimp only at ho
          rwa [update_of_ne hs] at ho
    simp only [update_self, update_idem] at hsv
    by_cases hge : (table.cells (index + 1)).generation ≠ maxUint32
    · obtain ⟨third, ht, hth⟩ := hsv.modifyCell hin fun emptied => { emptied with next := free }
      simp only [update_self, update_idem] at hth
      rw [if_pos hge, bind_ok ht]
      exact hl third (index + 1) ((index + 1) :: items) _ hth rfl rfl
        (hln.push (succ_ne_zero _) hnot) fun item hmem =>
          (List.mem_cons.mp hmem).imp_left fun hs => ⟨hs, hge⟩
    · rw [if_neg hge]
      exact hl second free items _ hsv rfl rfl (hln.update_of_notMem hnot) fun item => .inr

/-- The table with all entries emptied. -/
theorem Valid.emptied {cells : Nat → MapCell RawKey RawValue} {free : Nat}
    {items : List Nat} (hv : Valid runtime table)
    (ha : ∀ other, table.header.created < other → cells other = table.cells other)
    (hb : ∀ other, other ≠ 0 → other ≤ table.header.created → (cells other).occupied = false)
    (hln : Linked (nextOf cells) free items)
    (hi : ∀ item ∈ items, item ≤ table.header.created ∧
      (cells item).occupied = false ∧ (cells item).generation ≠ maxUint32) :
    let emptied : MapTable RawKey RawValue :=
      { header := { table.header with free, count := 0 }
        directory := table.directory
        heads := table.heads.map fun _ => 0
        cells }
    Valid runtime emptied ∧ content runtime emptied = 0 := by
  intro emptied
  have hnone : ∀ index, ¬Live emptied index := fun index hl =>
    absurd (hl.2.2.symm.trans (hb index hl.1 hl.2.1)) (by simp)
  refine ⟨⟨⟨fun _ => [], fun bucket hbk => ⟨?_, fun index => ?_⟩⟩,
    ⟨items, hln, hi⟩, hv.created_le, hv.bounded,
    fun index hid => ?_, fun hc => ?_, ?_, fun index hl => ?_,
    fun first _ hf => absurd hf (hnone first)⟩, ?_⟩
  · have hh : emptied.heads.getD bucket 0 = 0 := by
      simp only [emptied, List.getD_eq_getElem?_getD, List.getElem?_map]
      cases table.heads[bucket]? <;> rfl
    rw [hh]
    exact Linked.nil
  · simp [hnone index]
  · exact (ha index hid).trans (hv.fresh index hid)
  · obtain ⟨power, hp⟩ := hv.sized hc
    exact ⟨power, by simp [emptied, hp]⟩
  · have hem : liveIndexes emptied = [] :=
      List.eq_nil_iff_forall_not_mem.mpr fun index hid =>
        hnone index (mem_liveIndexes.mp hid)
    rw [hem]
    rfl
  · exact absurd hl (hnone index)
  · refine Multiset.eq_zero_of_forall_notMem fun entry he => ?_
    obtain ⟨index, hl, -⟩ := mem_content.mp he
    exact hnone index hl

/-- `clear` empties the map. -/
theorem clear_eq (hmap : Represents runtime store identity map places) :
    ∃ after places', clear runtime identity store = .ok () after ∧
      Slots.Cleared places places' ∧ Represents runtime after identity 0 places' := by
  obtain ⟨table, hv, hvl, rfl, rfl⟩ := hmap
  unfold clear
  rw [bind_ok hv.readHeader]
  by_cases hb : table.header.buckets = 0
  · -- A map without buckets has no entries.
    have hnone : ∀ index, ¬Live table index := fun index hl => by
      have hob := hv.buckets (hl.capacity hvl)
      rw [hb, store.null] at hob
      cases hob
    rw [if_pos hb]
    refine ⟨store, _, rfl, fun index hz => ?_, table, hv, hvl, ?_, rfl⟩
    · cases he : (slots runtime table index).entry with
      | none => rw [← he]
      | some entry => exact absurd (live_of_slot hvl hz he).1 (hnone index)
    · refine Multiset.eq_zero_of_forall_notMem fun entry he => ?_
      obtain ⟨index, hl, -⟩ := mem_content.mp he
      exact hnone index hl
  · have hca := hv.capacity_pos hb
    obtain ⟨first, hfs, hfv⟩ := hv.clearBuckets hca
    obtain ⟨second, cells, free, items, hlo, hsv, hab, hbe, hln,
      hi⟩ := clearEntries_eq runtime hfv (Nat.le_refl _) hvl.created_le Linked.nil (by simp)
    obtain ⟨after, ha, hav⟩ := hsv.writeHeader { table.header with free, count := 0 } rfl rfl rfl
    rw [if_neg hb, bind_ok hfs, bind_ok hlo]
    obtain ⟨hem, hc⟩ := hvl.emptied hab (fun other hz ho => (hbe other hz ho).1) hln hi
    refine ⟨after, _, ha, fun index hz => ?_, _, hav, hem, hc, rfl⟩
    by_cases hid : index ≤ table.header.created
    · rw [slots_of_unoccupied (hbe index hz hid).1]
      exact congrArg (Slot.mk · none) (hbe index hz hid).2
    · have hf : (table.cells index).occupied = false := by
        rw [hvl.fresh index (by omega)]
        rfl
      show slotOf runtime (cells index) = _
      rw [hab index (by simpa using hid)]
      exact slots_of_unoccupied hf

end Clear

end MiniGo.Runtime.ManagedMap
