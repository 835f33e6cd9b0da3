/-
Iteration over a managed map that changes.

A managed map gives every entry an identity of its own, and an iterator over it
produces every entry that was there at the start and has not been removed when the
iterator comes to it, once and with its value at that time, exactly if the memory
for the entries it comes to is there.
-/
import MiniGo.Runtime.MapIterator

namespace MiniGo.Runtime

open ObjectStore Ensures EntryMap List Function

namespace EntryMap

variable {Value RawKey RawValue : Type}
  {rt : MapRuntime Value RawKey RawValue} {map map' : EntryMap Value}
  {mutation : MapMutation Value} {output : IterationOutput Value}

theorem Step.issued_subset (hste : Step rt map mutation output map')
    {entry : Nat} (hi : entry ∈ map.issued) : entry ∈ map'.issued := by
  cases hste with
  | inserted => exact mem_cons_of_mem _ hi
  | replaced | deleted | cleared | failed => exact hi

theorem Step.issued_nodup (hste : Step rt map mutation output map')
    (hi : map.issued.Nodup) : map'.issued.Nodup := by
  cases hste with
  | inserted _ _ hfr _ => exact nodup_cons.mpr ⟨hfr, hi⟩
  | replaced | deleted | cleared | failed => exact hi

/-- An identity that has been given out is not used again. -/
theorem Step.same_key (hste : Step rt map mutation output map') {entry : Nat}
    (hi : entry ∈ map.issued) {key : MapKey} {val : Value}
    (he : map'.entries entry = some (key, val)) :
    ∃ old, map.entries entry = some (key, old) := by
  cases hste with
  | @replaced _ _ _ found place old _ _ hpl =>
    by_cases hs : entry = place
    · subst hs
      simp only [update_self, Option.some.injEq, Prod.mk.injEq] at he
      exact ⟨old, he.1 ▸ hpl⟩
    · simp only [update_of_ne hs] at he
      exact ⟨val, he⟩
  | @inserted _ _ _ _ place _ _ hfr _ =>
    have hne : entry ≠ place := fun heq => hfr (heq ▸ hi)
    simp only [update_of_ne hne] at he
    exact ⟨val, he⟩
  | deleted =>
    simp only [without, Option.filter_eq_some_iff] at he
    exact ⟨val, he.1⟩
  | cleared => cases he
  | failed => exact ⟨val, he⟩

theorem Run.issued_nodup {mutations : List (MapMutation Value)}
    {outputs : List (IterationOutput Value)}
    (hr : Run rt map mutations outputs map') (hi : map.issued.Nodup) :
    map'.issued.Nodup := by
  induction hr with
  | nil => exact hi
  | cons hste _ ih => exact ih (hste.issued_nodup hi)

end EntryMap

namespace ManagedMap

variable {Value RawKey RawValue : Type} {runtime : MapRuntime Value RawKey RawValue}
  {store after : Store (MapObject RawKey RawValue)} {identity : Nat}
  {map : Multiset (MapKey × Value)} {places places' : Nat → Slot Value}

section Identities

def placeOf (entry : Nat) : Nat := entry % 2 ^ 32

def generationOf (entry : Nat) : Nat := entry / 2 ^ 32

variable {generation index : Nat} {key : MapKey} {entries : EntryMap Value}

@[simp]
theorem placeOf_identityOf (hi : index ≤ maxUint32) :
    placeOf (identityOf generation index) = index := identityOf_mod hi

@[simp]
theorem generationOf_identityOf (hi : index ≤ maxUint32) :
    generationOf (identityOf generation index) = generation := identityOf_div hi

theorem identityOf_parts (entry : Nat) : identityOf (generationOf entry) (placeOf entry) = entry :=
  Nat.div_add_mod' entry (2 ^ 32)

/-- The entry with an identity. -/
def entryAt (places : Nat → Slot Value) (entry : Nat) : Option (MapKey × Value) :=
  if placeOf entry ≠ 0 ∧ (places (placeOf entry)).generation = generationOf entry then
    (places (placeOf entry)).entry
  else none

/-- The identities that have been given out: one for every use of a place. -/
def IssuedAt (places : Nat → Slot Value) (entry : Nat) : Prop :=
  placeOf entry ≠ 0 ∧ 0 < generationOf entry ∧
    generationOf entry ≤ (places (placeOf entry)).generation

/-- The places of a map stand for entries with identities. -/
structure Identified (places : Nat → Slot Value) (map : EntryMap Value) : Prop where
  used : ∀ index, index ≠ 0 → (places index).entry ≠ none →
    (places index).generation ≠ 0 ∧ index ≤ maxUint32
  bounded : ∀ index, index ≠ 0 → (places index).generation ≤ maxUint32
  entries : map.entries = entryAt places
  issued : ∀ entry ∈ map.issued, IssuedAt places entry
  covered : ∀ entry, map.entries entry ≠ none → entry ∈ map.issued

theorem identified_empty : Identified (fun _ => ⟨0, none⟩) (empty : EntryMap Value) where
  used := fun _ _ he => absurd rfl he
  bounded := fun _ _ => Nat.zero_le _
  entries := by
    funext entry
    simp [empty, entryAt]
  issued := fun entry he => absurd he (by simp [empty])
  covered := fun entry he => absurd rfl he

theorem entryAt_update {entry : Option (MapKey × Value)} (hz : index ≠ 0) (hbd : index ≤ maxUint32)
    (hold : (places index).entry = none ∨ (places index).generation = generation) :
    entryAt (Function.update places index ⟨generation, entry⟩) =
      Function.update (entryAt places) (identityOf generation index) entry := by
  funext other
  by_cases hs : other = identityOf generation index
  · subst hs
    simp [entryAt, hbd, hz]
  · rw [update_of_ne hs, entryAt, entryAt]
    by_cases hpl : placeOf other = index
    · -- The place is the same, so the generations differ.
      have hg : generation ≠ generationOf other := by
        rintro rfl
        exact hs (hpl ▸ (identityOf_parts other).symm)
      simp only [hpl, update_self]
      rw [if_neg fun he => hg he.2]
      rcases hold with hnone | rfl
      · simp [hnone]
      · rw [if_neg fun he => hg he.2]
    · rw [update_of_ne hpl]

theorem entryAt_identityOf (hz : index ≠ 0) (hbd : index ≤ maxUint32) :
    entryAt places (identityOf (places index).generation index) = (places index).entry := by
  simp [entryAt, hbd, hz]

theorem entryAt_eq_some {entry : Nat} {found : MapKey × Value} :
    entryAt places entry = some found ↔ placeOf entry ≠ 0 ∧
      (places (placeOf entry)).generation = generationOf entry ∧
      (places (placeOf entry)).entry = some found := by
  unfold entryAt
  split
  · next he => simp [he]
  · next he => simpa [← and_assoc] using fun hz heq => absurd ⟨hz, heq⟩ he

theorem entryAt_ne (ha : ∀ other, other ≠ 0 →
    ∀ old, (places other).entry ≠ some (key, old)) (entry : Nat) (old : Value) :
    entryAt places entry ≠ some (key, old) := fun he =>
  have hp := entryAt_eq_some.mp he
  ha _ hp.1 old hp.2.2

theorem IssuedAt.mono {entry : Nat} (hi : IssuedAt places entry)
    (hm : ∀ index, index ≠ 0 → (places index).generation ≤ (places' index).generation) :
    IssuedAt places' entry :=
  ⟨hi.1, hi.2.1, Nat.le_trans hi.2.2 (hm _ hi.1)⟩

section

variable (hidentified : Identified places entries)
include hidentified

theorem Identified.update {issued : List Nat} {entry : Option (MapKey × Value)} (hz : index ≠ 0)
    (hid : index ≤ maxUint32)
    (hold : (places index).entry = none ∨ (places index).generation = generation)
    (hm : (places index).generation ≤ generation) (hl : generation ≤ maxUint32)
    (hu : entry ≠ none → generation ≠ 0)
    (hi : ∀ other ∈ issued, other ∈ entries.issued ∨
      (other = identityOf generation index ∧ 0 < generation))
    (hk : ∀ other ∈ entries.issued, other ∈ issued)
    (hn : entry ≠ none → identityOf generation index ∈ issued) :
    Identified (Function.update places index ⟨generation, entry⟩)
      { entries := Function.update entries.entries (identityOf generation index) entry
        issued } where
  used := fun other ho he => by
    by_cases hs : other = index
    · subst hs
      simp only [update_self] at he ⊢
      exact ⟨hu he, hid⟩
    · rw [update_of_ne hs] at he ⊢
      exact hidentified.used other ho he
  bounded := fun other ho => by
    by_cases hs : other = index
    · subst hs
      simpa using hl
    · rw [update_of_ne hs]
      exact hidentified.bounded other ho
  entries := by
    rw [entryAt_update hz hid hold, hidentified.entries]
  issued := fun other ho => by
    rcases hi other ho with ho | ⟨rfl, hpos⟩
    · refine (hidentified.issued other ho).mono fun place _ => ?_
      by_cases hs : place = index
      · subst hs
        simpa using hm
      · rw [update_of_ne hs]
    · simp [IssuedAt, hid, hz, hpos]
  covered := fun other ho => by
    by_cases hs : other = identityOf generation index
    · subst hs
      simp only [update_self] at ho
      exact hn ho
    · simp only [update_of_ne hs] at ho
      exact hk other (hidentified.covered other ho)

theorem Identified.stored {guestKey val : Value} (hk : runtime.mapKey guestKey = .ok key)
    (hst : Slots.Stored key val places places') (sequence : Nat) :
    ∃ after, EntryMap.Step runtime entries (.store guestKey sequence val) .mutated
        after ∧ Identified places' after := by
  cases hst with
  | replaced index old hz hr he hs =>
    have hu := hidentified.used index hz (by simp [he])
    have hf : entries.entries (identityOf (places index).generation index) = some (key, old) := by
      rw [hidentified.entries, entryAt_identityOf hz hu.2, he]
    subst hs
    exact ⟨_, .replaced hk hr hf, hidentified.update hz hu.2 (.inr rfl) (Nat.le_refl _)
        (hidentified.bounded index hz) (fun _ => hu.1) (fun _ => .inl)
        (fun _ => id) fun _ => hidentified.covered _ (by simp [hf])⟩
  | inserted index hz hbd hus hfre ha hs =>
    have hb := hidentified.bounded index hz
    have hnext : (places index).generation + 1 ≤ maxUint32 :=
      Nat.lt_of_le_of_ne hb hus
    have hfr : identityOf ((places index).generation + 1) index ∉
        entries.issued := fun hmem => by
      have hi := (hidentified.issued _ hmem).2.2
      rw [generationOf_identityOf hbd, placeOf_identityOf hbd] at hi
      omega
    subst hs
    refine ⟨_, .inserted hk (fun hr => ?_) hfr ?_,
      hidentified.update hz hbd (.inl hfre) (Nat.le_succ _) hnext
        (fun _ => Nat.succ_ne_zero _) (fun other ho => ?_)
        (fun other => mem_cons_of_mem _) fun _ => mem_cons_self⟩
    · rw [hidentified.entries]
      exact entryAt_ne (ha hr)
    · unfold identityOf
      unfold maxUint32 at hnext hbd
      omega
    · exact (mem_cons.mp ho).symm.imp_right fun heq =>
        ⟨heq, Nat.succ_pos _⟩

theorem Identified.removed {guestKey : Value} (hk : runtime.mapKey guestKey = .ok key)
    (hre : Slots.Removed key places places') :
    ∃ after, EntryMap.Step runtime entries (.delete guestKey) .mutated after ∧
      Identified places' after := by
  refine ⟨_, .deleted hk, ?_⟩
  cases hre with
  | missing ha hs =>
    have hn : without key entries.entries = entries.entries := by
      funext entry
      rw [without, hidentified.entries]
      cases he : entryAt places entry with
      | none => rfl
      | some found =>
        obtain ⟨other, val⟩ := found
        cases hr : key.nonReflexive with
        | true => simp
        | false =>
          have hne : other ≠ key := fun heq =>
            entryAt_ne (ha hr) entry val (heq ▸ he)
          simp [hne]
    rw [hn, hs]
    exact hidentified
  | emptied index old hz hr he huq hs =>
    have hu := hidentified.used index hz (by simp [he])
    have hf : entries.entries (identityOf (places index).generation index) = some (key, old) := by
      rw [hidentified.entries, entryAt_identityOf hz hu.2, he]
    have hw : without key entries.entries = Function.update
        entries.entries (identityOf (places index).generation index) none := by
      funext entry
      by_cases heq' : entry = identityOf (places index).generation index
      · subst heq'
        simp [without, hf, hr]
      · rw [update_of_ne heq', without, hidentified.entries]
        cases ho : entryAt places entry with
        | none => rfl
        | some found =>
          obtain ⟨hpl, hg, hke⟩ := entryAt_eq_some.mp ho
          obtain ⟨other, val⟩ := found
          have hne : other ≠ key := by
            rintro rfl
            refine huq _ hpl (fun heq => heq' ?_) val hke
            rw [← heq, hg, identityOf_parts]
          simp [hne]
    rw [hw, hs]
    exact hidentified.update hz hu.2 (.inr rfl) (Nat.le_refl _)
      (hidentified.bounded index hz) (fun hnone => absurd rfl hnone)
      (fun _ => .inl) (fun _ => id) fun hnone => absurd rfl hnone

theorem Identified.cleared (hc : Slots.Cleared places places') :
    Identified places' { entries with entries := fun _ => none } where
  used := fun index hz he => absurd (by rw [hc index hz]) he
  bounded := fun index hz => by
    rw [hc index hz]
    exact hidentified.bounded index hz
  entries := by
    funext entry
    unfold entryAt
    split
    · next he => rw [hc _ he.1]
    · rfl
  issued := fun entry he => (hidentified.issued entry he).mono fun index hz => by rw [hc index hz]
  covered := fun entry he => absurd rfl he

end

end Identities

section Refinement

variable {entries : EntryMap Value}

/-- The store holds a map with these entries. -/
def Tracks (runtime : MapRuntime Value RawKey RawValue)
    (store : Store (MapObject RawKey RawValue)) (identity : Nat)
    (entries : EntryMap Value) : Prop :=
  ∃ map places, Represents runtime store identity map places ∧ Identified places entries

section

variable (htracks : Tracks runtime store identity entries)
include htracks

theorem Tracks.keeps (hk : Keeps store after) : Tracks runtime after identity entries := by
  obtain ⟨map, places, hm, hidentified⟩ := htracks
  exact ⟨map, places, hm.keeps hk, hidentified⟩

theorem mutate_spec (mutation : MapMutation Value) :
    Ensures (mutate runtime identity mutation) store
      (fun _ after => ∃ entries', EntryMap.Step runtime entries mutation .mutated
        entries' ∧ Tracks runtime after identity entries')
      (fun after => Tracks runtime after identity entries) := by
  obtain ⟨map, places, hm, hidentified⟩ := htracks
  cases mutation with
  | store guestKey sequence val =>
    refine bind (fallible_spec (fun key hk => ?_) fun _ => ⟨map, places, hm, hidentified⟩)
    refine mono (storeEntry_spec sequence hm hk) (fun _ after ha => ?_)
      fun after hstopped => ⟨map, places, hm.keeps hstopped.1, hidentified⟩
    obtain ⟨places', hs, ha⟩ := ha
    obtain ⟨entries', hste, hi⟩ :=
      hidentified.stored hk hs sequence
    exact ⟨entries', hste, _, places', ha, hi⟩
  | delete guestKey =>
    refine bind (fallible_spec (fun key hk => ?_) fun _ => ⟨map, places, hm, hidentified⟩)
    obtain ⟨after, places', hd, hr, ha⟩ := deleteEntry_eq hm key
    obtain ⟨entries', hste, hi⟩ := hidentified.removed hk hr
    exact of_ok hd ⟨entries', hste, _, places', ha, hi⟩
  | clear =>
    obtain ⟨after, places', hcl, hc, ha⟩ := clear_eq hm
    exact of_ok hcl ⟨_, .cleared, _, places', ha, hidentified.cleared hc⟩

theorem mutateStep_spec (mutation : MapMutation Value) :
    ∃ entries', EntryMap.Step runtime entries mutation
        (mutateStep runtime identity mutation store).1 entries' ∧
      Tracks runtime (mutateStep runtime identity mutation store).2 identity entries' := by
  have hs := mutate_spec htracks mutation
  unfold Ensures at hs
  unfold mutateStep
  split
  · next hr =>
    rw [hr] at hs
    exact hs
  · next hr =>
    rw [hr] at hs
    exact ⟨entries, .failed, hs⟩

theorem mutateAll_spec (mutations : List (MapMutation Value)) :
    ∃ entries', EntryMap.Run runtime entries mutations
        (mutateAll runtime identity mutations store).1 entries' ∧
      Tracks runtime (mutateAll runtime identity mutations store).2 identity entries' := by
  induction mutations generalizing store entries with
  | nil => exact ⟨entries, .nil, htracks⟩
  | cons mutation rest ih =>
    obtain ⟨mid, hste, hm⟩ := mutateStep_spec htracks mutation
    obtain ⟨last, hr, hl⟩ := ih hm
    exact ⟨last, .cons hste hr, hl⟩

/-- The entry that an identity finds. -/
def Finds (runtime : MapRuntime Value RawKey RawValue) (entries : EntryMap Value)
    (identity : Nat) : Option (MapEntry Value) → Prop
  | none => entries.entries identity = none
  | some entry => entry.identity = identity ∧ ∃ key, runtime.mapKey entry.key = .ok key ∧
      entries.entries identity = some (key, entry.value)

/-- An identity that has been given out finds its entry if that is still there. -/
theorem loadIdentity_finds {entry : Nat} (hi : entry ∈ entries.issued) :
    ∃ found, loadIdentity runtime identity entry store = .ok found store ∧
      Finds runtime entries entry found := by
  obtain ⟨map, places, ⟨table, hv, hvl, -, rfl⟩, hidentified⟩ := htracks
  obtain ⟨hpl, hpos, -⟩ := hidentified.issued entry hi
  have hz : entry ≠ 0 := by
    rintro rfl
    exact hpl rfl
  have hload : ∀ found, readEntry runtime table.header (placeOf entry) (generationOf entry) store =
        .ok found store →
      loadIdentity runtime identity entry store = .ok found store := by
    intro found hr
    refine query_ok ?_
    rw [if_neg hz, bind_ok hv.readHeader]
    exact hr
  by_cases hl : Live table (placeOf entry)
  · have hr := readEntry_eq hv hvl hl (generationOf entry)
    by_cases hc : generationOf entry = (table.cells (placeOf entry)).generation
    · rw [if_neg (by simp [hc])] at hr
      refine ⟨_, hload _ hr, ?_, keyOf runtime (table.cells (placeOf entry)),
        (hvl.keyed _ hl).mapKey, ?_⟩
      · show (table.cells (placeOf entry)).generation * 2 ^ 32 + placeOf entry = entry
        rw [← hc]
        exact identityOf_parts entry
      · rw [hidentified.entries]
        exact entryAt_eq_some.mpr ⟨hpl, by rw [hl.slot, hc],
          by rw [hl.slot]; rfl⟩
    · rw [if_pos ⟨Nat.ne_of_gt hpos, hc⟩] at hr
      refine ⟨_, hload _ hr, ?_⟩
      rw [Finds, hidentified.entries, entryAt, hl.slot, if_neg fun he => hc he.2.symm]
  · refine ⟨_, hload _ (readEntry_of_not_live hv hvl hl _), ?_⟩
    rw [Finds, hidentified.entries, Option.eq_none_iff_forall_ne_some]
    intro found hf
    exact hl (live_of_slot hvl hpl (entryAt_eq_some.mp hf).2.2).1

/-- Where the loop of `nextMapIteratorAt` stops. -/
theorem reachEntry_spec {pending : List Nat} (hi : ∀ entry ∈ pending, entry ∈ entries.issued)
    (pos : Nat) :
    (reachEntry runtime identity pending pos store = .ok (pos + pending.length, none) store ∧
      ∀ other ∈ pending, entries.entries other = none) ∨
    ∃ gone entry rest, reachEntry runtime identity pending pos store =
        .ok (pos + gone.length + 1, some entry) store ∧
      pending = gone ++ entry.identity :: rest ∧
      (∀ other ∈ gone, entries.entries other = none) ∧
      ∃ key, runtime.mapKey entry.key = .ok key ∧
        entries.entries entry.identity = some (key, entry.value) := by
  induction pending generalizing pos with
  | nil => exact .inl ⟨rfl, by simp⟩
  | cons candidate rest ih =>
    obtain ⟨found, hload, hf⟩ :=
      loadIdentity_finds htracks (hi candidate mem_cons_self)
    rw [reachEntry, bind_ok hload]
    cases found with
    | some entry =>
      obtain ⟨rfl, hp⟩ := hf
      exact .inr ⟨[], entry, rest, rfl, rfl, by simp, hp⟩
    | none =>
      have hnone : entries.entries candidate = none := hf
      dsimp only
      rcases ih (fun other ho => hi other (mem_cons_of_mem _ ho))
        (pos + 1) with ⟨heq, hg⟩ | ⟨gone, entry, rest', heq, rfl, hg, hp⟩
      · refine .inl ⟨?_, forall_mem_cons.mpr ⟨hnone, hg⟩⟩
        rw [heq, length_cons, Nat.add_right_comm, Nat.add_assoc]
      · refine .inr ⟨candidate :: gone, entry, rest', ?_, rfl, forall_mem_cons.mpr ⟨hnone, hg⟩, hp⟩
        rw [heq, length_cons, Nat.add_right_comm pos, Nat.add_assoc pos]

end

/-- The iterator of the code stands where the abstract one does. -/
structure Follows (iterator : MapIterator) (state : Iteration Value) : Prop where
  pending : iterator.entries.drop iterator.position = state.snapshot.drop state.position
  issued : ∀ entry ∈ state.snapshot, entry ∈ state.map.issued

theorem pushPair_keeps (runtime : MapRuntime Value RawKey RawValue)
    (store : Store (MapObject RawKey RawValue)) :
    Ensures (pushPair runtime) store (fun _ after => Keeps store after) (Keeps store) := by
  refine bind (request fun first hf => ⟨request fun second hs => ?_, fun _ => hf⟩)
  exact ⟨hf.trans hs, fun _ => hf.trans hs⟩

/-- The pair is stored exactly if both requests for memory succeed. -/
theorem pushPair_ok_iff (runtime : MapRuntime Value RawKey RawValue)
    (store : Store (MapObject RawKey RawValue)) :
    (∃ after, pushPair runtime store = .ok () after) ↔
      runtime.fails store.requests = false ∧ runtime.fails (store.requests + 1) = false := by
  unfold pushPair ObjectStore.request
  simp only [Bind.bind, EStateM.bind]
  cases hfirst : runtime.fails store.requests <;>
    cases hsecond : runtime.fails (store.requests + 1) <;> simp [hsecond]

/-- The iterators stand at the same place after they have come to an entry. -/
theorem Follows.advance {iterator : MapIterator} {state : Iteration Value}
    (hf : Follows iterator state) (gone produced : List Nat) :
    Follows { iterator with position := iterator.position + gone.length + 1 } { state with
        position := state.position + gone.length + 1
        produced } := by
  refine ⟨?_, hf.issued⟩
  rw [Nat.add_assoc, ← drop_drop, hf.pending, drop_drop, ← Nat.add_assoc]

variable {iter : MapIterator} {st : Iteration Value}

theorem Follows.exhaust (hf : Follows iter st) (position : Nat) :
    Follows { entries := [], position } { st with position := st.snapshot.length } :=
  ⟨by simp, hf.issued⟩

theorem nextMapIterator_spec (htracks : Tracks runtime store identity st.map)
    (hf : Follows iter st) : ∃ state', Iteration.Step runtime st .next
        (nextMapIterator runtime identity iter store).1 state' ∧
      Follows (nextMapIterator runtime identity iter store).2.1 state' ∧
      Tracks runtime (nextMapIterator runtime identity iter store).2.2 identity state'.map := by
  have hi : ∀ entry ∈ iter.entries.drop iter.position, entry ∈ st.map.issued := fun entry he =>
    hf.issued entry (mem_of_mem_drop (hf.pending ▸ he))
  have hp := pushPair_keeps runtime store
  unfold Ensures at hp
  unfold nextMapIterator
  rcases reachEntry_spec htracks hi iter.position with ⟨heq, hg⟩ |
    ⟨gone, entry, rest, heq, hpe, hg, hpr⟩
  · rw [hf.pending] at hg
    rw [heq]
    dsimp only
    cases hru : pushPair runtime store with
    | ok _ after =>
      rw [hru] at hp
      exact ⟨_, .exhausted hg (.inl rfl), hf.exhaust _, htracks.keeps hp⟩
    | error fault after =>
      rw [hru] at hp
      exact ⟨_, .exhausted hg (.inr ⟨fault, rfl⟩), hf.exhaust _, htracks.keeps hp⟩
  · have hr : Iteration.Reaches runtime st gone entry :=
      ⟨⟨rest, hf.pending ▸ hpe⟩, hg, hpr⟩
    rw [heq]
    dsimp only
    cases hru : pushPair runtime store with
    | ok _ after =>
      rw [hru] at hp
      exact ⟨_, .produced hr, hf.advance gone _, htracks.keeps hp⟩
    | error fault after =>
      rw [hru] at hp
      exact ⟨_, .dropped hr, hf.advance gone _, htracks.keeps hp⟩

/-- An entry is dropped exactly if there is one to come to and its memory is not there. -/
theorem nextMapIterator_dropped_iff (htracks : Tracks runtime store identity st.map)
    (hf : Follows iter st) :
    ¬(nextMapIterator runtime identity iter store).1.Dropped ↔
      Provided runtime identity iter store := by
  have hi : ∀ entry ∈ iter.entries.drop iter.position, entry ∈ st.map.issued := fun entry he =>
    hf.issued entry (mem_of_mem_drop (hf.pending ▸ he))
  have hpush := pushPair_ok_iff runtime store
  unfold nextMapIterator
  rcases reachEntry_spec htracks hi iter.position with ⟨heq, hgone⟩ |
    ⟨gone, entry, rest, heq, hpending, -, key, -, hpresent⟩
  · -- Nothing is left to come to.
    rw [heq]
    dsimp only
    refine iff_of_true ?_ ?_
    · cases pushPair runtime store <;> exact id
    · rintro ⟨entry, hentry, found, hload⟩
      obtain ⟨found', hload', hfinds⟩ := loadIdentity_finds htracks (hi entry hentry)
      rw [hload'] at hload
      cases hload
      obtain ⟨-, key, -, hthere⟩ := hfinds
      rw [hgone entry hentry] at hthere
      cases hthere
  · have hthere : entry.identity ∈ iter.entries.drop iter.position := by
      rw [hpending]
      simp
    obtain ⟨found, hload, hfinds⟩ := loadIdentity_finds htracks (hi _ hthere)
    have hsome : ∃ entry ∈ iter.entries.drop iter.position, ∃ found,
        loadIdentity runtime identity entry store = .ok (some found) store := by
      cases found with
      | none =>
        have hnone : st.map.entries entry.identity = none := hfinds
        rw [hnone] at hpresent
        cases hpresent
      | some found => exact ⟨_, hthere, found, hload⟩
    rw [heq, Provided, forall_prop_of_true hsome, ← hpush]
    dsimp only
    cases hrun : pushPair runtime store with
    | ok _ after => exact iff_of_true id ⟨after, rfl⟩
    | error fault after =>
      refine iff_of_false (fun hnot => hnot trivial) ?_
      rintro ⟨after, hok⟩
      cases hok

theorem mutateStep_not_dropped (mutation : MapMutation Value) :
    ¬(mutateStep runtime identity mutation store).1.Dropped := by
  unfold mutateStep
  split <;> exact id

/-- A run drops nothing exactly if the memory for every entry it comes to is there. -/
theorem iterate_dropped_iff (htracks : Tracks runtime store identity st.map)
    (hfo : Follows iter st) (events : List (IterationEvent Value)) :
    (∀ output ∈ iterate runtime identity events iter store, ¬output.Dropped) ↔
      ProvidedAlong runtime identity events iter store := by
  induction events generalizing store iter st with
  | nil => exact iff_of_true (by simp [iterate]) trivial
  | cons event rest ih =>
    rw [iterate, ProvidedAlong, forall_mem_cons]
    cases event with
    | mutate mutation =>
      obtain ⟨entries', hste, ha⟩ := mutateStep_spec htracks mutation
      have hf : Follows iter { st with map := entries' } :=
        ⟨hfo.pending, fun entry he => hste.issued_subset (hfo.issued entry he)⟩
      exact and_congr (iff_of_true (mutateStep_not_dropped mutation) fun heq => by cases heq)
        (@ih (mutateStep runtime identity mutation store).2 iter { st with map := entries' } ha hf)
    | next =>
      obtain ⟨state', -, hf, ha⟩ := nextMapIterator_spec htracks hfo
      have hnext := nextMapIterator_dropped_iff htracks hfo
      exact and_congr ⟨fun hkept _ => hnext.mp hkept, fun hprovided => hnext.mpr (hprovided rfl)⟩
        (ih ha hf)

/-- Every run of the code is a run of the abstract iteration. -/
theorem iterate_trace (htracks : Tracks runtime store identity st.map)
    (hfo : Follows iter st) (events : List (IterationEvent Value)) :
    ∃ states, Iteration.Trace runtime st events
      (iterate runtime identity events iter store) states := by
  induction events generalizing store iter st with
  | nil => exact ⟨_, .nil⟩
  | cons event rest ih =>
    cases event with
    | mutate mutation =>
      obtain ⟨entries', hste, ha⟩ := mutateStep_spec htracks mutation
      have hf : Follows iter { st with map := entries' } :=
        ⟨hfo.pending, fun entry he =>
          hste.issued_subset (hfo.issued entry he)⟩
      obtain ⟨states, ht⟩ := ih ha hf
      exact ⟨_, .cons (.mutated hste) ht⟩
    | next =>
      obtain ⟨state', hste, hf, ha⟩ :=
        nextMapIterator_spec htracks hfo
      obtain ⟨states, ht⟩ := ih ha hf
      exact ⟨_, .cons hste ht⟩

end Refinement

end ManagedMap

namespace Iteration

variable {Value RawKey RawValue : Type}
  {rt : MapRuntime Value RawKey RawValue} {pre after : Iteration Value}
  {event : IterationEvent Value} {output : IterationOutput Value}

/-- What holds in every state of an iteration, whatever is dropped. -/
structure Sound (state : Iteration Value) : Prop where
  distinct : state.snapshot.Nodup
  covered : ∀ entry ∈ state.snapshot, entry ∈ state.map.issued
  once : state.produced.Nodup
  reached : ∀ entry ∈ state.produced, entry ∈ state.snapshot.take state.position
  issued : state.map.issued.Nodup

/-- Every entry that has been passed and is still there has been produced. -/
def Complete (state : Iteration Value) : Prop :=
  ∀ entry ∈ state.snapshot.take state.position,
    state.map.entries entry ≠ none → entry ∈ state.produced

theorem Sound.correct {state : Iteration Value} (hs : Sound state)
    (hc : Complete state) : Correct state :=
  ⟨hs.once, hs.reached, hc, hs.issued⟩

variable {entry : MapEntry Value} {gone : List Nat}

/-- The part of the snapshot that has been passed when an entry is reached. -/
theorem Reaches.take_eq (hr : Reaches rt pre gone entry) :
    pre.snapshot.take (pre.position + gone.length + 1) =
      pre.snapshot.take pre.position ++ (gone ++ [entry.identity]) := by
  obtain ⟨rest, hp⟩ := hr.pending
  rw [Nat.add_assoc, take_add, hp]
  simp [take_append]

/-- An entry that is reached has not been passed before. -/
theorem Reaches.notMem (hr : Reaches rt pre gone entry) (hs : Sound pre) :
    entry.identity ∉ pre.snapshot.take pre.position := by
  intro hmem
  have hnd := hs.distinct.sublist (take_sublist (pre.position + gone.length + 1) pre.snapshot)
  rw [hr.take_eq, nodup_append] at hnd
  exact hnd.2.2 _ hmem _ (by simp) rfl

section

variable (hste : Step rt pre event output after)
include hste

theorem Step.snapshot_eq : after.snapshot = pre.snapshot := by
  cases hste <;> rfl

theorem Step.sound (hs : Sound pre) : Sound after := by
  cases hste with
  | mutated hm =>
    exact ⟨hs.distinct, fun entry he =>
      hm.issued_subset (hs.covered entry he), hs.once, hs.reached,
      hm.issued_nodup hs.issued⟩
  | @produced gone entry hr =>
    refine ⟨hs.distinct, hs.covered, ?_, fun other ho => ?_, hs.issued⟩
    · refine nodup_append.mpr ⟨hs.once, by simp, ?_⟩
      rintro first hf second hsn rfl
      rw [mem_singleton.mp hsn] at hf
      exact hr.notMem hs (hs.reached _ hf)
    · rw [hr.take_eq]
      rcases mem_append.mp ho with ho | ho
      · exact mem_append_left _ (hs.reached other ho)
      · exact mem_append_right _ (mem_append_right _ ho)
  | @dropped gone entry fault hr =>
    refine ⟨hs.distinct, hs.covered, hs.once, fun other ho => ?_, hs.issued⟩
    rw [hr.take_eq]
    exact mem_append_left _ (hs.reached other ho)
  | exhausted _ _ =>
    refine ⟨hs.distinct, hs.covered, hs.once, fun other ho => ?_, hs.issued⟩
    rw [take_length]
    exact mem_of_mem_take (hs.reached other ho)

theorem Step.later (hs : Sound pre) : Later pre after := by
  intro entry he key val hf
  cases hste with
  | mutated hm =>
    exact hm.same_key (hs.covered entry he) hf
  | produced | dropped | exhausted => exact ⟨val, hf⟩

/-- A step that drops nothing leaves nothing out. -/
theorem Step.complete (hs : Sound pre) (hc : Complete pre)
    (hk : ¬output.Dropped) : Complete after := by
  intro entry he hp
  cases hste with
  | mutated hm =>
    refine hc entry he ?_
    obtain ⟨found, hf⟩ := Option.ne_none_iff_exists'.mp hp
    obtain ⟨old, hold⟩ := hm.same_key (hs.covered entry (mem_of_mem_take he)) hf
    simp [hold]
  | @produced gone found hr =>
    rw [hr.take_eq] at he
    rcases mem_append.mp he with he | he
    · exact mem_append_left _ (hc entry he hp)
    · rcases mem_append.mp he with hg | hl
      · exact absurd (hr.gone entry hg) hp
      · exact mem_append_right _ hl
  | dropped => exact absurd trivial hk
  | exhausted hg _ =>
    rw [take_length] at he
    rw [← take_append_drop pre.position pre.snapshot] at he
    rcases mem_append.mp he with he | he
    · exact hc entry he hp
    · exact absurd (hg entry he) hp

/-- A dropped entry has been passed, is still there and has not been produced. -/
theorem Step.not_complete (hs : Sound pre) (hd : output.Dropped) : ¬Complete after := by
  intro hc
  cases hste with
  | mutated hm => cases hm <;> cases hd
  | produced => cases hd
  | @dropped gone entry fault hr =>
    obtain ⟨key, -, hpr⟩ := hr.present
    have hpa : entry.identity ∈ pre.snapshot.take (pre.position + gone.length + 1) := by
      rw [hr.take_eq]
      simp
    have hp := hc entry.identity hpa (by simp [hpr])
    exact hr.notMem hs (hs.reached _ hp)
  | exhausted _ ho =>
    rcases ho with rfl | ⟨fault, rfl⟩ <;> cases hd

end

variable {events : List (IterationEvent Value)} {outputs : List (IterationOutput Value)}
  {states : List (Iteration Value)}

theorem Trace.head_mem {state : Iteration Value}
    (ht : Trace rt state events outputs states) : state ∈ states := by
  cases ht <;> simp

theorem Later.trans {first second third : Iteration Value}
    (hs : second.snapshot = first.snapshot) (hfs : Later first second)
    (hsn : Later second third) : Later first third := by
  intro entry he key val hf
  obtain ⟨mid, hm⟩ := hsn entry (hs ▸ he) key val hf
  exact hfs entry he key mid hm

theorem Trace.later {state : Iteration Value}
    (ht : Trace rt state events outputs states) (hs : Sound state) :
    (∀ other ∈ states, Later state other) ∧ states.Pairwise Later := by
  induction ht with
  | nil => exact ⟨fun other ho entry _ key val hf =>
    ⟨val, mem_singleton.mp ho ▸ hf⟩, pairwise_singleton _ _⟩
  | cons hste _ ih =>
    obtain ⟨ha, hp⟩ := ih (hste.sound hs)
    have hl := fun other ho =>
      Later.trans hste.snapshot_eq (hste.later hs) (ha other ho)
    refine ⟨fun other ho => ?_, pairwise_cons.mpr ⟨hl, hp⟩⟩
    rcases mem_cons.mp ho with rfl | ho
    · exact fun entry _ key val hf => ⟨val, hf⟩
    · exact hl other ho

/-- An iteration is correct in every state exactly if nothing is dropped. -/
theorem Trace.correct_iff {state : Iteration Value}
    (ht : Trace rt state events outputs states) (hs : Sound state)
    (hc : Complete state) :
    (∀ other ∈ states, Correct other) ↔ ∀ output ∈ outputs, ¬output.Dropped := by
  induction ht with
  | nil =>
    refine ⟨fun _ _ hou => absurd hou (not_mem_nil), fun _ other ho => ?_⟩
    rw [mem_singleton.mp ho]
    exact hs.correct hc
  | @cons _ _ output _ _ _ _ hste ht ih =>
    by_cases hd : output.Dropped
    · constructor
      · intro hok
        have hm := hok _ (mem_cons_of_mem _ ht.head_mem)
        exact absurd hm.complete (hste.not_complete hs hd)
      · exact fun hnone => absurd hd (hnone _ mem_cons_self)
    · have hr := ih (hste.sound hs) (hste.complete hs hc hd)
      rw [forall_mem_cons, forall_mem_cons, hr]
      exact ⟨fun hall => ⟨hd, hall.2⟩, fun hall => ⟨hs.correct hc, hall.2⟩⟩

end Iteration

namespace ManagedMap

variable {Value RawKey RawValue : Type} {runtime : MapRuntime Value RawKey RawValue}

/-- The initial entries as changes of an empty map. -/
def seedMutation (seed : MapKey × Value × Value) : MapMutation Value :=
  .store seed.2.1 0 seed.2.2

theorem Placed.identified {seeds : List (MapKey × Value × Value)}
    {places places' : Nat → Slot Value} {entries : EntryMap Value}
    (hp : Placed runtime seeds places places')
    (hidentified : Identified places entries) : ∃ entries',
      EntryMap.Run runtime entries (seeds.map seedMutation)
        (seeds.map fun _ => .mutated) entries' ∧ Identified places' entries' := by
  induction hp generalizing entries with
  | nil => exact ⟨entries, .nil, hidentified⟩
  | cons hs hst _ ih =>
    obtain ⟨mid, hste, hm⟩ := hidentified.stored hs.1 hst 0
    obtain ⟨last, hr, hl⟩ := ih hm
    exact ⟨last, .cons hste hr, hl⟩

theorem initMapIterator_spec {store after : Store (MapObject RawKey RawValue)}
    {identity : Nat} {entries : EntryMap Value} {iterator : MapIterator}
    (htracks : Tracks runtime store identity entries)
    (hi : initMapIterator runtime identity store = .ok iterator after) :
    Tracks runtime after identity entries ∧ iterator.position = 0 ∧ iterator.entries.Nodup ∧
      ∀ entry, entry ∈ iterator.entries ↔ entries.entries entry ≠ none := by
  refine result (fun iterator after => Tracks runtime after identity entries ∧
    iterator.position = 0 ∧ iterator.entries.Nodup ∧
    ∀ entry, entry ∈ iterator.entries ↔ entries.entries entry ≠ none) ?_ hi
  refine bind (request fun first hfirst => ⟨?_, fun _ => trivial⟩)
  refine bind (request fun second hsecond => ⟨?_, fun _ => trivial⟩)
  have hsn := htracks.keeps (hfirst.trans hsecond)
  have hs := hsn
  obtain ⟨map, places, ⟨table, hvi, hv, -, rfl⟩, hidentified⟩ := hsn
  refine bind (of_ok (entryIdentities_eq hvi hv)
    (pure ⟨hs, rfl, nodup_identities hv, fun entry => ?_⟩))
  rw [hidentified.entries]
  constructor
  · intro hmem
    obtain ⟨index, hid, rfl⟩ := mem_map.mp hmem
    have hl := mem_liveIndexes.mp hid
    have he : entryAt (slots runtime table) _ = _ :=
      entryAt_identityOf hl.1 (hl.le_maxUint32 hv)
    rw [hl.slot] at he
    rw [he]
    simp
  · intro hp
    obtain ⟨found, hf⟩ := Option.ne_none_iff_exists'.mp hp
    obtain ⟨hpl, hg, he⟩ := entryAt_eq_some.mp hf
    have hl := (live_of_slot hv hpl he).1
    rw [hl.slot] at hg
    refine mem_map.mpr ⟨placeOf entry, mem_liveIndexes.mpr hl, ?_⟩
    dsimp only at hg
    rw [hg]
    exact identityOf_parts entry

/-- Whatever is done with a map before and during an iteration, the iteration is correct
exactly if at every step that has an entry to come to, the two requests for its memory
succeed. -/
theorem newManagedMap_iterates (runtime : MapRuntime Value RawKey RawValue)
    (store created started : Store (MapObject RawKey RawValue))
    (seeds : List (MapKey × Value × Value)) (capacity identity : Nat)
    (hseeds : ∀ seed ∈ seeds, ∃ key, Seeded runtime seed key)
    (hnew : newManagedMap runtime seeds capacity store = .ok identity created)
    (history : List (MapMutation Value)) (iterator : MapIterator)
    (hinit : initMapIterator runtime identity
      (mutateAll runtime identity history created).2 = .ok iterator started)
    (events : List (IterationEvent Value)) :
    ∃ filled map states, EntryMap.Run runtime .empty (seeds.map seedMutation)
        (seeds.map fun _ => .mutated) filled ∧
      EntryMap.Run runtime filled history (mutateAll runtime identity history created).1 map ∧
      (∀ entry, entry ∈ iterator.entries ↔ map.entries entry ≠ none) ∧
      Iteration.Trace runtime ⟨map, iterator.entries, 0, []⟩ events
        (iterate runtime identity events iterator started) states ∧
      states.Pairwise Iteration.Later ∧
      ((∀ state ∈ states, Iteration.Correct state) ↔
        ProvidedAlong runtime identity events iterator started) := by
  obtain ⟨content, places, -, hplaced, hmap⟩ := newManagedMap_spec hseeds capacity hnew
  obtain ⟨filled, hfilled, hidentified⟩ := hplaced.identified identified_empty
  obtain ⟨map, hhistory, htracks⟩ :=
    mutateAll_spec ⟨content, places, hmap, hidentified⟩ history
  obtain ⟨hstarted, hposition, hnodup, hpresent⟩ := initMapIterator_spec htracks hinit
  have hissued : map.issued.Nodup :=
    (hhistory.issued_nodup (hfilled.issued_nodup (by simp [empty])))
  have hcovered : ∀ entry ∈ iterator.entries, entry ∈ map.issued := by
    obtain ⟨_, places', _, hidentified'⟩ := hstarted
    exact fun entry hentry => hidentified'.covered entry ((hpresent entry).mp hentry)
  have hsound : Iteration.Sound (⟨map, iterator.entries, 0, []⟩ : Iteration Value) :=
    ⟨hnodup, hcovered, nodup_nil, by simp, hissued⟩
  have hfollows : Follows iterator (⟨map, iterator.entries, 0, []⟩ : Iteration Value) :=
    ⟨by rw [hposition], hcovered⟩
  obtain ⟨states, htrace⟩ := iterate_trace hstarted hfollows events
  exact ⟨filled, map, states, hfilled, hhistory, hpresent, htrace,
    (htrace.later hsound).2, (htrace.correct_iff hsound (by simp [Iteration.Complete])).trans
      (iterate_dropped_iff hstarted hfollows events)⟩

theorem iterateNew_eq_some {store : Store (MapObject RawKey RawValue)}
    {history : List (MapMutation Value)} {events : List (IterationEvent Value)}
    {outputs : List (IterationOutput Value)}
    (ho : iterateNew runtime store history events = some outputs) :
    ∃ identity created iterator started, newManagedMap runtime [] 0 store = .ok identity created ∧
      initMapIterator runtime identity (mutateAll runtime identity history created).2 =
        .ok iterator started ∧
      iterate runtime identity events iterator started = outputs := by
  unfold iterateNew at ho
  split at ho
  · next identity created hn =>
    split at ho
    · next iterator started hi =>
      exact ⟨identity, created, iterator, started, hn, hi, Option.some.inj ho⟩
    · cases ho
  · cases ho

/-- The iteration over the one entry of a map, which gets another value before it is
reached. -/
theorem newManagedMap_iterates_numbers : ∃ identity created iterator started,
      newManagedMap numberRuntime [] 0 emptyStore = .ok identity created ∧
      initMapIterator numberRuntime identity
        (mutateAll numberRuntime identity [.store 7 0 1] created).2 = .ok iterator started ∧
      ∃ map states, Iteration.Trace numberRuntime ⟨map, iterator.entries, 0, []⟩
        [.mutate (.store 7 0 2), .next, .next]
        [.mutated, .produced ⟨2 ^ 32 + 1, 7, 2⟩, .exhausted] states ∧
        ∀ state ∈ states, Iteration.Correct state := by
  obtain ⟨identity, created, iterator, started, hnew, hinit, houtputs⟩ :=
    iterateNew_eq_some (by decide +kernel :
      iterateNew numberRuntime emptyStore [.store 7 0 1] [.mutate (.store 7 0 2), .next, .next] =
        some [.mutated, .produced ⟨2 ^ 32 + 1, 7, 2⟩, .exhausted])
  obtain ⟨filled, map, states, -, -, -, htrace, -, hcorrect⟩ := newManagedMap_iterates
    numberRuntime emptyStore created started [] 0 identity (by simp) hnew
    [.store 7 0 1] iterator hinit [.mutate (.store 7 0 2), .next, .next]
  rw [houtputs] at htrace
  exact ⟨identity, created, iterator, started, hnew, hinit, map, states, htrace,
    hcorrect.mpr ⟨fun _ _ => ⟨rfl, rfl⟩, fun _ _ => ⟨rfl, rfl⟩, fun _ _ => ⟨rfl, rfl⟩, trivial⟩⟩

/-- A heap on which one request fails: that for the key of the first entry. -/
def pressedRuntime : MapRuntime Nat Nat Nat :=
  { numberRuntime with fails := fun request => request == 12 }

/-- The only entry of a map is not produced although nobody removes it: the step that
comes to it fails for lack of memory, and the step that is executed again after a
collection finds the iterator exhausted. -/
theorem iterate_drops_entry : iterateNew pressedRuntime emptyStore [.store 7 0 1] [.next, .next] =
      some [.dropped errManagedCollection ⟨2 ^ 32 + 1, 7, 1⟩, .exhausted] := by
  decide +kernel

end ManagedMap

end MiniGo.Runtime
