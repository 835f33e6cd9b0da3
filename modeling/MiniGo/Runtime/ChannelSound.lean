/-
Conservation and order on waitables.

Every transaction keeps the wait lists well formed, never leaves a completed
selection on a list, and never leaves a receiver waiting on an open waitable that
has something in its buffer. From the last fact follows that a value handed
directly to a receiver does not overtake a buffered one, and so that the values
delivered by a waitable are those committed to it, in order, up to what its
buffer holds.
-/
import MiniGo.Lib.Result
import MiniGo.Runtime.ChannelReport

namespace MiniGo.Runtime

open LinkedList Event List Option

section Lists

variable {Value : Type} {lists : WaitLists}
  {cases : CaseId → Option (SelectCase Value)} {wait : Nat → List CaseId}

/-- The wait lists hold the registered cases, each on the list of its waitable;
the links of other cases are clear. -/
structure WaitLists.Good (lists : WaitLists)
    (cases : CaseId → Option (SelectCase Value)) (wait : Nat → List CaseId) :
    Prop where
  represents : ∀ resource, Represents lists.links (lists.ends resource) (wait resource)
  mem : ∀ resource id, id ∈ wait resource ↔ lists.registered id = true ∧
    ∃ selected, cases id = some selected ∧ selected.resource = some resource
  registered : ∀ id, lists.registered id = true → ∃ selected resource, cases id = some selected ∧
      selected.resource = some resource
  next : ∀ id, lists.registered id = false → lists.links.next id = none

section

variable (hgood : lists.Good cases wait)
include hgood

theorem WaitLists.Good.disjoint {first second : Nat} (hne : first ≠ second) :
    ∀ id ∈ wait first, id ∉ wait second := by
  intro id hf hs
  obtain ⟨-, selected, hse, hr⟩ := (hgood.mem first id).mp hf
  obtain ⟨-, other, ho, hot⟩ := (hgood.mem second id).mp hs
  rw [hse] at ho
  cases ho
  rw [hr] at hot
  exact hne (some.inj hot)

/-- Only the cases that are registered matter. -/
theorem WaitLists.Good.congr {cases' : CaseId → Option (SelectCase Value)}
    (hc : ∀ id, lists.registered id = true → cases' id = cases id) :
    lists.Good cases' wait := by
  refine ⟨hgood.represents, fun resource id => ?_, fun id hid => ?_, hgood.next⟩
  · rw [hgood.mem]
    exact and_congr_right fun hid => by rw [hc id hid]
  · rw [hc id hid]
    exact hgood.registered id hid

variable {sel : SelectCase Value} {id idx : Nat}

/-- Withdrawing one case. -/
theorem WaitLists.Good.unregister (hca : cases (id, idx) = some sel) :
    (∃ wait', (lists.unregister id (sel, idx)).Good cases wait') ∧
      ∀ other, (lists.unregister id (sel, idx)).registered other =
        (lists.registered other && other ≠ (id, idx)) := by
  unfold WaitLists.unregister
  cases hr : lists.registered (id, idx) with
  | false =>
    refine ⟨⟨wait, hgood⟩, fun other => ?_⟩
    by_cases hs : other = (id, idx)
    · simp [hs, hr]
    · simp [hs]
  | true =>
    obtain ⟨found, resource, hf, hre⟩ :=
      hgood.registered (id, idx) hr
    rw [hca] at hf
    cases hf
    have hmem : (id, idx) ∈ wait resource :=
      (hgood.mem resource _).mpr ⟨hr, sel, hca, hre⟩
    simp only [hre]
    refine ⟨⟨fun other => (wait other).filter (· ≠ (id, idx)), ?_, ?_, ?_, ?_⟩, ?_⟩
    · intro other
      by_cases hs : other = resource
      · subst hs
        simpa using unlink_represents (hgood.represents other) hmem
      · have hnot : (id, idx) ∉ wait other :=
          hgood.disjoint (Ne.symm hs) _ hmem
        have hk : (wait other).filter (· ≠ (id, idx)) = wait other := by
          refine filter_eq_self.mpr fun case' hc => ?_
          have hne : case' ≠ (id, idx) := fun heq => hnot (heq ▸ hc)
          simpa using hne
        rw [hk]
        simpa [hs] using unlink_represents_other (hgood.represents resource)
          hmem (hgood.represents other) (hgood.disjoint (Ne.symm hs))
    · intro other case'
      rw [mem_filter, hgood.mem]
      by_cases hs : case' = (id, idx)
      · simp [hs]
      · simp [hs]
    · intro case' hc
      by_cases hs : case' = (id, idx)
      · simp [hs] at hc
      · exact hgood.registered case' (by simpa [hs] using hc)
    · intro case' hc
      by_cases hs : case' = (id, idx)
      · subst hs
        exact unlink_self lists.links (lists.ends resource) (id, idx)
      · have hfr : lists.registered case' = false := by
          simpa [hs] using hc
        have hnot : case' ∉ wait resource := by
          rw [hgood.mem]
          simp [hfr]
        exact (unlink_next_of_notMem (hgood.represents resource) hmem
          hnot).trans (hgood.next case' hfr)
    · intro other
      by_cases hs : other = (id, idx)
      · simp [hs]
      · simp [hs]

/-- Registering one case that is not registered. -/
theorem WaitLists.Good.register
    (hca : cases (id, idx) = some sel) (hf : lists.registered (id, idx) = false) :
    (∃ wait', (lists.register id (sel, idx)).Good cases wait') ∧
      ∀ other, (lists.register id (sel, idx)).registered other = (lists.registered other ||
          (sel.resource.isSome && other = (id, idx))) := by
  unfold WaitLists.register
  cases hr : sel.resource with
  | none => exact ⟨⟨wait, hgood⟩, by simp⟩
  | some resource =>
    have hnot : ∀ other, (id, idx) ∉ wait other := by
      intro other
      rw [hgood.mem]
      simp [hf]
    refine ⟨⟨Function.update wait resource (wait resource ++ [(id, idx)]), ?_, ?_, ?_, ?_⟩, ?_⟩
    · intro other
      by_cases hs : other = resource
      · subst hs
        simpa using append_represents (hgood.represents other) (hnot other) (hgood.next _ hf)
      · simpa [hs] using append_represents_other (hgood.represents resource)
          (hgood.represents other) (hnot other)
          (hgood.disjoint (Ne.symm hs))
    · intro other case'
      by_cases hs : case' = (id, idx)
      · subst hs
        by_cases ho : other = resource
        · simp [ho, hca, hr]
        · simp [ho, hca, hr, hnot other, Ne.symm ho]
      · by_cases ho : other = resource
        · subst ho
          simp [hs, hgood.mem]
        · simp [hs, ho, hgood.mem]
    · intro case' hc
      by_cases hs : case' = (id, idx)
      · exact ⟨sel, resource, hs ▸ hca, hr⟩
      · exact hgood.registered case' (by simpa [hs] using hc)
    · intro case' hc
      by_cases hs : case' = (id, idx)
      · simp [hs] at hc
      · have ho : lists.registered case' = false := by
          simpa [hs] using hc
        have hn : case' ∉ wait resource := by
          rw [hgood.mem]
          simp [ho]
        exact (append_next_of_notMem (hgood.represents resource) hn).trans (hgood.next case' ho)
    · intro other
      by_cases hs : other = (id, idx)
      · simp [hs]
      · simp [hs]

/-- Withdrawing some cases of a selection. -/
theorem WaitLists.Good.unregister_all (entries : List (SelectCase Value × Nat))
    (he : ∀ entry ∈ entries, cases (id, entry.2) = some entry.1) :
    (∃ wait', (entries.foldl (fun lists entry => lists.unregister id entry)
        lists).Good cases wait') ∧
      ∀ other, (entries.foldl (fun lists entry => lists.unregister id entry)
          lists).registered other = true ↔
        lists.registered other = true ∧ ¬(other.1 = id ∧ other.2 ∈ entries.map (·.2)) := by
  induction entries generalizing lists wait with
  | nil => exact ⟨⟨wait, hgood⟩, by simp⟩
  | cons entry rest ih =>
    obtain ⟨⟨wait', hg⟩, hreg⟩ :=
      hgood.unregister (he entry mem_cons_self)
    obtain ⟨hr, hre⟩ := ih hg fun other ho =>
      he other (mem_cons_of_mem entry ho)
    refine ⟨hr, fun other => ?_⟩
    rw [foldl_cons, hre, hreg]
    simp only [Bool.and_eq_true, decide_eq_true_eq, ne_eq, Prod.ext_iff, map_cons, mem_cons]
    tauto

theorem WaitLists.Good.register_all (entries : List (SelectCase Value × Nat))
    (he : ∀ entry ∈ entries, cases (id, entry.2) = some entry.1)
    (hnd : (entries.map (·.2)).Nodup)
    (hfr : ∀ entry ∈ entries, lists.registered (id, entry.2) = false) :
    (∃ wait', (entries.foldl (fun lists entry => lists.register id entry) lists).Good cases wait') ∧
      ∀ other, (entries.foldl (fun lists entry => lists.register id entry)
          lists).registered other = true →
        lists.registered other = true ∨ (other.1 = id ∧ ∃ entry ∈ entries, other.2 = entry.2) := by
  induction entries generalizing lists wait with
  | nil => exact ⟨⟨wait, hgood⟩, by simp⟩
  | cons entry rest ih =>
    rw [map_cons, nodup_cons] at hnd
    obtain ⟨⟨wait', hg⟩, hreg⟩ :=
      hgood.register (he entry mem_cons_self) (hfr entry mem_cons_self)
    obtain ⟨hr, hre⟩ := ih hg (fun other ho => he other (mem_cons_of_mem entry ho)) hnd.2 (by
        intro other ho
        have hne : other.2 ≠ entry.2 := fun heq =>
          hnd.1 (heq ▸ mem_map_of_mem ho)
        rw [hreg, hfr other (mem_cons_of_mem entry ho)]
        simp [hne])
    refine ⟨hr, fun other ho => ?_⟩
    rcases hre other ho with hold | ⟨hid, found, hf, hs⟩
    · rw [hreg] at hold
      simp only [Bool.or_eq_true, Bool.and_eq_true, decide_eq_true_eq] at hold
      rcases hold with hold | ⟨-, hs⟩
      · exact .inl hold
      · exact .inr ⟨congrArg Prod.fst hs, entry, mem_cons_self, congrArg Prod.snd hs⟩
    · exact .inr ⟨hid, found, mem_cons_of_mem entry hf, hs⟩

end

end Lists

namespace World

variable {Value Raw : Type} {codec : Codec Value Raw} {world : World Value Raw}

/-- The items in the buffer of a waitable. -/
def contents (codec : Codec Value Raw) (world : World Value Raw)
    (resource : Nat) : List Value :=
  (world.waitables resource).storage.contents codec

/-- The part of the invariant that holds also in the middle of a transaction. -/
structure Structured (codec : Codec Value Raw) (world : World Value Raw) :
    Prop where
  lists : ∃ wait, world.lists.Good world.case? wait
  unused : ∀ id, world.selectionCount ≤ id →
    (world.selections id).cases = [] ∧ (world.selections id).done = false
  withdrawn : ∀ id, (world.selections id).done = true →
    ∀ index, world.lists.registered (id, index) = false
  resources : ∀ id selected resource, world.case? id = some selected →
    selected.resource = some resource → resource < world.waitableCount
  storages : ∀ resource, (world.waitables resource).storage.Valid
  untouched : ∀ resource, world.waitableCount ≤ resource → world.contents codec resource = []
  once : (completedSelections world.history).Nodup
  finished : ∀ id ∈ completedSelections world.history, (world.selections id).done = true

/-- A receiver waits on an open waitable only while its buffer is empty. -/
def Drained (codec : Codec Value Raw) (world : World Value Raw) : Prop :=
  ∀ id selected resource, world.lists.registered id = true →
    world.case? id = some selected → selected.send = false →
    selected.resource = some resource →
    (world.waitables resource).closed = false → world.contents codec resource = []

/-- What was committed to a waitable has been delivered or is in its buffer. -/
def Conserved (codec : Codec Value Raw) (world : World Value Raw) : Prop :=
  ∀ resource, sentValues world.history resource =
    receivedValues world.history resource ++ world.contents codec resource

/-- Only completed selections have failed. -/
def ErrorFree (world : World Value Raw) : Prop :=
  ∀ id, (world.selections id).done = false → (world.selections id).error = none

/-- What holds between transactions. -/
structure Invariant (codec : Codec Value Raw) (world : World Value Raw) :
    Prop where
  structured : world.Structured codec
  drained : world.Drained codec
  conserved : world.Conserved codec
  errorFree : world.ErrorFree

variable {id : Nat} {idx : Option Nat} {val : Value} {ok : Bool} {resource : Nat}
  {stor : Storage Value Raw} {faults : BufferFaults} {Channel : Type}

variable {selected : SelectCase Value}

section Complete

theorem mem_zipIdx_case :
    ∀ entry ∈ (world.selections id).cases.zipIdx, world.case? (id, entry.2) = some entry.1 := by
  intro entry he
  simpa [case?] using mem_zipIdx_iff_getElem?.mp he

theorem unregister_lists (id : Nat) (hl : ∃ wait, world.lists.Good world.case? wait) :
    (∃ wait, (world.unregister id).lists.Good world.case? wait) ∧
      ∀ other, (world.unregister id).lists.registered other = true ↔
        world.lists.registered other = true ∧ other.1 ≠ id := by
  obtain ⟨wait, hgood⟩ := hl
  obtain ⟨hr, hre⟩ :=
    hgood.unregister_all (world.selections id).cases.zipIdx mem_zipIdx_case
  refine ⟨hr, fun other => ?_⟩
  rw [unregister, hre]
  refine and_congr_right fun ho => ?_
  obtain ⟨selected, -, hs, -⟩ := hgood.registered other ho
  have hi : other.1 = id → other.2 ∈ (world.selections id).cases.zipIdx.map (·.2) := by
    rintro rfl
    exact mem_map.mpr ⟨(selected, other.2),
      mem_zipIdx_iff_getElem?.mpr (by simpa [case?] using hs), rfl⟩
  tauto

@[simp] theorem complete_case? (other : CaseId) :
    (world.complete id idx val ok).case? other = world.case? other := by
  by_cases hs : other.1 = id
  · subst hs
    simp [complete, case?]
  · simp [complete, case?, hs]

@[simp] theorem complete_waitables :
    (world.complete id idx val ok).waitables = world.waitables := rfl

@[simp] theorem complete_contents (resource : Nat) :
    (world.complete id idx val ok).contents codec resource =
      world.contents codec resource := rfl

@[simp] theorem complete_history : (world.complete id idx val ok).history = world.history ++
      [.completed id (idx.bind fun idx => world.case? (id, idx)) val ok
        (world.selections id).error] := rfl

@[simp] theorem complete_done_self :
    ((world.complete id idx val ok).selections id).done = true := by
  simp [complete]

theorem complete_selections_of_ne {other : Nat} (hne : other ≠ id) :
    (world.complete id idx val ok).selections other = world.selections other := by
  simp [complete, hne]

theorem complete_registered (hl : ∃ wait, world.lists.Good world.case? wait) (other : CaseId) :
    (world.complete id idx val ok).lists.registered other = true ↔
      world.lists.registered other = true ∧ other.1 ≠ id :=
  (unregister_lists id hl).2 other

theorem completedSelections_append (first second : List (Event Value)) :
    completedSelections (first ++ second) =
      completedSelections first ++ completedSelections second := by
  simp [completedSelections]

/-- A selection with a case has been made. -/
theorem Structured.lt_selectionCount (hworld : world.Structured codec)
    {other : CaseId} (hs : world.case? other = some selected) :
    other.1 < world.selectionCount := by
  by_contra hn
  rw [case?, (hworld.unused other.1 (by omega)).1] at hs
  simp at hs

/-- Completing an open selection. -/
theorem Structured.complete (hworld : world.Structured codec) (hkn : id < world.selectionCount)
    (hopen : (world.selections id).done = false) :
    (world.complete id idx val ok).Structured codec := by
  have hc : (world.complete id idx val ok).case? = world.case? :=
    funext fun other => complete_case? other
  have hn : id ∉ completedSelections world.history := fun hmem => by
    simp [hworld.finished id hmem] at hopen
  refine ⟨?_, ?_, ?_, ?_, hworld.storages, hworld.untouched, ?_, ?_⟩
  · rw [hc]
    exact (unregister_lists id hworld.lists).1
  · intro other ho
    have ho : world.selectionCount ≤ other := ho
    rw [complete_selections_of_ne (by omega)]
    exact hworld.unused other ho
  · intro other hd index'
    by_contra hr
    obtain ⟨hold, hne⟩ :=
      (complete_registered hworld.lists _).mp (by simpa using hr)
    rw [complete_selections_of_ne hne] at hd
    simp [hworld.withdrawn other hd index'] at hold
  · rw [hc]
    exact hworld.resources
  · rw [complete_history, completedSelections_append, nodup_append]
    refine ⟨hworld.once, by simp [completedSelections], ?_⟩
    rintro first hf second hsn rfl
    have : first = id := by simpa [completedSelections] using hsn
    exact hn (this ▸ hf)
  · intro other ho
    rw [complete_history, completedSelections_append, mem_append] at ho
    by_cases hs : other = id
    · rw [hs]
      exact complete_done_self
    · rw [complete_selections_of_ne hs]
      rcases ho with ho | ho
      · exact hworld.finished other ho
      · simp [completedSelections, hs] at ho

end Complete

section Peer

variable {send : Bool} {owner : Option Nat}

/-- A wait list is no longer than the number of cases. -/
theorem wait_length_le (hworld : world.Structured codec)
    {wait : Nat → List CaseId} (hgood : world.lists.Good world.case? wait) :
    (wait resource).length ≤ world.caseCount := by
  let all : List CaseId := (range world.selectionCount).flatMap fun id =>
    (range (world.selections id).cases.length).map (id, ·)
  have hsub : wait resource ⊆ all := by
    intro id hid
    obtain ⟨-, selected, hs, -⟩ := (hgood.mem resource id).mp hid
    have hi : id.2 < (world.selections id.1).cases.length :=
      (List.getElem?_eq_some_iff.mp hs).1
    have hkn := hworld.lt_selectionCount hs
    exact List.mem_flatMap.mpr ⟨id.1, List.mem_range.mpr hkn,
      List.mem_map.mpr ⟨id.2, List.mem_range.mpr hi, rfl⟩⟩
  have hlen : all.length = world.caseCount := by
    simp [all, caseCount, length_flatMap]
  rw [← hlen]
  exact (subperm_of_subset (hgood.represents resource).nodup hsub).length_le

theorem selectionPeer_eq (hworld : world.Structured codec)
    {wait : Nat → List CaseId} (hgood : world.lists.Good world.case? wait) :
    world.selectionPeer resource send owner = (wait resource).find? fun peer =>
      some peer.1 ≠ owner && (world.case? peer).any (·.send ≠ send) &&
        !(world.selections peer.1).done :=
  findFrom_represents (hgood.represents resource) (Nat.lt_succ_of_le (wait_length_le hworld hgood))

theorem selectionPeer_some (hworld : world.Structured codec) {peer : CaseId}
    (hp : world.selectionPeer resource send owner = some peer) :
    some peer.1 ≠ owner ∧ (world.selections peer.1).done = false ∧
      world.lists.registered peer = true ∧
      ∃ selected, world.case? peer = some selected ∧
        selected.resource = some resource ∧ selected.send = !send := by
  obtain ⟨wait, hgood⟩ := hworld.lists
  rw [selectionPeer_eq hworld hgood] at hp
  have hw := find?_some hp
  obtain ⟨hr, selected, hs, hre⟩ :=
    (hgood.mem resource peer).mp (mem_of_find?_eq_some hp)
  simp only [hs, any_some, Bool.and_eq_true, decide_eq_true_eq, Bool.not_eq_true'] at hw
  obtain ⟨⟨ho, hse⟩, hopen⟩ := hw
  refine ⟨ho, hopen, hr, selected, hs, hre, ?_⟩
  revert hse
  cases selected.send <;> cases send <;> simp

theorem selectionPeer_none (hworld : world.Structured codec)
    (hp : world.selectionPeer resource send owner = none) {id : CaseId}
    (hr : world.lists.registered id = true)
    (hs : world.case? id = some selected)
    (hre : selected.resource = some resource) (ho : some id.1 ≠ owner) :
    selected.send = send := by
  obtain ⟨wait, hgood⟩ := hworld.lists
  rw [selectionPeer_eq hworld hgood] at hp
  have hmem : id ∈ wait resource :=
    (hgood.mem resource id).mpr ⟨hr, selected, hs, hre⟩
  have hopen : (world.selections id.1).done = false := by
    by_contra hd
    simp [hworld.withdrawn id.1 (by simpa using hd) id.2] at hr
  have hu := find?_eq_none.mp hp id hmem
  simpa [hs, ho, hopen] using hu

theorem mem_ready {index : Nat} : index ∈ world.ready id ↔ ∃ selected,
    world.case? (id, index) = some selected ∧ world.available id selected = true := by
  simp only [ready, mem_filter, mem_range, Option.any_eq_true]
  refine ⟨And.right, fun ha => ⟨?_, ha⟩⟩
  obtain ⟨selected, hs, -⟩ := ha
  exact (List.getElem?_eq_some_iff.mp hs).1

theorem available_resource (ha : world.available id selected = true) :
    ∃ resource, selected.resource = some resource := by
  cases hr : selected.resource with
  | none => simp [available, hr] at ha
  | some resource => exact ⟨resource, rfl⟩

end Peer

variable {event : Event Value}

section Updates

variable {id res : Nat} {fault : Fault}

@[simp] theorem setError_case? (other : CaseId) :
    (world.setError id fault).case? other = world.case? other := by
  by_cases hs : other.1 = id
  · subst hs
    simp [setError, case?]
  · simp [setError, case?, hs]

theorem setError_cases_done (other : Nat) :
    ((world.setError id fault).selections other).cases = (world.selections other).cases ∧
      ((world.setError id fault).selections other).done = (world.selections other).done := by
  by_cases hs : other = id
  · subst hs
    simp [setError]
  · simp [setError, hs]

theorem Structured.setError (hworld : world.Structured codec) :
    (world.setError id fault).Structured codec := by
  have hc : (world.setError id fault).case? = world.case? :=
    funext fun other => setError_case? other
  refine ⟨?_, fun other ho => ?_, fun other hd => ?_, ?_, hworld.storages,
    hworld.untouched, hworld.once, fun other ho => ?_⟩
  · rw [hc]
    exact hworld.lists
  · rw [(setError_cases_done other).1, (setError_cases_done other).2]
    exact hworld.unused other ho
  · rw [(setError_cases_done other).2] at hd
    exact hworld.withdrawn other hd
  · rw [hc]
    exact hworld.resources
  · rw [(setError_cases_done other).2]
    exact hworld.finished other ho

@[simp] theorem setStorage_contents (other : Nat) :
    (world.setStorage res stor).contents codec other =
      if other = res then stor.contents codec
      else world.contents codec other := by
  by_cases hs : other = res
  · subst hs
    simp [contents, setStorage]
  · simp [contents, setStorage, hs]

@[simp] theorem setStorage_closed (other : Nat) :
    ((world.setStorage res stor).waitables other).closed = (world.waitables other).closed := by
  by_cases hs : other = res
  · subst hs
    simp [setStorage]
  · simp [setStorage, hs]

theorem Structured.setStorage (hworld : world.Structured codec)
    (hkn : res < world.waitableCount) (hv : stor.Valid) :
    (world.setStorage res stor).Structured codec := by
  refine ⟨hworld.lists, hworld.unused, hworld.withdrawn, hworld.resources,
    fun other => ?_, fun other ho => ?_, hworld.once, hworld.finished⟩
  · by_cases hs : other = res
    · subst hs
      simpa [World.setStorage] using hv
    · simpa [World.setStorage, hs] using hworld.storages other
  · have ho : world.waitableCount ≤ other := ho
    rw [setStorage_contents, if_neg (by omega)]
    exact hworld.untouched other ho

/-- The events of tries complete no selection. -/
theorem Structured.record (hworld : world.Structured codec)
    (he : completedSelections [event] = []) :
    (world.record event).Structured codec := by
  have hh : completedSelections (world.record event).history =
      completedSelections world.history := by
    simp [World.record, completedSelections_append, he]
  exact ⟨hworld.lists, hworld.unused, hworld.withdrawn, hworld.resources,
    hworld.storages, hworld.untouched, hh ▸ hworld.once,
    hh ▸ hworld.finished⟩

end Updates

section Accounts

variable {first second : List (Event Value)}

theorem sentValues_append : sentValues (first ++ second) resource =
    sentValues first resource ++ sentValues second resource := by
  simp [sentValues]

theorem receivedValues_append : receivedValues (first ++ second) resource =
    receivedValues first resource ++ receivedValues second resource := by
  simp [receivedValues]

/-- The event commits a value to a waitable and takes none. -/
def Sends (event : Event Value) (target : Nat) (value : Value) : Prop :=
  ∀ resource, event.sent resource = (if resource = target then some value else none) ∧
    event.received resource = none

/-- The event takes a value from a waitable and commits none. -/
def Receives (event : Event Value) (target : Nat) (value : Value) : Prop :=
  ∀ resource, event.sent resource = none ∧
    event.received resource = if resource = target then some value else none

theorem sends_completed {value : Value} {target : Nat}
    (hs : selected.send = true) (hr : selected.resource = some target) :
    Sends (.completed id (some selected) value ok none) target selected.value := by
  intro resource
  cases ok <;> simp [sent, received, hs, hr, @eq_comm _ resource]

theorem receives_completed {value : Value}
    {error : Option Fault} {target : Nat} (hs : selected.send = false)
    (hr : selected.resource = some target) :
    Receives (.completed id (some selected) value true error) target value := by
  intro resource
  cases error <;> simp [sent, received, hs, hr, @eq_comm _ resource]

theorem sends_trySent (target : Nat) (value : Value) :
    Sends (.trySent target value) target value := by
  simp [Sends, sent, received, eq_comm]

theorem receives_tryReceived (target : Nat) (value : Value) :
    Receives (.tryReceived target value) target value := by
  simp [Receives, sent, received, eq_comm]

/-- A completion moves no value if it failed, or received without ok, or took
no case. -/
theorem values_idle (id resource : Nat) (selected : Option (SelectCase Value))
    (value : Value) (error : Option Fault)
    (hidle : ∀ chosen, selected = some chosen → chosen.send = false ∨ error.isSome = true) :
    sentValues [.completed id selected value false error] resource = [] ∧
      receivedValues [.completed id selected value false error] resource = [] := by
  cases selected with
  | none => cases error <;> exact ⟨rfl, rfl⟩
  | some chosen =>
    rcases hidle chosen rfl with hr | he
    · cases error <;> simp [sentValues, receivedValues, sent, received, hr]
    · cases error with
      | none => simp at he
      | some fault => exact ⟨rfl, rfl⟩

/-- The accounts stay balanced when what the events add to the sent and to the
received values is balanced by the buffers. -/
theorem Conserved.extend {after : World Value Raw} {events : List (Event Value)}
    (hc : world.Conserved codec)
    (hh : after.history = world.history ++ events)
    (hb : ∀ resource, world.contents codec resource ++ sentValues events resource =
        receivedValues events resource ++ after.contents codec resource) :
    after.Conserved codec := by
  intro resource
  rw [hh, sentValues_append, receivedValues_append, hc resource,
    append_assoc, hb resource, append_assoc]

section Balance

variable {tgt : Nat} {val : Value} {event other : Event Value}
  {stor : Storage Value Raw} (resource : Nat)

/-- A value goes into the buffer or comes out of it. -/
theorem balance_storage (hm : Sends event tgt val ∧
        stor.contents codec = world.contents codec tgt ++ [val] ∨
      Receives event tgt val ∧ world.contents codec tgt = val :: stor.contents codec) :
    world.contents codec resource ++ sentValues [event] resource =
      receivedValues [event] resource ++ (world.setStorage tgt stor).contents codec resource := by
  by_cases hs : resource = tgt
  · subst hs
    rcases hm with ⟨he, hc⟩ | ⟨he, hc⟩ <;>
      simp [sentValues, receivedValues, he resource, hc]
  · rcases hm with ⟨he, -⟩ | ⟨he, -⟩ <;>
      simp [sentValues, receivedValues, he resource, hs]

/-- A value passes an empty buffer. -/
theorem balance_meet (hem : world.contents codec tgt = [])
    (he : Sends event tgt val ∧ Receives other tgt val ∨
      Receives event tgt val ∧ Sends other tgt val) :
    world.contents codec resource ++ sentValues ([event] ++ [other]) resource =
      receivedValues ([event] ++ [other]) resource ++ world.contents codec resource := by
  rw [sentValues_append, receivedValues_append]
  by_cases hs : resource = tgt
  · subst hs
    rcases he with he | he <;>
      simp [sentValues, receivedValues, he.1 resource, he.2 resource, hem]
  · rcases he with he | he <;>
      simp [sentValues, receivedValues, he.1 resource, he.2 resource, hs]

end Balance

end Accounts

section Commit

theorem Drained.complete (hl : ∃ wait, world.lists.Good world.case? wait)
    (hd : world.Drained codec) :
    (world.complete id idx val ok).Drained codec := by
  intro other selected resource hr hs
  rw [complete_case?] at hs
  exact hd other selected resource ((complete_registered hl other).mp hr).1 hs

/-- A completed selection may have failed. -/
theorem ErrorFree.complete (he : ∀ other ≠ id, (world.selections other).done = false →
      (world.selections other).error = none) :
    (world.complete id idx val ok).ErrorFree := by
  intro other hopen
  by_cases hs : other = id
  · rw [hs, complete_done_self] at hopen
    cases hopen
  · rw [complete_selections_of_ne hs] at hopen ⊢
    exact he other hs hopen

variable {res : Nat}

theorem Invariant.setStorage_same (hworld : world.Invariant codec) (hkn : res < world.waitableCount)
    (hv : stor.Valid)
    (hs : stor.contents codec = world.contents codec res) :
    (world.setStorage res stor).Invariant codec := by
  have hc : (world.setStorage res stor).contents codec = world.contents codec := by
    funext other
    rw [setStorage_contents]
    split
    · next heq => rw [heq, hs]
    · rfl
  refine ⟨hworld.structured.setStorage hkn hv, ?_, ?_, hworld.errorFree⟩
  · intro other selected target hr hsel hse ht hcl
    rw [setStorage_closed] at hcl
    rw [hc]
    exact hworld.drained other selected target hr hsel hse ht hcl
  · intro target
    rw [hc]
    exact hworld.conserved target

/-- Completing a selection without moving a value. -/
theorem Invariant.complete_idle (hworld : world.Invariant codec) (hkn : id < world.selectionCount)
    (hopen : (world.selections id).done = false)
    (hidle : ∀ chosen, (idx.bind fun idx => world.case? (id, idx)) =
      some chosen → chosen.send = false) :
    (world.complete id idx val false).Invariant codec := by
  refine ⟨hworld.structured.complete hkn hopen, hworld.drained.complete hworld.structured.lists,
    hworld.conserved.extend complete_history fun res => ?_,
    ErrorFree.complete fun other _ => hworld.errorFree other⟩
  obtain ⟨hs, hr⟩ := values_idle id res _ val
    (world.selections id).error fun chosen hch => .inl (hidle chosen hch)
  rw [hs, hr]
  simp

/-- Completing a selection with an error. -/
theorem Invariant.complete_error {fault : Fault} (hworld : world.Invariant codec)
    (hkn : id < world.selectionCount)
    (hopen : (world.selections id).done = false) :
    ((world.setError id fault).complete id idx val false).Invariant codec := by
  have hs : (world.setError id fault).Structured codec :=
    hworld.structured.setError
  have hd : (world.setError id fault).Drained codec := by
    intro other selected
    rw [setError_case?]
    exact hworld.drained other selected
  have hc : (world.setError id fault).Conserved codec := hworld.conserved
  refine ⟨hs.complete hkn ?_, hd.complete hs.lists, hc.extend complete_history fun res => ?_,
    ErrorFree.complete fun other hne => ?_⟩
  · rw [(setError_cases_done id).2]
    exact hopen
  · have he : ((world.setError id fault).selections id).error = some fault := by
      simp [setError]
    rw [he]
    obtain ⟨hse, hr⟩ := values_idle id res
      (idx.bind fun idx => (world.setError id fault).case? (id, idx)) val
      (some fault) fun chosen hch => .inr rfl
    rw [hse, hr]
    simp
  · have ho : (world.setError id fault).selections other = world.selections other := by
      simp [setError, hne]
    rw [ho]
    exact hworld.errorFree other

/-- The buffer of one waitable is replaced. -/
theorem Drained.stored {after : World Value Raw} (hd : world.Drained codec)
    (hca : ∀ other, after.case? other = world.case? other)
    (hr : ∀ other, after.lists.registered other = true → world.lists.registered other = true)
    (hw : after.waitables = (world.setStorage res stor).waitables)
    (he : ∀ other selected, after.lists.registered other = true →
      world.case? other = some selected → selected.send = false →
      selected.resource = some res →
      (world.waitables res).closed = false → stor.contents codec = []) :
    after.Drained codec := by
  intro other selected target ho hse hs ht hc
  have hco : after.contents codec target = (world.setStorage res stor).contents codec target := by
    rw [contents, hw, contents]
  rw [hca] at hse
  rw [hw, setStorage_closed] at hc
  rw [hco, setStorage_contents]
  split
  · next heq =>
    subst heq
    exact he other selected ho hse hs ht hc
  · exact hd other selected target (hr other ho) hse hs ht hc

/-- Completing a selection that changed a buffer. -/
theorem Invariant.complete_stored (hworld : world.Invariant codec) (hkn : id < world.selectionCount)
    (hopen : (world.selections id).done = false)
    (hw : res < world.waitableCount) (hv : stor.Valid)
    (hem : ∀ other selected, world.lists.registered other = true →
      other.1 ≠ id → world.case? other = some selected → selected.send = false →
      selected.resource = some res →
      (world.waitables res).closed = false → stor.contents codec = [])
    (hb : ∀ target, let events : List (Event Value) := [.completed id
        (idx.bind fun idx => world.case? (id, idx)) val ok none]
      world.contents codec target ++ sentValues events target = receivedValues events target ++
          (world.setStorage res stor).contents codec target) :
    ((world.setStorage res stor).complete id idx val ok).Invariant
      codec := by
  have hs : (world.setStorage res stor).Structured codec :=
    hworld.structured.setStorage hw hv
  have hr : ∀ other, ((world.setStorage res stor).complete id
      idx val ok).lists.registered other = true ↔
        world.lists.registered other = true ∧ other.1 ≠ id :=
    complete_registered hs.lists
  refine ⟨hs.complete hkn hopen, ?_, hworld.conserved.extend ?_ hb,
    ErrorFree.complete fun other _ => hworld.errorFree other⟩
  · refine hworld.drained.stored (fun other => ?_) (fun other ho => ((hr other).mp ho).1) rfl
      fun other selected ho => ?_
    · rw [complete_case?]
      rfl
    · exact hem other selected ((hr other).mp ho).1 ((hr other).mp ho).2
  · rw [complete_history]
    have he : ((world.setStorage res stor).selections id).error =
        none := hworld.errorFree id hopen
    rw [he]
    rfl

/-- Two selections meet: the values they send are those they receive, on
waitables whose buffer is empty. -/
theorem Invariant.rendezvous (first second : CaseId) {received sent : Value}
    {firstOk secondOk : Bool} (hworld : world.Invariant codec)
    (hfs : first.1 < world.selectionCount)
    (hsn : second.1 < world.selectionCount)
    (hf : (world.selections first.1).done = false)
    (hs : (world.selections second.1).done = false)
    (hne : second.1 ≠ first.1)
    (hb : ∀ res, let events : List (Event Value) :=
        [.completed first.1 (world.case? first) received firstOk none] ++
          [.completed second.1 (world.case? second) sent secondOk none]
      world.contents codec res ++ sentValues events res =
        receivedValues events res ++ world.contents codec res) :
    ((world.complete first.1 (some first.2) received firstOk).complete second.1
      (some second.2) sent secondOk).Invariant codec := by
  have hk : (world.complete first.1 (some first.2) received
      firstOk).selections second.1 = world.selections second.1 :=
    complete_selections_of_ne hne
  have hst : (world.complete first.1 (some first.2) received
      firstOk).Structured codec := hworld.structured.complete hfs hf
  have hd : (world.complete first.1 (some first.2) received
      firstOk).Drained codec := hworld.drained.complete hworld.structured.lists
  refine ⟨hst.complete hsn (hk ▸ hs), hd.complete hst.lists,
    hworld.conserved.extend ?_ hb, ErrorFree.complete fun other _ => ?_⟩
  · rw [complete_history, complete_history, append_assoc, hk,
      hworld.errorFree _ hf, hworld.errorFree _ hs]
    simp
  · exact ErrorFree.complete (fun other _ => hworld.errorFree other) other

/-- A selection meets a try. -/
theorem Invariant.complete_record {peer : CaseId} (hworld : world.Invariant codec)
    (hkn : peer.1 < world.selectionCount)
    (hopen : (world.selections peer.1).done = false)
    (he : completedSelections [event] = [])
    (hb : ∀ res, let events : List (Event Value) :=
        [.completed peer.1 (world.case? peer) val ok none] ++ [event]
      world.contents codec res ++ sentValues events res =
        receivedValues events res ++ world.contents codec res) :
    ((world.complete peer.1 (some peer.2) val ok).record event).Invariant
      codec := by
  refine ⟨(hworld.structured.complete hkn hopen).record he,
    Drained.complete hworld.structured.lists hworld.drained,
    hworld.conserved.extend ?_ hb,
    ErrorFree.complete fun other _ => hworld.errorFree other⟩
  rw [record, complete_history, append_assoc, hworld.errorFree _ hopen]
  rfl

/-- A try changes a buffer. -/
theorem Invariant.store_record (hworld : world.Invariant codec)
    (hw : res < world.waitableCount) (hv : stor.Valid)
    (he : completedSelections [event] = [])
    (hem : ∀ other selected, world.lists.registered other = true →
      world.case? other = some selected → selected.send = false →
      selected.resource = some res →
      (world.waitables res).closed = false → stor.contents codec = [])
    (hb : ∀ target, world.contents codec target ++ sentValues [event] target =
        receivedValues [event] target ++ (world.setStorage res stor).contents codec target) :
    ((world.setStorage res stor).record event).Invariant codec :=
  ⟨(hworld.structured.setStorage hw hv).record he,
    hworld.drained.stored (fun _ => rfl) (fun _ => id) rfl hem,
    hworld.conserved.extend rfl hb, hworld.errorFree⟩

end Commit

section TryCommit

variable [Inhabited Value] {id idx res : Nat} {sel : SelectCase Value}

/-- `commitSend` keeps the invariant. -/
theorem Invariant.commitSend (hworld : world.Invariant codec)
    (hopen : (world.selections id).done = false)
    (hs : world.case? (id, idx) = some sel)
    (hse : sel.send = true)
    (hr : sel.resource = some res) :
    (world.commitSend codec faults id idx res sel).Invariant codec := by
  have hkn : id < world.selectionCount :=
    hworld.structured.lt_selectionCount hs
  have hw : res < world.waitableCount :=
    hworld.structured.resources _ _ _ hs hr
  unfold World.commitSend
  dsimp only
  split
  · exact hworld.complete_error hkn hopen
  · next hcl =>
    split
    · next peer hp =>
      obtain ⟨ho, hpeerOpen, hre, peerCase, hpe,
        hpeer, hpee⟩ := selectionPeer_some hworld.structured hp
      have he : world.contents codec res = [] :=
        hworld.drained peer peerCase res hre hpe hpee hpeer (by simpa using hcl)
      refine hworld.rendezvous peer (id, idx)
        (hworld.structured.lt_selectionCount hpe) hkn hpeerOpen hopen
        (fun heq => ho (by rw [← heq])) fun target => ?_
      rw [hpe, hs]
      exact balance_meet target he (.inr ⟨receives_completed hpee hpeer, sends_completed hse hr⟩)
    · next hp =>
      cases ha : (world.waitables res).storage.appendBuffer codec faults sel.value with
      | mk result storage =>
        obtain ⟨hv, ⟨rfl, hc⟩ | ⟨⟨fault, rfl⟩, hc⟩⟩ :=
          Storage.appendBuffer_contents codec (hworld.structured.storages res) ha
        · refine hworld.complete_stored hkn hopen hw hv ?_ fun target => ?_
          · intro other case' hre ho hca hrc ht
            have hsa := selectionPeer_none hworld.structured hp hre hca ht (by simpa using ho)
            simp [hrc] at hsa
          · rw [bind_some, hs]
            exact balance_storage target (.inl ⟨sends_completed hse hr, hc⟩)
        · exact (hworld.setStorage_same hw hv hc).complete_error hkn hopen

/-- `commitReceive` keeps the invariant. -/
theorem Invariant.commitReceive (hworld : world.Invariant codec)
    (hopen : (world.selections id).done = false)
    (hs : world.case? (id, idx) = some sel)
    (hse : sel.send = false)
    (hr : sel.resource = some res) :
    (world.commitReceive codec faults id idx res sel).Invariant
      codec := by
  have hkn : id < world.selectionCount :=
    hworld.structured.lt_selectionCount hs
  have hw : res < world.waitableCount :=
    hworld.structured.resources _ _ _ hs hr
  have hidle : ∀ chosen, ((some idx).bind fun idx =>
      world.case? (id, idx)) = some chosen → chosen.send = false := by
    intro chosen hch
    simp only [bind_some, hs, some.injEq] at hch
    exact hch ▸ hse
  unfold World.commitReceive
  dsimp only
  split
  · cases hpo : (world.waitables res).storage.popBuffer codec faults with
    | mk result storage =>
      obtain ⟨hv, ⟨value, rfl, hc⟩ | ⟨⟨fault, rfl⟩, hc⟩⟩ :=
        Storage.popBuffer_contents codec (hworld.structured.storages res) hpo
      · refine hworld.complete_stored hkn hopen hw hv ?_ fun target => ?_
        · -- No receiver waits while there is something to receive.
          intro other case' hre ho hca hrc ht hcl
          have he := hworld.drained other case' res hre hca hrc ht hcl
          rw [contents, hc] at he
          cases he
        · rw [bind_some, hs]
          exact balance_storage target (.inr ⟨receives_completed hse hr, hc⟩)
      · exact (hworld.setStorage_same hw hv hc).complete_error hkn hopen
  · next hlen =>
    have he : world.contents codec res = [] := by
      rw [Storage.bufferLen_eq codec] at hlen
      simpa [contents] using hlen
    split
    · next peer hp hcl =>
      obtain ⟨ho, hpee, hre, peerCase, hpe,
        hpeer, hpeerSend⟩ := selectionPeer_some hworld.structured hp
      refine hworld.rendezvous peer (id, idx)
        (hworld.structured.lt_selectionCount hpe) hkn hpee hopen
        (fun heq => ho (by rw [← heq])) fun target => ?_
      rw [hpe, hs]
      exact balance_meet target he (.inl ⟨sends_completed hpeerSend hpeer,
        receives_completed hse hr⟩)
    · exact hworld.complete_idle hkn hopen hidle

/-- What `tryCommit` can do. -/
theorem tryCommit_cases (codec : Codec Value Raw) (world : World Value Raw)
    (faults : BufferFaults) (pick id : Nat) :
    ((world.selections id).done = true ∧ world.tryCommit codec faults pick id = (world, true)) ∨
      ((world.selections id).done = false ∧ world.ready id = [] ∧
        world.tryCommit codec faults pick id = (world, false)) ∨
      ((world.selections id).done = false ∧ ∃ idx sel res, world.case? (id, idx) = some sel ∧
        sel.resource = some res ∧
        world.tryCommit codec faults pick id = (if sel.send then
            world.commitSend codec faults id idx res sel
          else world.commitReceive codec faults id idx res sel, true)) := by
  unfold tryCommit
  by_cases hd : (world.selections id).done = true
  · exact .inl ⟨hd, if_pos hd⟩
  · have hopen : (world.selections id).done = false := by simpa using hd
    rw [if_neg hd]
    refine .inr ?_
    cases hl : world.ready id with
    | nil => exact .inl ⟨hopen, rfl, by simp [chooseReadyIndex]⟩
    | cons first rest =>
      have hbd : pick % (first :: rest).length < (first :: rest).length :=
        Nat.mod_lt _ (by simp)
      have hmem : (first :: rest)[pick % (first :: rest).length] ∈ world.ready id := by
        rw [hl]
        exact getElem_mem hbd
      obtain ⟨sel, hs, ha⟩ := mem_ready.mp hmem
      obtain ⟨res, hr⟩ := available_resource ha
      refine .inr ⟨hopen, _, sel, res, hs, hr, ?_⟩
      rw [chooseReadyIndex, getElem?_eq_getElem hbd, bind_some, hs, bind_some, hr]
      rfl

theorem Invariant.tryCommit (hworld : world.Invariant codec)
    (faults : BufferFaults) (pick id : Nat) :
    (world.tryCommit codec faults pick id).1.Invariant codec := by
  rcases tryCommit_cases codec world faults pick id with ⟨-, heq⟩ | ⟨-, -, heq⟩ |
    ⟨hopen, idx, sel, res, hse, hr, heq⟩
  · rw [heq]
    exact hworld
  · rw [heq]
    exact hworld
  · rw [heq]
    cases hs : sel.send with
    | true => exact hworld.commitSend hopen hse hs hr
    | false => exact hworld.commitReceive hopen hse hs hr

end TryCommit

section Register

theorem register_lists (hl : ∃ wait, world.lists.Good world.case? wait)
    (hf : ∀ index, world.lists.registered (id, index) = false) :
    (∃ wait, (world.register id).lists.Good world.case? wait) ∧
      ∀ other, (world.register id).lists.registered other = true →
        world.lists.registered other = true ∨ other.1 = id := by
  obtain ⟨wait, hgood⟩ := hl
  obtain ⟨hr, hre⟩ := hgood.register_all (world.selections id).cases.zipIdx mem_zipIdx_case
    (by rw [zipIdx_map_snd]; exact nodup_range')
    (fun entry _ => hf entry.2)
  refine ⟨hr, fun other ho => ?_⟩
  exact (hre other ho).imp_right And.left

theorem Structured.free (hworld : world.Structured codec) (index : Nat) :
    world.lists.registered (world.selectionCount, index) = false := by
  by_contra hr
  obtain ⟨wait, hgood⟩ := hworld.lists
  obtain ⟨selected, resource, hs, -⟩ :=
    hgood.registered (world.selectionCount, index) (by simpa using hr)
  exact absurd (hworld.lt_selectionCount hs) (Nat.lt_irrefl _)

/-- Registering a selection none of whose cases could commit. -/
theorem Invariant.register (hworld : world.Invariant codec)
    (hopen : (world.selections id).done = false)
    (hf : ∀ index, world.lists.registered (id, index) = false)
    (hr : world.ready id = []) :
    (world.register id).Invariant codec := by
  obtain ⟨hl, hre⟩ := register_lists hworld.structured.lists hf
  refine { hworld with
    structured := { hworld.structured with lists := hl, withdrawn := ?_ }
    drained := ?_ }
  · intro other hd index
    by_contra hw
    rcases hre (other, index) (by simpa using hw) with hold | hs
    · simp [hworld.structured.withdrawn other hd index] at hold
    · have hs : other = id := hs
      rw [hs] at hd
      exact absurd (hd.symm.trans hopen) (by simp)
  · intro other selected resource ho hsel hse hres hc
    rcases hre other ho with hold | hs
    · exact hworld.drained other selected resource hold hsel hse hres hc
    · -- A receive case that could not commit found an empty buffer.
      have hun : other.2 ∉ world.ready id := by simp [hr]
      have hu : world.available id selected = false := by
        by_contra ha
        exact hun (mem_ready.mpr ⟨selected, hs ▸ hsel, by simpa using ha⟩)
      have hc : (world.waitables resource).closed = false := hc
      have hlen : (world.waitables resource).storage.bufferLen = 0 := by
        simp only [available, hres, hc, hse] at hu
        simp at hu
        exact hu.1
      rw [Storage.bufferLen_eq codec] at hlen
      exact eq_nil_of_length_eq_zero hlen

/-- Closing a waitable keeps its buffer. -/
theorem Invariant.close (hworld : world.Invariant codec) (resource : Nat) :
    Invariant codec { world with
      waitables := Function.update world.waitables resource { world.waitables resource with
          closed := true
          storage := (world.waitables resource).storage.setClosed } } := by
  have hw : ∀ other, ((Function.update world.waitables resource
        { world.waitables resource with
          closed := true
          storage := (world.waitables resource).storage.setClosed })
        other).storage.contents codec = world.contents codec other := by
    intro other
    by_cases hs : other = resource
    · subst hs
      simp [contents, Storage.setClosed_contents]
    · simp [contents, hs]
  refine { hworld with
    structured := { hworld.structured with
      storages := fun other => ?_, untouched := fun other ho => ?_ }
    drained := ?_, conserved := fun target => ?_ }
  · by_cases hs : other = resource
    · subst hs
      simpa using Storage.setClosed_valid (hworld.structured.storages other)
    · simpa [hs] using hworld.structured.storages other
  · exact (hw other).trans (hworld.structured.untouched other ho)
  · intro other selected target hr hsel hse ht hc
    have hopen : (world.waitables target).closed = false := by
      by_cases hs : target = resource
      · subst hs
        simp at hc
      · simpa [hs] using hc
    exact (hw target).trans (hworld.drained other selected target hr hsel hse ht hopen)
  · exact (hworld.conserved target).trans (congrArg _ (hw target).symm)

theorem Invariant.makeWaitable (hworld : world.Invariant codec) (cap : Nat) (managed : Bool) :
    (world.makeWaitable codec cap managed).Invariant codec := by
  have hw : ∀ other, (world.makeWaitable codec cap managed).contents codec other =
        world.contents codec other := by
    intro other
    by_cases hs : other = world.waitableCount
    · subst hs
      rw [hworld.structured.untouched _ (Nat.le_refl _)]
      cases managed <;> simp [contents, World.makeWaitable, Storage.contents, Ring.contents]
    · simp [contents, World.makeWaitable, hs]
  refine ⟨⟨hworld.structured.lists, hworld.structured.unused, hworld.structured.withdrawn,
    fun id selected resource hse hr => Nat.lt_succ_of_lt
      (hworld.structured.resources id selected resource hse hr),
    fun other => ?_, fun other ho => ?_, hworld.structured.once,
    hworld.structured.finished⟩, ?_, fun target => ?_, hworld.errorFree⟩
  · by_cases hs : other = world.waitableCount
    · subst hs
      cases managed <;> simp [World.makeWaitable, Storage.Valid]
    · simpa [World.makeWaitable, hs] using hworld.structured.storages other
  · exact (hw other).trans (hworld.structured.untouched other (Nat.le_of_succ_le ho))
  · intro other selected target hre hse hsen ht hc
    have hne : target ≠ world.waitableCount := Nat.ne_of_lt
      (hworld.structured.resources other selected target hse ht)
    exact (hw target).trans (hworld.drained other selected target hre hse hsen ht
        (by simpa [World.makeWaitable, hne] using hc))
  · exact (hworld.conserved target).trans (congrArg _ (hw target).symm)

theorem Invariant.unregister (hworld : world.Invariant codec) :
    (world.unregister id).Invariant codec := by
  obtain ⟨hl, hr⟩ := unregister_lists id hworld.structured.lists
  refine { hworld with
    structured := { hworld.structured with lists := hl, withdrawn := ?_ }
    drained := ?_ }
  · intro other hd index
    by_contra hw
    have hold := ((hr (other, index)).mp (by simpa using hw)).1
    simp [hworld.structured.withdrawn other hd index] at hold
  · intro other selected resource ho
    exact hworld.drained other selected resource ((hr other).mp ho).1

end Register

section Data

variable {mods : ChannelModule Channel Value}

theorem waitableValueData_lt {chan : Channel}
    (hd : world.waitableValueData mods chan = .ok (some resource)) :
    resource < world.waitableCount := by
  unfold waitableValueData at hd
  cases hm : mods.waitableValueData chan with
  | error fault => simp [hm, bind, Except.bind] at hd
  | ok found =>
    cases found with
    | none => simp [hm, bind, Except.bind, pure, Except.pure] at hd
    | some target =>
      by_cases hkn : target < world.waitableCount
      · simp only [hm, bind, Except.bind, if_pos hkn, pure,
          Except.pure, Except.ok.injEq, some.injEq] at hd
        exact hd ▸ hkn
      · simp [hm, bind, Except.bind, hkn, throw, throwThe, MonadExceptOf.throw] at hd

theorem prepareCase_resource [Inhabited Value]
    {opd : SelectOperand Channel Value} (hp : world.prepareCase mods opd = .ok selected) :
    world.waitableValueData mods opd.channel = .ok selected.resource := by
  unfold prepareCase at hp
  obtain ⟨data, hd, hp⟩ := Result.bind_eq_ok.mp hp
  rw [hd]
  split at hp
  · dsimp only at hp
    split at hp
    · cases hp
    · split at hp
      · obtain ⟨value, -, hp⟩ := Result.bind_eq_ok.mp hp
        cases hp
        rfl
      · cases hp
        rfl
  · split at hp
    · cases hp
    · cases hp
      rfl

end Data

section Step

variable [Inhabited Value] {modules : ChannelModule Channel Value} {cases : List (SelectCase Value)}

theorem addSelection_selections_of_ne (hne : id ≠ world.selectionCount) :
    (world.addSelection cases).selections id = world.selections id := by
  simp [addSelection, hne]

theorem addSelection_self :
    (world.addSelection cases).selections world.selectionCount = { cases, value := default } := by
  simp [addSelection]

section

variable (hworld : world.Invariant codec)
include hworld

/-- The cases of the new selection name waitables that exist. -/
theorem Invariant.addSelection (hca : ∀ selected ∈ cases, ∀ resource,
      selected.resource = some resource → resource < world.waitableCount) :
    (world.addSelection cases).Invariant codec := by
  have hf := hworld.structured.free
  have hold : ∀ id : CaseId, world.lists.registered id = true → id.1 ≠ world.selectionCount := by
    intro id hr hs
    have := hf id.2
    rw [← hs] at this
    simp [this] at hr
  have hc : ∀ id : CaseId, id.1 ≠ world.selectionCount →
      (world.addSelection cases).case? id = world.case? id := by
    intro id hne
    rw [case?, addSelection_selections_of_ne hne, case?]
  refine ⟨⟨?_, ?_, ?_, ?_, hworld.structured.storages,
    hworld.structured.untouched, hworld.structured.once, ?_⟩, ?_,
    hworld.conserved, ?_⟩
  · obtain ⟨wait, hgood⟩ := hworld.structured.lists
    exact ⟨wait, hgood.congr fun id hr => hc id (hold id hr)⟩
  · intro id hid
    have hid : world.selectionCount + 1 ≤ id := hid
    rw [addSelection_selections_of_ne (by omega)]
    exact hworld.structured.unused id (by omega)
  · intro id hd index
    by_cases hs : id = world.selectionCount
    · exact hs ▸ hf index
    · rw [addSelection_selections_of_ne hs] at hd
      exact hworld.structured.withdrawn id hd index
  · intro id selected resource hse hre
    by_cases hs : id.1 = world.selectionCount
    · rw [case?, hs, addSelection_self] at hse
      exact hca selected (mem_of_getElem? hse) resource hre
    · rw [hc id hs] at hse
      exact hworld.structured.resources id selected resource hse hre
  · intro id hid
    have hd := hworld.structured.finished id hid
    have hne : id ≠ world.selectionCount := by
      rintro rfl
      simp [(hworld.structured.unused _ (Nat.le_refl _)).2] at hd
    rw [addSelection_selections_of_ne hne]
    exact hd
  · intro id selected resource hr hse
    rw [hc id (hold id hr)] at hse
    exact hworld.drained id selected resource hr hse
  · intro id hopen
    by_cases hs : id = world.selectionCount
    · rw [hs, addSelection_self]
    · rw [addSelection_selections_of_ne hs] at hopen ⊢
      exact hworld.errorFree id hopen

theorem Invariant.select (hca : ∀ selected ∈ cases, ∀ resource,
      selected.resource = some resource → resource < world.waitableCount) (otherwise : Otherwise)
    (pick : Nat) :
    (world.select codec faults otherwise pick cases).Invariant codec := by
  have ha := hworld.addSelection hca
  have hf : ∀ index, (world.addSelection cases).lists.registered
      (world.selectionCount, index) = false := hworld.structured.free
  unfold World.select
  dsimp only
  rcases tryCommit_cases codec (world.addSelection cases) faults pick
    world.selectionCount with ⟨-, heq⟩ | ⟨hopen, hr, heq⟩ |
    ⟨-, index, selected, resource, -, -, heq⟩
  · rw [heq]
    exact ha
  · rw [heq]
    cases otherwise with
    | block => exact ha.register hopen hf hr
    | complete =>
      exact ha.complete_idle (Nat.lt_succ_self _) hopen (by simp)
    | drop => exact ha
  · have hc := ha.tryCommit faults pick world.selectionCount
    rw [heq] at hc ⊢
    exact hc

omit [Inhabited Value] in
theorem Invariant.trySendNormalized (hw : resource < world.waitableCount)
    (hcl : (world.waitables resource).closed = false) (normalized : Value) :
    (world.trySendNormalized codec faults resource normalized).1.Invariant
      codec := by
  unfold World.trySendNormalized
  dsimp only
  split
  · next peer hp =>
    obtain ⟨-, hopen, hr, peerCase, hpe, hpeer, hpee⟩ := selectionPeer_some hworld.structured hp
    have he : world.contents codec resource = [] :=
      hworld.drained peer peerCase resource hr hpe hpee hpeer hcl
    refine hworld.complete_record
      (hworld.structured.lt_selectionCount hpe) hopen rfl fun target => ?_
    rw [hpe]
    exact balance_meet target he (.inr ⟨receives_completed hpee hpeer,
      sends_trySent resource normalized⟩)
  · next hp =>
    split
    · exact hworld
    · cases ha : (world.waitables resource).storage.appendBuffer codec faults normalized with
      | mk result storage =>
        obtain ⟨hv, ⟨rfl, hc⟩ | ⟨⟨fault, rfl⟩, hc⟩⟩ :=
          Storage.appendBuffer_contents codec (hworld.structured.storages resource) ha
        · refine hworld.store_record hw hv rfl ?_ fun target => ?_
          · intro other selected hr hse hrc ht
            have hs := selectionPeer_none hworld.structured hp hr hse ht (by simp)
            simp [hrc] at hs
          · exact balance_storage target (.inl ⟨sends_trySent resource normalized, hc⟩)
        · exact hworld.setStorage_same hw hv hc

omit [Inhabited Value] in
theorem Invariant.waitableTrySendValue (chan : Channel) (value : Value) :
    (world.waitableTrySendValue modules codec faults chan value).1.Invariant
      codec := by
  unfold World.waitableTrySendValue
  split
  · exact hworld
  · next data hd =>
    split
    · exact hworld
    · cases data with
      | none => exact hworld
      | some resource =>
        dsimp only
        split
        · exact hworld
        · next hc =>
          split
          · exact hworld
          · exact hworld.trySendNormalized (waitableValueData_lt hd) (by simpa using hc) _

theorem Invariant.tryReceive (hw : resource < world.waitableCount) (zero : Value) :
    (world.tryReceive codec faults resource zero).1.Invariant codec := by
  unfold World.tryReceive
  dsimp only
  split
  · next hlen =>
    have he : world.contents codec resource = [] := by
      rw [Storage.bufferLen_eq codec] at hlen
      exact eq_nil_of_length_eq_zero hlen
    split
    · next peer hp hcl =>
      obtain ⟨-, hopen, hr, peerCase, hpe, hpeer, hpee⟩ := selectionPeer_some hworld.structured hp
      refine hworld.complete_record (hworld.structured.lt_selectionCount hpe) hopen rfl
        fun target => ?_
      rw [hpe]
      exact balance_meet target he (.inl ⟨sends_completed hpee hpeer,
        receives_tryReceived resource _⟩)
    · exact hworld
  · cases hpo : (world.waitables resource).storage.popBuffer codec faults with
    | mk result storage =>
      obtain ⟨hv, ⟨value, rfl, hc⟩ | ⟨⟨fault, rfl⟩, hc⟩⟩ :=
        Storage.popBuffer_contents codec (hworld.structured.storages resource) hpo
      · refine hworld.store_record hw hv rfl ?_ fun target => ?_
        · intro other selected hr hs hrc ht hcl
          have he := hworld.drained other selected resource hr hs hrc ht hcl
          rw [contents, hc] at he
          cases he
        · exact balance_storage target (.inr ⟨receives_tryReceived resource value, hc⟩)
      · exact hworld.setStorage_same hw hv hc

theorem Invariant.waitableTryRecvValue (chan : Channel) :
    (world.waitableTryRecvValue modules codec faults chan).1.Invariant
      codec := by
  unfold World.waitableTryRecvValue
  split
  · exact hworld
  · next data hd =>
    split
    · exact hworld
    · cases data with
      | none => exact hworld
      | some resource => exact hworld.tryReceive (waitableValueData_lt hd) _

omit [Inhabited Value] in
theorem Invariant.waitableCloseValue (chan : Channel) :
    (world.waitableCloseValue modules faults chan).1.Invariant codec := by
  unfold World.waitableCloseValue
  split
  · exact hworld
  · next data hd =>
    split
    · exact hworld
    · cases data with
      | none => exact hworld
      | some resource =>
        dsimp only
        split
        · exact hworld
        · split
          · exact hworld
          · exact hworld.close resource

end

/-- Every transaction keeps the invariant. -/
theorem Invariant.step (hworld : world.Invariant codec) (transaction : Transaction Channel Value) :
    (world.step modules codec transaction).Invariant codec := by
  cases transaction with
  | make cap managed => exact hworld.makeWaitable cap managed
  | select opds charged otherwise pick faults =>
    unfold World.step
    dsimp only
    cases hp : world.prepareChannelSelection modules charged opds with
    | error fault => exact hworld
    | ok cases =>
      refine hworld.select (fun selected hs resource hr => ?_) otherwise pick
      obtain ⟨-, -, hc⟩ := Result.bind_eq_ok.mp hp
      obtain ⟨opd, -, ho⟩ := Result.mem_of_mapM_eq_ok hc selected hs
      exact waitableValueData_lt ((prepareCase_resource ho).trans (congrArg Except.ok hr))
  | retry selection pick faults => exact hworld.tryCommit faults pick selection
  | cancel selection => exact hworld.unregister
  | trySend chan value faults =>
    exact hworld.waitableTrySendValue chan value
  | tryReceive chan faults => exact hworld.waitableTryRecvValue chan
  | close chan faults => exact hworld.waitableCloseValue chan

theorem Invariant.run (hworld : world.Invariant codec)
    (transactions : List (Transaction Channel Value)) :
    (world.run modules codec transactions).Invariant codec := by
  induction transactions generalizing world with
  | nil => exact hworld
  | cons transaction rest ih => exact ih (hworld.step transaction)

theorem initial_invariant : (World.initial : World Value Raw).Invariant codec := by
  refine ⟨⟨⟨fun _ => [], fun _ => Represents.empty _, ?_, ?_, fun _ _ => rfl⟩,
    fun _ _ => ⟨rfl, rfl⟩, fun _ _ _ => rfl, ?_, fun _ => ?_, fun _ _ => rfl,
    nodup_nil, ?_⟩, ?_, fun _ => rfl, fun _ _ => rfl⟩
  all_goals simp [World.initial, Drained, case?, Storage.Valid, completedSelections]

omit [Inhabited Value] in
theorem Reported.mem_completedSelections {world : World Value Raw} (hreported : world.Reported)
    {id : Nat} (hdone : (world.selections id).done = true) :
    id ∈ completedSelections world.history :=
  mem_filterMap.mpr ⟨_, hreported id hdone, rfl⟩

/-- After any transactions, the values that a waitable delivered are the first
of those committed to it and the rest is in its buffer; every selection completed
at most once; the wait lists hold no case of a completed selection; and no
selection finds a peer in itself. What callers are told agrees with it: a selection is done
exactly if it completed, and delivers what it completed with; an attempt to commit answers
whether the selection is done; and a try succeeds exactly if it is recorded. -/
theorem run_conserves (modules : ChannelModule Channel Value)
    (codec : Codec Value Raw) (transactions : List (Transaction Channel Value)) :
    let world := World.initial.run modules codec transactions
    (∀ resource, sentValues world.history resource =
      receivedValues world.history resource ++ world.contents codec resource) ∧
    (completedSelections world.history).Nodup ∧
    (∃ wait : Nat → List CaseId,
      (∀ resource, Represents world.lists.links (world.lists.ends resource) (wait resource)) ∧
      ∀ id ∈ completedSelections world.history, ∀ index,
        world.lists.registered (id, index) = false ∧ ∀ resource, (id, index) ∉ wait resource) ∧
    (∀ id resource send peer,
      world.selectionPeer resource send (some id) = some peer → peer.1 ≠ id) ∧
    (∀ id, (world.selections id).done = true ↔ id ∈ completedSelections world.history) ∧
    world.Reported ∧
    (∀ faults pick id, (world.tryCommit codec faults pick id).2 =
      ((world.tryCommit codec faults pick id).1.selections id).done) ∧
    (∀ faults channel value, world.TrySendAnswers modules channel value
      (world.waitableTrySendValue modules codec faults channel value)) ∧
    ∀ faults channel, world.TryReceiveAnswers modules channel
      (world.waitableTryRecvValue modules codec faults channel) := by
  intro world
  have hworld : world.Invariant codec := initial_invariant.run transactions
  have hreported : world.Reported := initial_reported.run transactions
  refine ⟨hworld.conserved, hworld.structured.once, ?_, ?_, ?_, hreported,
    world.tryCommit_answer, world.waitableTrySendValue_answers,
    world.waitableTryRecvValue_answers⟩
  · obtain ⟨wait, hgood⟩ := hworld.structured.lists
    refine ⟨wait, hgood.represents, fun id hid index => ?_⟩
    have hwithdrawn := hworld.structured.withdrawn id (hworld.structured.finished id hid) index
    refine ⟨hwithdrawn, fun resource hmem => ?_⟩
    have hregistered := ((hgood.mem resource (id, index)).mp hmem).1
    exact absurd (hregistered.symm.trans hwithdrawn) (by simp)
  · intro id resource send peer hpeer hsame
    exact (selectionPeer_some hworld.structured hpeer).1 (congrArg some hsame)
  · intro id
    exact ⟨hreported.mem_completedSelections, hworld.structured.finished id⟩

/-- After any transactions, only completed selections have failed, and no wakeup is lost: where
a receiver waits on an open waitable, all that was committed to it has been delivered. -/
theorem run_drains (modules : ChannelModule Channel Value) (codec : Codec Value Raw)
    (transactions : List (Transaction Channel Value)) :
    let world := World.initial.run modules codec transactions
    (∀ id, (world.selections id).done = false → (world.selections id).error = none) ∧
    ∀ id selected resource, world.lists.registered id →
      world.case? id = some selected → selected.send = false →
      selected.resource = some resource → (world.waitables resource).closed = false →
      sentValues world.history resource = receivedValues world.history resource := by
  intro world
  have hworld : world.Invariant codec := initial_invariant.run transactions
  refine ⟨hworld.errorFree, ?_⟩
  intro id selected resource hregistered hcase hsend hresource hopen
  rw [hworld.conserved, hworld.drained _ _ _ hregistered hcase hsend hresource hopen, append_nil]

end Step

end World

end MiniGo.Runtime
