/-
Doubly linked lists threaded through their items.

The items carry two optional links each; a list is known by its two ends. A
represented list is a duplicate-free list of items whose links run along it in
both directions. Appending at the tail and unlinking an item from anywhere act
on the represented list as `++ [item]` and as a filter, and leave lists of other
items alone.
-/
import Mathlib

namespace MiniGo.LinkedList

open List

universe u

variable {α : Type u}

structure Links (α : Type u) where
  previous : α → Option α
  next : α → Option α

structure Ends (α : Type u) where
  head : Option α
  tail : Option α

/-- The links run along the items, with what stands before and after them. -/
def Links.Segment (links : Links α) : Option α → List α → Option α → Prop
  | _, [], _ => True
  | before, item :: rest, after =>
    links.previous item = before ∧ links.next item = rest.head?.or after ∧
      links.Segment (some item) rest after

/-- The ends and the links make up the list of items. -/
structure Represents (links : Links α) (ends : Ends α) (items : List α) :
    Prop where
  segment : links.Segment none items none
  head : ends.head = items.head?
  tail : ends.tail = items.getLast?
  nodup : items.Nodup

theorem Represents.empty (links : Links α) : Represents links ⟨none, none⟩ [] :=
  ⟨trivial, rfl, rfl, nodup_nil⟩

variable {items : List α} {links : Links α} {ends : Ends α}

section Segments

variable {links other : Links α} {pre after : Option α}

/-- A segment depends only on the links of its items. -/
theorem Links.Segment.congr (hseg : links.Segment pre items after)
    (hpr : ∀ item ∈ items, other.previous item = links.previous item)
    (hnext : ∀ item ∈ items, other.next item = links.next item) :
    other.Segment pre items after := by
  induction items generalizing pre with
  | nil => trivial
  | cons item rest ih =>
    obtain ⟨hp, hn, hr⟩ := hseg
    refine ⟨(hpr item mem_cons_self).trans hp, (hnext item mem_cons_self).trans hn, ih hr ?_ ?_⟩
    · exact fun x hx => hpr x (mem_cons_of_mem item hx)
    · exact fun x hx => hnext x (mem_cons_of_mem item hx)

theorem Links.segment_append {left right : List α} :
    links.Segment pre (left ++ right) after ↔ links.Segment pre left (right.head?.or after) ∧
        links.Segment (left.getLast?.or pre) right after := by
  induction left generalizing pre with
  | nil => simp [Links.Segment]
  | cons item rest ih =>
    have hl : ((item :: rest).getLast?).or pre = rest.getLast?.or (some item) := by
      cases rest with
      | nil => simp
      | cons second tail => simp [getLast?_cons]
    have hh : ((rest ++ right).head?).or after = rest.head?.or (right.head?.or after) := by
      cases rest <;> simp
    simp only [cons_append, Links.Segment, ih, hl, hh, and_assoc]

end Segments

section Updates

variable [DecidableEq α]

def Links.setNext (links : Links α) (item : α) (target : Option α) : Links α :=
  { links with next := Function.update links.next item target }

def Links.setPrevious (links : Links α) (item : α) (target : Option α) :
    Links α :=
  { links with previous := Function.update links.previous item target }

variable {pre after target : Option α}

section

variable (hseg : links.Segment pre items after)
include hseg

theorem Links.Segment.setNext_of_notMem {item : α} (hi : item ∉ items) :
    (links.setNext item target).Segment pre items after := by
  refine hseg.congr (fun _ _ => rfl) fun x hx => ?_
  have hne : x ≠ item := fun heq => hi (heq ▸ hx)
  simp [Links.setNext, hne]

theorem Links.Segment.setPrevious_of_notMem {item : α} (hi : item ∉ items) :
    (links.setPrevious item target).Segment pre items after := by
  refine hseg.congr (fun x hx => ?_) fun _ _ => rfl
  have hne : x ≠ item := fun heq => hi (heq ▸ hx)
  simp [Links.setPrevious, hne]

/-- Pointing the last item elsewhere changes what stands after the segment. -/
theorem Links.Segment.setNext_last {last : α} (hnd : items.Nodup)
    (hl : items.getLast? = some last) :
    (links.setNext last target).Segment pre items target := by
  obtain ⟨front, rfl⟩ := getLast?_eq_some_iff.mp hl
  rw [Links.segment_append] at hseg ⊢
  have hnot : last ∉ front := fun hmem =>
    (nodup_append.mp hnd).2.2 last hmem last (by simp) rfl
  refine ⟨hseg.1.setNext_of_notMem hnot, hseg.2.1, ?_, trivial⟩
  simp [Links.setNext]

/-- Pointing the first item elsewhere changes what stands before the segment. -/
theorem Links.Segment.setPrevious_head {head : α} (hnd : items.Nodup)
    (hh : items.head? = some head) :
    (links.setPrevious head target).Segment target items after := by
  cases items with
  | nil => cases hh
  | cons item rest =>
    cases hh
    obtain ⟨-, hnext, hr⟩ := hseg
    exact ⟨by simp [Links.setPrevious], hnext, hr.setPrevious_of_notMem (nodup_cons.mp hnd).1⟩

end

end Updates

variable {before : Option α}

section Operations

variable [DecidableEq α]

/-- Append an item at the tail. -/
def append (links : Links α) (ends : Ends α) (item : α) : Links α × Ends α :=
  let linked := links.setPrevious item ends.tail
  match ends.tail with
  | none => (linked, ⟨some item, some item⟩)
  | some last => (linked.setNext last (some item), ⟨ends.head, some item⟩)

/-- Take an item out; its own links are cleared. -/
def unlink (links : Links α) (ends : Ends α) (item : α) : Links α × Ends α :=
  let before := links.previous item
  let after := links.next item
  let forward := match before with
    | none => links
    | some previous => links.setNext previous after
  let backward := match after with
    | none => forward
    | some next => forward.setPrevious next before
  ((backward.setPrevious item none).setNext item none, ⟨match before with
      | none => after
      | some _ => ends.head,
    match after with
      | none => before
      | some _ => ends.tail⟩)

variable {item : α}

theorem append_represents (hli : Represents links ends items)
    (hi : item ∉ items) (hnext : links.next item = none) :
    Represents (append links ends item).1 (append links ends item).2 (items ++ [item]) := by
  have hl : (links.setPrevious item ends.tail).Segment none items none :=
    hli.segment.setPrevious_of_notMem hi
  have hnd : (items ++ [item]).Nodup := by
    rw [nodup_append]
    refine ⟨hli.nodup, nodup_singleton item, ?_⟩
    rintro x hx y hy rfl
    exact hi (mem_singleton.mp hy ▸ hx)
  cases ht : ends.tail with
  | none =>
    have he : items = [] := by
      rw [hli.tail] at ht
      exact getLast?_eq_none_iff.mp ht
    subst he
    simp only [append, ht]
    exact ⟨⟨by simp [Links.setPrevious], by simp [Links.setPrevious, hnext],
      trivial⟩, rfl, rfl, hnd⟩
  | some last =>
    have hla : items.getLast? = some last := hli.tail ▸ ht
    have hne : item ≠ last := fun heq =>
      hi (heq ▸ mem_of_getLast? hla)
    simp only [append, ht]
    refine ⟨?_, ?_, by simp, hnd⟩
    · rw [Links.segment_append]
      refine ⟨?_, ?_, ?_, trivial⟩
      · rw [ht] at hl
        exact hl.setNext_last hli.nodup hla
      · simp [Links.setNext, Links.setPrevious, hla]
      · simp [Links.setNext, Links.setPrevious, hne, hnext]
    · rw [hli.head]
      cases items with
      | nil => cases hla
      | cons first rest => rfl

/-- The last of some items points to the target; nothing when there is none. -/
def pointForward (links : Links α) (source target : Option α) : Links α :=
  match source with
  | none => links
  | some previous => links.setNext previous target

/-- The first of some items points back to the target. -/
def pointBackward (links : Links α) (source target : Option α) : Links α :=
  match source with
  | none => links
  | some next => links.setPrevious next target

theorem unlink_eq (links : Links α) (ends : Ends α) (item : α) :
    (unlink links ends item).1 = ((pointBackward (pointForward links (links.previous item)
        (links.next item)) (links.next item)
        (links.previous item)).setPrevious item none).setNext item none := by
  unfold unlink pointBackward pointForward
  cases links.previous item <;> cases links.next item <;> rfl

variable {target : Option α} {after : Option α}

theorem Links.Segment.pointForward (hseg : links.Segment before items after) (hnd : items.Nodup) :
    (pointForward links items.getLast? target).Segment before items target := by
  cases hl : items.getLast? with
  | none =>
    rw [getLast?_eq_none_iff.mp hl]
    trivial
  | some last => exact hseg.setNext_last hnd hl

theorem Links.Segment.pointBackward (hseg : links.Segment before items after) (hnd : items.Nodup) :
    (pointBackward links items.head? target).Segment target items after := by
  cases hh : items.head? with
  | none =>
    rw [head?_eq_none_iff.mp hh]
    trivial
  | some head => exact hseg.setPrevious_head hnd hh

theorem Links.Segment.pointForward_of_disjoint {src : Option α}
    (hseg : links.Segment before items after) (hs : ∀ x, src = some x → x ∉ items) :
    (LinkedList.pointForward links src target).Segment before items after := by
  cases src with
  | none => exact hseg
  | some last => exact hseg.setNext_of_notMem (hs last rfl)

theorem Links.Segment.pointBackward_of_disjoint {src : Option α}
    (hseg : links.Segment before items after) (hs : ∀ x, src = some x → x ∉ items) :
    (LinkedList.pointBackward links src target).Segment before items after := by
  cases src with
  | none => exact hseg
  | some head => exact hseg.setPrevious_of_notMem (hs head rfl)

section

variable (hli : Represents links ends items)
include hli

omit [DecidableEq α] in
/-- What stands around an item of a represented list. -/
theorem Represents.split (hi : item ∈ items) :
    ∃ left right, items = left ++ item :: right ∧ item ∉ left ∧ item ∉ right ∧
      links.previous item = left.getLast? ∧ links.next item = right.head? ∧
      links.Segment none left (some item) ∧
      links.Segment (some item) right none := by
  obtain ⟨left, right, rfl⟩ := append_of_mem hi
  have hnd := nodup_append.mp hli.nodup
  have hseg := Links.segment_append.mp hli.segment
  obtain ⟨hl, hp, hnext, hr⟩ := hseg
  refine ⟨left, right, rfl, ?_, (nodup_cons.mp hnd.2.1).1, ?_, ?_, ?_, hr⟩
  · exact fun hmem => hnd.2.2 item hmem item mem_cons_self rfl
  · simpa using hp
  · simpa using hnext
  · simpa using hl

theorem unlink_represents (hi : item ∈ items) :
    Represents (unlink links ends item).1 (unlink links ends item).2 (items.filter (· ≠ item)) := by
  obtain ⟨left, right, rfl, hno, hn, hp, hnext, hl, hr⟩ :=
    hli.split hi
  have hk : ∀ others : List α, item ∉ others → others.filter (· ≠ item) = others := by
    intro others hnot
    refine filter_eq_self.mpr fun x hx => ?_
    have hne : x ≠ item := fun heq => hnot (heq ▸ hx)
    simpa using hne
  have hf : (left ++ item :: right).filter (· ≠ item) = left ++ right := by
    rw [filter_append, filter_cons_of_neg (by simp), hk left hno, hk right hn]
  have hnd : (left ++ right).Nodup := hf ▸ hli.nodup.filter _
  obtain ⟨hle, hri, hd⟩ := nodup_append.mp hnd
  rw [hf]
  refine ⟨?_, ?_, ?_, hnd⟩
  · rw [unlink_eq, hp, hnext, Links.segment_append]
    constructor
    · refine Links.Segment.setNext_of_notMem (Links.Segment.setPrevious_of_notMem ?_ hno) hno
      rw [Option.or_none]
      refine (hl.pointForward hle).pointBackward_of_disjoint ?_
      exact fun x hx hmem =>
        hd x hmem x (mem_of_head? hx) rfl
    · refine Links.Segment.setNext_of_notMem (Links.Segment.setPrevious_of_notMem ?_ hn) hn
      rw [Option.or_none]
      refine (hr.pointForward_of_disjoint ?_).pointBackward hri
      exact fun x hx hmem =>
        hd x (mem_of_getLast? hx) x hmem rfl
  · have hh := hli.head
    simp only [unlink, hp, hnext, hh]
    cases left with
    | nil => simp
    | cons first rest => simp [getLast?_cons]
  · have ht := hli.tail
    simp only [unlink, hp, hnext, ht]
    cases right with
    | nil => simp
    | cons first rest => simp [getLast?_append, getLast?_cons]

variable {otherEnds : Ends α} {others : List α}

/-- Appending leaves a list of other items alone. -/
theorem append_represents_other (ho : Represents links otherEnds others) (hi : item ∉ others)
    (hd : ∀ x ∈ items, x ∉ others) :
    Represents (append links ends item).1 otherEnds others := by
  refine ⟨?_, ho.head, ho.tail, ho.nodup⟩
  have hl : (links.setPrevious item ends.tail).Segment none others none :=
    ho.segment.setPrevious_of_notMem hi
  unfold append
  cases ht : ends.tail with
  | none =>
    rw [ht] at hl
    exact hl
  | some last =>
    rw [ht] at hl
    exact hl.setNext_of_notMem (hd last (mem_of_getLast? (hli.tail ▸ ht)))

/-- Unlinking leaves a list of other items alone. -/
theorem unlink_represents_other (hi : item ∈ items)
    (ho : Represents links otherEnds others) (hd : ∀ x ∈ items, x ∉ others) :
    Represents (unlink links ends item).1 otherEnds others := by
  obtain ⟨left, right, rfl, -, -, hp, hnext, -, -⟩ := hli.split hi
  refine ⟨?_, ho.head, ho.tail, ho.nodup⟩
  have hnot := hd item hi
  rw [unlink_eq, hp, hnext]
  refine Links.Segment.setNext_of_notMem (Links.Segment.setPrevious_of_notMem ?_ hnot) hnot
  refine Links.Segment.pointBackward_of_disjoint (ho.segment.pointForward_of_disjoint ?_) ?_
  · exact fun x hx => hd x (mem_append_left _ (mem_of_getLast? hx))
  · exact fun x hx => hd x (mem_append_right _ (mem_cons_of_mem _ (mem_of_head? hx)))

end

theorem unlink_self (links : Links α) (ends : Ends α) (item : α) :
    (unlink links ends item).1.next item = none := by
  simp [unlink, Links.setNext]

/-- The forward link of an item of no list does not change. -/
theorem unlink_next_of_notMem {x : α} (hli : Represents links ends items)
    (hi : item ∈ items) (hx : x ∉ items) :
    (unlink links ends item).1.next x = links.next x := by
  obtain ⟨left, right, rfl, -, -, hp, hnext, -, -⟩ := hli.split hi
  have hne : x ≠ item := fun heq => hx (heq ▸ hi)
  have hb : ∀ (base : Links α) (src target : Option α),
      (pointBackward base src target).next = base.next := by
    intro base src target
    cases src <;> rfl
  rw [unlink_eq, hp, hnext]
  simp only [Links.setNext, Links.setPrevious, Function.update_of_ne hne, hb]
  cases hla : left.getLast? with
  | none => rfl
  | some last =>
    have hl : last ∈ left ++ item :: right :=
      mem_append_left _ (mem_of_getLast? hla)
    have ho : x ≠ last := fun heq => hx (heq ▸ hl)
    simp [pointForward, Links.setNext, ho]

theorem append_next_of_notMem {x : α} (hli : Represents links ends items)
    (hx : x ∉ items) : (append links ends item).1.next x = links.next x := by
  unfold append
  cases ht : ends.tail with
  | none => rfl
  | some last =>
    have hmem : last ∈ items := mem_of_getLast? (hli.tail ▸ ht)
    have ho : x ≠ last := fun heq => hx (heq ▸ hmem)
    simp [Links.setNext, Links.setPrevious, ho]

end Operations

section Search

/-- A loop that follows the forward links to the first item with a property; the
fuel bounds the number of items visited. -/
def findFrom (links : Links α) (wanted : α → Bool) :
    Nat → Option α → Option α
  | 0, _ => none
  | _, none => none
  | fuel + 1, some item =>
    if wanted item then some item
    else findFrom links wanted fuel (links.next item)

variable {wanted : α → Bool} {fuel : Nat}

theorem findFrom_segment (hseg : links.Segment before items none) (hf : items.length < fuel) :
    findFrom links wanted fuel items.head? = items.find? wanted := by
  induction items generalizing before fuel with
  | nil =>
    cases fuel with
    | zero => omega
    | succ fuel => rfl
  | cons item rest ih =>
    cases fuel with
    | zero => omega
    | succ fuel =>
      obtain ⟨-, hnext, hr⟩ := hseg
      have ht : findFrom links wanted fuel rest.head? =
          rest.find? wanted := ih hr (by simpa using hf)
      cases hw : wanted item <;>
        simp [findFrom, hw, hnext, ht]

/-- With enough fuel the loop finds the first item of the represented list. -/
theorem findFrom_represents (hli : Represents links ends items) (hf : items.length < fuel) :
    findFrom links wanted fuel ends.head = items.find? wanted := by
  rw [hli.head]
  exact findFrom_segment hli.segment hf

end Search

end MiniGo.LinkedList
