/-
Singly linked chains.

A chain is threaded through a table of successors and ends at 0. The lemmas say
which list of items a table holds after an item is put in front of a chain or
taken out of it, and that changes outside a chain do not matter to it.
-/
import Mathlib

namespace MiniGo.Chain

open Function List

/-- Following `next` from `start` meets `items` and ends. -/
inductive Linked (next : Nat → Nat) : Nat → List Nat → Prop
  | nil : Linked next 0 []
  | cons {item : Nat} {rest : List Nat} : item ≠ 0 →
      Linked next (next item) rest → Linked next item (item :: rest)

variable {next other : Nat → Nat} {start item previous : Nat} {items pre after : List Nat}

theorem Linked.ne_zero (hl : Linked next start items) : ∀ x ∈ items, x ≠ 0 := by
  induction hl with
  | nil => simp
  | cons hi _ ih =>
    intro x hx
    rcases mem_cons.mp hx with rfl | hx
    · exact hi
    · exact ih x hx

theorem Linked.unique {others : List Nat} (hl : Linked next start items)
    (ho : Linked next start others) : items = others := by
  induction hl generalizing others with
  | nil =>
    cases ho with
    | nil => rfl
    | cons hi _ => exact absurd rfl hi
  | cons hi _ ih =>
    cases ho with
    | nil => exact absurd rfl hi
    | cons _ hr => rw [ih hr]

theorem linked_cons : Linked next start (item :: items) ↔
    start = item ∧ item ≠ 0 ∧ Linked next (next item) items := by
  constructor
  · intro hl
    cases hl with
    | cons hi hr => exact ⟨rfl, hi, hr⟩
  · rintro ⟨rfl, hi, hr⟩
    exact .cons hi hr

theorem linked_nil : Linked next start [] ↔ start = 0 := by
  constructor
  · intro hl
    cases hl
    rfl
  · rintro rfl
    exact .nil

/-- The chain from an item in the middle. -/
theorem Linked.suffix (hl : Linked next start (pre ++ item :: after)) :
    Linked next item (item :: after) := by
  induction pre generalizing start with
  | nil =>
    obtain ⟨rfl, -, -⟩ := linked_cons.mp hl
    exact hl
  | cons first rest ih => exact ih (linked_cons.mp hl).2.2

section

variable (hl : Linked next start items)
include hl

/-- A chain that ends meets no item twice. -/
theorem Linked.nodup : items.Nodup := by
  induction hl with
  | nil => exact nodup_nil
  | cons hi hr ih =>
    refine nodup_cons.mpr ⟨fun hmem => ?_, ih⟩
    -- The chain from a repeated item would be a proper part of itself.
    obtain ⟨pre, after, rfl⟩ := append_of_mem hmem
    have hs := (Linked.cons hi hr).unique hr.suffix
    have hlen := congrArg length hs
    simp only [length_cons, length_append] at hlen
    omega

/-- Only the successors of the items of a chain matter. -/
theorem Linked.congr (hs : ∀ x ∈ items, other x = next x) : Linked other start items := by
  induction hl with
  | nil => exact .nil
  | cons hi _ ih =>
    refine .cons hi ?_
    rw [hs _ mem_cons_self]
    exact ih fun x hx => hs x (mem_cons_of_mem _ hx)

theorem Linked.update_of_notMem {val : Nat} (hi : item ∉ items) :
    Linked (update next item val) start items :=
  hl.congr fun x hx =>
    update_of_ne (fun heq : x = item => hi (heq ▸ hx)) _ _

/-- A new item in front of a chain. -/
theorem Linked.push (hz : item ≠ 0) (hi : item ∉ items) :
    Linked (update next item start) item (item :: items) := by
  refine .cons hz ?_
  rw [update_self]
  exact hl.update_of_notMem hi

end

/-- The successor of the item before takes the place of the item. -/
theorem Linked.remove (hl : Linked next start (pre ++ previous :: item :: after)) :
    Linked (update next previous (next item)) start (pre ++ previous :: after) := by
  have hnd := hl.nodup
  induction pre generalizing start with
  | nil =>
    obtain ⟨rfl, hz, hr⟩ := linked_cons.mp hl
    obtain ⟨-, -, ha⟩ := linked_cons.mp hr
    refine .cons hz ?_
    rw [update_self]
    refine ha.update_of_notMem fun hmem => ?_
    exact (nodup_cons.mp hnd).1 (mem_cons_of_mem _ hmem)
  | cons first rest ih =>
    obtain ⟨rfl, hz, hr⟩ := linked_cons.mp hl
    rw [cons_append, nodup_cons] at hnd
    have hne : start ≠ previous := fun heq => hnd.1 (heq ▸ by simp)
    refine .cons hz ?_
    rw [update_of_ne hne]
    exact ih hr hnd.2

end MiniGo.Chain
