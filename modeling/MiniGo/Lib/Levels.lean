/-
Breadth-first levels of a finitely branching graph.

An item stands at a place, and the place alone decides which places come next.
`levels` follows every path from a root; `trails` gives up a path that comes back
to a place it has passed. Whatever is met at a smallest depth is met by both.
-/
import Mathlib

namespace MiniGo.Lib

open List

variable {α β γ τ : Type}

/-- The items at the end of the paths of a given length, one for each path. -/
def levels (next : α → List α) (root : α) : Nat → List α
  | 0 => [root]
  | depth + 1 => (levels next root depth).flatMap next

/-- A path that has not met a place twice: its end and its places. -/
structure Trail (α β : Type) where
  item : α
  seen : List β
deriving Repr, DecidableEq

section Trails

variable [DecidableEq β] (base : α → β) (next : α → List α)

def Trail.extend (trail : Trail α β) : List (Trail α β) :=
  (next trail.item).filterMap fun item =>
    if base item ∈ trail.seen then none
    else some ⟨item, base item :: trail.seen⟩

def trails (root : α) : Nat → List (Trail α β)
  | 0 => [⟨root, [base root]⟩]
  | depth + 1 => (trails root depth).flatMap (Trail.extend base next)

variable {base next} {root : α} {trail longer : Trail α β}

theorem Trail.mem_extend : longer ∈ trail.extend base next ↔
      longer.item ∈ next trail.item ∧ base longer.item ∉ trail.seen ∧
        longer.seen = base longer.item :: trail.seen := by
  rw [Trail.extend, mem_filterMap]
  constructor
  · rintro ⟨item, hi, hl⟩
    by_cases hs : base item ∈ trail.seen
    · simp [hs] at hl
    · simp only [hs, if_false, Option.some.injEq] at hl
      subst hl
      exact ⟨hi, hs, rfl⟩
  · rintro ⟨hi, hs, hp⟩
    refine ⟨longer.item, hi, ?_⟩
    rw [if_neg hs, ← hp]

/-- What the places of a trail of the given length are. -/
structure Trail.Valid (base : α → β) (next : α → List α) (root : α) (depth : Nat)
    (trail : Trail α β) : Prop where
  reached : trail.item ∈ levels next root depth
  nodup : trail.seen.Nodup
  length_eq : trail.seen.length = depth + 1
  passed : ∀ place ∈ trail.seen, ∃ earlier ≤ depth,
    ∃ item ∈ levels next root earlier, base item = place

theorem trails_valid : ∀ (depth : Nat), ∀ trail ∈ trails base next root depth,
    trail.Valid base next root depth := by
  intro depth
  induction depth with
  | zero =>
    intro trail ht
    obtain rfl : trail = ⟨root, [base root]⟩ := by simpa [trails] using ht
    exact ⟨by simp [levels], by simp, rfl, by simp [levels]⟩
  | succ depth ih =>
    intro longer hl
    obtain ⟨trail, ht, he⟩ := mem_flatMap.mp hl
    obtain ⟨hi, hfr, hs⟩ := Trail.mem_extend.mp he
    have hv := ih trail ht
    have hr : longer.item ∈ levels next root (depth + 1) :=
      mem_flatMap.mpr ⟨trail.item, hv.reached, hi⟩
    refine ⟨hr, ?_, ?_, ?_⟩
    · rw [hs]
      exact nodup_cons.mpr ⟨hfr, hv.nodup⟩
    · rw [hs, length_cons, hv.length_eq]
    · intro place hpl
      rw [hs] at hpl
      rcases mem_cons.mp hpl with rfl | hpl
      · exact ⟨depth + 1, Nat.le_refl _, longer.item, hr, rfl⟩
      · obtain ⟨earlier, hea, hm⟩ := hv.passed place hpl
        exact ⟨earlier, by omega, hm⟩

/-- A trail is no longer than there are places. -/
theorem trails_eq_nil {places : List β}
    (hp : ∀ depth, ∀ item ∈ levels next root depth, base item ∈ places)
    {depth : Nat} (hd : places.length ≤ depth) :
    trails base next root depth = [] := by
  rw [eq_nil_iff_forall_not_mem]
  intro trail ht
  have hv := trails_valid depth trail ht
  have hsub : trail.seen ⊆ places := by
    intro place hpl
    obtain ⟨earlier, _, item, hi, rfl⟩ := hv.passed place hpl
    exact hp earlier item hi
  have hlen := (hv.nodup.subperm hsub).length_le
  have := hv.length_eq
  omega

end Trails

/-- The second list is the first without some items that may be dropped. -/
inductive Thinned (dropped : α → Prop) (item : τ → α) : List α → List τ → Prop
  | nil : Thinned dropped item [] []
  | keep {x : α} {y : τ} {xs : List α} {ys : List τ} : item y = x →
      Thinned dropped item xs ys → Thinned dropped item (x :: xs) (y :: ys)
  | drop {x : α} {xs : List α} {ys : List τ} :
      dropped x → Thinned dropped item xs ys → Thinned dropped item (x :: xs) ys

namespace Thinned

variable {dropped later : α → Prop} {item : τ → α} {xs others : List α} {ys more : List τ}

theorem append (hfs : Thinned dropped item xs ys) (hs : Thinned dropped item others more) :
    Thinned dropped item (xs ++ others) (ys ++ more) := by
  induction hfs with
  | nil => exact hs
  | keep hi _ ih => exact .keep hi ih
  | drop hd _ ih => exact .drop hd ih

theorem of_forall (hd : ∀ x ∈ xs, dropped x) : Thinned dropped item xs [] := by
  induction xs with
  | nil => exact .nil
  | cons x xs ih =>
    exact .drop (hd x mem_cons_self) (ih fun y hy => hd y (mem_cons_of_mem _ hy))

theorem flatMap {next : α → List α} {extend : τ → List τ} (ht : Thinned dropped item xs ys)
    (hk : ∀ y ∈ ys, Thinned later item (next (item y)) (extend y))
    (hd : ∀ x, dropped x → ∀ z ∈ next x, later z) :
    Thinned later item (xs.flatMap next) (ys.flatMap extend) := by
  induction ht with
  | nil => exact .nil
  | keep hi _ ih =>
    subst hi
    exact (hk _ mem_cons_self).append (ih fun y hy => hk y (mem_cons_of_mem _ hy))
  | drop hx _ ih =>
    exact (of_forall (hd _ hx)).append (ih hk)

theorem flatMap_eq {found : α → List γ} (ht : Thinned dropped item xs ys)
    (hf : ∀ x, dropped x → found x = []) :
    xs.flatMap found = ys.flatMap fun y => found (item y) := by
  induction ht with
  | nil => rfl
  | keep hi _ ih => rw [flatMap_cons, flatMap_cons, ih, hi]
  | drop hx _ ih => rw [flatMap_cons, hf _ hx, nil_append, ih]

end Thinned

section Met

variable {base : α → β} {next : α → List α} {root : α}

/-- The place of the item is met in fewer steps. -/
def Short (base : α → β) (next : α → List α) (root : α) (depth : Nat)
    (item : α) : Prop :=
  ∃ earlier < depth, ∃ other ∈ levels next root earlier, base other = base item

variable (hnext : ∀ x y, base x = base y → (next x).map base = (next y).map base)
include hnext

theorem Short.step {depth : Nat} {item : α} (hs : Short base next root depth item) :
    ∀ z ∈ next item, Short base next root (depth + 1) z := by
  intro z hz
  obtain ⟨earlier, he, other, ho, hb⟩ := hs
  have hmem : base z ∈ (next other).map base := by
    rw [hnext other item hb]
    exact mem_map_of_mem hz
  obtain ⟨z', hz', hpl⟩ := mem_map.mp hmem
  exact ⟨earlier + 1, by omega, z', mem_flatMap.mpr ⟨other, ho, hz'⟩, hpl⟩

variable [DecidableEq β]

/-- A path that is given up ends where a shorter one does. -/
theorem levels_thinned (depth : Nat) :
    Thinned (Short base next root depth) Trail.item (levels next root depth)
      (trails base next root depth) := by
  induction depth with
  | zero => exact .keep rfl .nil
  | succ depth ih =>
    refine ih.flatMap ?_ fun x hx => Short.step hnext hx
    intro trail ht
    have hv := trails_valid depth trail ht
    rw [Trail.extend]
    induction next trail.item with
    | nil => exact .nil
    | cons item items ihItems =>
      by_cases hs : base item ∈ trail.seen
      · simp only [filterMap_cons, hs, if_true]
        obtain ⟨earlier, he, hm⟩ := hv.passed _ hs
        exact .drop ⟨earlier, by omega, hm⟩ ihItems
      · simp only [filterMap_cons, hs, if_false]
        exact .keep rfl ihItems

variable {found : α → List γ} (hf : ∀ x y, base x = base y → found x = [] → found y = [])
include hf

/-- At the smallest depth at which anything is found, the trails find all of it. -/
theorem levels_flatMap_eq {depth : Nat}
    (hnone : ∀ earlier < depth, (levels next root earlier).flatMap found = []) :
    (levels next root depth).flatMap found =
      (trails base next root depth).flatMap fun trail => found trail.item := by
  refine (levels_thinned hnext depth).flatMap_eq ?_
  rintro item ⟨earlier, he, other, ho, hb⟩
  have hem := flatMap_eq_nil_iff.mp (hnone earlier he) other ho
  exact hf other item hb hem

end Met

/-- The element of a list that has one. -/
def lone : List γ → Option γ
  | [found] => some found
  | _ => none

/-- The first lone element of a sequence of lists, among the first `depth`. -/
def firstLone (lists : Nat → List γ) : Nat → Option γ
  | 0 => none
  | depth + 1 => (firstLone lists depth).or (lone (lists depth))

/-- The list at `depth` is the first with one element. -/
def LoneAt (lists : Nat → List γ) (depth : Nat) (found : γ) : Prop :=
  lists depth = [found] ∧ ∀ earlier < depth, (lists earlier).length ≠ 1

variable {lists : Nat → List γ} {depth : Nat}

theorem LoneAt.unique {other : Nat} {found also : γ}
    (hl : LoneAt lists depth found) (ho : LoneAt lists other also) :
    depth = other := by
  rcases Nat.lt_trichotomy depth other with hlt | heq | hlt
  · exact absurd (by rw [hl.1]; rfl) (ho.2 depth hlt)
  · exact heq
  · exact absurd (by rw [ho.1]; rfl) (hl.2 other hlt)

theorem firstLone_eq_none :
    firstLone lists depth = none ↔ ∀ earlier < depth, (lists earlier).length ≠ 1 := by
  induction depth with
  | zero => simp [firstLone]
  | succ depth ih =>
    rw [firstLone, Nat.forall_lt_succ_right, ← ih]
    cases firstLone lists depth with
    | some found => simp
    | none =>
      match lists depth with
      | [] => simp [lone]
      | [found] => simp [lone]
      | _ :: _ :: _ => simp [lone]

theorem firstLone_eq_some {found : γ} :
    firstLone lists depth = some found ↔ ∃ earlier < depth, LoneAt lists earlier found := by
  induction depth with
  | zero => simp [firstLone]
  | succ depth ih =>
    rw [Nat.exists_lt_succ_right, ← ih, firstLone, LoneAt, ← firstLone_eq_none]
    cases firstLone lists depth with
    | some other => simp
    | none =>
      match lists depth with
      | [] => simp [lone]
      | [other] => simp [lone]
      | _ :: _ :: _ => simp [lone]

end MiniGo.Lib
