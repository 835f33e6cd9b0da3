/-
The order in which a router offers its providers (`Router.candidates` of
`rpc/router/router.go`).

The eligible registrations of a service are sorted by priority. Without an affinity
key each group of one priority is then rotated: a counter of the service, read modulo
the weight of the group, picks the registration that goes first. The counter is
shared by the groups and advances once for each of them, so that the top group sees
every `groups.length`-th value of it. The error that `candidates` returns beside the
list is left out.
-/
import MiniGo.Lib.Stride
import Mathlib.Algebra.Order.BigOperators.Group.List
import Mathlib.Algebra.Order.Ring.Nat
import Mathlib.Data.List.Perm.Basic
import Mathlib.Data.List.SplitBy
import Mathlib.Data.List.Sort

namespace MiniGo.Rpc.Router

open List Nat

/-- The fields of a registration that `candidates` orders by; `normalizeRegistrationOptions`
makes the weight positive. -/
@[ext]
structure Registration where
  id : Nat
  priority : Int
  weight : Nat
  positive : 0 < weight

instance : DecidableEq Registration := fun a b =>
  decidable_of_iff (a.id = b.id ∧ a.priority = b.priority ∧ a.weight = b.weight)
    (Registration.ext_iff ..).symm

/-- The comparison of the first `sort.Slice`: by priority, then by affinity score. -/
def ByScore (score : Nat → Nat) (a b : Registration) : Prop :=
  b.priority < a.priority ∨ a.priority = b.priority ∧ score b.id ≤ score a.id

/-- The comparison of the second `sort.Slice`: by priority, then by id. -/
def ById (a b : Registration) : Prop :=
  b.priority < a.priority ∨ a.priority = b.priority ∧ a.id ≤ b.id

instance (score : Nat → Nat) : DecidableRel (ByScore score) :=
  fun _ _ => inferInstanceAs (Decidable (_ ∨ _))

instance : DecidableRel ById := fun _ _ => inferInstanceAs (Decidable (_ ∨ _))

def totalWeight (group : List Registration) : Nat := (group.map (·.weight)).sum

/-- The loop that walks the weights of a group down to `position`. -/
def find : Nat → List Registration → Option Nat
  | _, [] => none
  | position, r :: rest =>
    if position < r.weight then some 0 else (find (position - r.weight) rest).map (· + 1)

/-- `copy(candidates[start+1:chosen+1], candidates[start:chosen])`. -/
def moveToFront (group : List Registration) (chosen : Nat) : List Registration :=
  group[chosen]?.toList ++ group.eraseIdx chosen

/-- One group of one priority; `none` is the division by zero of a total weight that
is a multiple of `2 ^ 64`. -/
def rotate (counter : Nat) (group : List Registration) : Option (List Registration) :=
  let weight := totalWeight group % 2 ^ 64
  if weight = 0 then none else
  -- a position that the conversion makes negative stops at the first weight, as 0 does
  let position := (Int.bmod ↑(counter % weight) (2 ^ 64)).toNat
  some (moveToFront group ((find position group).getD 0))

/-- The loop over the groups; the counter advances with every group. -/
def arrange : Nat → List (List Registration) → Option (List Registration × Nat)
  | counter, [] => some ([], counter)
  | counter, group :: groups => do
    let first ← rotate counter group
    let (rest, counter) ← arrange ((counter + 1) % 2 ^ 64) groups
    return (first ++ rest, counter)

/-- What calls with the same service, methods and labels have in common: the registrations
of the router, which are keyed by id, and which of them are eligible. -/
structure Query where
  registrations : List Registration
  distinct : (registrations.map (·.id)).Nodup
  eligible : Registration → Bool

namespace Query
variable (q : Query)

def offered : List Registration := q.registrations.filter q.eligible

/-- The groups of equal priority, as the loop over `start` and `end` cuts them. -/
def groups : List (List Registration) :=
  (q.offered.insertionSort ById).splitBy (·.priority == ·.priority)

/-- `candidates`: the list and the counter of the service after the call. `score` is
there when the affinity key is not empty. -/
def candidates (score : Option (Nat → Nat)) (counter : Nat) :
    Option (List Registration × Nat) :=
  match score with
  | some score => some (q.offered.insertionSort (ByScore score), counter)
  | none => arrange counter q.groups

/-- The lists of several calls in a row without an affinity key. -/
def calls : Nat → Nat → Option (List (List Registration))
  | 0, _ => some []
  | n + 1, counter => do
    let (result, counter) ← q.candidates none counter
    let results ← calls n counter
    return result :: results

/-- The eligible registrations of the top priority. -/
def top : List Registration := q.groups.headD []

/-- A result lists each eligible registration once, ordered by priority. -/
structure Listed (result : List Registration) : Prop where
  perm : result ~ q.offered
  sorted : result.Pairwise fun a b => b.priority ≤ a.priority

/-- In as many calls as the top group weighs, each of its registrations is placed first
as often as its own weight says. -/
def Exact (counter : Nat) : Prop :=
  ∃ results, q.calls (totalWeight q.top) counter = some results ∧
    ∀ r ∈ q.top, results.countP (·.head? = some r) = r.weight

end Query

/-! ### One group -/

@[simp] theorem totalWeight_cons {r : Registration} {rest : List Registration} :
    totalWeight (r :: rest) = r.weight + totalWeight rest := by simp [totalWeight]

variable {group : List Registration}

theorem totalWeight_pos (hne : group ≠ []) : 0 < totalWeight group := by
  obtain ⟨r, rest, rfl⟩ := exists_cons_of_ne_nil hne
  rw [totalWeight_cons]
  exact Nat.add_pos_left r.positive _

theorem find_lt : ∀ pos, pos < totalWeight group → ∃ i < group.length, find pos group = some i := by
  induction group with
  | nil => simp [totalWeight]
  | cons r rest ih =>
    intro pos hlt
    rw [find]
    split
    · exact ⟨0, by simp, rfl⟩
    · obtain ⟨i, hi, hf⟩ := ih (pos - r.weight) (by simp at hlt; omega)
      exact ⟨i + 1, by simpa using hi, by simp [hf]⟩

theorem moveToFront_perm (group : List Registration) (i : Nat) : moveToFront group i ~ group := by
  unfold moveToFront
  by_cases hi : i < group.length
  · simpa [hi] using getElem_cons_eraseIdx_perm hi
  · rw [getElem?_eq_none (by omega), eraseIdx_of_length_le (by omega)]
    simp

theorem rotate_perm {cnt : Nat} {moved : List Registration}
    (hr : rotate cnt group = some moved) : moved ~ group := by
  simp only [rotate] at hr
  split at hr
  · cases hr
  · cases hr
    exact moveToFront_perm _ _

/-- The registration that the counter picks in a group. -/
def pick (group : List Registration) (counter : Nat) : Option Registration :=
  (find (counter % totalWeight group) group).bind (group[·]?)

/-- What goes first when the weights fit a machine integer. -/
theorem rotate_head (cnt : Nat) (hne : group ≠ []) (hfi : totalWeight group < 2 ^ 63) :
    ∃ first rest, rotate cnt group = some (first :: rest) ∧ pick group cnt = some first := by
  have hpos := totalWeight_pos hne
  have hmod : totalWeight group % 2 ^ 64 = totalWeight group := mod_eq_of_lt (by omega)
  have hlt := mod_lt cnt hpos
  obtain ⟨i, hi, hf⟩ := find_lt _ hlt
  have hcast : (Int.bmod ↑(cnt % totalWeight group) (2 ^ 64)).toNat = cnt % totalWeight group := by
    rw [Int.bmod_eq_of_le (by omega) (by omega), Int.toNat_natCast]
  refine ⟨group[i], group.eraseIdx i, ?_, by simp [pick, hf, hi]⟩
  simp only [rotate, hmod, hpos.ne', if_false, hcast, hf]
  simp [moveToFront, hi]

/-- How often the positions of one class modulo a common divisor fall on a registration. -/
theorem count_find {d residue : Nat} (hre : residue < d) (hd : ∀ r ∈ group, d ∣ r.weight) : ∀ {i}
    (hi : i < group.length),
    d * Nat.count (fun k => find (residue + d * k) group = some i) (totalWeight group / d) =
      group[i].weight := by
  induction group with
  | nil => simp
  | cons r rest ih =>
    intro i hi
    have hpos : 0 < d := by omega
    obtain ⟨share, hs⟩ := hd r mem_cons_self
    have hdv : ∀ r ∈ rest, d ∣ r.weight := fun r hr => hd r (mem_cons_of_mem _ hr)
    have hh (k : Nat) (hk : k < share) : residue + d * k < d * share := by
      have := Nat.mul_le_mul_left d hk
      rw [mul_succ] at this
      omega
    have hl (k : Nat) : residue + d * (share + k) - d * share = residue + d * k := by
      rw [Nat.mul_add]; omega
    have hnot (k : Nat) : ¬ residue + d * (share + k) < d * share := by
      rw [Nat.mul_add]; omega
    rw [totalWeight_cons, hs, mul_add_div hpos, count_add, Nat.mul_add]
    cases i with
    | zero =>
      have hall : Nat.count (fun k => find (residue + d * k) (r :: rest) = some 0) share =
          share := by
        rw [count_iff_forall]
        intro k hk
        simp [find, hs, hh k hk]
      rw [hall]
      simp [find, hs, hnot]
    | succ i =>
      have hnone : Nat.count (fun k => find (residue + d * k) (r :: rest) = some (i + 1)) share =
          0 := by
        rw [count_iff_forall_not]
        intro k hk
        simp [find, hs, hh k hk]
      rw [hnone]
      simpa [find, hs, hnot, hl] using ih hdv (by simpa using hi)

/-! ### One call -/

/-- The groups are rearranged each for itself. -/
theorem arrange_listed {gs : List (List Registration)}
    (hgr : ∀ g ∈ gs, ∀ a ∈ g, ∀ b ∈ g, a.priority = b.priority)
    (hs : gs.flatten.Pairwise fun a b => b.priority ≤ a.priority) :
    ∀ {cnt res after}, arrange cnt gs = some (res, after) →
      res ~ gs.flatten ∧ res.Pairwise fun a b => b.priority ≤ a.priority := by
  induction gs with
  | nil =>
    intro cnt res after har
    cases har
    exact ⟨Perm.refl _, Pairwise.nil⟩
  | cons g gs ih =>
    intro cnt res after har
    rw [flatten_cons, pairwise_append] at hs
    simp only [arrange, Option.bind_eq_bind, Option.bind_eq_some_iff] at har
    obtain ⟨first, hr, ⟨rest, last⟩, hrest, hre⟩ := har
    cases hre
    have hm := rotate_perm hr
    obtain ⟨hp, ho⟩ :=
      ih (fun g hg => hgr g (mem_cons_of_mem _ hg)) hs.2.1 hrest
    refine ⟨hm.append hp, pairwise_append.mpr ⟨?_, ho, ?_⟩⟩
    · exact pairwise_of_forall_mem_list fun a ha b hb =>
        (hgr g mem_cons_self b (hm.mem_iff.mp hb) a (hm.mem_iff.mp ha)).le
    · exact fun a ha b hb => hs.2.2 a (hm.mem_iff.mp ha) b (hp.mem_iff.mp hb)

theorem arrange_head {gs : List (List Registration)}
    (hgr : ∀ g ∈ gs, g ≠ [] ∧ totalWeight g < 2 ^ 63) :
    ∀ counter < 2 ^ 64, ∃ res, arrange counter gs = some (res, (counter + gs.length) % 2 ^ 64) ∧
      res.head? = pick (gs.headD []) counter := by
  induction gs with
  | nil => exact fun counter hlt => ⟨[], by simp [arrange]; omega, by simp [pick, find]⟩
  | cons g gs ih =>
    intro counter hlt
    obtain ⟨hne, hf⟩ := hgr g mem_cons_self
    obtain ⟨rest, hrest, -⟩ := ih (fun g hg => hgr g (mem_cons_of_mem _ hg)) _
      (mod_lt (counter + 1) (by decide))
    obtain ⟨first, moved, hr, hp⟩ := rotate_head counter hne hf
    refine ⟨first :: moved ++ rest, ?_, by simp [hp]⟩
    simp only [arrange, hr, hrest, mod_add_mod, length_cons]
    rw [Nat.add_right_comm, Nat.add_assoc]
    rfl

namespace Query
variable {q : Query}

theorem flatten_groups : q.groups.flatten =
    q.offered.insertionSort ById := flatten_splitBy _ _

instance : Std.Total ById := ⟨fun a b => by unfold ById; omega⟩

instance : IsTrans Registration ById := ⟨fun a b c => by unfold ById; omega⟩

instance (score : Nat → Nat) : Std.Total (ByScore score) := ⟨fun a b => by unfold ByScore; omega⟩

instance (score : Nat → Nat) : IsTrans Registration (ByScore score) :=
  ⟨fun a b c => by unfold ByScore; omega⟩

theorem mem_groups {g : List Registration} (hg : g ∈ q.groups) :
    ∀ a ∈ g, ∀ b ∈ g, a.priority = b.priority := by
  have hc := (isChain_of_mem_splitBy hg).imp fun a b h => beq_iff_eq.mp h
  have hp := ((isChain_map (R := Eq) Registration.priority).mpr hc).pairwise
  have hall := hp.forall_of_forall fun _ _ => rfl
  exact fun a ha b hb => hall (mem_map_of_mem ha) (mem_map_of_mem hb)

/-- Every result is complete and ordered, with and without an affinity key. -/
theorem candidates_listed {score : Option (Nat → Nat)} {cnt after : Nat}
    {result : List Registration}
    (hc : q.candidates score cnt = some (result, after)) :
    q.Listed result := by
  cases score with
  | some score =>
    cases hc
    refine ⟨perm_insertionSort _ _, (pairwise_insertionSort (ByScore score) _).imp ?_⟩
    intro a b h
    unfold ByScore at h
    omega
  | none =>
    have hs : q.groups.flatten.Pairwise fun a b => b.priority ≤ a.priority := by
      rw [flatten_groups]
      refine (pairwise_insertionSort ById _).imp fun h => ?_
      unfold ById at h
      omega
    obtain ⟨hp, ho⟩ := arrange_listed (fun _ => mem_groups) hs hc
    rw [flatten_groups] at hp
    exact ⟨hp.trans (perm_insertionSort _ _), ho⟩

theorem candidates_head (counter : Nat)
    (hf : totalWeight q.offered < 2 ^ 63) (hlt : counter < 2 ^ 64) :
    ∃ res, q.candidates none counter = some (res, (counter + q.groups.length) % 2 ^ 64) ∧
      res.head? = pick q.top counter := by
  refine arrange_head (fun g hg => ⟨fun heq => nil_notMem_splitBy _ _ (heq ▸ hg), ?_⟩) counter hlt
  have hsub := (sublist_flatten_of_mem hg).map (·.weight)
  rw [flatten_groups] at hsub
  have hle := hsub.sum_le_sum fun _ _ => Nat.zero_le _
  rw [((perm_insertionSort ById _).map _).sum_eq] at hle
  exact hle.trans_lt hf

/-! ### Several calls -/

theorem top_nodup : q.top.Nodup := by
  have hsub : q.top <+ q.groups.flatten := by
    unfold top
    cases q.groups <;> simp
  rw [flatten_groups] at hsub
  have ho : q.offered.Nodup := q.distinct.of_map.filter _
  exact ((perm_insertionSort ById _).nodup_iff.mpr ho).sublist hsub

theorem pick_eq_some_iff (hn : group.Nodup) {i : Nat} (hi : i < group.length) {cnt : Nat} :
    pick group cnt = some group[i] ↔ find (cnt % totalWeight group) group = some i := by
  rw [pick, Option.bind_eq_some_iff]
  constructor
  · rintro ⟨j, hj, hg⟩
    obtain ⟨hlt, heq⟩ := List.getElem?_eq_some_iff.mp hg
    rw [hj, hn.getElem_inj_iff.mp heq]
  · exact fun h => ⟨i, h, getElem?_eq_getElem hi⟩

/-- The counter may wrap after the last call of the window only. -/
theorem calls_count (hf : totalWeight q.offered < 2 ^ 63) (hne : q.groups ≠ []) :
    ∀ {n cnt}, cnt + q.groups.length * n ≤ 2 ^ 64 →
    ∃ ress, q.calls n (cnt % 2 ^ 64) = some ress ∧ ∀ i, ∀ hi : i < q.top.length,
      ress.countP (·.head? = some q.top[i]) = Nat.count (fun k =>
        find ((cnt + k * q.groups.length) % totalWeight q.top) q.top = some i) n := by
  have hpos := length_pos_iff.mpr hne
  intro n
  induction n with
  | zero => exact fun _ => ⟨[], rfl, by simp⟩
  | succ n ih =>
    intro cnt hr
    rw [mul_succ] at hr
    obtain ⟨res, hca, hh⟩ := candidates_head cnt hf (by omega)
    obtain ⟨ress, hc, hco⟩ := @ih (cnt + q.groups.length) (by omega)
    refine ⟨res :: ress, ?_, fun i hi => ?_⟩
    · rw [mod_eq_of_lt (by omega)]
      simp only [calls, hca, Option.bind_eq_bind, Option.bind_some, hc]
      rfl
    · rw [countP_cons, hco i hi, count_succ', hh]
      simp [pick_eq_some_iff top_nodup hi, succ_mul, Nat.add_assoc, Nat.add_comm]

theorem top_ne_nil (hne : q.groups ≠ []) : q.top ≠ [] := by
  obtain ⟨g, gs, hgs⟩ := exists_cons_of_ne_nil hne
  intro hnil
  have hmem : g ∈ q.groups := hgs ▸ mem_cons_self
  rw [top, hgs, headD_cons] at hnil
  exact nil_notMem_splitBy _ _ (hnil ▸ hmem)

/-- Every result is complete. The rotation is exact when the greatest common divisor of
the number of groups and the weight of the top group divides every weight of that group,
and only then. -/
theorem weighted_round_robin {q : Query} {counter : Nat} :
    (∀ score counter result after,
      q.candidates score counter = some (result, after) → q.Listed result) ∧
    (totalWeight q.offered < 2 ^ 63 →
      counter + q.groups.length * totalWeight q.top ≤ 2 ^ 64 →
      (q.Exact counter ↔ ∀ r ∈ q.top, q.groups.length.gcd (totalWeight q.top) ∣ r.weight)) := by
  refine ⟨fun _ _ _ _ => candidates_listed, fun hfits hroom => ?_⟩
  by_cases hne : q.groups = []
  · have htop : q.top = [] := by simp [top, hne]
    simp [Exact, htop, totalWeight, calls]
  have hpos := totalWeight_pos (top_ne_nil hne)
  have hlt : counter < 2 ^ 64 := by
    have := Nat.mul_pos (length_pos_iff.mpr hne) hpos
    omega
  obtain ⟨results, hcalls, hcount⟩ := calls_count hfits hne hroom
  rw [Nat.mod_eq_of_lt hlt] at hcalls
  have hstride (i : Nat) := Stride.count_stride
    (fun position => find position q.top = some i) counter q.groups.length hpos
  constructor
  · rintro ⟨other, hother, hexact⟩ r hr
    obtain rfl := Option.some.inj (hcalls.symm.trans hother)
    obtain ⟨i, hi, rfl⟩ := getElem_of_mem hr
    rw [← hexact _ hr, hcount i hi, hstride]
    exact Nat.dvd_mul_right _ _
  · intro hdvd
    refine ⟨results, hcalls, fun r hr => ?_⟩
    obtain ⟨i, hi, rfl⟩ := getElem_of_mem hr
    rw [hcount i hi, hstride]
    exact count_find (Nat.mod_lt _ (Nat.gcd_pos_of_pos_right _ hpos)) hdvd hi

/-- Two providers of the top priority and a fallback. -/
def pair (first second : Nat) (hfirst : 0 < first) (hsecond : 0 < second) : Query where
  registrations := [⟨1, 1, first, hfirst⟩, ⟨2, 1, second, hsecond⟩, ⟨3, 0, 1, Nat.one_pos⟩]
  distinct := by simp
  eligible := fun _ => true

/-- Weights 2 and 1 beside a fallback: the counter advances by 2 and is read modulo 3. -/
theorem weighted_round_robin_pair : (pair 2 1 (by decide) (by decide)).Exact 0 :=
  (weighted_round_robin.2 (by decide) (by decide)).mpr (by decide)

/-- Equal weights beside a fallback: both calls put the same provider first. -/
theorem pair_not_exact : ¬ (pair 1 1 (by decide) (by decide)).Exact 0 := by
  rintro ⟨results, hcalls, hcount⟩
  have hsame : (pair 1 1 (by decide) (by decide)).calls 2 0 =
      some (replicate 2 (pair 1 1 (by decide) (by decide)).registrations) := by decide
  obtain rfl := Option.some.inj (hsame.symm.trans hcalls)
  exact absurd (hcount ⟨2, 1, 1, Nat.one_pos⟩ (by decide)) (by decide)

end Query

end MiniGo.Rpc.Router
