/-
Counting along a stride.

A counter that advances by a fixed step and is read modulo a size visits the
residues of one class modulo the greatest common divisor of the two, each of them
equally often. Nothing here depends on what the residues stand for.
-/
import Mathlib.Data.Nat.Count
import Mathlib.Data.Nat.ModEq
import Mathlib.Data.Nat.GCD.Basic

namespace MiniGo.Stride

/-- Over several periods a periodic predicate holds a multiple of one period's count. -/
theorem count_periods {p : Nat → Prop} [DecidablePred p] {period : Nat}
    (hp : ∀ k, p (period + k) ↔ p k) (times : Nat) :
    Nat.count p (period * times) = times * Nat.count p period := by
  induction times with
  | zero => simp
  | succ times ih =>
    rw [Nat.mul_succ, Nat.add_comm, Nat.count_add, Nat.succ_mul, Nat.add_comm, ← ih]
    simp [hp]

/-- A step coprime to the size visits every residue once. -/
theorem count_coprime (p : Nat → Prop) [DecidablePred p] (start : Nat) {step size : Nat}
    (hc : step.Coprime size) :
    Nat.count (fun k => p ((start + k * step) % size)) size = Nat.count p size := by
  set visit := fun k => (start + k * step) % size
  have hinj : Set.InjOn visit (Finset.range size) := by
    intro left hl right hr heq
    have hmod : left * step ≡ right * step [MOD size] := Nat.ModEq.add_left_cancel' start heq
    have hs := Nat.ModEq.cancel_right_of_coprime hc.symm hmod
    exact hs.eq_of_lt_of_lt (Finset.mem_range.mp hl) (Finset.mem_range.mp hr)
  have hi : (Finset.range size).image visit = Finset.range size := by
    refine Finset.eq_of_subset_of_card_le ?_ (Finset.card_image_of_injOn hinj).ge
    intro value hv
    obtain ⟨k, hk, rfl⟩ := Finset.mem_image.mp hv
    exact Finset.mem_range.mpr (Nat.mod_lt _ (Nat.zero_lt_of_lt (Finset.mem_range.mp hk)))
  rw [Nat.count_eq_card_filter_range, Nat.count_eq_card_filter_range]
  conv_rhs => rw [← hi, Finset.filter_image]
  exact (Finset.card_image_of_injOn (hinj.mono (Finset.filter_subset _ _))).symm

/-- Any step visits the residues of its class modulo the greatest common divisor, each
of them as often as that divisor says. -/
theorem count_stride (p : Nat → Prop) [DecidablePred p] (start step : Nat) {size : Nat}
    (hs : 0 < size) :
    Nat.count (fun k => p ((start + k * step) % size)) size = step.gcd size *
      Nat.count (fun k => p (start % step.gcd size + step.gcd size * k))
        (size / step.gcd size) := by
  have hc := Nat.coprime_div_gcd_div_gcd (Nat.gcd_pos_of_pos_right step hs)
  have hst := Nat.mul_div_cancel' (Nat.gcd_dvd_left step size)
  have hw := Nat.mul_div_cancel' (Nat.gcd_dvd_right step size)
  have hpos := Nat.gcd_pos_of_pos_right step hs
  generalize step.gcd size = d at *
  generalize step / d = g at *
  generalize size / d = n at *
  subst hst hw
  rw [← count_coprime (fun k => p (start % d + d * k)) (start / d) hc]
  have hv (k : Nat) : (start + k * (d * g)) % (d * n) =
      start % d + d * ((start / d + k * g) % n) := by
    rw [Nat.mod_mul, Nat.mul_left_comm, Nat.add_mul_mod_self_left,
      Nat.add_mul_div_left _ _ hpos]
  simp only [hv]
  rw [Nat.mul_comm d n]
  refine count_periods (fun k => ?_) d
  rw [Nat.add_mul, ← Nat.add_assoc, Nat.add_right_comm, Nat.add_mul_mod_self_left]

end MiniGo.Stride
