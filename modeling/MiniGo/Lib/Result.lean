/-
Results of fallible computations.

The rules that take a successful computation apart into its steps.
-/
import Mathlib

namespace MiniGo.Result

variable {ε α β : Type}

variable {first : Except ε α} {result : β}

theorem bind_eq_ok {next : α → Except ε β} :
    (first >>= next) = .ok result ↔ ∃ val, first = .ok val ∧ next val = .ok result := by
  cases first with
  | error fault => simp [bind, Except.bind]
  | ok val => simp [bind, Except.bind]

theorem map_eq_ok {next : α → β} :
    next <$> first = .ok result ↔ ∃ val, first = .ok val ∧ next val = result := by
  cases first with
  | error fault => simp [Functor.map, Except.map]
  | ok val => simp [Functor.map, Except.map]

theorem mem_of_mapM_eq_ok {step : α → Except ε β} {items : List α}
    {ress : List β} (hr : items.mapM step = .ok ress) :
    ∀ result ∈ ress, ∃ item ∈ items, step item = .ok result := by
  induction items generalizing ress with
  | nil =>
    cases hr
    simp
  | cons item rest ih =>
    rw [List.mapM_cons] at hr
    obtain ⟨first, hf, hr⟩ := bind_eq_ok.mp hr
    obtain ⟨others, ho, hr⟩ := bind_eq_ok.mp hr
    cases hr
    intro result hre
    rcases List.mem_cons.mp hre with rfl | hre
    · exact ⟨item, List.mem_cons_self, hf⟩
    · obtain ⟨src, hs, hst⟩ := ih ho result hre
      exact ⟨src, List.mem_cons_of_mem item hs, hst⟩

end MiniGo.Result
