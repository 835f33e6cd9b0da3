/-
Codes whose concatenations can be read back.

No codeword of a prefix-free code begins another, so a codeword at the front of
a text is known; a sequence of them is known when a symbol that begins none of
them ends it. Numerals in a base are told apart by their digits.
-/
import Mathlib

namespace MiniGo.Lib

open List Nat

variable {α β : Type}

/-- No codeword begins another. -/
def PrefixFree (encode : α → List β) : Prop :=
  ∀ first second, encode first <+: encode second → first = second

variable {encode : α → List β} {rest rest' : List β}

theorem PrefixFree.cancel (hf : PrefixFree encode) {first second : α}
    (heq : encode first ++ rest = encode second ++ rest') :
    first = second ∧ rest = rest' := by
  have hs : first = second := by
    have ho : encode first <+: encode second ++ rest' := ⟨rest, heq⟩
    rcases prefix_or_prefix_of_prefix ho (prefix_append _ _) with h | h
    · exact hf _ _ h
    · exact (hf _ _ h).symm
  subst hs
  exact ⟨rfl, append_cancel_left heq⟩

/-- A sequence of codewords up to a symbol that begins none of them. -/
theorem PrefixFree.cancel_flatMap (hf : PrefixFree encode)
    {stop : β} (hs : ∀ symbol, ∃ head tail, encode symbol = head :: tail ∧ head ≠ stop)
    {first second : List α}
    (heq : first.flatMap encode ++ stop :: rest = second.flatMap encode ++ stop :: rest') :
    first = second ∧ rest = rest' := by
  induction first generalizing second with
  | nil =>
    cases second with
    | nil => simpa using heq
    | cons symbol second =>
      obtain ⟨head, tail, hc, hne⟩ := hs symbol
      simp [hc] at heq
      exact absurd heq.1.symm hne
  | cons symbol first ih =>
    cases second with
    | nil =>
      obtain ⟨head, tail, hc, hne⟩ := hs symbol
      simp [hc] at heq
      exact absurd heq.1 hne
    | cons other second =>
      simp only [flatMap_cons, append_assoc] at heq
      obtain ⟨rfl, hr⟩ := hf.cancel heq
      obtain ⟨rfl, rfl⟩ := ih hr
      exact ⟨rfl, rfl⟩

/-- The longest part of some kind at the front of a text. -/
theorem cancel_of_forall {kind : β → Prop} {first second : List β}
    (hf : ∀ symbol ∈ first, kind symbol) (hs : ∀ symbol ∈ second, kind symbol)
    (hr : ∀ symbol ∈ rest.head?, ¬ kind symbol)
    (hre : ∀ symbol ∈ rest'.head?, ¬ kind symbol)
    (heq : first ++ rest = second ++ rest') : first = second ∧ rest = rest' := by
  induction first generalizing second with
  | nil =>
    cases second with
    | nil => exact ⟨rfl, heq⟩
    | cons symbol second =>
      rw [nil_append] at heq
      exact absurd (hs symbol (by simp)) (hr symbol (by simp [heq]))
  | cons symbol first ih =>
    rw [forall_mem_cons] at hf
    cases second with
    | nil =>
      rw [nil_append] at heq
      exact absurd hf.1 (hre symbol (by simp [← heq]))
    | cons other second =>
      rw [forall_mem_cons] at hs
      obtain ⟨rfl, hr⟩ := cons.inj heq
      obtain ⟨rfl, rfl⟩ := ih hf.2 hs.2 hr
      exact ⟨rfl, rfl⟩

theorem digitChar_injective {first second : Nat} (hf : first < 16)
    (hs : second < 16) (heq : first.digitChar = second.digitChar) :
    first = second := by
  have hall : ∀ first < 16, ∀ second < 16,
      first.digitChar = second.digitChar → first = second := by decide
  exact hall first hf second hs heq

/-- Numerals in a base up to sixteen. -/
theorem toDigits_injective {base : Nat} (hb : 1 < base) (hle : base ≤ 16)
    {first second : Nat} (heq : toDigits base first = toDigits base second) :
    first = second := by
  induction first using Nat.strongRecOn generalizing second with
  | ind first ih =>
    have hlen : ∀ num, base ≤ num → 2 ≤ (toDigits base num).length := by
      intro num hn
      rw [toDigits_of_base_le hb hn, length_append]
      have := @length_toDigits_pos base (num / base)
      simp only [length_singleton]
      omega
    by_cases hs : first < base
    · by_cases ho : second < base
      · rw [toDigits_of_lt_base hs, toDigits_of_lt_base ho] at heq
        exact digitChar_injective (by omega) (by omega) (cons.inj heq).1
      · have := hlen second (by omega)
        rw [← heq, toDigits_of_lt_base hs] at this
        simp at this
    · by_cases ho : second < base
      · have := hlen first (by omega)
        rw [heq, toDigits_of_lt_base ho] at this
        simp at this
      · rw [toDigits_of_base_le hb (Nat.le_of_not_lt hs),
          toDigits_of_base_le hb (Nat.le_of_not_lt ho)] at heq
        obtain ⟨hh, hl⟩ := append_inj' heq rfl
        have hq := ih (first / base) (Nat.div_lt_self (by omega) hb) hh
        have hr : first % base = second % base :=
          digitChar_injective (by have := mod_lt first (by omega : base > 0); omega)
            (by have := mod_lt second (by omega : base > 0); omega) (cons.inj hl).1
        rw [← div_add_mod first base, hq, hr, div_add_mod]

theorem mem_toDigits {base num : Nat} (hb : 1 < base) (hle : base ≤ 16) {digit : Char}
    (hd : digit ∈ toDigits base num) : ∃ val < 16, digit = val.digitChar := by
  induction num using Nat.strongRecOn with
  | ind num ih =>
    by_cases hs : num < base
    · rw [toDigits_of_lt_base hs, mem_singleton] at hd
      exact ⟨num, by omega, hd⟩
    · rw [toDigits_of_base_le hb (by omega), mem_append, mem_singleton] at hd
      rcases hd with hd | hd
      · exact ih (num / base) (Nat.div_lt_self (by omega) hb) hd
      · have := mod_lt num (by omega : base > 0)
        exact ⟨num % base, by omega, hd⟩

end MiniGo.Lib
