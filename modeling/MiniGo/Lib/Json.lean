/-
JSON texts as Go's `encoding/json` writes them.

A string is read as UTF-8. Its characters are copied or escaped; a byte that
belongs to none is replaced, so a string that is not UTF-8 shares its text with
others. Apart from that the text of a value determines the value.
-/
import MiniGo.Lib.Text

namespace MiniGo.Lib

open List

variable {byte : Nat}

section Runes

def isTail (byte : Nat) : Bool := 0x80 ≤ byte && byte ≤ 0xBF

/-- The bytes of one character. -/
def isRune : List Nat → Bool
  | [a] => a < 0x80
  | [a, b] => 0xC2 ≤ a && a ≤ 0xDF && isTail b
  | [a, b, c] =>
    (if a = 0xE0 then 0xA0 ≤ b && b ≤ 0xBF
      else if a = 0xED then 0x80 ≤ b && b ≤ 0x9F
      else 0xE1 ≤ a && a ≤ 0xEF && isTail b) && isTail c
  | [a, b, c, d] =>
    (if a = 0xF0 then 0x90 ≤ b && b ≤ 0xBF
      else if a = 0xF4 then 0x80 ≤ b && b ≤ 0x8F
      else 0xF1 ≤ a && a ≤ 0xF3 && isTail b) && isTail c && isTail d
  | _ => false

structure Rune where
  bytes : List Nat
  valid : isRune bytes = true
deriving Repr, DecidableEq

def runeOf (bytes : List Nat) : Option Rune :=
  if valid : isRune bytes = true then some ⟨bytes, valid⟩ else none

/-- The character at the front of a text, `DecodeRune`. -/
def leadingRune (text : List Nat) : Option Rune :=
  ((runeOf (text.take 1)).or (runeOf (text.take 2))).or
    ((runeOf (text.take 3)).or (runeOf (text.take 4)))

def runesFrom : Nat → List Nat → List (Option Rune)
  | _, [] => []
  | skip + 1, _ :: rest => runesFrom skip rest
  | 0, byte :: rest =>
    match leadingRune (byte :: rest) with
    | none => none :: runesFrom 0 rest
    | some rune => some rune :: runesFrom (rune.bytes.length - 1) rest

/-- The characters of a text; `none` is a byte that belongs to none. -/
def runes (text : List Nat) : List (Option Rune) := runesFrom 0 text

def validText (text : List Nat) : Prop := none ∉ runes text

theorem Rune.ext {first second : Rune} (heq : first.bytes = second.bytes) : first = second := by
  cases first
  cases second
  cases heq
  rfl

/-- The first byte of a character says how many there are. -/
def runeLength (byte : Nat) : Nat :=
  if byte < 0x80 then 1 else if byte < 0xE0 then 2 else if byte < 0xF0 then 3 else 4

variable {text : List Nat} {bytes : List Nat} {rest : List Nat}

theorem isRune_length (hr : isRune bytes = true) :
    ∃ byte rest, bytes = byte :: rest ∧ bytes.length = runeLength byte ∧ byte < 0xF5 := by
  unfold isRune isTail at hr
  split at hr
  · have hb := of_decide_eq_true hr
    refine ⟨_, _, rfl, ?_, by omega⟩
    rw [runeLength, if_pos hb]
    rfl
  · simp only [Bool.and_eq_true, decide_eq_true_eq] at hr
    refine ⟨_, _, rfl, ?_, by omega⟩
    rw [runeLength, if_neg (by omega), if_pos (by omega)]
    rfl
  · rename_i byte _ _
    have hb : 0xE0 ≤ byte ∧ byte ≤ 0xEF := by
      rw [Bool.and_eq_true] at hr
      have hf := hr.1
      split_ifs at hf
      · omega
      · omega
      · simp only [Bool.and_eq_true, decide_eq_true_eq] at hf
        omega
    refine ⟨_, _, rfl, ?_, by omega⟩
    rw [runeLength, if_neg (by omega), if_neg (by omega), if_pos (by omega)]
    rfl
  · rename_i byte _ _ _
    have hb : 0xF0 ≤ byte ∧ byte ≤ 0xF4 := by
      rw [Bool.and_eq_true, Bool.and_eq_true] at hr
      have hf := hr.1.1
      split_ifs at hf
      · omega
      · omega
      · simp only [Bool.and_eq_true, decide_eq_true_eq] at hf
        omega
    refine ⟨_, _, rfl, ?_, by omega⟩
    rw [runeLength, if_neg (by omega), if_neg (by omega), if_neg (by omega)]
    rfl
  · cases hr

theorem rune_prefixFree : PrefixFree Rune.bytes := by
  intro first second hbe
  obtain ⟨byte, rest, hf, hlen, -⟩ := isRune_length first.valid
  obtain ⟨byte', rest', hs, hl, -⟩ := isRune_length second.valid
  have hb : byte = byte' := by
    rw [hf, hs] at hbe
    exact (cons_prefix_cons.mp hbe).1
  refine Rune.ext (hbe.eq_of_length ?_)
  rw [hlen, hl, hb]

theorem runeOf_bytes (rune : Rune) : runeOf rune.bytes = some rune := dif_pos rune.valid

variable {rune : Rune}

theorem runeOf_eq_some (hr : runeOf bytes = some rune) : rune.bytes = bytes := by
  unfold runeOf at hr
  split_ifs at hr
  cases hr
  rfl

theorem rune_length_le (rune : Rune) : 1 ≤ rune.bytes.length ∧ rune.bytes.length ≤ 4 := by
  obtain ⟨byte, rest, -, hlen, -⟩ := isRune_length rune.valid
  rw [hlen, runeLength]
  split_ifs <;> omega

theorem leadingRune_append (rune : Rune) (rest : List Nat) :
    leadingRune (rune.bytes ++ rest) = some rune := by
  have hwh : runeOf ((rune.bytes ++ rest).take rune.bytes.length) = some rune := by
    rw [take_left, runeOf_bytes]
  have hs : ∀ count < rune.bytes.length, runeOf ((rune.bytes ++ rest).take count) = none := by
    intro count hc
    rw [take_append_of_le_length (Nat.le_of_lt hc)]
    rw [Option.eq_none_iff_forall_ne_some]
    intro other ho
    have hb := runeOf_eq_some ho
    have hbe : other.bytes <+: rune.bytes := hb ▸ take_prefix _ _
    have hlen := congrArg (·.bytes.length) (rune_prefixFree _ _ hbe)
    rw [hb] at hlen
    simp only [length_take] at hlen
    omega
  have hlen := rune_length_le rune
  obtain hlen | hlen | hlen | hlen : rune.bytes.length = 1 ∨
      rune.bytes.length = 2 ∨ rune.bytes.length = 3 ∨ rune.bytes.length = 4 := by omega
  all_goals
    rw [hlen] at hwh hs
    unfold leadingRune
    simp [hwh, hs]

theorem leadingRune_eq_some (hr : leadingRune text = some rune) : ∃ rest, text =
    rune.bytes ++ rest := by
  have ht : ∀ count, runeOf (text.take count) = some rune → ∃ rest, text = rune.bytes ++ rest := by
    intro count hc
    refine ⟨text.drop count, ?_⟩
    rw [runeOf_eq_some hc, take_append_drop]
  unfold leadingRune at hr
  simp only [Option.or_eq_some_iff] at hr
  rcases hr with (h | ⟨-, h⟩) | ⟨-, h | ⟨-, h⟩⟩ <;> exact ht _ h

theorem runesFrom_append (skipped rest : List Nat) :
    runesFrom skipped.length (skipped ++ rest) = runes rest := by
  induction skipped with
  | nil => rfl
  | cons byte skipped ih => exact ih

theorem runes_append (rune : Rune) (rest : List Nat) :
    runes (rune.bytes ++ rest) = some rune :: runes rest := by
  obtain ⟨byte, tail, hb, -⟩ := isRune_length rune.valid
  have hl := leadingRune_append rune rest
  rw [hb, cons_append] at hl
  rw [hb, cons_append, runes, runesFrom, hl]
  dsimp only
  rw [hb, length_cons, Nat.add_sub_cancel, runesFrom_append]

theorem runes_cons (hl : leadingRune (byte :: rest) = none) :
    runes (byte :: rest) = none :: runes rest := by
  rw [runes, runesFrom, hl]
  rfl

/-- A text is read character by character. -/
theorem text_induction {motive : List Nat → Prop} (nil : motive [])
    (rune : ∀ (rune : Rune) rest, motive rest → motive (rune.bytes ++ rest))
    (byte : ∀ byte rest, leadingRune (byte :: rest) = none → motive rest → motive (byte :: rest))
    (text : List Nat) : motive text := by
  induction hlen : text.length using Nat.strongRecOn generalizing text with
  | ind length ih =>
    cases text with
    | nil => exact nil
    | cons head tail =>
      cases hl : leadingRune (head :: tail) with
      | none =>
        refine byte _ _ hl (ih tail.length ?_ tail rfl)
        rw [← hlen]
        exact Nat.lt_succ_self _
      | some first =>
        obtain ⟨rest, hr⟩ := leadingRune_eq_some hl
        rw [hr]
        refine rune _ _ (ih rest.length ?_ rest rfl)
        have := (rune_length_le first).1
        rw [← hlen, hr, length_append]
        omega

theorem runes_flatMap (hv : validText text) :
    (runes text).flatMap (fun symbol => (symbol.map Rune.bytes).getD []) = text := by
  induction text using text_induction with
  | nil => rfl
  | rune rune rest ih =>
    rw [validText, runes_append, mem_cons, not_or] at hv
    rw [runes_append, flatMap_cons, ih hv.2]
    rfl
  | byte byte rest hl ih =>
    rw [validText, runes_cons hl] at hv
    exact absurd mem_cons_self hv

/-- A text that is UTF-8 is known from its characters. -/
theorem runes_injective {first second : List Nat} (hvl : validText first)
    (heq : runes first = runes second) : first = second := by
  have hv : validText second := by rwa [validText, ← heq]
  rw [← runes_flatMap hvl, heq, runes_flatMap hv]

/-- A text that is not UTF-8 is not. -/
theorem exists_twin (hi : ¬ validText text) : ∃ twin, twin ≠ text ∧ runes twin = runes text := by
  induction text using text_induction with
  | nil => exact absurd not_mem_nil hi
  | rune rune rest ih =>
    rw [validText, runes_append, mem_cons, not_or, not_and, not_not] at hi
    obtain ⟨twin, hne, hr⟩ := ih (not_not.mpr (hi (by simp)))
    refine ⟨rune.bytes ++ twin, fun heq => hne (append_cancel_left heq), ?_⟩
    rw [runes_append, runes_append, hr]
  | byte byte rest hl ih =>
    -- no character begins with either of these bytes
    have hnone : ∀ other, other = 0xFE ∨ other = 0xFF → leadingRune (other :: rest) = none := by
      intro other ho
      rw [Option.eq_none_iff_forall_ne_some]
      intro rune hru
      obtain ⟨tail, ht⟩ := leadingRune_eq_some hru
      obtain ⟨first, _, hby, -, hf⟩ := isRune_length rune.valid
      rw [hby] at ht
      cases ht
      omega
    by_cases hb : byte = 0xFF
    · refine ⟨0xFE :: rest, by simp [hb], ?_⟩
      rw [runes_cons hl, runes_cons (hnone _ (.inl rfl))]
    · refine ⟨0xFF :: rest, by simpa using fun h => hb h.symm, ?_⟩
      rw [runes_cons hl, runes_cons (hnone _ (.inr rfl))]

theorem validText_ascii (ha : ∀ byte ∈ text, byte < 0x80) :
    validText text := by
  induction text with
  | nil => exact not_mem_nil
  | cons byte rest ih =>
    rw [forall_mem_cons] at ha
    have hr : isRune [byte] = true := by simpa [isRune] using ha.1
    have hap := runes_append ⟨[byte], hr⟩ rest
    rw [singleton_append] at hap
    rw [validText, hap, mem_cons, not_or]
    exact ⟨by simp, ih ha.2⟩

/-- Only the first byte of a character can begin one. -/
theorem isRune_tail (hr : isRune (byte :: rest) = true) :
    isTail byte = false ∧ ∀ other ∈ rest, isTail other = true := by
  match rest, hr with
  | [], hr =>
    simp only [isRune, decide_eq_true_eq] at hr
    simp [isTail]
    omega
  | [b], hr =>
    simp only [isRune, Bool.and_eq_true, decide_eq_true_eq] at hr
    refine ⟨?_, by simpa using hr.2⟩
    simp [isTail]
    omega
  | [b, c], hr =>
    simp only [isRune, Bool.and_eq_true] at hr
    have hf : 0xC0 ≤ byte ∧ isTail b = true := by
      obtain ⟨hf, -⟩ := hr
      split_ifs at hf <;>
        simp only [isTail, Bool.and_eq_true, decide_eq_true_eq] at hf ⊢ <;> omega
    refine ⟨?_, by simpa using ⟨hf.2, hr.2⟩⟩
    simp [isTail]
    omega
  | [b, c, d], hr =>
    simp only [isRune, Bool.and_eq_true] at hr
    have hf : 0xC0 ≤ byte ∧ isTail b = true := by
      obtain ⟨⟨hf, -⟩, -⟩ := hr
      split_ifs at hf <;>
        simp only [isTail, Bool.and_eq_true, decide_eq_true_eq] at hf ⊢ <;> omega
    refine ⟨?_, by simpa using ⟨hf.2, hr.1.2, hr.2⟩⟩
    simp [isTail]
    omega

theorem validText_append_left : validText (rune.bytes ++ text) ↔ validText text := by
  rw [validText, runes_append, mem_cons, not_or]
  exact ⟨And.right, fun hv => ⟨by simp, hv⟩⟩

/-- Without its last character a text is still UTF-8. -/
theorem validText_of_append (hv : validText (text ++ rune.bytes)) : validText text := by
  induction text using text_induction with
  | nil => exact not_mem_nil
  | rune first rest ih =>
    rw [append_assoc, validText_append_left] at hv
    exact validText_append_left.mpr (ih hv)
  | byte byte rest hl ih =>
    -- the character that begins here would have to end inside the last one
    cases hwh : leadingRune (byte :: (rest ++ rune.bytes)) with
    | none =>
      rw [cons_append, validText, runes_cons hwh] at hv
      exact absurd mem_cons_self hv
    | some first =>
      obtain ⟨after, ha⟩ := leadingRune_eq_some hwh
      rw [← cons_append] at ha
      rcases append_eq_append_iff.mp ha with ⟨part, hf, hla⟩ | ⟨part, hf, hla⟩
      · obtain ⟨head, tail, hb, -⟩ := isRune_length rune.valid
        have hr := rune.valid
        rw [hb] at hr
        cases part with
        | nil =>
          rw [append_nil] at hf
          have h := leadingRune_append first []
          rw [append_nil, hf, hl] at h
          cases h
        | cons other part =>
          rw [hb, cons_append] at hla
          obtain ⟨rfl, -⟩ := cons.inj hla
          have hwh := first.valid
          rw [hf, cons_append] at hwh
          have ht := (isRune_tail hwh).2 head (by simp)
          rw [(isRune_tail hr).1] at ht
          cases ht
      · have h := leadingRune_append first part
        rw [← hf, hl] at h
        cases h

end Runes

section Strings

def ascii (text : String) : List Nat := text.toList.map Char.toNat

def hexDigit (value : Nat) : Nat := value.digitChar.toNat

/-- A character of one byte; `<`, `>` and `&` are escaped for HTML. -/
def escapeByte (byte : Nat) : List Nat :=
  if byte = 0x22 ∨ byte = 0x5C then [0x5C, byte]
  else if byte = 0x08 then ascii "\\b"
  else if byte = 0x0C then ascii "\\f"
  else if byte = 0x0A then ascii "\\n"
  else if byte = 0x0D then ascii "\\r"
  else if byte = 0x09 then ascii "\\t"
  else if byte < 0x20 ∨ byte = 0x3C ∨ byte = 0x3E ∨ byte = 0x26 then
    ascii "\\u00" ++ [hexDigit (byte / 16), hexDigit (byte % 16)]
  else [byte]

def escapeBytes : List Nat → List Nat
  | [byte] => escapeByte byte
  | bytes =>
    if bytes = [0xE2, 0x80, 0xA8] then ascii "\\u2028"
    else if bytes = [0xE2, 0x80, 0xA9] then ascii "\\u2029"
    else bytes

def escapeRune : Option Rune → List Nat
  | none => ascii "\\ufffd"
  | some rune => escapeBytes rune.bytes

def quote (text : List (Option Rune)) : List Nat :=
  0x22 :: (text.flatMap escapeRune ++ [0x22])

/-- The codes of the characters that are not copied. -/
inductive Escaped : Option Rune → List Nat → Prop
  | byte {byte : Nat} {valid : isRune [byte] = true} :
      Escaped (some ⟨[byte], valid⟩) (escapeByte byte)
  | invalid : Escaped none (ascii "\\ufffd")
  | lineSeparator {valid : isRune [0xE2, 0x80, 0xA8] = true} :
      Escaped (some ⟨[0xE2, 0x80, 0xA8], valid⟩) (ascii "\\u2028")
  | paragraphSeparator {valid : isRune [0xE2, 0x80, 0xA9] = true} :
      Escaped (some ⟨[0xE2, 0x80, 0xA9], valid⟩) (ascii "\\u2029")

theorem escapeRune_cases (symbol : Option Rune) : Escaped symbol (escapeRune symbol) ∨
      ∃ rune, symbol = some rune ∧ escapeRune symbol = rune.bytes ∧
        ∃ byte rest, rune.bytes = byte :: rest ∧ 0x80 ≤ byte := by
  rcases symbol with - | ⟨bytes, valid⟩
  · exact .inl .invalid
  · rw [escapeRune]
    by_cases hs : ∃ byte, bytes = [byte]
    · obtain ⟨byte, rfl⟩ := hs
      exact .inl .byte
    · have hc : escapeBytes bytes = if bytes = [0xE2, 0x80, 0xA8] then ascii "\\u2028"
          else if bytes = [0xE2, 0x80, 0xA9] then ascii "\\u2029" else bytes := by
        unfold escapeBytes
        split
        · exact absurd ⟨_, rfl⟩ hs
        · rfl
      rw [hc]
      split_ifs with hl hp
      · subst hl
        exact .inl .lineSeparator
      · subst hp
        exact .inl .paragraphSeparator
      · refine .inr ⟨⟨bytes, valid⟩, rfl, rfl, ?_⟩
        obtain ⟨byte, rest, rfl, hlen, -⟩ := isRune_length valid
        refine ⟨byte, rest, rfl, ?_⟩
        by_contra hlo
        rw [runeLength, if_pos (by omega), length_cons] at hlen
        have hr : rest = [] := eq_nil_of_length_eq_zero (by omega)
        exact hs ⟨byte, by rw [hr]⟩

def escapedBytes : List Nat :=
  (List.range 0x80).filter fun byte => escapeByte byte ≠ [byte]

theorem mem_escapedBytes (hb : byte < 0x80) : byte ∈ escapedBytes ↔ escapeByte byte ≠ [byte] := by
  simp [escapedBytes, hb]

theorem escapedBytes_prefixFree : ∀ first ∈ escapedBytes, ∀ second ∈ escapedBytes,
    escapeByte first <+: escapeByte second → first = second := by
  decide +kernel

theorem escapedBytes_head : ∀ byte ∈ escapedBytes, (escapeByte byte).head? = some 0x5C := by
  decide +kernel

theorem escapeByte_prefixFree {first second : Nat} (hf : first < 0x80)
    (hsn : second < 0x80) (hb : escapeByte first <+: escapeByte second) :
    first = second := by
  have hs : (0x5C : Nat) ∈ escapedBytes := by decide +kernel
  by_cases hcop : first ∈ escapedBytes
  · by_cases hco : second ∈ escapedBytes
    · exact escapedBytes_prefixFree _ hcop _ hco hb
    · -- only the code of the backslash itself could begin so
      have hc := not_not.mp (mt (mem_escapedBytes hsn).mpr hco)
      obtain ⟨tail, ht⟩ := head?_eq_some_iff.mp (escapedBytes_head _ hcop)
      rw [ht, hc] at hb
      rw [← (cons_prefix_cons.mp hb).1] at hco
      exact absurd hs hco
  · have hc := not_not.mp (mt (mem_escapedBytes hf).mpr hcop)
    rw [hc] at hb
    by_cases hco : second ∈ escapedBytes
    · obtain ⟨tail, ht⟩ := head?_eq_some_iff.mp (escapedBytes_head _ hco)
      rw [ht] at hb
      rw [(cons_prefix_cons.mp hb).1] at hcop
      exact absurd hs hcop
    · rw [not_not.mp (mt (mem_escapedBytes hsn).mpr hco)] at hb
      exact (cons_prefix_cons.mp hb).1

theorem escapeByte_head : ∀ byte < 0x80,
    ∃ head ∈ (escapeByte byte).head?, head < 0x80 ∧ head ≠ 0x22 := by
  decide +kernel

theorem escapeByte_long : ∀ byte < 0x80,
    ∀ code ∈ [ascii "\\ufffd", ascii "\\u2028", ascii "\\u2029"],
      ¬ escapeByte byte <+: code ∧ ¬ code <+: escapeByte byte := by
  decide +kernel

theorem isRune_byte (hv : isRune [byte] = true) : byte < 0x80 := of_decide_eq_true hv

theorem Escaped.head {symbol : Option Rune} {code : List Nat} (hc : Escaped symbol code) :
    ∃ head tail, code = head :: tail ∧ head < 0x80 ∧ head ≠ 0x22 := by
  cases hc with
  | @byte byte valid =>
    obtain ⟨head, hh, hr⟩ := escapeByte_head byte (isRune_byte valid)
    obtain ⟨tail, ht⟩ := head?_eq_some_iff.mp hh
    exact ⟨head, tail, ht, hr⟩
  | invalid | lineSeparator | paragraphSeparator => exact ⟨0x5C, _, rfl, by decide, by decide⟩

theorem Escaped.prefixFree {first second : Option Rune} {code code' : List Nat}
    (hf : Escaped first code) (hs : Escaped second code')
    (hb : code <+: code') : first = second := by
  have hl : ∀ byte, isRune [byte] = true →
      ∀ code ∈ [ascii "\\ufffd", ascii "\\u2028", ascii "\\u2029"],
        ¬ escapeByte byte <+: code ∧ ¬ code <+: escapeByte byte :=
    fun byte hv => escapeByte_long byte (isRune_byte hv)
  cases hf with
  | @byte byte valid =>
    cases hs with
    | @byte other valid' =>
      cases escapeByte_prefixFree (isRune_byte valid) (isRune_byte valid') hb
      rfl
    | invalid | lineSeparator | paragraphSeparator => exact absurd hb (hl byte valid _ (by simp)).1
  | invalid | lineSeparator | paragraphSeparator =>
    cases hs with
    | @byte other valid' => exact absurd hb (hl other valid' _ (by simp)).2
    | invalid | lineSeparator | paragraphSeparator =>
      first
      | rfl
      | exact absurd hb (by decide +kernel)

theorem escapeRune_head (symbol : Option Rune) :
    ∃ head tail, escapeRune symbol = head :: tail ∧ head ≠ 0x22 := by
  rcases escapeRune_cases symbol with he | ⟨rune, -, hc, byte, rest, hby, hb⟩
  · obtain ⟨head, tail, hc, -, hne⟩ := he.head
    exact ⟨head, tail, hc, hne⟩
  · exact ⟨byte, rest, hc.trans hby, by omega⟩

theorem escapeRune_prefixFree : PrefixFree escapeRune := by
  intro first second hbe
  rcases escapeRune_cases first with hf | ⟨rune, rfl, hc, byte, rest, hby, hb⟩
  · rcases escapeRune_cases second with
      hs | ⟨rune', rfl, hco, byte', rest', hbyt, hbyte'⟩
    · exact hf.prefixFree hs hbe
    · obtain ⟨head, tail, hh, hl, -⟩ := hf.head
      rw [hh, hco, hbyt] at hbe
      have := (cons_prefix_cons.mp hbe).1
      omega
  · rcases escapeRune_cases second with
      hs | ⟨rune', rfl, hco, byte', rest', hbyt, hbyte'⟩
    · obtain ⟨head, tail, hh, hl, -⟩ := hs.head
      rw [hh, hc, hby] at hbe
      have := (cons_prefix_cons.mp hbe).1
      omega
    · rw [hc, hco] at hbe
      rw [rune_prefixFree _ _ hbe]

theorem quote_cancel {first second : List (Option Rune)} {rest rest' : List Nat}
    (heq : quote first ++ rest = quote second ++ rest') : first = second ∧ rest = rest' := by
  rw [quote, quote] at heq
  simp only [cons_append, append_assoc, cons.injEq, true_and, nil_append] at heq
  exact escapeRune_prefixFree.cancel_flatMap escapeRune_head heq

end Strings

section Values

/-- A value with its strings as characters. -/
inductive Json where
  | bool (value : Bool)
  | number (value : Int)
  | string (value : List (Option Rune))
  | array (items : List Json)
  | object (fields : List (List (Option Rune) × Json))

def decimal (number : Nat) : List Nat := (Nat.toDigits 10 number).map Char.toNat

def integerText : Int → List Nat
  | .ofNat number => decimal number
  | .negSucc number => 0x2D :: decimal (number + 1)

mutual

/-- `json.Marshal`. -/
def Json.marshal : Json → List Nat
  | .bool value => ascii (if value then "true" else "false")
  | .number value => integerText value
  | .string value => quote value
  | .array [] => ascii "[]"
  | .array (item :: rest) => ascii "[" ++ item.marshal ++ marshalItems rest
  | .object [] => ascii "\x7b\x7d"
  | .object ((name, value) :: rest) =>
    ascii "\x7b" ++ quote name ++ ascii ":" ++ value.marshal ++ marshalFields rest

def marshalItems : List Json → List Nat
  | [] => ascii "]"
  | item :: rest => ascii "," ++ item.marshal ++ marshalItems rest

def marshalFields : List (List (Option Rune) × Json) → List Nat
  | [] => ascii "\x7d"
  | (name, value) :: rest =>
    ascii "," ++ quote name ++ ascii ":" ++ value.marshal ++ marshalFields rest

end

theorem Json.induction {motive : Json → Prop} (bool : ∀ val, motive (.bool val))
    (number : ∀ val, motive (.number val)) (string : ∀ val, motive (.string val))
    (array : ∀ items, (∀ item ∈ items, motive item) → motive (.array items))
    (object : ∀ fields, (∀ field ∈ fields, motive field.2) → motive (.object fields))
    (json : Json) : motive json :=
  @Json.rec motive (fun items => ∀ item ∈ items, motive item)
    (fun fields => ∀ field ∈ fields, motive field.2) (fun field => motive field.2)
    bool number string array object
    (fun _ h => by cases h) (fun _ _ hh ht => forall_mem_cons.mpr ⟨hh, ht⟩)
    (fun _ h => by cases h) (fun _ _ hh ht => forall_mem_cons.mpr ⟨hh, ht⟩)
    (fun _ _ h => h) json

def isDigit (byte : Nat) : Prop := 0x30 ≤ byte ∧ byte ≤ 0x39

/-- What follows a value does not begin with a digit. -/
def Ends (rest : List Nat) : Prop := ∀ byte ∈ rest.head?, ¬ isDigit byte

theorem isDigit_of_mem_decimal {num : Nat} (hb : byte ∈ decimal num) :
    isDigit byte := by
  obtain ⟨digit, hd, rfl⟩ := mem_map.mp hb
  have := Nat.isDigit_of_mem_toDigits (by decide) (by decide) hd
  rw [Char.isDigit, Bool.and_eq_true, decide_eq_true_eq, decide_eq_true_eq] at this
  exact this

variable {rest rest' : List Nat}

theorem decimal_cancel {first second : Nat} (hr : Ends rest)
    (hre : Ends rest') (heq : decimal first ++ rest = decimal second ++ rest') :
    first = second ∧ rest = rest' := by
  obtain ⟨hd, hs⟩ := cancel_of_forall
    (fun _ => isDigit_of_mem_decimal) (fun _ => isDigit_of_mem_decimal) hr hre heq
  refine ⟨?_, hs⟩
  have hc := map_injective_iff.mpr (fun _ _ => Char.toNat_inj.mp) hd
  exact toDigits_injective (by decide) (by decide) hc

theorem decimal_head (number : Nat) :
    ∃ head tail, decimal number = head :: tail ∧ isDigit head := by
  cases hd : decimal number with
  | nil => exact absurd hd (by simp [decimal, Nat.toDigits_ne_nil])
  | cons head tail =>
    have hmem : head ∈ decimal number := by simp [hd]
    exact ⟨head, tail, rfl, isDigit_of_mem_decimal hmem⟩

theorem integerText_cancel {first second : Int} (hr : Ends rest)
    (hre : Ends rest') (heq : integerText first ++ rest = integerText second ++ rest') :
    first = second ∧ rest = rest' := by
  have hs : ∀ num (tail tail' : List Nat), decimal num ++ tail ≠ 0x2D :: tail' := by
    intro num tail tail' heq
    obtain ⟨head, _, hh, hd⟩ := decimal_head num
    rw [hh] at heq
    rw [(cons.inj heq).1] at hd
    exact absurd hd (by unfold isDigit; omega)
  cases first with
  | ofNat num =>
    cases second with
    | ofNat other =>
      obtain ⟨rfl, rfl⟩ := decimal_cancel hr hre heq
      exact ⟨rfl, rfl⟩
    | negSucc other => exact absurd heq (hs _ _ _)
  | negSucc num =>
    cases second with
    | ofNat other => exact absurd heq.symm (hs _ _ _)
    | negSucc other =>
      obtain ⟨hsa, rfl⟩ := decimal_cancel hr hre (cons.inj heq).2
      cases Nat.succ.inj hsa
      exact ⟨rfl, rfl⟩

/-- The constructor of a value, and of what begins with a byte. -/
def Json.kind : Json → Nat
  | .bool _ => 0
  | .number _ => 1
  | .string _ => 2
  | .array _ => 3
  | .object _ => 4

def kindOf (byte : Nat) : Nat :=
  if byte = 0x74 ∨ byte = 0x66 then 0
  else if byte = 0x22 then 2
  else if byte = 0x5B then 3
  else if byte = 0x7B then 4
  else 1

theorem marshal_head (json : Json) :
    ∃ head tail, json.marshal = head :: tail ∧ kindOf head = json.kind ∧ head ≠ 0x5D := by
  have hn : ∀ byte, isDigit byte ∨ byte = 0x2D → kindOf byte = 1 ∧ byte ≠ 0x5D := by
    intro byte hb
    unfold isDigit at hb
    rw [kindOf, if_neg (by omega), if_neg (by omega), if_neg (by omega), if_neg (by omega)]
    exact ⟨rfl, by omega⟩
  cases json with
  | bool val => cases val <;> exact ⟨_, _, rfl, rfl, by decide⟩
  | number val =>
    cases val with
    | ofNat number =>
      obtain ⟨head, tail, ht, hd⟩ := decimal_head number
      exact ⟨head, tail, ht, hn head (.inl hd)⟩
    | negSucc number => exact ⟨_, _, rfl, hn _ (.inr rfl)⟩
  | string val => exact ⟨_, _, rfl, rfl, by decide⟩
  | array items => cases items <;> exact ⟨_, _, rfl, rfl, by decide⟩
  | object fields =>
    rcases fields with - | ⟨⟨name, val⟩, rest⟩ <;> exact ⟨_, _, rfl, rfl, by decide⟩

/-- The text of a value can be told from what follows it. -/
def Json.Readable (json : Json) : Prop :=
  ∀ (other : Json) (rest rest' : List Nat), Ends rest → Ends rest' →
    json.marshal ++ rest = other.marshal ++ rest' → json = other ∧ rest = rest'

theorem ends_marshalItems (items : List Json) (rest : List Nat) :
    Ends (marshalItems items ++ rest) := by
  intro byte hb
  cases items <;> (cases hb; unfold isDigit; decide)

theorem ends_marshalFields (fields : List (List (Option Rune) × Json)) (rest : List Nat) :
    Ends (marshalFields fields ++ rest) := by
  intro byte hb
  rcases fields with - | ⟨⟨name, val⟩, fields⟩ <;> (cases hb; unfold isDigit; decide)

theorem marshalItems_cancel {items items' : List Json} (hi : ∀ item ∈ items, item.Readable)
    (heq : marshalItems items ++ rest = marshalItems items' ++ rest') :
    items = items' ∧ rest = rest' := by
  induction items generalizing items' with
  | nil =>
    cases items' with
    | nil => exact ⟨rfl, (cons.inj heq).2⟩
    | cons item items' => exact absurd (cons.inj heq).1 (by decide)
  | cons item items ih =>
    rw [forall_mem_cons] at hi
    cases items' with
    | nil => exact absurd (cons.inj heq).1 (by decide)
    | cons item' items' =>
      rw [marshalItems, marshalItems] at heq
      simp only [append_assoc] at heq
      obtain ⟨rfl, ht⟩ := hi.1 _ _ _ (ends_marshalItems _ _)
        (ends_marshalItems _ _) (append_cancel_left heq)
      obtain ⟨rfl, rfl⟩ := ih hi.2 ht
      exact ⟨rfl, rfl⟩

theorem marshalFields_cancel {fields fields' : List (List (Option Rune) × Json)}
    (hf : ∀ field ∈ fields, field.2.Readable)
    (heq : marshalFields fields ++ rest = marshalFields fields' ++ rest') :
    fields = fields' ∧ rest = rest' := by
  induction fields generalizing fields' with
  | nil =>
    rcases fields' with - | ⟨⟨name, val⟩, fields'⟩
    · exact ⟨rfl, (cons.inj heq).2⟩
    · exact absurd (cons.inj heq).1 (by decide)
  | cons field fields ih =>
    obtain ⟨name, val⟩ := field
    rw [forall_mem_cons] at hf
    rcases fields' with - | ⟨⟨name', value'⟩, fields'⟩
    · exact absurd (cons.inj heq).1 (by decide)
    · rw [marshalFields, marshalFields] at heq
      simp only [append_assoc] at heq
      obtain ⟨rfl, ht⟩ := quote_cancel (append_cancel_left heq)
      obtain ⟨rfl, hr⟩ := hf.1 _ _ _ (ends_marshalFields _ _) (ends_marshalFields _ _)
        (append_cancel_left ht)
      obtain ⟨rfl, rfl⟩ := ih hf.2 hr
      exact ⟨rfl, rfl⟩

theorem marshal_kind {json other : Json}
    (heq : json.marshal ++ rest = other.marshal ++ rest') : json.kind = other.kind := by
  obtain ⟨head, tail, ht, hk, -⟩ := marshal_head json
  obtain ⟨he, tail', hte, hki, -⟩ := marshal_head other
  rw [ht, hte] at heq
  rw [← hk, ← hki, (cons.inj heq).1]

theorem Json.readable (json : Json) : json.Readable := by
  induction json using Json.induction with
  | bool val =>
    intro other rest rest' hr hre heq
    cases other with
    | bool value' =>
      cases val <;> cases value' <;> first
        | exact ⟨rfl, append_cancel_left heq⟩
        | exact absurd (cons.inj heq).1 (by decide)
    | _ => cases marshal_kind heq
  | number val =>
    intro other rest rest' hr hre heq
    cases other with
    | number value' =>
      obtain ⟨rfl, rfl⟩ := integerText_cancel hr hre heq
      exact ⟨rfl, rfl⟩
    | _ => cases marshal_kind heq
  | string val =>
    intro other rest rest' hr hre heq
    cases other with
    | string value' =>
      obtain ⟨rfl, rfl⟩ := quote_cancel heq
      exact ⟨rfl, rfl⟩
    | _ => cases marshal_kind heq
  | array items ih =>
    intro other rest rest' hr hre heq
    cases other with
    | array items' =>
      have hcl : ∀ (item : Json) (tail tail' : List Nat), item.marshal ++ tail ≠ 0x5D :: tail' := by
        intro item tail tail' hi
        obtain ⟨head, _, hte, -, hne⟩ := marshal_head item
        rw [hte] at hi
        exact hne (cons.inj hi).1
      cases items with
      | nil =>
        cases items' with
        | nil => exact ⟨rfl, append_cancel_left heq⟩
        | cons item' items' =>
          have ht : 0x5D :: rest = item'.marshal ++ marshalItems items' ++ rest' := (cons.inj heq).2
          rw [append_assoc] at ht
          exact absurd ht.symm (hcl _ _ _)
      | cons item items =>
        cases items' with
        | nil =>
          have ht : item.marshal ++ marshalItems items ++ rest = 0x5D :: rest' := (cons.inj heq).2
          rw [append_assoc] at ht
          exact absurd ht (hcl _ _ _)
        | cons item' items' =>
          -- as if a comma stood before the first item as well
          have hc : marshalItems (item :: items) ++ rest =
              marshalItems (item' :: items') ++ rest' :=
            congrArg (0x2C :: ·) (cons.inj heq).2
          obtain ⟨hit, rfl⟩ := marshalItems_cancel ih hc
          exact ⟨by rw [hit], rfl⟩
    | _ => cases marshal_kind heq
  | object fields ih =>
    intro other rest rest' hr hre heq
    cases other with
    | object fields' =>
      rcases fields with - | ⟨⟨name, val⟩, fields⟩
      · rcases fields' with - | ⟨⟨name', value'⟩, fields'⟩
        · exact ⟨rfl, append_cancel_left heq⟩
        · exact absurd (cons.inj (cons.inj heq).2).1 (by decide)
      · rcases fields' with - | ⟨⟨name', value'⟩, fields'⟩
        · exact absurd (cons.inj (cons.inj heq).2).1 (by decide)
        · have hc : marshalFields ((name, val) :: fields) ++ rest =
              marshalFields ((name', value') :: fields') ++ rest' :=
            congrArg (0x2C :: ·) (cons.inj heq).2
          obtain ⟨hf, rfl⟩ := marshalFields_cancel ih hc
          exact ⟨by rw [hf], rfl⟩
    | _ => cases marshal_kind heq

/-- Different values have different texts. -/
theorem marshal_injective {first second : Json} (heq : first.marshal = second.marshal) :
    first = second := by
  have he : Ends [] := by simp [Ends]
  exact (first.readable second [] [] he he (by rw [heq])).1

end Values

end MiniGo.Lib
