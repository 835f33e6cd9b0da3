/-
Document positions and incremental edits (`compiler/language/position.go`, `document.go`).

`LineIndex` converts between the byte offsets of a text and the lines and UTF-16 characters of
the language server protocol; `DocumentStore.Change` edits a document through it. A valid UTF-8
text is the list of its characters, and a continuation byte is an offset at which no character
starts.
-/
import Mathlib.Data.List.Basic
import Mathlib.Data.List.Count
import Mathlib.Data.List.Induction

namespace MiniGo.Language

open List

structure Position where
  line : Int
  character : Int
deriving DecidableEq

@[grind] def size : List Char → Nat
  | [] => 0
  | value :: rest => value.utf8Size + size rest

@[grind] def width (value : Char) : Nat := if 0xffff < value.toNat then 2 else 1

@[grind] def units : List Char → Nat
  | [] => 0
  | value :: rest => width value + units rest

/-- `text[:offset]`, cut back to the last character that ends by `offset`. -/
@[grind] def takeBytes : Nat → List Char → List Char
  | _, [] => []
  | offset, value :: rest =>
    if value.utf8Size ≤ offset then value :: takeBytes (offset - value.utf8Size) rest else []

def dropBytes (offset : Nat) (text : List Char) : List Char :=
  text.drop (takeBytes offset text).length

/-- `text[start:stop]` -/
def slice (text : List Char) (start stop : Nat) : List Char :=
  takeBytes (stop - start) (dropBytes start text)

@[grind] def lineStarts : Nat → List Char → List Nat
  | _, [] => []
  | i, value :: rest =>
    if value = '\n' then (i + 1) :: lineStarts (i + 1) rest
    else lineStarts (i + value.utf8Size) rest

structure LineIndex where
  text : List Char
  starts : List Nat

def newLineIndex (text : List Char) : LineIndex := ⟨text, 0 :: lineStarts 0 text⟩

@[simp, grind =] theorem text_newLineIndex (text : List Char) :
    (newLineIndex text).text = text := rfl

/-- The line and the units of an offset; `sort.Search` finds the first line that starts later. -/
def LineIndex.locate (index : LineIndex) (offset : Nat) : Position :=
  let line := index.starts.findIdx (offset < ·) - 1
  ⟨line, units (slice index.text (index.starts.getD line 0) offset)⟩

/-- `LineIndex.Position`; `none` is `ErrInvalidPosition`. -/
def LineIndex.position (index : LineIndex) (offset : Int) : Option Position :=
  let before := takeBytes offset.toNat index.text
  let after := dropBytes offset.toNat index.text
  if offset < 0 ∨ size index.text < offset ∨ size before ≠ offset.toNat then none
  else if after.head? = some '\n' ∧ before.getLast? = some '\r' then
    some (index.locate (offset.toNat - 1))
  else some (index.locate offset.toNat)

/-- `text[start:end]` of `LineIndex.Offset`: a line without its line break. -/
def LineIndex.content (index : LineIndex) (line : Nat) : List Char :=
  let content := slice index.text (index.starts.getD line 0)
    (index.starts[line + 1]?.elim (size index.text) (· - 1))
  if line + 1 < index.starts.length ∧ content.getLast? = some '\r' then content.dropLast
  else content

/-- The loop of `LineIndex.Offset`. -/
@[grind] def scan (character : Nat) : List Char → Nat → Nat → Option Nat
  | [], offset, seen => if seen = character then some offset else none
  | value :: rest, offset, seen =>
    if seen = character then some offset
    else if character < seen + width value then none
    else scan character rest (offset + value.utf8Size) (seen + width value)

/-- `LineIndex.Offset` -/
def LineIndex.offset (index : LineIndex) (position : Position) : Option Nat :=
  if position.line < 0 ∨ index.starts.length ≤ position.line ∨ position.character < 0 then none
  else
    let line := position.line.toNat
    scan position.character.toNat (index.content line) (index.starts.getD line 0) 0

structure Range where
  start : Position
  stop : Position

structure ContentChange where
  range : Option Range
  text : List Char

inductive ChangeError where
  | documentNotFound
  | versionRollback
  | invalidPosition
  | fileTooLarge

/-- A document with the index of its text. -/
structure Document where
  version : Int
  text : List Char
  index : LineIndex
  opened : Bool
  indexed : index = newLineIndex text

structure DocumentStore where
  documents : String → Option Document
  maxFileBytes : Int

/-- The loop of `DocumentStore.Change`. -/
def applyChanges (text : List Char) (index : LineIndex) :
    List ContentChange → Except ChangeError (List Char)
  | [] => .ok text
  | change :: rest =>
    match change.range with
    | none => applyChanges change.text (newLineIndex change.text) rest
    | some range =>
      match index.offset range.start, index.offset range.stop with
      | some start, some stop =>
        if stop < start then .error .invalidPosition
        else
          let edited := takeBytes start text ++ change.text ++ dropBytes stop text
          applyChanges edited (newLineIndex edited) rest
      | _, _ => .error .invalidPosition

/-- `DocumentStore.Change`: the error it returns and the store it leaves. -/
def DocumentStore.change (store : DocumentStore) (uri : String) (version : Int)
    (changes : List ContentChange) : Option ChangeError × DocumentStore :=
  match store.documents uri with
  | none => (some .documentNotFound, store)
  | some document =>
    if version ≤ document.version then (some .versionRollback, store)
    else match applyChanges document.text document.index changes with
      | .error failure => (some failure, store)
      | .ok text =>
        if 0 < store.maxFileBytes ∧ store.maxFileBytes < size text then
          (some .fileTooLarge, store)
        else (none, { store with
          documents := Function.update store.documents uri
            (some ⟨version, text, newLineIndex text, true, rfl⟩) })

/-- Where a cursor stands after one more character: a line ends at its line feed. -/
@[grind] def Position.advance (position : Position) (value : Char) : Position :=
  if value = '\n' then ⟨position.line + 1, 0⟩
  else ⟨position.line, position.character + width value⟩

@[grind] def place (before : List Char) : Position := before.foldl Position.advance ⟨0, 0⟩

@[grind] def Position.Before (left right : Position) : Prop :=
  left.line < right.line ∨ left.line = right.line ∧ left.character < right.character

/-- The cut between `before` and `after` separates the two characters of a CRLF. -/
@[grind] abbrev Inside (before after : List Char) : Prop :=
  before.getLast? = some '\r' ∧ after.head? = some '\n'

/-- The position stands for the cut of the text into `before` and `after`. -/
structure Denotes (text : List Char) (position : Position) (before after : List Char) : Prop where
  cut : text = before ++ after
  outside : ¬ Inside before after
  placed : place before = position

/-- The changes applied one after the other, each to the text the ones before it left. -/
inductive Edits : List Char → List ContentChange → List Char → Prop
  | done (text : List Char) : Edits text [] text
  | whole {text new out : List Char} {rest : List ContentChange} (hrest : Edits new rest out) :
      Edits text (⟨none, new⟩ :: rest) out
  | ranged {text before middle after new out : List Char} {range : Range}
      {rest : List ContentChange} (hstart : Denotes text range.start before (middle ++ after))
      (hstop : Denotes text range.stop (before ++ middle) after)
      (hrest : Edits (before ++ new ++ after) rest out) :
      Edits text (⟨some range, new⟩ :: rest) out

/-! ## Sizes and lines -/

variable {text pre post line : List Char}

@[simp, grind =] theorem size_append : size (pre ++ post) = size pre + size post := by
  induction pre <;> grind

@[simp, grind =] theorem units_append : units (pre ++ post) = units pre + units post := by
  induction pre <;> grind

@[grind! .] theorem utf8Size_pos (value : Char) : 0 < value.utf8Size := value.utf8Size_pos

@[grind! .] theorem size_newline (value : Char) (hv : value = '\n') : value.utf8Size = 1 := hv ▸ rfl

@[grind .] theorem width_pos (value : Char) : 0 < width value := by grind

@[simp, grind =] theorem takeBytes_append : takeBytes (size pre) (pre ++ post) = pre := by
  induction pre with
  | nil => cases post <;> grind
  | cons value rest ih => grind

@[simp] theorem dropBytes_append : dropBytes (size pre) (pre ++ post) = post := by simp [dropBytes]

theorem slice_append : slice (pre ++ line ++ post) (size pre) (size pre + size line) = line := by
  simp [slice]

theorem exists_middle {front tail : List Char} (hcut : pre ++ tail = front ++ post)
    (hle : size pre ≤ size front) : ∃ mid, front = pre ++ mid ∧ tail = mid ++ post := by
  rcases append_eq_append_iff.mp hcut with ⟨mid, hf, ht⟩ | ⟨mid, rfl, rfl⟩
  · exact ⟨mid, hf, ht⟩
  · cases mid <;> grind

theorem lineStarts_append (i : Nat) :
    lineStarts i (pre ++ post) = lineStarts i pre ++ lineStarts (i + size pre) post := by
  induction pre generalizing i <;> grind

theorem length_lineStarts (i : Nat) : (lineStarts i text).length = text.count '\n' := by
  induction text generalizing i <;> grind

@[grind →] theorem mem_lineStarts {i start : Nat} (hmem : start ∈ lineStarts i text) :
    i < start ∧ start ≤ i + size text := by
  induction text generalizing i <;> grind

/-- `pre` reaches exactly up to the start of a line. -/
@[grind] def LineHead (pre : List Char) : Prop := pre = [] ∨ ∃ rest, pre = rest ++ ['\n']

/-- `line` is a whole line of the text; what follows it begins with its line feed. -/
@[grind] structure Line (text pre line post : List Char) : Prop where
  cut : text = pre ++ line ++ post
  head : LineHead pre
  free : '\n' ∉ line
  stop : post = [] ∨ ∃ rest, post = '\n' :: rest

theorem exists_lineHead {number : Nat} (text : List Char) (hn : number ≤ text.count '\n') :
    ∃ pre post, text = pre ++ post ∧ LineHead pre ∧ pre.count '\n' = number := by
  induction text using reverseRecOn with
  | nil => exact ⟨[], [], by grind⟩
  | append_singleton rest value ih =>
    by_cases hle : number ≤ rest.count '\n'
    · obtain ⟨pre, post, rfl, hh, hc⟩ := ih hle
      exact ⟨pre, post ++ [value], by simp, hh, hc⟩
    · -- only a final line feed adds a line
      exact ⟨rest ++ [value], [], by grind⟩

theorem exists_lastLine (text : List Char) :
    ∃ pre line, text = pre ++ line ∧ LineHead pre ∧ '\n' ∉ line := by
  obtain ⟨pre, line, rfl, hh, hc⟩ := exists_lineHead text (Nat.le_refl _)
  exact ⟨pre, line, rfl, hh, by grind⟩

theorem exists_lineEnd (text : List Char) :
    ∃ line post, text = line ++ post ∧ '\n' ∉ line ∧ (post = [] ∨ ∃ rest, post = '\n' :: rest) := by
  by_cases hmem : '\n' ∈ text
  · obtain ⟨line, rest, rfl, hl⟩ := eq_append_cons_of_mem hmem
    exact ⟨line, _, rfl, hl, .inr ⟨rest, rfl⟩⟩
  · exact ⟨text, [], by simp, hmem, .inl rfl⟩

theorem starts_lineHead (hh : LineHead pre) :
    (newLineIndex (pre ++ post)).starts[pre.count '\n']? = some (size pre) := by
  rcases hh with rfl | ⟨rest, rfl⟩
  · rfl
  · simp [newLineIndex, lineStarts_append, lineStarts, length_lineStarts, size, size_newline]

theorem findIdx_starts :
    (newLineIndex (pre ++ post)).starts.findIdx (size pre < ·) = pre.count '\n' + 1 := by
  have hpre : (0 :: lineStarts 0 pre).findIdx (size pre < ·) = pre.count '\n' + 1 := by
    rw [findIdx_eq_length.mpr (by grind), length_cons, length_lineStarts]
  have hpost : (lineStarts (size pre) post).findIdx (size pre < ·) = 0 := by
    cases hs : lineStarts (size pre) post with
    | nil => rfl
    | cons start rest =>
      have hmem : start ∈ lineStarts (size pre) post := by simp [hs]
      grind
  rw [newLineIndex, lineStarts_append, Nat.zero_add, ← cons_append, findIdx_append, hpre, hpost]
  simp [length_lineStarts]

/-! ## Places -/

theorem foldl_advance_line (position : Position) (hl : '\n' ∉ line) :
    line.foldl Position.advance position = ⟨position.line, position.character + units line⟩ := by
  induction line generalizing position with
  | nil => simp [units]
  | cons value rest ih => grind

theorem line_place : (place pre).line = pre.count '\n' := by
  induction pre using reverseRecOn <;> grind

theorem place_line (hh : LineHead pre) (hl : '\n' ∉ line) :
    place (pre ++ line) = ⟨pre.count '\n', units line⟩ := by
  rw [place, foldl_append, foldl_advance_line _ hl, ← place, line_place]
  rcases hh with rfl | ⟨rest, rfl⟩ <;> simp [place, Position.advance]

theorem place_before (value : Char) : (place pre).Before (place (pre ++ value :: post)) := by
  induction post using reverseRecOn with
  | nil => grind
  | append_singleton post next ih =>
    rw [← cons_append, ← append_assoc]
    grind

/-! ## Offsets to positions and back -/

/-- The line search and the unit count give the place of the cut they are asked for. -/
theorem locate_size : (newLineIndex (pre ++ post)).locate (size pre) = place pre := by
  obtain ⟨front, line, rfl, hh, hl⟩ := exists_lastLine pre
  have hc : (front ++ line).count '\n' = front.count '\n' := by grind
  have hs := @starts_lineHead front (line ++ post) hh
  rw [← append_assoc] at hs
  simp only [LineIndex.locate, findIdx_starts, hc, Nat.add_sub_cancel, getD_eq_getElem?_getD, hs]
  rw [Option.getD_some, text_newLineIndex, size_append, slice_append, place_line hh hl]

theorem position_size : (newLineIndex (pre ++ post)).position (size pre) =
    if Inside pre post then some ((newLineIndex (pre ++ post)).locate (size pre - 1))
    else some (place pre) := by
  have hg : ¬ ((size pre : Int) < 0 ∨ (size (pre ++ post) : Int) < size pre ∨
      size (takeBytes (size pre) (pre ++ post)) ≠ size pre) := by
    rw [takeBytes_append, size_append]
    omega
  rw [LineIndex.position, text_newLineIndex, Int.toNat_natCast, if_neg hg]
  simp [locate_size, and_comm]

theorem position_inside : (newLineIndex (pre ++ '\r' :: '\n' :: post)).position
    ↑(size pre + 1) = some (place pre) := by
  have hp := @position_size (pre ++ ['\r']) ('\n' :: post)
  have hs : size (pre ++ ['\r']) = size pre + 1 := size_append
  rw [if_pos ⟨by simp, rfl⟩, hs, append_assoc] at hp
  exact hp.trans (congrArg some locate_size)

theorem scan_reaches (offset seen : Nat) :
    scan (seen + units pre) (pre ++ post) offset seen = some (offset + size pre) := by
  induction pre generalizing offset seen with
  | nil => cases post <;> grind
  | cons value rest ih =>
    have hn := ih (offset + value.utf8Size) (seen + width value)
    grind

theorem scan_some {character offset seen result : Nat}
    (hs : scan character line offset seen = some result) :
    ∃ pre post, line = pre ++ post ∧ character = seen + units pre ∧
      result = offset + size pre := by
  induction line generalizing offset seen with
  | nil => exact ⟨[], [], by grind⟩
  | cons value rest ih =>
    by_cases hc : seen = character
    · exact ⟨[], value :: rest, by grind⟩
    · have hn : scan character rest (offset + value.utf8Size) (seen + width value) =
        some result := by grind
      obtain ⟨pre, post, rfl, hu, hr⟩ := ih hn
      exact ⟨value :: pre, post, by grind⟩

/-- The characters of a line that are not of its line break. -/
@[grind] def visible (line post : List Char) : List Char :=
  if post ≠ [] ∧ line.getLast? = some '\r' then line.dropLast else line

theorem content_line (hl : Line text pre line post) :
    (newLineIndex text).content (pre.count '\n') = visible line post := by
  obtain ⟨rfl, hh, hf, hstop⟩ := hl
  have hc : line.count '\n' = 0 := count_eq_zero_of_not_mem hf
  have hs := @starts_lineHead pre (line ++ post) hh
  rw [← append_assoc] at hs
  rw [LineIndex.content, getD_eq_getElem?_getD, hs, Option.getD_some, text_newLineIndex]
  rcases hstop with rfl | ⟨rest, rfl⟩
  · have hn : (newLineIndex (pre ++ line ++ [])).starts.length ≤ pre.count '\n' + 1 := by
      simp [newLineIndex, length_lineStarts, hc]
    have hz : size (pre ++ line ++ []) = size pre + size line := by simp
    rw [getElem?_eq_none hn, Option.elim_none, hz, slice_append, if_neg (by omega)]
    simp [visible]
  · have hn : (newLineIndex (pre ++ line ++ '\n' :: rest)).starts[pre.count '\n' + 1]? =
        some (size pre + size line + 1) := by
      simpa [hc, size, size_newline, Nat.add_assoc] using
        @starts_lineHead (pre ++ line ++ ['\n']) rest (.inr ⟨_, rfl⟩)
    have hlt := (List.getElem?_eq_some_iff.mp hn).1
    rw [hn, Option.elim_some, Nat.add_sub_cancel, slice_append, visible]
    simp only [hlt, ne_eq, reduceCtorEq, not_false_eq_true]

theorem visible_of_outside {front : List Char} (ho : ¬ Inside (pre ++ front) (line ++ post))
    (hp : post = [] ∨ ∃ rest, post = '\n' :: rest) :
    ∃ shown, visible (front ++ line) post = front ++ shown := by
  unfold visible
  split
  · next hb =>
    obtain ⟨rest, rfl⟩ := hp.resolve_left hb.1
    cases line with
    | nil => exact absurd ⟨by simp_all, rfl⟩ ho
    | cons value line => exact ⟨_, dropLast_append_of_ne_nil (cons_ne_nil value line)⟩
  · exact ⟨line, rfl⟩

theorem outside_of_visible {front shown : List Char} (hh : LineHead pre) (hl : '\n' ∉ line)
    (hv : visible line post = front ++ shown) :
    ∃ rest, line = front ++ rest ∧ ¬ Inside (pre ++ front) (rest ++ post) := by
  have hn : ∀ value rest, value ∈ line → ¬ Inside (pre ++ front) (value :: rest) := by grind
  unfold visible at hv
  split at hv
  · next hb =>
    -- the carriage return of the line break follows what is shown
    have hd := dropLast_append_getLast? '\r' hb.2
    rw [hv, append_assoc] at hd
    refine ⟨shown ++ ['\r'], hd.symm, ?_⟩
    cases shown <;> exact hn _ _ (by simp [← hd])
  · next hb =>
    refine ⟨shown, hv, ?_⟩
    cases shown with
    | cons value shown => exact hn _ _ (by simp [hv])
    | nil =>
      rw [append_nil] at hv
      subst hv
      cases line using reverseRecOn <;> grind

theorem offset_line (hl : Line text pre line post) (character : Int) :
    (newLineIndex text).offset ⟨pre.count '\n', character⟩ =
      if character < 0 then none
      else scan character.toNat (visible line post) (size pre) 0 := by
  have hc := content_line hl
  obtain ⟨rfl, hh, -, -⟩ := hl
  have hs := @starts_lineHead pre (line ++ post) hh
  rw [← append_assoc] at hs
  have hg : ¬ (pre.count '\n' : Int) < 0 ∧
      ¬ ((newLineIndex (pre ++ line ++ post)).starts.length : Int) ≤ pre.count '\n' := by
    simp [newLineIndex, length_lineStarts]
    omega
  simp only [LineIndex.offset, hg, false_or, Int.toNat_natCast, hc, getD_eq_getElem?_getD, hs,
    Option.getD_some]

/-- `Offset` accepts exactly the positions that stand for a cut of the text. -/
theorem offset_eq_some {position : Position} {result : Nat} :
    (newLineIndex text).offset position = some result ↔
      ∃ pre post, Denotes text position pre post ∧ size pre = result := by
  constructor
  · intro ho
    obtain ⟨number, character⟩ := position
    obtain ⟨hg, -⟩ := Option.ite_none_left_eq_some.mp ho
    simp only [newLineIndex, length_cons, length_lineStarts, not_or, Int.not_lt, Int.not_le] at hg
    obtain ⟨number, rfl⟩ := Int.eq_ofNat_of_zero_le hg.1
    obtain ⟨pre, tail, rfl, hh, rfl⟩ := @exists_lineHead number text (by omega)
    obtain ⟨line, post, rfl, hl, hp⟩ := exists_lineEnd tail
    rw [offset_line ⟨(append_assoc ..).symm, hh, hl, hp⟩, if_neg (by omega)] at ho
    obtain ⟨front, shown, hv, hu, rfl⟩ := scan_some ho
    obtain ⟨rest, rfl, hout⟩ := outside_of_visible hh hl hv
    refine ⟨pre ++ front, rest ++ post, ⟨by simp, hout, ?_⟩, by simp⟩
    rw [place_line hh fun hmem => hl (mem_append_left rest hmem), Position.mk.injEq]
    omega
  · rintro ⟨pre, post, ⟨rfl, hout, rfl⟩, rfl⟩
    obtain ⟨front, line, rfl, hh, hl⟩ := exists_lastLine pre
    obtain ⟨rest, tail, rfl, hr, hp⟩ := exists_lineEnd post
    obtain ⟨shown, hv⟩ := visible_of_outside hout hp
    have hs := @scan_reaches line shown (size front) 0
    have hline : Line (front ++ line ++ (rest ++ tail)) front (line ++ rest) tail :=
      ⟨by simp, hh, by simp [hl, hr], hp⟩
    rw [place_line hh hl, offset_line hline, if_neg (by omega), hv, Int.toNat_natCast,
      size_append, ← hs, Nat.zero_add]

section

variable {position : Position} (hd : Denotes text position pre post)
include hd

theorem Denotes.offset_eq : (newLineIndex text).offset position = some (size pre) :=
  offset_eq_some.mpr ⟨pre, post, hd, rfl⟩

theorem Denotes.position_eq : (newLineIndex text).position (size pre) = some position := by
  obtain ⟨rfl, hout, rfl⟩ := hd
  rw [position_size, if_neg hout]

theorem Denotes.take_eq : takeBytes (size pre) text = pre := by rw [hd.cut, takeBytes_append]

theorem Denotes.drop_eq : dropBytes (size pre) text = post := by rw [hd.cut, dropBytes_append]

end

/-- No cut of the text stands one unit into a character of two. -/
theorem not_denotes_surrogate {value : Char} (hv : 0xffff < value.toNat) {front rest : List Char} :
    ¬ Denotes (pre ++ value :: post) ⟨(place pre).line, (place pre).character + 1⟩ front rest := by
  rintro ⟨hcut, -, hp⟩
  have hn : place (pre ++ [value]) = ⟨(place pre).line, (place pre).character + 2⟩ := by
    have hne : value ≠ '\n' := by
      rintro rfl
      exact absurd hv (by decide)
    grind
  rcases append_eq_append_iff.mp hcut with ⟨mid, rfl, hm⟩ | ⟨mid, rfl, -⟩
  · rcases mid with _ | ⟨first, _ | ⟨second, mid⟩⟩
    · grind
    · grind
    · have := @place_before (pre ++ [first]) mid second
      grind
  · cases mid with
    | nil => grind
    | cons first mid =>
      have := @place_before front mid first
      grind

theorem applyChanges_eq_ok {changes : List ContentChange} {out : List Char} :
    applyChanges text (newLineIndex text) changes = .ok out ↔ Edits text changes out := by
  induction changes generalizing text with
  | nil =>
    constructor
    · rintro ⟨⟩
      exact .done _
    · rintro ⟨⟩
      rfl
  | cons change rest ih =>
    obtain ⟨range, new⟩ := change
    cases range with
    | none =>
      rw [applyChanges, ih]
      constructor
      · exact .whole
      · rintro ⟨⟩
        assumption
    | some range =>
      constructor
      · intro ha
        simp only [applyChanges] at ha
        split at ha
        · next hstart hstop =>
          obtain ⟨pre, tail, hs, rfl⟩ := offset_eq_some.mp hstart
          obtain ⟨front, post, ht, rfl⟩ := offset_eq_some.mp hstop
          split at ha
          · cases ha
          · next hle =>
            obtain ⟨mid, rfl, rfl⟩ := exists_middle (hs.cut.symm.trans ht.cut) (by omega)
            rw [hs.take_eq, ht.drop_eq] at ha
            exact .ranged hs ht (ih.mp ha)
        · cases ha
      · rintro (_ | _ | ⟨hs, ht, hrest⟩)
        rw [applyChanges]
        simp only [hs.offset_eq, ht.offset_eq]
        rw [if_neg (by simp), hs.take_eq, ht.drop_eq]
        exact ih.mpr hrest

/-! ## The laws -/

/-- What positions and offsets of one text have to do with each other. -/
structure PositionLaws (text : List Char) : Prop where
  cut : ∀ before after, text = before ++ after → ¬ Inside before after →
    (newLineIndex text).position (size before) = some (place before) ∧
    (newLineIndex text).offset (place before) = some (size before)
  position_offset : ∀ position result, (newLineIndex text).offset position = some result →
    (newLineIndex text).position result = some position
  inside_crlf : ∀ before after, text = before ++ '\r' :: '\n' :: after →
    (newLineIndex text).position ↑(size before + 1) = some (place before)
  increasing : ∀ before after front tail, text = before ++ tail → text = front ++ after →
    ¬ Inside before tail → ¬ Inside front after → size before < size front →
    ∃ left right, (newLineIndex text).position (size before) = some left ∧
      (newLineIndex text).position (size front) = some right ∧ left.Before right
  surrogate : ∀ before value after, text = before ++ value :: after → 0xffff < value.toNat →
    (newLineIndex text).offset ⟨(place before).line, (place before).character + 1⟩ = none
  past_line : ∀ before line after character, Line text before line after →
    units (visible line after) < character →
    (newLineIndex text).offset ⟨(place before).line, character⟩ = none
  past_text : ∀ position, (text.count '\n' : Int) < position.line →
    (newLineIndex text).offset position = none

theorem positionLaws (text : List Char) : PositionLaws text where
  cut pre post hcut hout :=
    have hd : Denotes text (place pre) pre post := ⟨hcut, hout, rfl⟩
    ⟨hd.position_eq, hd.offset_eq⟩
  position_offset position result ho := by
    obtain ⟨pre, post, hd, rfl⟩ := offset_eq_some.mp ho
    exact hd.position_eq
  inside_crlf pre post hcut := hcut ▸ position_inside
  increasing pre post front tail hcut hfront hout hfout hlt := by
    refine ⟨_, _, Denotes.position_eq ⟨hcut, hout, rfl⟩,
      Denotes.position_eq ⟨hfront, hfout, rfl⟩, ?_⟩
    obtain ⟨mid, rfl, -⟩ := exists_middle (hcut.symm.trans hfront) (Nat.le_of_lt hlt)
    cases mid with
    | nil => simp at hlt
    | cons value mid => exact place_before value
  surrogate pre value post hcut hv := by
    refine Option.eq_none_iff_forall_ne_some.mpr fun result ho => ?_
    obtain ⟨front, rest, hd, -⟩ := offset_eq_some.mp ho
    exact not_denotes_surrogate hv (hcut ▸ hd)
  past_line pre line post character hl hlt := by
    rw [line_place, offset_line hl, if_neg (by omega)]
    refine Option.eq_none_iff_forall_ne_some.mpr fun result hs => ?_
    obtain ⟨front, rest, hv, hu, -⟩ := scan_some hs
    rw [hv, units_append] at hlt
    omega
  past_text position hlt := by
    rw [LineIndex.offset, if_pos]
    simp [newLineIndex, length_lineStarts]
    omega

theorem positions_and_changes : (∀ text, PositionLaws text) ∧
    ∀ (store : DocumentStore) (uri : String) (version : Int) (changes : List ContentChange),
      (∀ failure, (store.change uri version changes).1 = some failure →
        (store.change uri version changes).2 = store) ∧
      ∀ left, store.change uri version changes = (none, left) ↔
        ∃ document out, store.documents uri = some document ∧ document.version < version ∧
          Edits document.text changes out ∧
          ¬ (0 < store.maxFileBytes ∧ store.maxFileBytes < size out) ∧
          left = { store with
            documents := Function.update store.documents uri
              (some ⟨version, out, newLineIndex out, true, rfl⟩) } := by
  refine ⟨positionLaws, fun store uri version changes => ?_⟩
  unfold DocumentStore.change
  cases hd : store.documents uri with
  | none => simp
  | some document =>
    have he : ∀ out, Edits document.text changes out ↔
        applyChanges document.text document.index changes = .ok out := by
      intro out
      rw [document.indexed, applyChanges_eq_ok]
    by_cases hv : version ≤ document.version
    · simp [hv, Int.not_lt.mpr hv]
    · have hlt := Int.not_le.mp hv
      cases ha : applyChanges document.text document.index changes with
      | error failure => simp [hv, ha, he]
      | ok out =>
        by_cases hs : 0 < store.maxFileBytes ∧ store.maxFileBytes < size out
        · simp [hv, ha, he, hs, Int.not_le.mpr hs.2]
        · simp only [if_neg hv]
          simp [hlt, ha, he, hs, eq_comm]
          omega

/-- The line breaks of the language server protocol: LF, CRLF and a CR of its own. -/
def protocolBreaks : List Char → Nat
  | '\r' :: '\n' :: rest => protocolBreaks rest + 1
  | value :: rest => protocolBreaks rest + if value = '\r' ∨ value = '\n' then 1 else 0
  | [] => 0

/-- A carriage return of its own ends no line. -/
theorem lone_return_ends_no_line : ∃ before after position, ¬ Inside before after ∧
    (newLineIndex (before ++ after)).position (size before) = some position ∧
    position.line ≠ protocolBreaks before :=
  ⟨['\r'], [], ⟨0, 1⟩, by decide, by decide, by decide⟩

end MiniGo.Language
