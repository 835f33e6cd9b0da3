/-
Closing map iterators on the way out of their loops
(`compiler/emit/map_iterator.go`).

A map range loop stands between the statement that opens its iterator and the
one that closes it. A jump that leaves the loop passes the latter by, so the
pass closes the iterators that the jump crosses in front of it; a conditional
jump first branches to a cleanup of its own.
-/
import MiniGo.Hir.Syntax

namespace MiniGo.Emit

open Hir List Nat

/-- The `interval` of a map range loop. -/
structure IteratorRange where
  iterator : String
  start : Nat
  stop : Nat
deriving Repr, DecidableEq

/-- The loop that fills `ranges`; `starts` are the last openings. -/
def collectRanges (index : Nat) (starts : String → Option Nat) :
    List Statement → List IteratorRange
  | [] => []
  | .mapIterInit iterator _ :: rest =>
    collectRanges (index + 1) (Function.update starts iterator (some index)) rest
  | .mapIterClose iterator :: rest =>
    match starts iterator with
    | some start => ⟨iterator, start, index⟩ :: collectRanges (index + 1) starts rest
    | none => collectRanges (index + 1) starts rest
  | _ :: rest => collectRanges (index + 1) starts rest

def iteratorRanges (body : List Statement) : List IteratorRange :=
  collectRanges 0 (fun _ => none) body

def labelHere (name : String) (index : Nat) : Statement → Option Nat
  | .label other => if other = name then some index else none
  | _ => none

/-- The map `labels`; a later definition replaces an earlier one. -/
def labelIndex (name : String) : List Statement → Nat → Option Nat
  | [], _ => none
  | statement :: rest, index =>
    (labelIndex name rest (index + 1)).or (labelHere name index statement)

/-- The iterators that a jump from `index` to `target` leaves behind. -/
def crossedIterators (ranges : List IteratorRange) (index target : Nat) :
    List String :=
  (ranges.filter fun range =>
    range.start < index ∧ index < range.stop ∧
      (target ≤ range.start ∨ range.stop < target)).map (·.iterator)

def exitedIterators (body : List Statement) (index : Nat) (label : String) :
    List String :=
  match labelIndex label body 0 with
  | none => []
  | some target => crossedIterators (iteratorRanges body) index target

def cleanupLabel (index : Nat) : String := "map.cleanup." ++ toString index

def afterLabel (index : Nat) : String := cleanupLabel index ++ ".after"

/-- What takes the place of a statement. -/
def closeExits (body : List Statement) (index : Nat) (statement : Statement) :
    List Statement :=
  match statement with
  | .jump target =>
    (exitedIterators body index target).map .mapIterClose ++ [.jump target]
  | .jumpIf condition target negated =>
    match exitedIterators body index target with
    | [] => [.jumpIf condition target negated]
    | iterator :: iterators =>
      [.jumpIf condition (cleanupLabel index) negated, .jump (afterLabel index),
          .label (cleanupLabel index)] ++
        (iterator :: iterators).map .mapIterClose ++
        [.jump target, .label (afterLabel index)]
  | statement => [statement]

def closeExitsFrom (body : List Statement) : Nat → List Statement → List Statement
  | _, [] => []
  | index, statement :: rest =>
    closeExits body index statement ++ closeExitsFrom body (index + 1) rest

/-- `closeExitedMapIterators`. -/
def closeExitedMapIterators (body : List Statement) : List Statement :=
  if iteratorRanges body = [] then body else closeExitsFrom body 0 body

section Paths

mutual

/-- The iterators that an expression advances, in the order of evaluation. -/
def advancedIterators : Expression → List String
  | .letIn _ bind body | .letResults _ bind body =>
    advancedIterators bind ++ advancedIterators body
  | .unary _ _ operand => advancedIterators operand
  | .binary _ _ left right => advancedIterators left ++ advancedIterators right
  | .apply operation _ _ _ operands =>
    allAdvancedIterators operands ++ match operation with
      | .mapIterNext iterator => [iterator]
      | _ => []
  | _ => []

def allAdvancedIterators : List Expression → List String
  | [] => []
  | expression :: rest => advancedIterators expression ++ allAdvancedIterators rest

end

/-- What happens to an iterator of a frame. -/
inductive IteratorEvent where
  | opened (iterator : String)
  | advanced (iterator : String)
  | closed (iterator : String)
deriving Repr, DecidableEq

def iteratorEvents (statement : Statement) : List IteratorEvent :=
  (allAdvancedIterators statement.expressions).map .advanced ++ match statement with
    | .mapIterInit iterator _ => [.opened iterator]
    | .mapIterClose iterator => [.closed iterator]
    | _ => []

/-- The open iterators after some events; `none` when one was opened while open,
or advanced or closed while not. -/
def trackIterators (active : Finset String) : List IteratorEvent → Option (Finset String)
  | [] => some active
  | .opened iterator :: rest =>
    if iterator ∈ active then none else trackIterators (insert iterator active) rest
  | .advanced iterator :: rest =>
    if iterator ∈ active then trackIterators active rest else none
  | .closed iterator :: rest =>
    if iterator ∈ active then trackIterators (active.erase iterator) rest else none

/-- The iterators in the slots of a frame, `mapIteratorSlots`. -/
def heldIterators (held : List String) : List IteratorEvent → List String
  | [] => held
  | .opened iterator :: rest => heldIterators (held.insert iterator) rest
  | .advanced _ :: rest => heldIterators held rest
  | .closed iterator :: rest => heldIterators (held.erase iterator) rest

/-- A frame that returns or panics releases the iterators in its slots. -/
def unwind (events : List IteratorEvent) : List IteratorEvent :=
  (heldIterators [] events).map .closed

def jumpTargets : Statement → List String
  | .jump target | .jumpIf _ target _ => [target]
  | .typeDispatch _ cases defaultLabel _ => defaultLabel :: cases.map (·.label)
  | _ => []

def fallsThrough : Statement → Bool
  | .jump _ | .typeDispatch .. | .returnValues _ | .tailCallDirect _ | .panic _ => false
  | _ => true

/-- A step of a path through a body, with the events so far. -/
inductive PathStep (body : List Statement) :
    Nat × List IteratorEvent → Nat × List IteratorEvent → Prop
  | next {pc : Nat} {events : List IteratorEvent} {statement : Statement} :
      body[pc]? = some statement → fallsThrough statement = true →
      PathStep body (pc, events) (pc + 1, events ++ iteratorEvents statement)
  | jump {pc target : Nat} {events : List IteratorEvent} {statement : Statement} {label : String} :
      body[pc]? = some statement → label ∈ jumpTargets statement →
      body[target]? = some (.label label) →
      PathStep body (pc, events) (target, events ++ iteratorEvents statement)

end Paths

section Scopes

variable (body : List Statement)

def opensAt (index : Nat) (iterator : String) : Prop :=
  ∃ object, body[index]? = some (.mapIterInit iterator object)

def closesAt (index : Nat) (iterator : String) : Prop :=
  body[index]? = some (.mapIterClose iterator)

def labelsAt (index : Nat) (label : String) : Prop :=
  body[index]? = some (.label label)

/-- The statement stands after the opening of an iterator and not after its
closing. -/
def Within (iterator : String) (index : Nat) : Prop :=
  ∃ start stop, opensAt body start iterator ∧ closesAt body stop iterator ∧
    start < index ∧ index ≤ stop

/-- A body of map range loops: every iterator is opened at one place and closed
at a later one, used in between, and no jump leads into a loop from outside. A
type dispatch does not leave a loop either. -/
structure Scoped : Prop where
  opened : ∀ start iterator, opensAt body start iterator →
    ∃ stop, start < stop ∧ closesAt body stop iterator
  closed : ∀ stop iterator, closesAt body stop iterator →
    ∃ start < stop, opensAt body start iterator
  openedOnce : ∀ first second iterator, opensAt body first iterator →
    opensAt body second iterator → first = second
  closedOnce : ∀ first second iterator, closesAt body first iterator →
    closesAt body second iterator → first = second
  advanced : ∀ (index : Nat) statement, body[index]? = some statement →
    ∀ iterator ∈ allAdvancedIterators statement.expressions, Within body iterator index
  labelled : ∀ first second label, labelsAt body first label →
    labelsAt body second label → first = second
  defined : ∀ (index : Nat) statement, body[index]? = some statement →
    ∀ label ∈ jumpTargets statement, ∃ target, labelsAt body target label
  entered : ∀ (index : Nat) statement target label, body[index]? = some statement →
    label ∈ jumpTargets statement → labelsAt body target label →
    ∀ iterator, Within body iterator target → Within body iterator index
  dispatched : ∀ (index : Nat) target label subject cases defaultLabel defaultLocal,
    body[index]? = some (.typeDispatch subject cases defaultLabel defaultLocal) →
    label ∈ jumpTargets (.typeDispatch subject cases defaultLabel defaultLocal) →
    labelsAt body target label →
    ∀ iterator, Within body iterator index → Within body iterator target
  fresh : ∀ index target, ¬ labelsAt body target (cleanupLabel index) ∧
    ¬ labelsAt body target (afterLabel index)

/-- The iterators that are open at a statement. -/
def enclosing (index : Nat) : Finset String :=
  (((iteratorRanges body).filter fun range =>
    range.start < index ∧ index ≤ range.stop).map (·.iterator)).toFinset

/-- The closes of an exit, each with the iterators that are open before it, and
the statement that ends it. -/
def closing (active : Finset String) (last : Statement) :
    List String → List (Statement × Finset String)
  | [] => [(last, active)]
  | iterator :: rest =>
    (.mapIterClose iterator, active) :: closing (active.erase iterator) last rest

/-- `closeExits` with the iterators that are open before each statement. -/
def scopedExits (index : Nat) (statement : Statement) :
    List (Statement × Finset String) :=
  let active := enclosing body index
  match statement with
  | .jump target => closing active (.jump target) (exitedIterators body index target)
  | .jumpIf condition target negated =>
    match exitedIterators body index target with
    | [] => [(.jumpIf condition target negated, active)]
    | iterator :: iterators =>
      [(.jumpIf condition (cleanupLabel index) negated, active), (.jump (afterLabel index), active),
          (.label (cleanupLabel index), active)] ++
        closing active (.jump target) (iterator :: iterators) ++
        [(.label (afterLabel index), active)]
  | statement => [(statement, active)]

def scopedFrom : Nat → List Statement → List (Statement × Finset String)
  | _, [] => []
  | index, statement :: rest =>
    scopedExits body index statement ++ scopedFrom (index + 1) rest

/-- Where the code of a statement begins. -/
def codeStart (index : Nat) : Nat := (closeExitsFrom body 0 (body.take index)).length

/-- The iterators that are open at a statement of the new body. -/
def scopeAt (pc : Nat) : Finset String :=
  (((scopedFrom body 0 body)[pc]?).map (·.2)).getD ∅

end Scopes

section Names

theorem cleanupLabel_injective {first second : Nat}
    (heq : cleanupLabel first = cleanupLabel second) : first = second := by
  have hd : first.repr.toList = second.repr.toList := by
    have := congrArg String.toList heq
    simpa [cleanupLabel] using this
  rw [toList_repr, toList_repr] at hd
  have := congrArg (ofDigitChars 10 · 0) hd
  simpa only [ofDigitChars_ten_toDigits] using this

theorem afterLabel_injective {first second : Nat}
    (heq : afterLabel first = afterLabel second) : first = second := by
  refine cleanupLabel_injective (String.toList_injective ?_)
  have := congrArg String.toList heq
  simpa [afterLabel] using this

theorem cleanupLabel_ne_afterLabel (first second : Nat) :
    cleanupLabel first ≠ afterLabel second := by
  intro heq
  have hl := congrArg String.toList heq
  have hd : '.' ∈ first.repr.toList := by
    have hc : first.repr.toList = second.repr.toList ++ ".after".toList := by
      simpa [cleanupLabel, afterLabel] using hl
    rw [hc]
    simp
  rw [toList_repr] at hd
  have := isDigit_of_mem_toDigits (by decide) (by decide) hd
  simp at this

end Names

section Ranges

variable {body : List Statement}

theorem statement_cases (statement : Statement) :
    (∃ iterator obj, statement = .mapIterInit iterator obj) ∨
      (∃ iterator, statement = .mapIterClose iterator) ∨
      (∀ iterator obj, statement ≠ .mapIterInit iterator obj) ∧
        ∀ iterator, statement ≠ .mapIterClose iterator := by
  cases statement <;> simp

variable {starts : String → Option Nat} {stmts : List Statement} {statement : Statement}
  {iterator : String} {label : String} {name : String} {index : Nat}

theorem collectRanges_other {rest : List Statement}
    (hi : ∀ iterator obj, statement ≠ .mapIterInit iterator obj)
    (hc : ∀ iterator, statement ≠ .mapIterClose iterator) :
    collectRanges index starts (statement :: rest) = collectRanges (index + 1) starts rest := by
  cases statement with
  | mapIterInit iterator obj => exact absurd rfl (hi iterator obj)
  | mapIterClose iterator => exact absurd rfl (hc iterator)
  | _ => rfl

/-- The ranges that the rest of a body adds, with the openings before it known. -/
theorem mem_collectRanges (hsc : Scoped body) {rest pre : List Statement} (hb : body = pre ++ rest)
    (hs : ∀ iterator start, starts iterator = some start ↔
      start < pre.length ∧ opensAt body start iterator) (range : IteratorRange) :
    range ∈ collectRanges pre.length starts rest ↔
      pre.length ≤ range.stop ∧ opensAt body range.start range.iterator ∧
        closesAt body range.stop range.iterator := by
  induction rest generalizing pre starts with
  | nil =>
    simp only [collectRanges, not_mem_nil, false_iff, not_and]
    intro hlen _ hc
    have := (List.getElem?_eq_some_iff.mp hc).1
    simp [hb] at this
    omega
  | cons statement rest ih =>
    have hh : body[pre.length]? = some statement := by simp [hb]
    have hnext : ∀ starts' : String → Option Nat, (∀ iterator start, starts' iterator = some start ↔
          start < pre.length + 1 ∧ opensAt body start iterator) →
        (range ∈ collectRanges (pre.length + 1) starts' rest ↔
          pre.length + 1 ≤ range.stop ∧ opensAt body range.start range.iterator ∧
            closesAt body range.stop range.iterator) := by
      intro starts' hst
      have hlen : (pre ++ [statement]).length = pre.length + 1 := by simp
      rw [← hlen] at hst ⊢
      exact ih (by simp [hb]) hst
    -- only the closing of an iterator adds a range with this end
    have hsto : (∀ iterator, statement ≠ .mapIterClose iterator) →
        closesAt body range.stop range.iterator →
        (pre.length + 1 ≤ range.stop ↔ pre.length ≤ range.stop) := by
      intro hcl hc
      refine ⟨by omega, fun hle => Nat.lt_of_le_of_ne hle fun heq => ?_⟩
      rw [closesAt, ← heq, hh] at hc
      exact hcl _ (Option.some.inj hc)
    have hope : (∀ iterator obj, statement ≠ .mapIterInit iterator obj) →
        ∀ iterator start, starts iterator = some start ↔
          start < pre.length + 1 ∧ opensAt body start iterator := by
      intro hi iterator start
      rw [hs]
      refine ⟨fun h => ⟨by omega, h.2⟩, fun h => ⟨?_, h.2⟩⟩
      refine Nat.lt_of_le_of_ne (le_of_lt_succ h.1) fun heq => ?_
      obtain ⟨obj, hob⟩ := h.2
      rw [heq, hh] at hob
      exact hi _ _ (Option.some.inj hob)
    rcases statement_cases statement with
      ⟨iterator, obj, rfl⟩ | ⟨iterator, rfl⟩ | ⟨hi, hcl⟩
    · rw [collectRanges, hnext]
      · constructor
        · rintro ⟨hle, hr⟩
          exact ⟨by omega, hr⟩
        · rintro ⟨hle, hr⟩
          exact ⟨(hsto (by simp) hr.2).mpr hle, hr⟩
      · intro other start
        have hop : opensAt body pre.length iterator := ⟨obj, hh⟩
        by_cases ho : other = iterator
        · subst ho
          rw [Function.update_self, Option.some.injEq]
          constructor
          · rintro rfl
            exact ⟨by omega, hop⟩
          · rintro ⟨-, hsta⟩
            exact hsc.openedOnce _ _ _ hop hsta
        · rw [Function.update_of_ne ho, hs]
          refine ⟨fun h => ⟨by omega, h.2⟩, fun h => ⟨?_, h.2⟩⟩
          refine Nat.lt_of_le_of_ne (le_of_lt_succ h.1) fun heq => ?_
          obtain ⟨found, hf⟩ := h.2
          rw [heq, hh] at hf
          cases hf
          exact ho rfl
    · obtain ⟨start, hlt, hop⟩ := hsc.closed _ iterator hh
      have hsta := (hs iterator start).mpr ⟨hlt, hop⟩
      rw [collectRanges, hsta]
      rw [mem_cons, hnext starts (hope (by simp))]
      constructor
      · rintro (rfl | ⟨hle, hr⟩)
        · exact ⟨le_rfl, hop, hh⟩
        · exact ⟨by omega, hr⟩
      · rintro ⟨hle, hr⟩
        rcases Nat.eq_or_lt_of_le hle with heq | hlt
        · left
          obtain ⟨hopen, hcls⟩ := hr
          rw [closesAt, ← heq, hh] at hcls
          obtain ⟨name, first, last⟩ := range
          cases hcls
          dsimp only at heq hopen
          rw [hsc.openedOnce _ _ _ hopen hop, ← heq]
        · exact .inr ⟨hlt, hr⟩
    · rw [collectRanges_other hi hcl, hnext starts (hope hi)]
      constructor
      · rintro ⟨hle, hr⟩
        exact ⟨by omega, hr⟩
      · rintro ⟨hle, hr⟩
        exact ⟨(hsto hcl hr.2).mpr hle, hr⟩

theorem mem_iteratorRanges (hs : Scoped body) (range : IteratorRange) :
    range ∈ iteratorRanges body ↔ opensAt body range.start range.iterator ∧
        closesAt body range.stop range.iterator := by
  have hall : range ∈ collectRanges ([] : List Statement).length (fun _ => none) body ↔
      _ := mem_collectRanges hs rfl (by simp) range
  simpa [iteratorRanges] using hall

theorem mem_filter_ranges (hs : Scoped body) {p : IteratorRange → Prop} [DecidablePred p] :
    iterator ∈ ((iteratorRanges body).filter fun range => p range).map (·.iterator) ↔
      ∃ start stop, opensAt body start iterator ∧ closesAt body stop iterator ∧
        p ⟨iterator, start, stop⟩ := by
  rw [mem_map]
  constructor
  · rintro ⟨range, hr, rfl⟩
    obtain ⟨hmem, hi⟩ := mem_filter.mp hr
    obtain ⟨hop, hc⟩ := (mem_iteratorRanges hs range).mp hmem
    exact ⟨range.start, range.stop, hop, hc, of_decide_eq_true hi⟩
  · rintro ⟨start, stop, hop, hc, hi⟩
    refine ⟨⟨iterator, start, stop⟩, mem_filter.mpr ⟨?_, decide_eq_true hi⟩, rfl⟩
    exact (mem_iteratorRanges hs _).mpr ⟨hop, hc⟩

theorem mem_enclosing (hs : Scoped body) :
    iterator ∈ enclosing body index ↔ Within body iterator index := by
  rw [enclosing, mem_toFinset]
  exact mem_filter_ranges hs

theorem collectRanges_pairwise (index : Nat) (starts : String → Option Nat)
    (rest : List Statement) :
    (collectRanges index starts rest).Pairwise (fun first second => first.stop < second.stop) ∧
      ∀ range ∈ collectRanges index starts rest, index ≤ range.stop := by
  induction rest generalizing index starts with
  | nil => exact ⟨.nil, by simp [collectRanges]⟩
  | cons statement rest ih =>
    rcases statement_cases statement with
      ⟨iterator, obj, rfl⟩ | ⟨iterator, rfl⟩ | ⟨hi, hc⟩
    · obtain ⟨hpw, hle⟩ := ih (index + 1) (Function.update starts iterator index)
      exact ⟨hpw, fun range hr => le_of_succ_le (hle range hr)⟩
    · obtain ⟨hpw, hle⟩ := ih (index + 1) starts
      rw [collectRanges]
      cases starts iterator with
      | none => exact ⟨hpw, fun range hr => le_of_succ_le (hle range hr)⟩
      | some start =>
        refine ⟨pairwise_cons.mpr ⟨hle, hpw⟩, ?_⟩
        rw [forall_mem_cons]
        exact ⟨le_rfl, fun range hr => le_of_succ_le (hle range hr)⟩
    · rw [collectRanges_other hi hc]
      obtain ⟨hpw, hle⟩ := ih (index + 1) starts
      exact ⟨hpw, fun range hr => le_of_succ_le (hle range hr)⟩

theorem iteratorRanges_nodup (hs : Scoped body) :
    ((iteratorRanges body).map (·.iterator)).Nodup := by
  rw [List.Nodup, pairwise_map]
  refine (collectRanges_pairwise 0 _ body).1.imp_of_mem ?_
  intro first second hf hsn hlt heq
  have ho := (mem_iteratorRanges hs first).mp hf
  have ht := (mem_iteratorRanges hs second).mp hsn
  rw [← heq] at ht
  have := hs.closedOnce _ _ _ ho.2 ht.2
  omega

theorem crossedIterators_nodup (hs : Scoped body) (index tgt : Nat) :
    (crossedIterators (iteratorRanges body) index tgt).Nodup :=
  (iteratorRanges_nodup hs).sublist (filter_sublist.map _)

theorem labelIndex_eq_some {off tgt : Nat} (hl : labelIndex name stmts off = some tgt) :
    ∃ index, stmts[index]? = some (.label name) ∧ tgt = off + index := by
  induction stmts generalizing off with
  | nil => cases hl
  | cons statement rest ih =>
    rw [labelIndex, Option.or_eq_some_iff] at hl
    rcases hl with hl | ⟨-, hl⟩
    · obtain ⟨index, hi, rfl⟩ := ih hl
      exact ⟨index + 1, hi, by omega⟩
    · unfold labelHere at hl
      split at hl
      · split_ifs at hl with hn
        cases hl
        exact ⟨0, by rw [← hn]; rfl, rfl⟩
      · cases hl

theorem labelIndex_ne_none {off : Nat} (hl : stmts[index]? = some (.label name)) :
    labelIndex name stmts off ≠ none := by
  induction stmts generalizing off index with
  | nil => cases hl
  | cons statement rest ih =>
    rw [labelIndex, ne_eq, Option.or_eq_none_iff, not_and_or]
    cases index with
    | zero =>
      cases hl
      exact .inr (by simp [labelHere])
    | succ index => exact .inl (ih hl)

/-- The label of a jump is found where it stands. -/
theorem labelIndex_of_labelsAt (hs : Scoped body) {target : Nat}
    (ht : labelsAt body target label) : labelIndex label body 0 = some target := by
  have hsome : labelIndex label body 0 ≠ none := labelIndex_ne_none ht
  obtain ⟨found, hf⟩ := Option.ne_none_iff_exists'.mp hsome
  obtain ⟨index, hi, hsa⟩ := labelIndex_eq_some hf
  rw [hf, hsa, Nat.zero_add, hs.labelled index target label hi ht]

/-- What is open at a jump and not left behind is open at its target. -/
theorem enclosing_target (hs : Scoped body) {target : Nat} (hi : body[index]? = some statement)
    (hj : label ∈ jumpTargets statement) (ht : labelsAt body target label)
    (iterator : String) :
    iterator ∈ enclosing body target ↔ iterator ∈ enclosing body index ∧
        iterator ∉ crossedIterators (iteratorRanges body) index target := by
  rw [mem_enclosing hs, mem_enclosing hs, crossedIterators, mem_filter_ranges hs]
  dsimp only
  constructor
  · intro hw
    refine ⟨hs.entered index statement target label hi hj ht iterator hw, ?_⟩
    rintro ⟨start, stop, hop, hc, -, -, ho⟩
    obtain ⟨first, last, hf, hl, ha, hb⟩ := hw
    have := hs.openedOnce _ _ _ hop hf
    have := hs.closedOnce _ _ _ hc hl
    omega
  · rintro ⟨⟨start, stop, hop, hc, ha, hb⟩, hk⟩
    refine ⟨start, stop, hop, hc, ?_⟩
    have hne : index ≠ stop := by
      rintro rfl
      rw [closesAt, hi] at hc
      cases hc
      simp [jumpTargets] at hj
    by_contra ho
    exact hk ⟨start, stop, hop, hc, ha, by omega, by omega⟩

end Ranges

end MiniGo.Emit
