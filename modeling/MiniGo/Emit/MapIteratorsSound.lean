/-
Map iterators are open just inside of their loops.

The new body is annotated with the iterators that are open before each of its
statements. The events of a statement lead from its annotation to that of the
statement after it and to those of the labels that it jumps to, and so along
every path.
-/
import MiniGo.Emit.MapIterators

namespace MiniGo.Emit

open Hir List

variable {statement : Statement}

variable {final : Finset String} {last : Statement}

section Tracking

variable {active : Finset String}

theorem trackIterators_append (first second : List IteratorEvent) :
    trackIterators active (first ++ second) =
      (trackIterators active first).bind fun active => trackIterators active second := by
  induction first generalizing active with
  | nil => rfl
  | cons event first ih =>
    cases event <;> simp only [cons_append, trackIterators] <;> split_ifs <;>
      first | exact ih | rfl

variable {iterators : List String}

theorem trackIterators_advanced (ha : ∀ iter ∈ iterators, iter ∈ active) :
    trackIterators active (iterators.map .advanced) = some active := by
  induction iterators with
  | nil => rfl
  | cons iter iterators ih =>
    rw [forall_mem_cons] at ha
    rw [map_cons, trackIterators, if_pos ha.1]
    exact ih ha.2

theorem heldIterators_eq {held : List String} {events : List IteratorEvent}
    (hnd : held.Nodup)
    (ht : trackIterators held.toFinset events = some final) :
    (heldIterators held events).Nodup ∧ (heldIterators held events).toFinset = final := by
  induction events generalizing held with
  | nil =>
    cases ht
    exact ⟨hnd, rfl⟩
  | cons event events ih =>
    cases event with
    | opened iterator =>
      rw [trackIterators] at ht
      split_ifs at ht
      have hi : (held.insert iterator).toFinset = insert iterator held.toFinset := by ext; simp
      exact ih hnd.insert (hi ▸ ht)
    | advanced iterator =>
      rw [trackIterators] at ht
      split_ifs at ht
      exact ih hnd ht
    | closed iterator =>
      rw [trackIterators] at ht
      split_ifs at ht
      have he : (held.erase iterator).toFinset =
          held.toFinset.erase iterator := by ext; simp [hnd.mem_erase_iff]
      exact ih (hnd.erase iterator) (he ▸ ht)

theorem trackIterators_closed {held : List String} (hnd : held.Nodup) :
    trackIterators held.toFinset (held.map .closed) = some ∅ := by
  induction held with
  | nil => rfl
  | cons iter held ih =>
    obtain ⟨hnot, hnd⟩ := nodup_cons.mp hnd
    have he : (iter :: held).toFinset.erase iter = held.toFinset := by
      rw [toFinset_cons, Finset.erase_insert (by simpa using hnot)]
    rw [map_cons, trackIterators, if_pos (by simp), he]
    exact ih hnd

/-- A frame that ends has closed all that it opened. -/
theorem trackIterators_unwind {events : List IteratorEvent}
    (ht : trackIterators ∅ events = some final) :
    trackIterators ∅ (events ++ unwind events) = some ∅ := by
  obtain ⟨hnd, hheld⟩ :=
    @heldIterators_eq final [] events nodup_nil (by simpa using ht)
  rw [trackIterators_append, ht, Option.bind_some, unwind, ← hheld]
  exact trackIterators_closed hnd

/-- The scope before the first statement. -/
def headScope (final : Finset String) (rest : List (Statement × Finset String)) :
    Finset String :=
  (rest.head?.map (·.2)).getD final

/-- The events of every statement lead from its scope to the next. -/
def Chained (final : Finset String) : List (Statement × Finset String) → Prop
  | [] => True
  | (statement, active) :: rest =>
    (fallsThrough statement = true → trackIterators active (iteratorEvents statement) =
        some (headScope final rest)) ∧
    Chained final rest

variable {final : Finset String} {first second : List (Statement × Finset String)}

theorem Chained.append (hfs : Chained (headScope final second) first)
    (hs : Chained final second) : Chained final (first ++ second) := by
  induction first with
  | nil => exact hs
  | cons entry first ih =>
    obtain ⟨statement, active⟩ := entry
    refine ⟨fun hf => ?_, ih hfs.2⟩
    rw [hfs.1 hf]
    cases first <;> rfl

theorem Chained.at (hc : Chained final first) {pc : Nat}
    (he : first[pc]? = some (statement, active))
    (hf : fallsThrough statement = true) :
    trackIterators active (iteratorEvents statement) =
      some ((first[pc + 1]?.map (·.2)).getD final) := by
  induction first generalizing pc with
  | nil => cases he
  | cons entry first ih =>
    cases pc with
    | zero =>
      cases he
      rw [hc.1 hf]
      cases first <;> rfl
    | succ pc => exact ih hc.2 he

theorem closing_chained (hl : fallsThrough last = false)
    (hnd : iterators.Nodup)
    (ha : ∀ iter ∈ iterators, iter ∈ active) :
    Chained final (closing active last iterators) := by
  induction iterators generalizing active with
  | nil => exact ⟨by simp [hl], trivial⟩
  | cons iter iterators ih =>
    rw [forall_mem_cons] at ha
    obtain ⟨hnot, hnd⟩ := nodup_cons.mp hnd
    refine ⟨fun _ => ?_, ih hnd fun other ho => ?_⟩
    · rw [iteratorEvents, Statement.expressions, allAdvancedIterators]
      simp only [map_nil, nil_append, trackIterators, if_pos ha.1]
      cases iterators <;> rfl
    · refine Finset.mem_erase.mpr ⟨?_, ha.2 other ho⟩
      rintro rfl
      exact hnot ho

/-- An exit ends with what is open and not closed. -/
theorem mem_closing {scope : Finset String}
    (hmem : (statement, scope) ∈ closing active last iterators) :
    (∃ iter, statement = .mapIterClose iter) ∨ statement = last ∧ ∀ iter,
        iter ∈ scope ↔ iter ∈ active ∧ iter ∉ iterators := by
  induction iterators generalizing active with
  | nil =>
    obtain ⟨rfl, rfl⟩ := Prod.mk.inj (mem_singleton.mp hmem)
    exact .inr ⟨rfl, by simp⟩
  | cons closed iterators ih =>
    rcases mem_cons.mp hmem with heq | hmem
    · exact .inl ⟨closed, congrArg Prod.fst heq⟩
    · rcases ih hmem with hc | ⟨hl, hs⟩
      · exact .inl hc
      · refine .inr ⟨hl, fun iter => ?_⟩
        rw [hs, Finset.mem_erase, mem_cons, not_or]
        tauto

end Tracking

section Blocks

variable {body : List Statement} {index : Nat} {statement : Statement}

section

variable (hscoped : Scoped body)
include hscoped

theorem enclosing_other (hid : body[index]? = some statement)
    (hi : ∀ iter obj, statement ≠ .mapIterInit iter obj)
    (hcl : ∀ iter, statement ≠ .mapIterClose iter) :
    enclosing body (index + 1) = enclosing body index := by
  ext iter
  rw [mem_enclosing hscoped, mem_enclosing hscoped]
  constructor
  · rintro ⟨start, stop, hop, hc, ha, hb⟩
    refine ⟨start, stop, hop, hc, ?_, by omega⟩
    refine Nat.lt_of_le_of_ne (Nat.le_of_lt_succ ha) fun heq => ?_
    obtain ⟨obj, ho⟩ := hop
    rw [heq, hid] at ho
    exact hi _ _ (Option.some.inj ho)
  · rintro ⟨start, stop, hop, hc, ha, hb⟩
    refine ⟨start, stop, hop, hc, by omega, ?_⟩
    refine Nat.lt_of_le_of_ne hb fun heq => ?_
    rw [closesAt, ← heq, hid] at hc
    exact hcl _ (Option.some.inj hc)

theorem enclosing_init {iter : String} (hop : opensAt body index iter) :
    iter ∉ enclosing body index ∧
      enclosing body (index + 1) = insert iter (enclosing body index) := by
  obtain ⟨obj, hi⟩ := id hop
  constructor
  · rw [mem_enclosing hscoped]
    rintro ⟨start, stop, hs, -, ha, -⟩
    have := hscoped.openedOnce _ _ _ hop hs
    omega
  · ext other
    rw [Finset.mem_insert, mem_enclosing hscoped, mem_enclosing hscoped]
    constructor
    · rintro ⟨start, stop, hs, hst, ha, hb⟩
      rcases Nat.eq_or_lt_of_le (Nat.le_of_lt_succ ha) with rfl | hlt
      · obtain ⟨_, hf⟩ := hs
        rw [hi] at hf
        cases hf
        exact .inl rfl
      · exact .inr ⟨start, stop, hs, hst, hlt, by omega⟩
    · rintro (rfl | ⟨start, stop, hs, hst, ha, hb⟩)
      · obtain ⟨stop, hlt, hst⟩ := hscoped.opened _ _ hop
        exact ⟨index, stop, hop, hst, by omega, hlt⟩
      · refine ⟨start, stop, hs, hst, by omega, ?_⟩
        refine Nat.lt_of_le_of_ne hb fun heq => ?_
        rw [closesAt, ← heq, hi] at hst
        cases hst

theorem enclosing_close {iterator : String} (hc : closesAt body index iterator) :
    iterator ∈ enclosing body index ∧
      enclosing body (index + 1) = (enclosing body index).erase iterator := by
  constructor
  · obtain ⟨start, hlt, hop⟩ := hscoped.closed _ _ hc
    exact (mem_enclosing hscoped).mpr ⟨start, index, hop, hc, hlt, le_rfl⟩
  · ext other
    rw [Finset.mem_erase, mem_enclosing hscoped, mem_enclosing hscoped]
    constructor
    · rintro ⟨start, stop, hst, hs, ha, hb⟩
      refine ⟨?_, start, stop, hst, hs, ?_, by omega⟩
      · rintro rfl
        have := hscoped.closedOnce _ _ _ hc hs
        omega
      · refine Nat.lt_of_le_of_ne (Nat.le_of_lt_succ ha) fun heq => ?_
        obtain ⟨_, hf⟩ := hst
        rw [heq, hc] at hf
        cases hf
    · rintro ⟨hne, start, stop, hst, hs, ha, hb⟩
      refine ⟨start, stop, hst, hs, by omega, ?_⟩
      refine Nat.lt_of_le_of_ne hb fun heq => hne ?_
      rw [closesAt, ← heq, hc] at hs
      cases hs
      rfl

theorem enclosing_length : enclosing body body.length = ∅ := by
  ext iter
  rw [mem_enclosing hscoped]
  simp only [Finset.notMem_empty, iff_false]
  rintro ⟨_, stop, -, hs, -, hb⟩
  have := (List.getElem?_eq_some_iff.mp hs).1
  omega

/-- The events of a statement lead to the scope of the next. -/
theorem enclosing_next (hid : body[index]? = some statement) :
    trackIterators (enclosing body index) (iteratorEvents statement) =
      some (enclosing body (index + 1)) := by
  have ha : trackIterators (enclosing body index)
      ((allAdvancedIterators statement.expressions).map .advanced) =
      some (enclosing body index) :=
    trackIterators_advanced fun iter hit =>
      (mem_enclosing hscoped).mpr (hscoped.advanced index statement hid _ hit)
  unfold iteratorEvents
  rw [trackIterators_append, ha, Option.bind_some]
  rcases statement_cases statement with
    ⟨iter, obj, rfl⟩ | ⟨iter, rfl⟩ | ⟨hi, hc⟩
  · obtain ⟨hnot, hnext⟩ := enclosing_init hscoped ⟨obj, hid⟩
    simp only [trackIterators, if_neg hnot, hnext]
  · obtain ⟨hopen, hnext⟩ := enclosing_close hscoped hid
    simp only [trackIterators, if_pos hopen, hnext]
  · rw [enclosing_other hscoped hid hi hc]
    split
    · exact absurd rfl (hi _ _)
    · exact absurd rfl (hc _)
    · rfl

theorem exitedIterators_nodup (index : Nat) (label : String) :
    (exitedIterators body index label).Nodup := by
  unfold exitedIterators
  split
  · exact .nil
  · exact crossedIterators_nodup hscoped _ _

end

theorem exitedIterators_enclosing {label iter : String}
    (hit : iter ∈ exitedIterators body index label) :
    iter ∈ enclosing body index := by
  unfold exitedIterators at hit
  split at hit
  · cases hit
  · rw [crossedIterators, mem_map] at hit
    obtain ⟨range, hr, rfl⟩ := hit
    obtain ⟨hmem, hi⟩ := mem_filter.mp hr
    have hi := of_decide_eq_true hi
    rw [enclosing, mem_toFinset, mem_map]
    exact ⟨range, mem_filter.mpr ⟨hmem, decide_eq_true ⟨hi.1, by omega⟩⟩, rfl⟩

theorem headScope_closing {active : Finset String} (iterators : List String)
    (rest : List (Statement × Finset String)) :
    headScope final (closing active last iterators ++ rest) = active := by
  cases iterators <;> rfl

theorem headScope_scopedExits (final : Finset String) (rest : List (Statement × Finset String)) :
    headScope final (scopedExits body index statement ++ rest) = enclosing body index := by
  unfold scopedExits
  split
  · exact headScope_closing _ _
  · split <;> rfl
  · rfl

/-- The code of a statement leads from its scope to the next. -/
theorem scopedExits_chained (hscoped : Scoped body) (hi : body[index]? = some statement) :
    Chained (enclosing body (index + 1)) (scopedExits body index statement) := by
  have hnext := enclosing_next hscoped hi
  have hc : ∀ final tgt label, Chained final
      (closing (enclosing body index) (.jump tgt) (exitedIterators body index label)) :=
    fun final tgt label => closing_chained rfl (exitedIterators_nodup hscoped _ _)
      fun iter => exitedIterators_enclosing
  unfold scopedExits
  split
  · exact hc _ _ _
  · rename_i condition tgt negated
    cases he : exitedIterators body index tgt with
    | nil => exact ⟨fun _ => hnext, trivial⟩
    | cons iter iterators =>
      have hs : enclosing body (index + 1) = enclosing body index :=
        enclosing_other hscoped hi (by simp) (by simp)
      rw [hs] at hnext ⊢
      have hcl := hc (enclosing body index) tgt tgt
      rw [he] at hcl
      have hl : Chained (enclosing body index)
          [(.label (afterLabel index), enclosing body index)] := ⟨fun _ => rfl, trivial⟩
      refine Chained.append (Chained.append ?_ hcl) hl
      exact ⟨fun _ => hnext, by simp [fallsThrough], fun _ => rfl, trivial⟩
  · exact ⟨fun _ => hnext, trivial⟩

theorem scopedFrom_chained (hscoped : Scoped body) {pre rest : List Statement}
    (hb : body = pre ++ rest) :
    Chained ∅ (scopedFrom body pre.length rest) ∧
      headScope ∅ (scopedFrom body pre.length rest) = enclosing body pre.length := by
  induction rest generalizing pre with
  | nil =>
    rw [append_nil] at hb
    rw [← hb, enclosing_length hscoped]
    exact ⟨trivial, rfl⟩
  | cons statement rest ih =>
    have hi : body[pre.length]? = some statement := by simp [hb]
    have hr := @ih (pre ++ [statement]) (by simp [hb])
    rw [length_append, length_singleton] at hr
    refine ⟨Chained.append ?_ hr.1, headScope_scopedExits _ _⟩
    rw [hr.2]
    exact scopedExits_chained hscoped hi

theorem mem_scopedFrom {pre rest : List Statement} (hb : body = pre ++ rest)
    {entry : Statement × Finset String}
    (he : entry ∈ scopedFrom body pre.length rest) :
    ∃ (index : Nat) (statement : Statement), body[index]? = some statement ∧
      entry ∈ scopedExits body index statement := by
  induction rest generalizing pre with
  | nil => cases he
  | cons statement rest ih =>
    rcases mem_append.mp he with he | he
    · exact ⟨pre.length, statement, by simp [hb], he⟩
    · refine @ih (pre ++ [statement]) (by simp [hb]) ?_
      rwa [length_append, length_singleton]

theorem closing_map_fst (active : Finset String) (last : Statement) (iterators : List String) :
    (closing active last iterators).map (·.1) = iterators.map .mapIterClose ++ [last] := by
  induction iterators generalizing active with
  | nil => rfl
  | cons iter iterators ih => simp [closing, ih]

/-- The scopes annotate the code of the pass. -/
theorem scopedFrom_map_fst (index : Nat) (rest : List Statement) :
    (scopedFrom body index rest).map (·.1) = closeExitsFrom body index rest := by
  have he : ∀ index statement,
      (scopedExits body index statement).map (·.1) = closeExits body index statement := by
    intro index statement
    unfold scopedExits closeExits
    split
    · rw [closing_map_fst]
    · split
      · rfl
      · simp [closing_map_fst]
    · rfl
  induction rest generalizing index with
  | nil => rfl
  | cons statement rest ih =>
    rw [scopedFrom, closeExitsFrom, map_append, he, ih]

theorem closeExitedMapIterators_eq (body : List Statement) :
    closeExitedMapIterators body = (scopedFrom body 0 body).map (·.1) := by
  rw [scopedFrom_map_fst, closeExitedMapIterators]
  split_ifs with hr
  · -- without a range no jump leaves one
    have he : ∀ index label, exitedIterators body index label = [] := by
      intro index label
      unfold exitedIterators
      rw [hr]
      split <;> rfl
    have hexi : ∀ index statement, closeExits body index statement = [statement] := by
      intro index statement
      unfold closeExits
      simp only [he]
      split <;> rfl
    have hs : ∀ index rest, closeExitsFrom body index rest = rest := by
      intro index rest
      induction rest generalizing index with
      | nil => rfl
      | cons statement rest ih => rw [closeExitsFrom, hexi, ih]; rfl
    exact (hs 0 body).symm
  · rfl

end Blocks

section Jumps

variable {body : List Statement}

/-- The statements in the code of one statement, with their scopes. -/
inductive ExitCode (body : List Statement) (index : Nat) (statement : Statement) :
    Statement → Finset String → Prop
  | kept : (∀ label ∈ jumpTargets statement, ∀ target, labelsAt body target label →
        enclosing body index = enclosing body target) →
      ExitCode body index statement statement (enclosing body index)
  | closed {iterator : String} {scope : Finset String} :
      ExitCode body index statement (.mapIterClose iterator) scope
  | left {label : String} {scope : Finset String} : label ∈ jumpTargets statement →
      (∀ target, labelsAt body target label → scope = enclosing body target) →
      ExitCode body index statement (.jump label) scope
  | branched {condition : Expression} {label : String} {negated : Bool} :
      statement = .jumpIf condition label negated →
      ExitCode body index statement (.jumpIf condition (cleanupLabel index) negated)
        (enclosing body index)
  | skipped : ExitCode body index statement (.jump (afterLabel index)) (enclosing body index)
  | cleanup : ExitCode body index statement (.label (cleanupLabel index)) (enclosing body index)
  | after : ExitCode body index statement (.label (afterLabel index)) (enclosing body index)

variable {idx : Nat} {stmt : Statement}

variable {label : String} {scope : Finset String} {entry : Statement}

theorem exited_scope (hscoped : Scoped body) (hi : body[idx]? = some stmt)
    (hj : label ∈ jumpTargets stmt)
    (hs : ∀ iter, iter ∈ scope ↔ iter ∈ enclosing body idx ∧ iter ∉ exitedIterators body idx label)
    {target : Nat} (ht : labelsAt body target label) :
    scope = enclosing body target := by
  have he : exitedIterators body idx label = crossedIterators (iteratorRanges body) idx target := by
    rw [exitedIterators, labelIndex_of_labelsAt hscoped ht]
  ext iter
  rw [hs, he, enclosing_target hscoped hi hj ht]

theorem mem_scopedExits (hscoped : Scoped body) (hi : body[idx]? = some stmt)
    (he : (entry, scope) ∈ scopedExits body idx stmt) :
    ExitCode body idx stmt entry scope := by
  have hc : ∀ label, label ∈ jumpTargets stmt →
      (entry, scope) ∈ closing (enclosing body idx) (.jump label) (exitedIterators body idx label) →
      ExitCode body idx stmt entry scope := by
    intro label hj hmem
    rcases mem_closing hmem with ⟨iter, rfl⟩ | ⟨rfl, hs⟩
    · exact .closed
    · exact .left hj fun tgt => exited_scope hscoped hi hj hs
  unfold scopedExits at he
  split at he
  · exact hc _ (mem_singleton_self _) he
  · rename_i condition label negated
    have hj : label ∈ jumpTargets (.jumpIf condition label negated) :=
      mem_singleton_self _
    have hexit := hc label hj
    cases hexi : exitedIterators body idx label with
    | nil =>
      rw [hexi] at he
      cases mem_singleton.mp he
      refine .kept fun other ho tgt ht => ?_
      cases mem_singleton.mp ho
      exact exited_scope hscoped hi hj (by simp [hexi]) ht
    | cons iter iterators =>
      rw [hexi] at he hexit
      rcases mem_append.mp he with he | he
      · rcases mem_append.mp he with he | he
        · simp only [mem_cons, not_mem_nil, or_false, Prod.mk.injEq] at he
          rcases he with ⟨rfl, rfl⟩ | ⟨rfl, rfl⟩ | ⟨rfl, rfl⟩
          · exact .branched rfl
          · exact .skipped
          · exact .cleanup
        · exact hexit he
      · cases mem_singleton.mp he
        exact .after
  · rename_i hno hn
    cases mem_singleton.mp he
    refine .kept fun label hl tgt ht => ?_
    -- what is left is a type dispatch, which stays in its loops
    cases stmt with
    | typeDispatch subject cases defaultLabel defaultLocal =>
      ext iter
      rw [mem_enclosing hscoped, mem_enclosing hscoped]
      exact ⟨hscoped.dispatched _ _ _ _ _ _ _ hi hl ht iter, hscoped.entered _ _ _ _ hi hl ht iter⟩
    | jump other => exact absurd rfl (hno other)
    | jumpIf condition other negated => exact absurd rfl (hn _ _ _)
    | _ => cases hl

theorem exitCode_label (hi : body[idx]? = some stmt)
    (hc : ExitCode body idx stmt (.label label) scope) :
    scope = enclosing body idx ∧
      (labelsAt body idx label ∨ label = cleanupLabel idx ∨ label = afterLabel idx) := by
  cases hc with
  | kept hk => exact ⟨rfl, .inl hi⟩
  | cleanup => exact ⟨rfl, .inr (.inl rfl)⟩
  | after => exact ⟨rfl, .inr (.inr rfl)⟩

theorem exitCode_jump (hscoped : Scoped body) (hi : body[idx]? = some stmt)
    (hc : ExitCode body idx stmt entry scope)
    (hj : label ∈ jumpTargets entry) :
    trackIterators scope (iteratorEvents entry) = some scope ∧ (((∃ tgt, labelsAt body tgt label) ∧
          ∀ tgt, labelsAt body tgt label → scope = enclosing body tgt) ∨
        (label = cleanupLabel idx ∨ label = afterLabel idx) ∧ scope = enclosing body idx) := by
  cases hc with
  | kept hk =>
    refine ⟨?_, .inl ⟨hscoped.defined _ _ hi _ hj, hk _ hj⟩⟩
    rw [enclosing_next hscoped hi, enclosing_other hscoped hi]
    · rintro iter obj rfl
      cases hj
    · rintro iter rfl
      cases hj
  | closed => cases hj
  | left hl hs =>
    cases mem_singleton.mp hj
    exact ⟨rfl, .inl ⟨hscoped.defined _ _ hi _ hl, hs⟩⟩
  | branched hst =>
    subst hst
    cases mem_singleton.mp hj
    refine ⟨?_, .inr ⟨.inl rfl, rfl⟩⟩
    have hnext := enclosing_next hscoped hi
    rwa [enclosing_other hscoped hi (by simp) (by simp)] at hnext
  | skipped =>
    cases mem_singleton.mp hj
    exact ⟨rfl, .inr ⟨.inr rfl, rfl⟩⟩
  | cleanup => cases hj
  | after => cases hj

/-- A jump of the new code leads to the scope of its target. -/
theorem jump_scope (hscoped : Scoped body) {scope' : Finset String}
    (he : (entry, scope) ∈ scopedFrom body 0 body)
    (hj : label ∈ jumpTargets entry)
    (ht : (.label label, scope') ∈ scopedFrom body 0 body) :
    trackIterators scope (iteratorEvents entry) = some scope' := by
  obtain ⟨idx, stmt, hid, he⟩ := @mem_scopedFrom body [] body rfl _ he
  obtain ⟨target, labelled, hla, ht⟩ := @mem_scopedFrom body [] body rfl _ ht
  obtain ⟨hsa, hpl⟩ :=
    exitCode_jump hscoped hid (mem_scopedExits hscoped hid he) hj
  obtain ⟨rfl, hl⟩ := exitCode_label hla (mem_scopedExits hscoped hla ht)
  rw [hsa, Option.some.injEq]
  rcases hpl with ⟨⟨known, hkn⟩, hs⟩ | ⟨hfr, rfl⟩
  · rcases hl with hl | rfl | rfl
    · exact hs target hl
    · exact absurd hkn (hscoped.fresh target known).1
    · exact absurd hkn (hscoped.fresh target known).2
  · -- both labels belong to the code of one conditional jump
    have hi : idx = target := by
      rcases hfr with rfl | rfl <;> rcases hl with hl | heq | heq
      · exact absurd hl (hscoped.fresh idx target).1
      · exact cleanupLabel_injective heq
      · exact absurd heq (cleanupLabel_ne_afterLabel _ _)
      · exact absurd hl (hscoped.fresh idx target).2
      · exact absurd heq.symm (cleanupLabel_ne_afterLabel _ _)
      · exact afterLabel_injective heq
    rw [hi]

end Jumps

section Runs

variable {body : List Statement}

variable {pc : Nat} {events : List IteratorEvent}

theorem scopeAt_of_getElem? (hpc : (closeExitedMapIterators body)[pc]? = some statement) :
    (scopedFrom body 0 body)[pc]? = some (statement, scopeAt body pc) := by
  rw [closeExitedMapIterators_eq, getElem?_map, Option.map_eq_some_iff] at hpc
  obtain ⟨entry, he, rfl⟩ := hpc
  rw [scopeAt, he]
  rfl

theorem pathStep_scope (hscoped : Scoped body) {next : Nat} {events' : List IteratorEvent}
    (hst : PathStep (closeExitedMapIterators body) (pc, events) (next, events'))
    (hs : trackIterators ∅ events = some (scopeAt body pc)) :
    trackIterators ∅ events' = some (scopeAt body next) := by
  cases hst with
  | next hpc hf =>
    rw [trackIterators_append, hs, Option.bind_some]
    have hc := (@scopedFrom_chained body hscoped [] body rfl).1
    exact hc.at (scopeAt_of_getElem? hpc) hf
  | jump hpc hj ht =>
    rw [trackIterators_append, hs, Option.bind_some]
    exact jump_scope hscoped (mem_of_getElem? (scopeAt_of_getElem? hpc)) hj
      (mem_of_getElem? (scopeAt_of_getElem? ht))

theorem scopedFrom_append (index : Nat) (first second : List Statement) :
    scopedFrom body index (first ++ second) =
      scopedFrom body index first ++ scopedFrom body (index + first.length) second := by
  induction first generalizing index with
  | nil => rfl
  | cons statement first ih =>
    rw [cons_append, scopedFrom, scopedFrom, ih, append_assoc,
      length_cons, Nat.add_right_comm, ← Nat.add_assoc]

/-- At the code of a statement, what encloses the statement is open. -/
theorem scopeAt_codeStart (hscoped : Scoped body) {index : Nat} (hi : index ≤ body.length) :
    scopeAt body (codeStart body index) = enclosing body index := by
  have hlen : (body.take index).length = index := by simp [hi]
  have hb : body = body.take index ++ body.drop index := by simp
  have hsp : scopedFrom body 0 body =
      scopedFrom body 0 (body.take index) ++ scopedFrom body index (body.drop index) := by
    conv_lhs => rw [hb]
    rw [scopedFrom_append, Nat.zero_add, hlen]
    simp only [take_append_drop]
  have hs : codeStart body index = (scopedFrom body 0 (body.take index)).length := by
    rw [codeStart, ← scopedFrom_map_fst, length_map]
  have hh := (scopedFrom_chained hscoped hb).2
  rw [hlen] at hh
  rw [← hh, scopeAt, hs, hsp, getElem?_append_right le_rfl, Nat.sub_self,
    headScope, head?_eq_getElem?]

/-- No statement of the new code misuses an iterator. -/
theorem events_tracked (hscoped : Scoped body)
    (hpc : (closeExitedMapIterators body)[pc]? = some statement) :
    ∃ final, trackIterators (scopeAt body pc) (iteratorEvents statement) = some final := by
  have he := scopeAt_of_getElem? hpc
  cases hf : fallsThrough statement with
  | true =>
    have hch := (@scopedFrom_chained body hscoped [] body rfl).1
    exact ⟨_, hch.at he hf⟩
  | false =>
    obtain ⟨index, original, hi, hmem⟩ :=
      @mem_scopedFrom body [] body rfl _ (mem_of_getElem? he)
    have hc := mem_scopedExits hscoped hi hmem
    revert hc
    generalize scopeAt body pc = scope
    intro hc
    cases hc with
    | kept => exact ⟨_, enclosing_next hscoped hi⟩
    | left | skipped => exact ⟨_, rfl⟩
    | closed | branched | cleanup | after => cases hf

theorem path_scope (hscoped : Scoped body)
    (hru : Relation.ReflTransGen (PathStep (closeExitedMapIterators body)) (0, []) (pc, events)) :
    trackIterators ∅ events = some (scopeAt body pc) := by
  have hs : trackIterators ∅ [] = some (scopeAt body 0) := by
    have hz := scopeAt_codeStart hscoped (Nat.zero_le body.length)
    have hnone : enclosing body 0 = ∅ := by
      ext iter
      rw [mem_enclosing hscoped]
      simp [Within]
    rw [codeStart, take_zero, closeExitsFrom, length_nil, hnone] at hz
    rw [hz, trackIterators]
  have hr : ∀ st, Relation.ReflTransGen (PathStep (closeExitedMapIterators body)) (0, []) st →
      trackIterators ∅ st.2 = some (scopeAt body st.1) := by
    intro st hru
    induction hru with
    | refl => exact hs
    | tail _ hst ih => exact pathStep_scope hscoped hst ih
  exact hr _ hru

/-- On every path through the new code an iterator is opened, advanced and closed
in turn; it is open at the code of a statement just when the statement is in its
loop; and a frame that ends inside of one leaves nothing open. -/
theorem closeExitedMapIterators_scoped (hscoped : Scoped body)
    (hrun : Relation.ReflTransGen (PathStep (closeExitedMapIterators body)) (0, []) (pc, events)) :
    trackIterators ∅ events = some (scopeAt body pc) ∧
      (∀ index ≤ body.length, pc = codeStart body index →
        ∀ iterator, iterator ∈ scopeAt body pc ↔ Within body iterator index) ∧
      ∀ statement, (closeExitedMapIterators body)[pc]? = some statement →
        ∀ part, part <+: iteratorEvents statement →
          trackIterators ∅ (events ++ part ++ unwind (events ++ part)) = some ∅ := by
  have hscope := path_scope hscoped hrun
  refine ⟨hscope, ?_, ?_⟩
  · rintro index hindex rfl iterator
    rw [scopeAt_codeStart hscoped hindex, mem_enclosing hscoped]
  · rintro statement hpc part ⟨rest, hpart⟩
    obtain ⟨final, hfinal⟩ := events_tracked hscoped hpc
    rw [← hpart, trackIterators_append, Option.bind_eq_some_iff] at hfinal
    obtain ⟨middle, hmiddle, -⟩ := hfinal
    refine @trackIterators_unwind middle _ ?_
    rw [trackIterators_append, hscope, Option.bind_some, hmiddle]

/-- A loop over a map that a labelled `break` may leave. -/
def rangeLoop : List Statement :=
  [.mapIterInit "m" (.localVar {} false "x"), .label "cond",
    .storeResults [.discard, .discard, .localVar "ok" false] (.apply (.mapIterNext "m") {} 3 [] []),
    .jumpIf (.localVar (.builtin .bool) false "ok") "body" false, .jump "end",
    .label "body", .jumpIf (.localVar (.builtin .bool) false "found") "out" false,
    .jump "cond", .label "end", .mapIterClose "m", .label "out"]

theorem rangeLoop_scoped : Scoped rangeLoop := by
  have hc : ∀ (index : Nat) (statement : Statement),
      rangeLoop[index]? = some statement → (statement, index) ∈ rangeLoop.zipIdx :=
    fun index statement h => mk_mem_zipIdx_iff_getElem?.mpr h
  have hop : ∀ index iter, opensAt rangeLoop index iter ↔ index = 0 ∧ iter = "m" := by
    intro index iter
    constructor
    · rintro ⟨obj, hid⟩
      have := hc _ _ hid
      simp [rangeLoop] at this
      tauto
    · rintro ⟨rfl, rfl⟩
      exact ⟨_, rfl⟩
  have hcl : ∀ index iter, closesAt rangeLoop index iter ↔ index = 9 ∧ iter = "m" := by
    intro index iter
    constructor
    · intro hid
      have := hc _ _ hid
      simp [rangeLoop] at this
      tauto
    · rintro ⟨rfl, rfl⟩
      rfl
  have hlb : ∀ index label, labelsAt rangeLoop index label ↔
      label = "cond" ∧ index = 1 ∨ label = "body" ∧ index = 5 ∨
        label = "end" ∧ index = 8 ∨ label = "out" ∧ index = 10 := by
    intro index label
    constructor
    · intro hid
      have := hc _ _ hid
      simpa [rangeLoop] using this
    · rintro (⟨rfl, rfl⟩ | ⟨rfl, rfl⟩ | ⟨rfl, rfl⟩ | ⟨rfl, rfl⟩) <;> rfl
  have hw : ∀ iter index, Within rangeLoop iter index ↔ iter = "m" ∧ 0 < index ∧ index ≤ 9 := by
    intro iter index
    simp only [Within, hop, hcl]
    constructor
    · rintro ⟨_, _, ⟨rfl, rfl⟩, ⟨rfl, -⟩, hi⟩
      exact ⟨rfl, hi⟩
    · rintro ⟨rfl, hi⟩
      exact ⟨0, 9, ⟨rfl, rfl⟩, ⟨rfl, rfl⟩, hi⟩
  have hj : ∀ (index : Nat) statement label, rangeLoop[index]? = some statement →
      label ∈ jumpTargets statement →
      index = 3 ∧ label = "body" ∨ index = 4 ∧ label = "end" ∨
        index = 6 ∧ label = "out" ∨ index = 7 ∧ label = "cond" := by
    intro index statement label hid hl
    have := hc _ _ hid
    simp [rangeLoop] at this
    rcases this with ⟨rfl, rfl⟩ | ⟨rfl, rfl⟩ | ⟨rfl, rfl⟩ | ⟨rfl, rfl⟩ | ⟨rfl, rfl⟩ |
      ⟨rfl, rfl⟩ | ⟨rfl, rfl⟩ | ⟨rfl, rfl⟩ | ⟨rfl, rfl⟩ | ⟨rfl, rfl⟩ | ⟨rfl, rfl⟩ <;>
      simp_all [jumpTargets]
  constructor
  · intro start iter h
    obtain ⟨rfl, rfl⟩ := (hop _ _).mp h
    exact ⟨9, by omega, (hcl _ _).mpr ⟨rfl, rfl⟩⟩
  · intro stop iter h
    obtain ⟨rfl, rfl⟩ := (hcl _ _).mp h
    exact ⟨0, by omega, (hop _ _).mpr ⟨rfl, rfl⟩⟩
  · intro first second iter hf hs
    rw [((hop _ _).mp hf).1, ((hop _ _).mp hs).1]
  · intro first second iter hf hs
    rw [((hcl _ _).mp hf).1, ((hcl _ _).mp hs).1]
  · intro index statement hid iter hit
    have := hc _ _ hid
    simp [rangeLoop] at this
    rcases this with ⟨rfl, rfl⟩ | ⟨rfl, rfl⟩ | ⟨rfl, rfl⟩ | ⟨rfl, rfl⟩ | ⟨rfl, rfl⟩ |
      ⟨rfl, rfl⟩ | ⟨rfl, rfl⟩ | ⟨rfl, rfl⟩ | ⟨rfl, rfl⟩ | ⟨rfl, rfl⟩ | ⟨rfl, rfl⟩ <;>
      simp [Statement.expressions, allAdvancedIterators, advancedIterators] at hit
    exact (hw _ _).mpr ⟨hit, by omega, by omega⟩
  · intro first second label hf hs
    rw [hlb] at hf hs
    rcases hf with ⟨rfl, rfl⟩ | ⟨rfl, rfl⟩ | ⟨rfl, rfl⟩ | ⟨rfl, rfl⟩ <;>
      simpa [eq_comm] using hs
  · intro index statement hid label hl
    simp only [hlb]
    rcases hj _ _ _ hid hl with ⟨-, rfl⟩ | ⟨-, rfl⟩ | ⟨-, rfl⟩ | ⟨-, rfl⟩ <;>
      simp
  · intro index statement tgt label hid hl ht iter
    rw [hw, hw]
    rcases hj _ _ _ hid hl with ⟨rfl, rfl⟩ | ⟨rfl, rfl⟩ | ⟨rfl, rfl⟩ | ⟨rfl, rfl⟩ <;>
      exact fun h => ⟨h.1, by omega, by omega⟩
  · intro index tgt label subject cases defaultLabel defaultLocal hid
    have := hc _ _ hid
    simp [rangeLoop] at this
  · -- the labels of the pass are longer
    have hlen : ∀ tgt label, labelsAt rangeLoop tgt label → label.length ≤ 4 := by
      intro tgt label hl
      rcases (hlb _ _).mp hl with ⟨rfl, -⟩ | ⟨rfl, -⟩ | ⟨rfl, -⟩ | ⟨rfl, -⟩ <;> decide
    have hcln : ∀ index, 12 ≤ (cleanupLabel index).length := by
      intro index
      rw [cleanupLabel, String.length_append]
      exact Nat.le_add_right 12 _
    intro index tgt
    refine ⟨fun hl => ?_, fun hl => ?_⟩
    · have := hlen _ _ hl
      have := hcln index
      omega
    · have := hlen _ _ hl
      have := hcln index
      rw [afterLabel, String.length_append] at *
      omega

/-- The way out by the labelled `break` closes the iterator. -/
theorem rangeLoop_left :
    trackIterators ∅ [.opened "m", .advanced "m", .closed "m"] = some (scopeAt rangeLoop 15) := by
  have hcode : closeExitedMapIterators rangeLoop = rangeLoop.take 6 ++
        [.jumpIf (.localVar (.builtin .bool) false "found") "map.cleanup.6" false,
          .jump "map.cleanup.6.after", .label "map.cleanup.6", .mapIterClose "m",
          .jump "out", .label "map.cleanup.6.after"] ++ rangeLoop.drop 7 := by
    rfl
  have hrun : Relation.ReflTransGen (PathStep (closeExitedMapIterators rangeLoop))
      (0, []) (15, [.opened "m", .advanced "m", .closed "m"]) := by
    refine .head (.next rfl rfl) ?_
    refine .head (.next rfl rfl) ?_
    refine .head (.next rfl rfl) ?_
    refine .head (b := (5, _)) (.jump rfl (mem_singleton_self _) rfl) ?_
    refine .head (.next rfl rfl) ?_
    refine .head (b := (8, _)) (.jump rfl (mem_singleton_self _) rfl) ?_
    refine .head (.next rfl rfl) ?_
    refine .head (.next rfl rfl) ?_
    exact .head (b := (15, _)) (.jump rfl (mem_singleton_self _) rfl) .refl
  exact (closeExitedMapIterators_scoped rangeLoop_scoped hrun).1

end Runs

end MiniGo.Emit
