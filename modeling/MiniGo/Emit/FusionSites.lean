/-
The sites of the fusion passes.

What a pass has checked at each of its sites, that sites do not get in each
other's way, and that the code which a pass leaves has unique labels and defined
branch targets again.
-/
import MiniGo.Emit.Fusion
import MiniGo.Runtime.RegisterTyped

namespace MiniGo.Emit

open MiniGo.Bytecode MiniGo.Runtime Operation FusionPass List Prod

variable {ctx : FusionContext} {code : MicroCode} {name : String} {pass : FusionPass} {site : Site}

variable {instruction : MicroInstruction}

section Inversion

theorem guard_bind_eq_some {condition : Prop} [Decidable condition] {α : Type}
    {next : Option α} {result : α}
    (h : (guard condition >>= fun _ => next) = some result) :
    condition ∧ next = some result := by
  by_cases hc : condition
  · exact ⟨hc, by simpa [guard, hc] using h⟩
  · simp [guard, hc, failure] at h

theorem bind_eq_some {α β : Type} {first : Option α} {next : α → Option β} {result : β}
    (h : (first >>= next) = some result) : ∃ val, first = some val ∧ next val = some result :=
  Option.bind_eq_some_iff.mp h

/-- What the update passes know of an update. -/
structure IsUpdateInstruction (ctx : FusionContext) (code : MicroCode)
    (instruction : MicroInstruction) (update : Update) : Prop where
  operation : instruction.operation = .binary update.operator
  inputs : (code.flow instruction).inputs = [.localVar update.index, update.step]
  outputs : (code.flow instruction).outputs = [.localVar update.index]
  type : ctx.locals[update.index]? = some update.type
  operator : IsUpdate update.operator
  number : ctx.scalarKind update.type ≠ .none
  step : sameOperandType ctx code update.step update.type = true

theorem updateAt_eq_some {update : Update} (h : updateAt ctx code instruction = some update) :
    IsUpdateInstruction ctx code instruction update := by
  unfold updateAt at h
  split at h
  · next oper hop =>
    dsimp only at h
    split at h
    · next cur step idx hf =>
      obtain ⟨hi, hou⟩ := mk.inj hf
      obtain ⟨type, ht, h⟩ := bind_eq_some h
      obtain ⟨⟨rfl, ho⟩, h⟩ := guard_bind_eq_some h
      obtain ⟨hn, h⟩ := guard_bind_eq_some h
      obtain ⟨hs, h⟩ := guard_bind_eq_some h
      cases h
      refine ⟨hop, hi, hou, ht, ho, ?_, hs⟩
      intro hnone
      simp [hnone, isInteger] at hn
    · cases h
  · cases h

/-- The comparison has the operand on one side. -/
theorem orientComparison_eq_some {opd : Operand}
    {oper oriented : Operator} {left right other : Operand}
    (h : orientComparison opd oper left right = some (oriented, other)) :
    (left = opd ∧ right = other ∧ oper = oriented) ∨ (left = other ∧ right = opd ∧
        inverseComparisonOperator oper = some oriented) := by
  unfold orientComparison at h
  split at h
  · next hl =>
    cases h
    exact .inl ⟨hl, rfl, rfl⟩
  · split at h
    · next hr =>
      obtain ⟨inverse, hi, h⟩ := Option.map_eq_some_iff.mp h
      cases h
      exact .inr ⟨rfl, hr, hi⟩
    · cases h

/-- An update of a local and a comparison with the local on one side. -/
structure UpdateBranch (ctx : FusionContext) (code : MicroCode)
    (firstPC branchPC : Nat) where
  first : MicroInstruction
  second : MicroInstruction
  update : Update
  comparison : Comparison
  left : Operand
  right : Operand
  operator : Operator
  other : Operand
  firstAt : code.instructions[firstPC]? = some first
  branchAt : code.instructions[branchPC]? = some second
  isUpdate : IsUpdateInstruction ctx code first update
  operation : second.operation = .compareBranch comparison
  inputs : (code.flow second).inputs = [left, right]
  orient : orientComparison (.localVar update.index) comparison.operator left
    right = some (operator, other)
  sameType : sameOperandType ctx code other update.type = true

def UpdateBranch.payload {firstPC branchPC : Nat}
    (parts : UpdateBranch ctx code firstPC branchPC) (label : String)
    (when : Bool) : UpdateComparison where
  update := parts.update.operator
  comparison := parts.operator
  type := parts.update.type
  label := label
  when := when

/-- The fused instruction of an update and a comparison. -/
def UpdateBranch.fused {firstPC branchPC : Nat}
    (parts : UpdateBranch ctx code firstPC branchPC) (label : String)
    (when : Bool) (cost : Nat) : Override where
  operation := .updateCompareBranch (parts.payload label when)
  flow := updateFlow parts.update parts.other (code.flow parts.first) (code.flow parts.second)
  cost := cost

/-- A producer whose only consumer is the next instruction. -/
structure ProducerPair (code : MicroCode) (pc : Nat) where
  first : MicroInstruction
  second : MicroInstruction
  temporary : Nat
  firstAt : code.instructions[pc]? = some first
  secondAt : code.instructions[pc + 1]? = some second
  outputs : (code.flow first).outputs = [.slot temporary]
  uses : slotUseCount code temporary = 1

def ProducerPair.releases {pc : Nat} (parts : ProducerPair code pc)
    (select : RegisterFlow → List Nat) : List Nat :=
  mergeSlotReleases (select (code.flow parts.first))
    (select (code.flow parts.second)) (some parts.temporary)

/-- A back edge that `fuseLoopLatch` folds, with what it has looked up. -/
structure LatchParts (ctx : FusionContext) (code : MicroCode)
    (inserted : List (String × Nat)) (jumpPC : Nat) where
  headerPC : Nat
  exitPC : Nat
  header : String
  jump : MicroInstruction
  parts : UpdateBranch ctx code (jumpPC - 1) (headerPC + 1)
  jumpAt : code.instructions[jumpPC]? = some jump
  jumpOperation : jump.operation = .jump header
  headerAt : lookupLabel code inserted header = some headerPC
  headerBefore : headerPC + 1 < jumpPC
  exitAt : lookupLabel code inserted parts.comparison.label = some exitPC
  exitAfter : jumpPC < exitPC
  onlyLabels : ((code.operations.drop (jumpPC + 1)).take
    (exitPC - (jumpPC + 1))).all Operation.isLabel = true

theorem loopLatchAt_eq_some {inserted : List (String × Nat)} {jumpPC : Nat}
    {latch : Latch} (h : loopLatchAt ctx code inserted jumpPC = some latch) :
    ∃ found : LatchParts ctx code inserted jumpPC, latch.site = {
        members := [jumpPC - 1, jumpPC, found.headerPC + 1]
        position := jumpPC - 1
        removed := jumpPC
        fused := found.parts.fused latch.bodyLabel (!found.parts.comparison.when)
          (found.parts.first.logicalCost + found.parts.second.logicalCost +
            found.jump.logicalCost) } ∧
      latch.bodyPC = found.headerPC + 2 ∧
      ((latch.isNew = false ∧ code.operations[latch.bodyPC]? = some (.label latch.bodyLabel)) ∨
        (latch.isNew = true ∧ ∃ fuel, freshLabel code inserted
            (".fused.loop.body." ++ toString found.headerPC) fuel 0 = some latch.bodyLabel)) := by
  obtain ⟨jump, hj, h⟩ := bind_eq_some h
  split at h
  · next header hhd =>
    obtain ⟨headerPC, hh, h⟩ := bind_eq_some h
    obtain ⟨hbe, h⟩ := guard_bind_eq_some h
    obtain ⟨second, hsn, h⟩ := bind_eq_some h
    split at h
    · next comparison hop =>
      obtain ⟨exitPC, he, h⟩ := bind_eq_some h
      obtain ⟨ha, h⟩ := guard_bind_eq_some h
      obtain ⟨ho, h⟩ := guard_bind_eq_some h
      obtain ⟨first, hf, h⟩ := bind_eq_some h
      obtain ⟨update, hu, h⟩ := bind_eq_some h
      split at h
      · next left right hi =>
        obtain ⟨⟨operator, other⟩, hor, h⟩ := bind_eq_some h
        obtain ⟨hs, h⟩ := guard_bind_eq_some h
        obtain ⟨-, h⟩ := guard_bind_eq_some h
        obtain ⟨⟨bodyLabel, isNew⟩, hb, h⟩ := bind_eq_some h
        cases h
        refine ⟨{
          headerPC, exitPC, header, jump
          parts := {
            first, second, update, comparison, left, right, operator, other
            firstAt := hf, branchAt := hsn
            isUpdate := updateAt_eq_some hu, operation := hop
            inputs := hi, orient := hor, sameType := hs }
          jumpAt := hj, jumpOperation := hhd, headerAt := hh
          headerBefore := hbe, exitAt := he, exitAfter := ha
          onlyLabels := ho }, rfl, rfl, ?_⟩
        unfold bodyLabelAt at hb
        split at hb
        · next hl =>
          cases hb
          exact .inl ⟨rfl, hl⟩
        · obtain ⟨fresh, hfr, hb⟩ := Option.map_eq_some_iff.mp hb
          cases hb
          exact .inr ⟨rfl, _, hfr⟩
      · cases h
    · cases h
  · cases h

end Inversion

/-- What the compiler promises of code before the allocation of slots: labels
are defined once and branches name defined labels, a comparing branch compares,
nothing is released yet, and the temporary of a length is an integer. -/
structure CodeWellFormed (code : MicroCode) : Prop where
  labels : LabelsUnique code.operations
  targets : ∀ operation ∈ code.operations, ∀ name ∈ operation.targets,
    Operation.label name ∈ code.operations
  operators : ∀ comparison, .compareBranch comparison ∈ code.operations →
    isComparison comparison.operator = true
  releases : ∀ instruction ∈ code.instructions, (code.flow instruction).release = [] ∧
      (code.flow instruction).releaseBefore = []
  lengths : ∀ instruction ∈ code.instructions, instruction.operation = .len →
    ∀ slot, (code.flow instruction).outputs = [.slot slot] →
      code.types[slot]? = some (.builtin .int)

section Latches

/-- None of the inserted labels is a label of the code. -/
def FreshLabels (code : MicroCode) (inserted : List (String × Nat)) : Prop :=
  ∀ entry ∈ inserted, Operation.label entry.1 ∉ code.operations

variable {inserted : List (String × Nat)}

theorem lookupLabel_defines {position : Nat} (hfr : FreshLabels code inserted)
    (hmem : label name ∈ code.operations)
    (hl : lookupLabel code inserted name = some position) :
    Defines code.operations name position := by
  unfold lookupLabel at hl
  cases hi : inserted.lookup name with
  | some found =>
    obtain ⟨pre, after, hs, -⟩ :=
      lookup_eq_some_iff.mp hi
    exact absurd hmem (hfr (name, found) (by simp [hs]))
  | none =>
    rw [hi, Option.none_or] at hl
    obtain ⟨found, hd, rfl⟩ := findLabel_eq_some hl
    have hlen := (List.getElem?_eq_some_iff.mp hd).1
    simpa [Nat.min_eq_left (Nat.le_of_lt hlen)] using hd

variable {found : List Latch} {fuel suffix : Nat} {base : String} {latch : Latch} {jumpPC : Nat}

theorem freshLabel_lookup (h : freshLabel code inserted base fuel suffix = some name) :
    lookupLabel code inserted name = none := by
  fun_induction freshLabel code inserted base fuel suffix with
  | case1 => cases h
  | case2 fuel suffix cand hsome ih => exact ih h
  | case3 fuel suffix cand hnone =>
    obtain rfl := Option.some.inj h
    simpa using hnone

theorem lookupLabel_eq_none (h : lookupLabel code inserted name = none) :
    label name ∉ code.operations ∧ name ∉ inserted.map (·.1) := by
  obtain ⟨hi, hl⟩ := Option.or_eq_none_iff.mp h
  refine ⟨fun hmem => ?_, fun hmem => ?_⟩
  · have hsome : (labelPosition code.operations name).isSome :=
      findLabel_isSome 0 hmem
    simp [hl] at hsome
  · obtain ⟨entry, he, rfl⟩ := mem_map.mp hmem
    have := lookup_eq_none_iff.mp hi entry he
    simp at this

theorem labelCandidate_injective (base : String) : Function.Injective (labelCandidate base) := by
  have hlen : ∀ suffix : Nat, base ≠ base ++ "." ++ toString (suffix + 1) := by
    intro suffix heq
    have hlen := congrArg String.length heq
    have hdo : ".".length = 1 := rfl
    rw [String.length_append, String.length_append] at hlen
    omega
  intro first second heq
  unfold labelCandidate at heq
  rcases first with _ | first <;> rcases second with _ | second
  · rfl
  · exact absurd heq (hlen second)
  · exact absurd heq.symm (hlen first)
  · have hs : (first + 1).repr = (second + 1).repr := by simpa using heq
    have hd : Nat.toDigits 10 (first + 1) = Nat.toDigits 10 (second + 1) := by
      rw [← Nat.toList_repr, ← Nat.toList_repr, hs]
    rw [← @Nat.ofDigitChars_ten_toDigits (first + 1), hd, Nat.ofDigitChars_ten_toDigits]

theorem freshLabel_eq_none (h : freshLabel code inserted base fuel suffix = none) :
    ∀ offset < fuel, (lookupLabel code inserted (labelCandidate base (suffix + offset))).isSome
        := by
  fun_induction freshLabel code inserted base fuel suffix with
  | case1 => simp
  | case2 fuel suffix cand hsome ih =>
    intro offset ho
    rcases offset with _ | offset
    · exact hsome
    · have := ih h offset (by omega)
      rwa [Nat.add_assoc, Nat.add_comm 1] at this
  | case3 => cases h

/-- The search for a fresh label ends: there are more candidates than labels. -/
theorem freshLabel_isSome (inserted : List (String × Nat)) (base : String) :
    (freshLabel code inserted base (code.instructions.length + inserted.length + 1) 0).isSome := by
  by_contra hnone
  have ht := freshLabel_eq_none (by simpa using hnone)
  let taken := code.operations ++ inserted.map fun entry => label entry.1
  have hsub : (range (code.instructions.length + inserted.length + 1)).map
      (fun off => label (labelCandidate base off)) ⊆ taken := by
    intro operation hmem
    obtain ⟨off, ho, rfl⟩ := mem_map.mp hmem
    have hsome := ht off (mem_range.mp ho)
    by_contra hnot
    have hl : lookupLabel code inserted (labelCandidate base off) =
        none := by
      refine Option.or_eq_none_iff.mpr ⟨?_, ?_⟩
      · refine lookup_eq_none_iff.mpr fun entry he => ?_
        have hne : labelCandidate base off ≠ entry.1 := by
          intro heq
          exact hnot (mem_append_right _ (mem_map.mpr ⟨entry, he, by rw [heq]⟩))
        simpa using hne
      · refine findLabel_eq_none 0 fun operation hop heq => hnot ?_
        exact mem_append_left _ (heq ▸ hop)
    simp [hl] at hsome
  have hnd : ((range (code.instructions.length + inserted.length + 1)).map
      fun off => label (labelCandidate base off)).Nodup :=
    nodup_range.map fun _ _ hs => labelCandidate_injective base (label.inj hs)
  have hlen := (subperm_of_subset hnd hsub).length_le
  simp only [length_map, length_range, taken, length_append, MicroCode.operations] at hlen
  omega

/-- There is a label for every loop body, and a new one has no other place. -/
theorem bodyLabelAt_fresh (inserted : List (String × Nat)) (headerPC : Nat) :
    ∃ name isNew, bodyLabelAt code inserted headerPC = some (name, isNew) ∧
      if isNew then label name ∉ code.operations ∧ name ∉ inserted.map (·.1)
      else code.operations[headerPC + 2]? = some (label name) := by
  obtain ⟨name, hname⟩ := Option.isSome_iff_exists.mp
    (@freshLabel_isSome code inserted (".fused.loop.body." ++ toString headerPC))
  unfold bodyLabelAt
  split
  · exact ⟨_, false, rfl, by simpa⟩
  · exact ⟨name, true, by rw [hname]; rfl, lookupLabel_eq_none (freshLabel_lookup hname)⟩

/-- What holds of the latches found so far. -/
structure LatchesFound (ctx : FusionContext) (code : MicroCode)
    (found : List Latch) : Prop where
  origin : ∀ latch ∈ found, ∃ inserted jumpPC, FreshLabels code inserted ∧
    loopLatchAt ctx code inserted jumpPC = some latch
  fresh : FreshLabels code (insertedLabels found)
  names : ((insertedLabels found).map (·.1)).Nodup
  jumps : (found.map (·.site.removed)).Nodup

theorem loopLatchAt_removed (h : loopLatchAt ctx code inserted jumpPC = some latch) :
    latch.site.removed = jumpPC := by
  obtain ⟨found, hs, -⟩ := loopLatchAt_eq_some h
  rw [hs]

theorem LatchesFound.cons (hf : LatchesFound ctx code found)
    (hla : loopLatchAt ctx code (insertedLabels found) jumpPC = some latch)
    (hj : jumpPC ∉ found.map (·.site.removed)) :
    LatchesFound ctx code (latch :: found) := by
  obtain ⟨parts, hs, -, hl⟩ := loopLatchAt_eq_some hla
  have hr := loopLatchAt_removed hla
  refine ⟨?_, ?_, ?_, ?_⟩
  · intro other ho
    rcases mem_cons.mp ho with rfl | ho
    · exact ⟨_, jumpPC, hf.fresh, hla⟩
    · exact hf.origin other ho
  · intro entry he
    rcases hl with ⟨hold, -⟩ | ⟨hne, fuel, hn⟩
    · exact hf.fresh entry (by simpa [insertedLabels, hold] using he)
    · have hcons : entry = (latch.bodyLabel, latch.bodyPC) ∨ entry ∈ insertedLabels found := by
        simpa [insertedLabels, hne] using he
      rcases hcons with rfl | he
      · exact (lookupLabel_eq_none (freshLabel_lookup hn)).1
      · exact hf.fresh entry he
  · rcases hl with ⟨hold, -⟩ | ⟨hne, fuel, hn⟩
    · simpa [insertedLabels, hold] using hf.names
    · have ho := (lookupLabel_eq_none (freshLabel_lookup hn)).2
      have hcons : insertedLabels (latch :: found) =
          (latch.bodyLabel, latch.bodyPC) :: insertedLabels found := by
        simp [insertedLabels, hne]
      rw [hcons, map_cons, nodup_cons]
      exact ⟨ho, hf.names⟩
  · rw [map_cons, nodup_cons, hr]
    exact ⟨hj, hf.jumps⟩

theorem collectLatches_found (positions : List Nat)
    (hf : LatchesFound ctx code found) (hnd : positions.Nodup)
    (hd : ∀ jumpPC ∈ positions, jumpPC ∉ found.map (·.site.removed)) :
    LatchesFound ctx code (collectLatches ctx code positions found) := by
  induction positions generalizing found with
  | nil => exact hf
  | cons jumpPC rest ih =>
    rw [nodup_cons] at hnd
    unfold collectLatches
    cases hl : loopLatchAt ctx code (insertedLabels found) jumpPC with
    | none =>
      exact ih hf hnd.2 fun other ho =>
        hd other (mem_cons_of_mem jumpPC ho)
    | some latch =>
      refine ih (hf.cons hl (hd jumpPC mem_cons_self)) hnd.2 ?_
      intro other ho hmem
      simp only [Option.toList_some, singleton_append, map_cons,
        mem_cons, loopLatchAt_removed hl] at hmem
      rcases hmem with rfl | hmem
      · exact hnd.1 ho
      · exact hd other (mem_cons_of_mem jumpPC ho) hmem

theorem loopLatches_found : LatchesFound ctx code (loopLatches ctx code) := by
  have he : LatchesFound ctx code [] :=
    ⟨by simp, by simp [FreshLabels, insertedLabels], by simp [insertedLabels],
      by simp⟩
  unfold loopLatches
  split
  · exact he
  · exact collectLatches_found _ he nodup_range' (by simp)

end Latches

section Origins

/-- Where the sites of the passes come from, with the position of their first member. -/
inductive Origin (ctx : FusionContext) (code : MicroCode) : FusionPass → Nat → Site → Prop
  | loopLatch {latch : Latch} {inserted : List (String × Nat)} {jumpPC : Nat}
      (hlatch : latch ∈ loopLatches ctx code) (hfresh : FreshLabels code inserted)
      (found : LatchParts ctx code inserted jumpPC)
      (hbodyPC : latch.bodyPC = found.headerPC + 2) :
      Origin ctx code .loopLatch (jumpPC - 1) {
        members := [jumpPC - 1, jumpPC, found.headerPC + 1]
        position := jumpPC - 1
        removed := jumpPC
        fused := found.parts.fused latch.bodyLabel (!found.parts.comparison.when)
          (found.parts.first.logicalCost + found.parts.second.logicalCost +
            found.jump.logicalCost) }
  | updateCompareBranch {pc : Nat} (parts : UpdateBranch ctx code pc (pc + 1)) :
      Origin ctx code .updateCompareBranch pc {
        members := [pc, pc + 1], position := pc + 1, removed := pc
        fused := parts.fused parts.comparison.label parts.comparison.when
          (parts.first.logicalCost + parts.second.logicalCost) }
  | indexConvert {pc : Nat} {object index : Operand} {target : TypeRef}
      (parts : ProducerPair code pc) (hload : parts.first.operation = .loadIndex)
      (hconvert : parts.second.operation = .convert target)
      (hinputs : (code.flow parts.first).inputs = [object, index])
      (hsource : (code.flow parts.second).inputs = [.slot parts.temporary]) :
      Origin ctx code .indexConvert pc {
        members := [pc, pc + 1], position := pc + 1, removed := pc
        fused := {
          operation := .indexConvert target
          flow := {
            inputs := [object, index]
            outputs := (code.flow parts.second).outputs
            release := parts.releases (·.release)
            releaseBefore := parts.releases (·.releaseBefore) }
          cost := parts.first.logicalCost + parts.second.logicalCost }
        temporary := some parts.temporary }
  | lenCompareBranch {pc : Nat} {comparison : Comparison} {operator : Operator}
      {object left right other : Operand} {otherType : TypeRef} (parts : ProducerPair code pc)
      (hlength : parts.first.operation = .len)
      (hcompare : parts.second.operation = .compareBranch comparison)
      (hobject : (code.flow parts.first).inputs = [object])
      (hinputs : (code.flow parts.second).inputs = [left, right])
      (horient : orientComparison (.slot parts.temporary) comparison.operator left right =
        some (operator, other))
      (hotherType : slotOperandType ctx code other = some otherType)
      (hinteger : isInteger (ctx.scalarKind otherType) = true) :
      Origin ctx code .lenCompareBranch pc {
        members := [pc, pc + 1], position := pc + 1, removed := pc
        fused := {
          operation := .lenCompareBranch {
            operator, type := .builtin .int
            label := comparison.label, when := comparison.when }
          flow := {
            inputs := [object, other]
            release := parts.releases (·.release)
            releaseBefore := parts.releases (·.releaseBefore) }
          cost := parts.first.logicalCost + parts.second.logicalCost }
        temporary := some parts.temporary }

variable {pc : Nat}

theorem updateCompareBranchAt_origin (h : updateCompareBranchAt ctx code pc = some site) :
    Origin ctx code .updateCompareBranch pc site := by
  obtain ⟨first, hf, h⟩ := bind_eq_some h
  obtain ⟨second, hsn, h⟩ := bind_eq_some h
  obtain ⟨update, hu, h⟩ := bind_eq_some h
  split at h
  · next comparison hop =>
    obtain ⟨-, h⟩ := guard_bind_eq_some h
    split at h
    · next left right hi =>
      obtain ⟨⟨operator, other⟩, ho, h⟩ := bind_eq_some h
      obtain ⟨hs, h⟩ := guard_bind_eq_some h
      cases h
      exact .updateCompareBranch {
        first, second, update, comparison, left, right, operator, other
        firstAt := hf, branchAt := hsn
        isUpdate := updateAt_eq_some hu, operation := hop
        inputs := hi, orient := ho, sameType := hs }
    · cases h
  · cases h

theorem indexConvertAt_origin (h : indexConvertAt ctx code pc = some site) :
    Origin ctx code .indexConvert pc site := by
  obtain ⟨first, hfs, h⟩ := bind_eq_some h
  obtain ⟨second, hs, h⟩ := bind_eq_some h
  split at h
  · next tgt hops =>
    obtain ⟨hload, hconvert⟩ := mk.inj hops
    obtain ⟨-, h⟩ := guard_bind_eq_some h
    dsimp only at h
    split at h
    · next obj idx temporary source hf =>
      obtain ⟨hi, hf⟩ := mk.inj hf
      obtain ⟨ho, hsr⟩ := mk.inj hf
      obtain ⟨⟨rfl, hu⟩, h⟩ := guard_bind_eq_some h
      obtain ⟨objectType, -, h⟩ := bind_eq_some h
      obtain ⟨-, h⟩ := guard_bind_eq_some h
      cases h
      exact .indexConvert {
        first, second, temporary := source, firstAt := hfs
        secondAt := hs, outputs := ho, uses := hu } hload hconvert hi hsr
    · cases h
  · cases h

theorem lenCompareBranchAt_origin (h : lenCompareBranchAt ctx code pc = some site) :
    Origin ctx code .lenCompareBranch pc site := by
  obtain ⟨first, hfs, h⟩ := bind_eq_some h
  obtain ⟨second, hs, h⟩ := bind_eq_some h
  split at h
  · next cmp hops =>
    obtain ⟨hlen, hc⟩ := mk.inj hops
    obtain ⟨-, h⟩ := guard_bind_eq_some h
    dsimp only at h
    split at h
    · next obj temporary left right hf =>
      obtain ⟨hob, hf⟩ := mk.inj hf
      obtain ⟨ho, hi⟩ := mk.inj hf
      obtain ⟨hu, h⟩ := guard_bind_eq_some h
      obtain ⟨⟨oper, other⟩, hor, h⟩ := bind_eq_some h
      obtain ⟨-, h⟩ := guard_bind_eq_some h
      obtain ⟨otherType, hotherType, h⟩ := bind_eq_some h
      obtain ⟨hin, h⟩ := guard_bind_eq_some h
      cases h
      exact .lenCompareBranch {
        first, second, temporary, firstAt := hfs
        secondAt := hs, outputs := ho, uses := hu } hlen
        hc hob hi hor hotherType hin
    · cases h
  · cases h

theorem site_origin (hs : site ∈ pass.sites ctx code) : ∃ pc, Origin ctx code pass pc site := by
  cases pass with
  | loopLatch =>
    obtain ⟨latch, hla, rfl⟩ := mem_map.mp hs
    obtain ⟨inserted, jumpPC, hfr, hl⟩ := loopLatches_found.origin latch hla
    obtain ⟨found, hsh, hbodyPC, -⟩ := loopLatchAt_eq_some hl
    rw [hsh]
    exact ⟨_, .loopLatch hla hfr found hbodyPC⟩
  | updateCompareBranch =>
    obtain ⟨pc, -, hsi⟩ := mem_filterMap.mp hs
    exact ⟨pc, updateCompareBranchAt_origin hsi⟩
  | indexConvert =>
    obtain ⟨pc, -, hsi⟩ := mem_filterMap.mp hs
    exact ⟨pc, indexConvertAt_origin hsi⟩
  | lenCompareBranch =>
    obtain ⟨pc, -, hsi⟩ := mem_filterMap.mp hs
    exact ⟨pc, lenCompareBranchAt_origin hsi⟩

/-- The members of a pair stand next to each other, the last one at the position of the site. -/
theorem Origin.position_eq (ho : Origin ctx code pass pc site) (hp : pass ≠ .loopLatch) :
    site.position = pc + 1 := by
  cases ho with
  | loopLatch => exact absurd rfl hp
  | updateCompareBranch | indexConvert | lenCompareBranch => rfl

end Origins

section Passes

/-- The operation that a pass removes. -/
def FusionPass.removes : FusionPass → Operation → Bool
  | .loopLatch, .jump _ => true
  | .updateCompareBranch, .binary _ => true
  | .indexConvert, .loadIndex => true
  | .lenCompareBranch, .len => true
  | _, _ => false

/-- The operation that a pass replaces. -/
def FusionPass.replaces : FusionPass → Operation → Bool
  | .loopLatch, .binary _ => true
  | .updateCompareBranch, .compareBranch _ => true
  | .indexConvert, .convert _ => true
  | .lenCompareBranch, .compareBranch _ => true
  | _, _ => false

variable {operation : Operation} {position : Nat} {instr : MicroInstruction}

theorem FusionPass.removes_not_replaces (hr : pass.removes operation = true) :
    pass.replaces operation = false := by
  cases pass <;> cases operation <;> simp_all [removes, replaces]

theorem FusionPass.removes_not_label (hr : pass.removes operation = true) :
    operation.isLabel = false := by
  cases pass <;> cases operation <;> simp_all [removes, isLabel]

theorem FusionPass.replaces_not_label (hr : pass.replaces operation = true) :
    operation.isLabel = false := by
  cases pass <;> cases operation <;> simp_all [replaces, isLabel]

/-- Where a site stands. -/
structure Site.Placed (code : MicroCode) (pass : FusionPass) (site : Site) :
    Prop where
  removed : ∃ operation, code.operations[site.removed]? = some operation ∧
    pass.removes operation = true
  position : ∃ operation, code.operations[site.position]? = some operation ∧
    pass.replaces operation = true
  fused : site.fused.operation.isLabel = false

theorem operations_getElem? (h : code.instructions[position]? = some instr) :
    code.operations[position]? = some instr.operation := by
  simp [MicroCode.operations, h]

theorem site_placed (hs : site ∈ pass.sites ctx code) : site.Placed code pass := by
  obtain ⟨pc, ho⟩ := site_origin hs
  cases ho with
  | loopLatch hl hfr found hbodyPC =>
    exact ⟨⟨_, operations_getElem? found.jumpAt, by rw [found.jumpOperation]; rfl⟩,
      ⟨_, operations_getElem? found.parts.firstAt,
        by rw [found.parts.isUpdate.operation]; rfl⟩, rfl⟩
  | updateCompareBranch parts =>
    exact ⟨⟨_, operations_getElem? parts.firstAt, by rw [parts.isUpdate.operation]; rfl⟩,
      ⟨_, operations_getElem? parts.branchAt, by rw [parts.operation]; rfl⟩, rfl⟩
  | indexConvert parts hload hconvert =>
    exact ⟨⟨_, operations_getElem? parts.firstAt, by rw [hload]; rfl⟩,
      ⟨_, operations_getElem? parts.secondAt, by rw [hconvert]; rfl⟩, rfl⟩
  | lenCompareBranch parts hlen hc =>
    exact ⟨⟨_, operations_getElem? parts.firstAt, by rw [hlen]; rfl⟩,
      ⟨_, operations_getElem? parts.secondAt, by rw [hc]; rfl⟩, rfl⟩

/-- A pass has at most one site at a position. -/
theorem site_unique {first second : Site} (hf : first ∈ pass.sites ctx code)
    (hsn : second ∈ pass.sites ctx code)
    (hsa : first.position = second.position) : first = second := by
  -- The passes over pairs compute a site from the position before it.
  have hp : ∀ {cand : Nat → Option Site},
      (∀ pc site, cand pc = some site → site.position = pc + 1) →
      ∀ positions : List Nat, first ∈ positions.filterMap cand →
        second ∈ positions.filterMap cand → first = second := by
    intro cand hpos positions hf hsn
    obtain ⟨pc, -, hf⟩ := mem_filterMap.mp hf
    obtain ⟨pc', -, hsn⟩ := mem_filterMap.mp hsn
    have hpc : pc + 1 = pc' + 1 := by
      rw [← hpos pc first hf, hsa, hpos pc' second hsn]
    obtain rfl : pc = pc' := by omega
    exact Option.some.inj (hf.symm.trans hsn)
  cases pass with
  | loopLatch =>
    obtain ⟨latch, hla, rfl⟩ := mem_map.mp hf
    obtain ⟨latch', hl, rfl⟩ := mem_map.mp hsn
    have hr : latch.site.removed = latch'.site.removed := by
      have hb : ∀ latch ∈ loopLatches ctx code, latch.site.removed = latch.site.position + 1 := by
        intro latch hla
        obtain ⟨inserted, jumpPC, -, hla⟩ :=
          loopLatches_found.origin latch hla
        obtain ⟨found, hs, -⟩ := loopLatchAt_eq_some hla
        have := found.headerBefore
        rw [hs]
        show jumpPC = jumpPC - 1 + 1
        omega
      rw [hb latch hla, hb latch' hl, hsa]
    rw [inj_on_of_nodup_map loopLatches_found.jumps hla hl hr]
  | updateCompareBranch =>
    exact hp (fun _ _ h => (updateCompareBranchAt_origin h).position_eq nofun) _ hf hsn
  | indexConvert =>
    exact hp (fun _ _ h => (indexConvertAt_origin h).position_eq nofun) _ hf hsn
  | lenCompareBranch =>
    exact hp (fun _ _ h => (lenCompareBranchAt_origin h).position_eq nofun) _ hf hsn

theorem run_eq_rewrite (hs : site ∈ pass.sites ctx code) :
    pass.run ctx code = rewriteMicroCode code (pass.rewrite ctx code) := by
  have hsome : (pass.sites ctx code).isEmpty = false := by
    cases hsi : pass.sites ctx code with
    | nil => simp [hsi] at hs
    | cons head tail => rfl
  simp [run, hsome]

theorem rewrite_override (hs : site ∈ pass.sites ctx code) :
    (pass.rewrite ctx code).overrides site.position = some site.fused := by
  obtain ⟨found, hf⟩ : ∃ found, (pass.sites ctx code).find?
      (·.position = site.position) = some found := by
    rw [← Option.isSome_iff_exists, find?_isSome]
    exact ⟨site, hs, by simp⟩
  have hsa : found = site := site_unique (mem_of_find?_eq_some hf) hs (by simpa using find?_some hf)
  simp [rewrite, hf, hsa]

theorem rewrite_removed (hs : site ∈ pass.sites ctx code) :
    (pass.rewrite ctx code).removed site.removed = true := by
  simp only [rewrite, any_eq_true]
  exact ⟨site, hs, by simp⟩

theorem removed_origin (hr : (pass.rewrite ctx code).removed position = true) :
    ∃ site ∈ pass.sites ctx code, site.removed = position := by
  obtain ⟨site, hs, hpos⟩ := any_eq_true.mp hr
  exact ⟨site, hs, by simpa using hpos⟩

theorem override_origin {override : Override}
    (ho : (pass.rewrite ctx code).overrides position = some override) :
    ∃ site ∈ pass.sites ctx code, site.position = position ∧ site.fused = override := by
  obtain ⟨site, hf, rfl⟩ := Option.map_eq_some_iff.mp ho
  exact ⟨site, mem_of_find?_eq_some hf, by simpa using find?_some hf, rfl⟩

theorem position_not_removed (hs : site ∈ pass.sites ctx code) :
    (pass.rewrite ctx code).removed site.position = false := by
  by_contra hrem
  obtain ⟨other, ho, hpos⟩ := removed_origin (by simpa using hrem)
  obtain ⟨operation, hop, hr⟩ := (site_placed ho).removed
  obtain ⟨operation', hope, hre⟩ := (site_placed hs).position
  rw [hpos, hope] at hop
  cases hop
  simp [removes_not_replaces hr] at hre

theorem rewrite_keepsLabels : (pass.rewrite ctx code).KeepsLabels code.operations := by
  constructor
  · intro position operation hop hl
    by_contra hrem
    obtain ⟨site, hs, rfl⟩ := removed_origin (by simpa using hrem)
    obtain ⟨operation', ho, hr⟩ := (site_placed hs).removed
    rw [hop] at ho
    cases ho
    simp [removes_not_label hr] at hl
  · intro position operation override hop hov
    obtain ⟨site, hs, rfl, rfl⟩ := override_origin hov
    obtain ⟨operation', ho, hre⟩ := (site_placed hs).position
    rw [hop] at ho
    cases ho
    exact ⟨replaces_not_label hre, (site_placed hs).fused⟩

theorem mem_insertions : name ∈ (pass.rewrite ctx code).insertions position ↔
      (name, position) ∈ pass.inserted ctx code := by
  constructor
  · intro hn
    obtain ⟨entry, he, rfl⟩ := mem_map.mp hn
    obtain ⟨hmem, hpos⟩ := mem_filter.mp he
    have hpos : entry.2 = position := by simpa using hpos
    rw [← hpos]
    exact hmem
  · intro hmem
    exact mem_map.mpr ⟨(name, position), mem_filter.mpr ⟨hmem, by simp⟩, rfl⟩

theorem inserted_fresh : FreshLabels code (pass.inserted ctx code) := by
  cases pass with
  | loopLatch =>
    intro entry he
    exact loopLatches_found.fresh entry (mem_reverse.mp he)
  | updateCompareBranch | indexConvert | lenCompareBranch =>
    simp [FreshLabels, inserted]

theorem inserted_unique {first second : Nat} (hf : (name, first) ∈ pass.inserted ctx code)
    (hsn : (name, second) ∈ pass.inserted ctx code) : first = second := by
  cases pass with
  | loopLatch =>
    have hs := inj_on_of_nodup_map loopLatches_found.names
      (mem_reverse.mp hf) (mem_reverse.mp hsn) rfl
    exact (mk.inj hs).2
  | updateCompareBranch | indexConvert | lenCompareBranch => simp [inserted] at hf

theorem insertions_nodup (position : Nat) :
    ((pass.rewrite ctx code).insertions position).Nodup := by
  cases pass with
  | loopLatch =>
    have hn : ((insertedLabels (loopLatches ctx code)).reverse.map (·.1)).Nodup := by
      rw [map_reverse, nodup_reverse]
      exact loopLatches_found.names
    exact hn.sublist (filter_sublist.map _)
  | updateCompareBranch | indexConvert | lenCompareBranch => simp [rewrite, inserted]

theorem label_mem_kept (hop : code.operations[position]? = some operation) :
    label name ∈ (if (pass.rewrite ctx code).removed position then []
        else [(((pass.rewrite ctx code).overrides position).map (·.operation)).getD operation]) ↔
      operation = .label name := by
  have hk : (pass.rewrite ctx code).KeepsLabels code.operations :=
    rewrite_keepsLabels
  cases hl : operation.isLabel with
  | true =>
    have hr := hk.removed position operation hop hl
    have ho : (pass.rewrite ctx code).overrides position = none := by
      cases ho : (pass.rewrite ctx code).overrides position with
      | none => rfl
      | some override =>
        have := (hk.overrides _ _ _ hop ho).1
        simp [hl] at this
    simp [hr, ho, eq_comm]
  | false =>
    have hnot : operation ≠ .label name := by
      rintro rfl
      simp [isLabel] at hl
    simp only [hnot, iff_false]
    split
    · simp
    · cases ho : (pass.rewrite ctx code).overrides position with
      | none => simpa [eq_comm] using hnot
      | some override =>
        have hf := (hk.overrides _ _ _ hop ho).2
        simp only [Option.map_some, Option.getD_some, mem_singleton]
        rintro heq
        simp [← heq, isLabel] at hf

theorem label_mem_emitted (hop : code.operations[position]? = some operation) :
    label name ∈ (pass.rewrite ctx code).emitted position operation ↔
      (name, position) ∈ pass.inserted ctx code ∨ operation = .label name := by
  rw [Rewrite.emitted, mem_append, mem_map, label_mem_kept hop]
  simp [mem_insertions]

theorem label_only {other : Nat} {origin : Operation} (hlb : LabelsUnique code.operations)
    (hpos : code.operations[position]? = some operation)
    (hmem : label name ∈ (pass.rewrite ctx code).emitted position operation)
    (ho : code.operations[other]? = some origin)
    (hot : label name ∈ (pass.rewrite ctx code).emitted other origin) : other = position := by
  have hfr : FreshLabels code (pass.inserted ctx code) := inserted_fresh
  have hd : ∀ {pc : Nat} {operation : Operation},
      code.operations[pc]? = some operation → operation = .label name →
        label name ∈ code.operations := fun hpc hl =>
    hl ▸ mem_of_getElem? hpc
  rcases (label_mem_emitted hpos).mp hmem with hmem | hmem <;>
    rcases (label_mem_emitted ho).mp hot with hot | hot
  · exact inserted_unique hot hmem
  · exact absurd (hd ho hot) (hfr _ hmem)
  · exact absurd (hd hpos hmem) (hfr _ hot)
  · exact hlb name other position (ho.trans (congrArg some hot)) (hpos.trans (congrArg some hmem))

theorem rewrite_labelsUnique (hlb : LabelsUnique code.operations) :
    LabelsUnique (rewriteMicroCode code (pass.rewrite ctx code)).operations := by
  rw [rewriteMicroCode_operations]
  refine Rewrite.labelsUnique_emittedFrom ?_ ?_
  · intro position operation hop
    rw [Nat.zero_add, labelsUnique_iff_pairwise, Rewrite.emitted, pairwise_append]
    refine ⟨?_, ?_, ?_⟩
    · rw [pairwise_map]
      refine (insertions_nodup position).imp ?_
      rintro first second hne name ⟨⟩ ⟨⟩
      exact hne rfl
    · split <;> simp
    · intro first hf second hs name hl ho
      subst hl ho
      obtain ⟨_, hn, ⟨⟩⟩ := mem_map.mp hf
      have hl := (label_mem_kept hop).mp hs
      exact inserted_fresh _ (mem_insertions.mp hn) (hl ▸ mem_of_getElem? hop)
  · intro first second left right name hf hs hle hr
    rw [Nat.zero_add] at hle hr
    exact label_only hlb hs hr hf hle

/-- What an instruction of the new code is: an inserted label, a fused
instruction, or one of the old code with its flow. -/
theorem rewrite_instruction
    (hmem : instr ∈ (rewriteMicroCode code (pass.rewrite ctx code)).instructions) :
    (∃ name, instr.operation = .label name ∧
        (rewriteMicroCode code (pass.rewrite ctx code)).flow instr = {}) ∨
      (∃ site ∈ pass.sites ctx code, instr.operation = site.fused.operation ∧
        (rewriteMicroCode code (pass.rewrite ctx code)).flow instr = site.fused.flow) ∨
      ∃ position origin, code.instructions[position]? = some origin ∧
        (pass.rewrite ctx code).overrides position = none ∧
        instr.operation = origin.operation ∧
        (rewriteMicroCode code (pass.rewrite ctx code)).flow instr = code.flow origin := by
  obtain ⟨position, origin, entry, hor, he, hop, hf⟩ :=
    mem_rewriteMicroCode hmem
  rcases mem_append.mp he with he | he
  · obtain ⟨name, -, rfl⟩ := mem_map.mp he
    exact .inl ⟨name, hop, hf⟩
  · right
    split at he
    · cases he
    · rw [mem_singleton] at he
      subst he
      cases ho : (pass.rewrite ctx code).overrides position with
      | some override =>
        obtain ⟨site, hs, -, rfl⟩ := override_origin ho
        rw [Rewrite.keep, ho] at hop hf
        exact .inl ⟨site, hs, hop, hf⟩
      | none =>
        rw [Rewrite.keep, ho] at hop hf
        refine .inr ⟨position, origin, hor, ho, hop, ?_⟩
        rw [hf]
        simp [rewrite]

theorem mem_emittedFrom_of {rewrite : Rewrite} {kept : Operation} {operations : List Operation}
    (hop : operations[position]? = some operation)
    (hmem : kept ∈ rewrite.emitted position operation) :
    kept ∈ rewrite.emittedFrom 0 operations := by
  rw [Rewrite.split_emittedFrom hop]
  simp [hmem]

/-- The labels of the old code are labels of the new. -/
theorem label_mem_rewrite (hmem : label name ∈ code.operations) :
    label name ∈ (rewriteMicroCode code (pass.rewrite ctx code)).operations := by
  obtain ⟨position, hpos⟩ := getElem?_of_mem hmem
  rw [rewriteMicroCode_operations]
  exact mem_emittedFrom_of hpos ((label_mem_emitted hpos).mpr (.inr rfl))

/-- A latch branches to a label that the new code has. -/
theorem latch_target {latch : Latch} (hlat : latch ∈ loopLatches ctx code) :
    ∃ operation, code.operations[latch.bodyPC]? = some operation ∧
      ((latch.bodyLabel, latch.bodyPC) ∈ loopLatch.inserted ctx code ∨
        operation = .label latch.bodyLabel) := by
  obtain ⟨inserted, jumpPC, -, hla⟩ := loopLatches_found.origin latch hlat
  obtain ⟨found, -, hbodyPC, hl⟩ := loopLatchAt_eq_some hla
  have hlen : latch.bodyPC < code.operations.length := by
    have hj := (List.getElem?_eq_some_iff.mp (operations_getElem? found.jumpAt)).1
    have := found.headerBefore
    omega
  refine ⟨_, List.getElem?_eq_getElem hlen, ?_⟩
  rcases hl with ⟨-, hl⟩ | ⟨hn, -⟩
  · rw [getElem?_eq_getElem hlen] at hl
    exact .inr (Option.some.inj hl)
  · refine .inl (mem_reverse.mpr (mem_map.mpr ⟨latch, ?_, rfl⟩))
    exact mem_filter.mpr ⟨hlat, hn⟩

/-- What a fused instruction is like in well-formed code. -/
structure Site.Fits (code rewritten : MicroCode) (site : Site) : Prop where
  release : site.fused.flow.release = []
  releaseBefore : site.fused.flow.releaseBefore = []
  targets : ∀ name ∈ site.fused.operation.targets, Operation.label name ∈ rewritten.operations
  comparison : ∀ comparison, site.fused.operation ≠ .compareBranch comparison
  length : site.fused.operation ≠ .len

theorem mergeSlotReleases_nil (omitted : Option Nat) : mergeSlotReleases [] [] omitted = [] := rfl

section

variable (hco : CodeWellFormed code)
include hco

theorem UpdateBranch.releases {firstPC branchPC : Nat}
    (parts : UpdateBranch ctx code firstPC branchPC) (label : String) (when : Bool) (cost : Nat) :
    (parts.fused label when cost).flow.release = [] ∧
      (parts.fused label when cost).flow.releaseBefore = [] := by
  have hf := hco.releases _ (mem_of_getElem? parts.firstAt)
  have hs := hco.releases _ (mem_of_getElem? parts.branchAt)
  simp [UpdateBranch.fused, updateFlow, hf, hs, mergeSlotReleases_nil]

theorem ProducerPair.releases_nil {pc : Nat} (parts : ProducerPair code pc) :
    parts.releases (·.release) = [] ∧ parts.releases (·.releaseBefore) = [] := by
  have hf := hco.releases _ (mem_of_getElem? parts.firstAt)
  have hs := hco.releases _ (mem_of_getElem? parts.secondAt)
  simp [ProducerPair.releases, hf, hs, mergeSlotReleases_nil]

theorem target_mem (hi : code.instructions[position]? = some instr)
    (hn : name ∈ instr.operation.targets) :
    label name ∈ code.operations :=
  hco.targets _ (mem_of_getElem? (operations_getElem? hi)) name hn

theorem site_fits (hs : site ∈ pass.sites ctx code) :
    site.Fits code (rewriteMicroCode code (pass.rewrite ctx code)) := by
  obtain ⟨pc, ho⟩ := site_origin hs
  cases ho with
  | @loopLatch latch _ _ hla hfr found hbodyPC =>
    obtain ⟨operation, hop, hl⟩ := latch_target hla
    have hr := found.parts.releases hco
    refine ⟨(hr _ _ _).1, (hr _ _ _).2, ?_, ?_, ?_⟩
    · intro name hn
      obtain rfl : name = latch.bodyLabel := by
        simpa [UpdateBranch.fused, UpdateBranch.payload, targets] using hn
      rw [rewriteMicroCode_operations]
      exact mem_emittedFrom_of hop ((label_mem_emitted hop).mpr hl)
    · simp [UpdateBranch.fused]
    · simp [UpdateBranch.fused]
  | updateCompareBranch parts =>
    have hr := parts.releases hco
    refine ⟨(hr _ _ _).1, (hr _ _ _).2, ?_, ?_, ?_⟩
    · intro name hn
      refine label_mem_rewrite (target_mem hco parts.branchAt ?_)
      rw [parts.operation]
      exact hn
    · simp [UpdateBranch.fused]
    · simp [UpdateBranch.fused]
  | indexConvert parts =>
    exact ⟨(parts.releases_nil hco).1, (parts.releases_nil hco).2,
      by simp [targets], by simp, by simp⟩
  | lenCompareBranch parts hlen hc =>
    refine ⟨(parts.releases_nil hco).1, (parts.releases_nil hco).2, ?_, by simp, by simp⟩
    intro name hn
    refine label_mem_rewrite (target_mem hco parts.secondAt ?_)
    rw [hc]
    exact hn

/-- A pass leaves well-formed code. -/
theorem run_wellFormed : CodeWellFormed (pass.run ctx code) := by
  unfold run
  split
  · exact hco
  · refine ⟨rewrite_labelsUnique hco.labels, ?_, ?_, ?_, ?_⟩
    · intro operation hop name hn
      obtain ⟨instr, hi, rfl⟩ := mem_map.mp hop
      rcases rewrite_instruction hi with ⟨label, heq, -⟩ |
        ⟨site, hs, heq, -⟩ | ⟨position, origin, ho, -, heq, -⟩
      · simp [heq, targets] at hn
      · exact (site_fits hco hs).targets name (heq ▸ hn)
      · exact label_mem_rewrite (target_mem hco ho (heq ▸ hn))
    · intro cmp hc
      obtain ⟨instr, hi, hop⟩ := mem_map.mp hc
      rcases rewrite_instruction hi with ⟨label, heq, -⟩ |
        ⟨site, hs, heq, -⟩ | ⟨position, origin, ho, -, heq, -⟩
      · simp [heq] at hop
      · exact absurd (heq.symm.trans hop) ((site_fits hco hs).comparison cmp)
      · exact hco.operators cmp (mem_map.mpr ⟨origin, mem_of_getElem? ho, heq.symm.trans hop⟩)
    · intro instr hi
      rcases rewrite_instruction hi with ⟨label, -, hf⟩ |
        ⟨site, hs, -, hf⟩ | ⟨position, origin, ho, -, -, hf⟩
      · simp [hf]
      · rw [hf]
        exact ⟨(site_fits hco hs).release, (site_fits hco hs).releaseBefore⟩
      · rw [hf]
        exact hco.releases origin (mem_of_getElem? ho)
    · intro instr hi hlen slot hsl
      rcases rewrite_instruction hi with ⟨label, heq, -⟩ |
        ⟨site, hs, heq, -⟩ | ⟨position, origin, ho, -, heq, hf⟩
      · simp [heq] at hlen
      · exact absurd (heq.symm.trans hlen) (site_fits hco hs).length
      · exact hco.lengths origin (mem_of_getElem? ho) (heq.symm.trans hlen) slot (hf ▸ hsl)

end

end Passes

section Temporaries

theorem two_le_sum {counts : List Nat} {first second left right : Nat} (hlt : first < second)
    (hf : counts[first]? = some left) (hs : counts[second]? = some right) :
    left + right ≤ counts.sum := by
  obtain ⟨hlen, rfl⟩ := List.getElem?_eq_some_iff.mp hf
  have hmem : right ∈ counts.drop (first + 1) := by
    refine List.mem_of_getElem? (i := second - (first + 1)) ?_
    rw [List.getElem?_drop, Nat.add_sub_cancel' (by omega), hs]
  have ht := List.single_le_sum (fun _ _ => Nat.zero_le _) _ hmem
  have hsp : counts.sum = (counts.take first).sum +
      (counts[first] + (counts.drop (first + 1)).sum) := by
    conv_lhs => rw [← take_append_drop first counts, sum_append, ← getElem_cons_drop hlen, sum_cons]
  omega

/-- A temporary that is used once has one consumer. -/
theorem consumer_unique {slot first second : Nat} {left right : MicroInstruction}
    (hu : slotUseCount code slot = 1) (hf : code.instructions[first]? = some left)
    (hl : Operand.slot slot ∈ (code.flow left).inputs)
    (hs : code.instructions[second]? = some right)
    (hr : Operand.slot slot ∈ (code.flow right).inputs) :
    first = second := by
  have hc : ∀ {position : Nat} {instruction : MicroInstruction},
      code.instructions[position]? = some instruction →
      (code.instructions.map fun instruction =>
          (code.flow instruction).inputs.count (.slot slot))[position]? =
        some ((code.flow instruction).inputs.count (.slot slot)) := by
    intro position instruction hpos
    simp [hpos]
  have hle := count_pos_iff.mpr hl
  have hri := count_pos_iff.mpr hr
  unfold slotUseCount at hu
  rcases Nat.lt_trichotomy first second with hlt | heq | hlt
  · have := two_le_sum hlt (hc hf) (hc hs)
    omega
  · exact heq
  · have := two_le_sum hlt (hc hs) (hc hf)
    omega

theorem consumer_count {slot position : Nat} (hu : slotUseCount code slot = 1)
    (hpos : code.instructions[position]? = some instruction) :
    (code.flow instruction).inputs.count (.slot slot) ≤ 1 := by
  rw [← hu]
  exact single_le_sum (fun _ _ => Nat.zero_le _) _ (mem_map_of_mem (mem_of_getElem? hpos))

/-- The other operand of a comparison with a temporary used once is not the
temporary. -/
theorem other_ne_temporary {pc : Nat} (parts : ProducerPair code pc)
    {oper oriented : Operator} {left right other : Operand}
    (hi : (code.flow parts.second).inputs = [left, right])
    (ho : orientComparison (.slot parts.temporary) oper left right =
      some (oriented, other)) : other ≠ .slot parts.temporary := by
  rintro rfl
  have hc := consumer_count parts.uses parts.secondAt
  rcases orientComparison_eq_some ho with ⟨rfl, rfl, -⟩ | ⟨rfl, rfl, -⟩ <;>
    simp [hi] at hc

variable {slot : Nat}

theorem fused_operand (hs : site ∈ pass.sites ctx code) (ht : site.temporary = some slot) :
    ∃ pc, site.removed = pc ∧ site.position = pc + 1 ∧
      ∃ parts : ProducerPair code pc, parts.temporary = slot ∧
        Operand.slot slot ∈ (code.flow parts.second).inputs ∧
        ∀ opd ∈ site.fused.flow.inputs, opd ∈ (code.flow parts.first).inputs ∨
            (opd ∈ (code.flow parts.second).inputs ∧ opd ≠ .slot slot) := by
  obtain ⟨pc, hori⟩ := site_origin hs
  cases hori with
  | loopLatch | updateCompareBranch => cases ht
  | indexConvert parts hload hconvert hi hsr =>
    cases ht
    refine ⟨pc, rfl, rfl, parts, rfl, by simp [hsr], ?_⟩
    intro opd hop
    rw [hi]
    exact .inl hop
  | lenCompareBranch parts hlen hc hob hi hor =>
    cases ht
    have ho := other_ne_temporary parts hi hor
    refine ⟨pc, rfl, rfl, parts, rfl, ?_, ?_⟩
    · rw [hi]
      rcases orientComparison_eq_some hor with ⟨rfl, -, -⟩ | ⟨-, rfl, -⟩ <;>
        simp
    · intro opd hop
      rcases mem_cons.mp hop with rfl | hop
      · rw [hob]
        exact .inl mem_cons_self
      · obtain rfl := mem_singleton.mp hop
        refine .inr ⟨?_, ho⟩
        rw [hi]
        rcases orientComparison_eq_some hor with ⟨-, rfl, -⟩ | ⟨rfl, -, -⟩ <;>
          simp

/-- All sites of a pass have a temporary when one has. -/
theorem temporary_of_pass {other : Site}
    (hs : site ∈ pass.sites ctx code) (ht : site.temporary = some slot)
    (ho : other ∈ pass.sites ctx code) :
    ∃ slot', other.temporary = some slot' := by
  obtain ⟨pc, hori⟩ := site_origin hs
  obtain ⟨pc', hor⟩ := site_origin ho
  cases hori with
  | loopLatch | updateCompareBranch => cases ht
  | indexConvert | lenCompareBranch =>
    cases hor
    exact ⟨_, rfl⟩

/-- No instruction of the new code reads the temporary of a site. -/
theorem temporary_unread (hs : site ∈ pass.sites ctx code)
    (htm : site.temporary = some slot) (hi : instruction ∈ (pass.run ctx code).instructions) :
    Operand.slot slot ∉ ((pass.run ctx code).flow instruction).inputs := by
  obtain ⟨pc, hre, hpos, parts, hte, hc, hope⟩ :=
    fused_operand hs htm
  have hu : slotUseCount code slot = 1 := hte ▸ parts.uses
  have hw : ∀ {position : Nat} {instruction : MicroInstruction},
      code.instructions[position]? = some instruction →
      Operand.slot slot ∈ (code.flow instruction).inputs → position = pc + 1 :=
    fun hat hmem => consumer_unique hu hat hmem parts.secondAt hc
  rw [run_eq_rewrite hs] at hi ⊢
  rcases rewrite_instruction hi with ⟨name, -, hf⟩ |
    ⟨other, ho, -, hf⟩ | ⟨position, origin, hor, hov, -, hf⟩
  · simp [hf]
  · rw [hf]
    intro hmem
    obtain ⟨slot', ht⟩ := temporary_of_pass hs htm ho
    obtain ⟨pc', hr, hp, parts', htem, -, hop⟩ :=
      fused_operand ho ht
    rcases hop _ hmem with hfs | ⟨hsn, hne⟩
    · have hsa := hw parts'.firstAt hfs
      have hk := position_not_removed hs
      rw [hpos, ← hsa, ← hr, rewrite_removed ho] at hk
      cases hk
    · have hsa := hw parts'.secondAt hsn
      obtain rfl := site_unique ho hs (by rw [hp, hpos, hsa])
      rw [htm] at ht
      cases ht
      exact hne rfl
  · rw [hf]
    intro hmem
    have hsa := hw hor hmem
    have := rewrite_override hs
    rw [hpos, ← hsa, hov] at this
    cases this

end Temporaries

end MiniGo.Emit
