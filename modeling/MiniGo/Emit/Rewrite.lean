/-
Removing, replacing and inserting instructions (`rewriteMicroCodeWithInsertions`
of `compiler/emit/slot_locals.go`).

A rewrite drops some instructions, replaces the operation of others, may insert
labels before an instruction, and gives every instruction a register flow of its
own. Branches name labels, so the only thing that moves is the program counter;
the facts below say where every label and every instruction ends up.
-/
import MiniGo.Bytecode.MicroCode

namespace MiniGo.Emit

open MiniGo.Bytecode Operation MicroCode List

/-- What takes the place of an instruction. -/
structure Override where
  operation : Operation
  flow : RegisterFlow
  cost : Nat
deriving Repr, DecidableEq

/-- What a rewrite does at each position of the code; an insertion is a label. -/
structure Rewrite where
  removed : Nat → Bool := fun _ => false
  replace : Operand → Operand := id
  overrides : Nat → Option Override := fun _ => none
  insertions : Nat → List String := fun _ => []

/-- An instruction of the new code with its flow. -/
abbrev Emitted := MicroInstruction × RegisterFlow

/-- An instruction that stays, or what takes its place. -/
def Rewrite.keep (rewrite : Rewrite) (code : MicroCode) (pc : Nat)
    (instruction : MicroInstruction) : Emitted :=
  match rewrite.overrides pc with
  | some override =>
    ({ instruction with
        operation := override.operation, cost := override.cost },
      override.flow)
  | none =>
    (instruction, { code.flow instruction with
      inputs := (code.flow instruction).inputs.map rewrite.replace })

/-- The instructions that one instruction leaves. -/
def Rewrite.emit (rewrite : Rewrite) (code : MicroCode) (pc : Nat)
    (instruction : MicroInstruction) : List Emitted :=
  (rewrite.insertions pc).map (fun name =>
      ({ operation := .label name, operands := 0, cost := 1 }, ({} : RegisterFlow))) ++
    if rewrite.removed pc then [] else [rewrite.keep code pc instruction]

def Rewrite.emitFrom (rewrite : Rewrite) (code : MicroCode) :
    Nat → List MicroInstruction → List Emitted
  | _, [] => []
  | pc, instruction :: rest =>
    rewrite.emit code pc instruction ++ rewrite.emitFrom code (pc + 1) rest

/-- `rewriteMicroCodeWithInsertions`. -/
def rewriteMicroCode (code : MicroCode) (rewrite : Rewrite) : MicroCode :=
  let emitted := rewrite.emitFrom code 0 code.instructions
  { code with
    instructions := emitted.mapIdx fun index entry =>
      { entry.1 with operands := index }
    operands := emitted.map (·.2) }

section Positions

variable (rewrite : Rewrite) (code : MicroCode)

/-- The operations that one instruction leaves. -/
def Rewrite.emitted (pc : Nat) (operation : Operation) : List Operation :=
  (rewrite.insertions pc).map .label ++ if rewrite.removed pc then []
    else [((rewrite.overrides pc).map (·.operation)).getD operation]

def Rewrite.emittedFrom : Nat → List Operation → List Operation
  | _, [] => []
  | pc, operation :: rest =>
    rewrite.emitted pc operation ++ emittedFrom (pc + 1) rest

theorem Rewrite.emitFrom_operations (pc : Nat) (instrs : List MicroInstruction) :
    (rewrite.emitFrom code pc instrs).map (·.1.operation) =
      rewrite.emittedFrom pc (instrs.map (·.operation)) := by
  induction instrs generalizing pc with
  | nil => rfl
  | cons head tail ih =>
    simp only [Rewrite.emitFrom, Rewrite.emittedFrom, map_append, ih, map_cons]
    congr 1
    cases hr : rewrite.removed pc <;>
      cases ho : rewrite.overrides pc <;>
        simp [Rewrite.emit, Rewrite.emitted, Rewrite.keep, hr, ho]

theorem Rewrite.emitFrom_append (pc : Nat) (left right : List MicroInstruction) :
    rewrite.emitFrom code pc (left ++ right) = rewrite.emitFrom code pc left ++
        rewrite.emitFrom code (pc + left.length) right := by
  induction left generalizing pc with
  | nil => simp [Rewrite.emitFrom]
  | cons head tail ih =>
    simp [Rewrite.emitFrom, ih, Nat.add_assoc, Nat.add_comm 1]

theorem rewriteMicroCode_operations :
    (rewriteMicroCode code rewrite).operations = rewrite.emittedFrom 0 code.operations := by
  rw [operations, operations, ← rewrite.emitFrom_operations code]
  refine ext_getElem? fun idx => ?_
  simp [rewriteMicroCode, getElem?_mapIdx, Function.comp_def]

theorem Rewrite.emittedFrom_append (pc : Nat) (left right : List Operation) :
    rewrite.emittedFrom pc (left ++ right) = rewrite.emittedFrom pc left ++
        rewrite.emittedFrom (pc + left.length) right := by
  induction left generalizing pc with
  | nil => simp [Rewrite.emittedFrom]
  | cons head tail ih => simp [Rewrite.emittedFrom, ih, Nat.add_assoc, Nat.add_comm 1]

variable {instr : MicroInstruction} {operations : List Operation} {first second : Nat}

/-- What is emitted one item after the other comes from one of them. -/
theorem exists_origin {α β : Type} {f : Nat → α → List β} {g : Nat → List α → List β}
    (hn : ∀ pc, g pc [] = []) (hc : ∀ pc x xs, g pc (x :: xs) = f pc x ++ g (pc + 1) xs)
    {pc : Nat} {xs : List α} {y : β} (hmem : y ∈ g pc xs) :
    ∃ off origin, xs[off]? = some origin ∧ y ∈ f (pc + off) origin := by
  induction xs generalizing pc with
  | nil => simp [hn] at hmem
  | cons head tail ih =>
    rw [hc] at hmem
    rcases mem_append.mp hmem with hmem | hmem
    · exact ⟨0, head, rfl, hmem⟩
    · obtain ⟨off, origin, ho, hmem⟩ := ih hmem
      refine ⟨off + 1, origin, by simpa using ho, ?_⟩
      rwa [← Nat.add_assoc, Nat.add_right_comm]

theorem Rewrite.mem_emittedFrom {pc : Nat} {operation : Operation}
    (hmem : operation ∈ rewrite.emittedFrom pc operations) :
    ∃ off origin, operations[off]? = some origin ∧ operation ∈ rewrite.emitted (pc + off) origin :=
  exists_origin (fun _ => rfl) (fun _ _ _ => rfl) hmem

/-- The program counter at which the new code stands where the old code stands
before a position. -/
def Rewrite.newPC (operations : List Operation) (position : Nat) : Nat :=
  executableCount (rewrite.emittedFrom 0 (operations.take position))

/-- Two program counters, of the old and of the new code, at the same place. -/
def Rewrite.Corresponds (operations : List Operation) (pc newPC : Nat) : Prop :=
  ∃ position ≤ operations.length, pc = executionPC operations position ∧
    newPC = rewrite.newPC operations position

/-- Labels stay labels and are not removed; nothing else becomes a label. -/
structure Rewrite.KeepsLabels (operations : List Operation) : Prop where
  removed : ∀ position operation, operations[position]? = some operation →
    operation.isLabel = true → rewrite.removed position = false
  overrides : ∀ position operation override, operations[position]? = some operation →
    rewrite.overrides position = some override →
      operation.isLabel = false ∧ override.operation.isLabel = false

variable {rewrite} {ops : List Operation}

variable {position pc : Nat} {operation : Operation} {name : String}

theorem Rewrite.split_emittedFrom (hpos : ops[position]? = some operation) :
    rewrite.emittedFrom 0 ops = rewrite.emittedFrom 0 (ops.take position) ++
        (rewrite.emitted position operation ++ rewrite.emittedFrom (position + 1)
            (ops.drop (position + 1))) := by
  obtain ⟨hlen, rfl⟩ := List.getElem?_eq_some_iff.mp hpos
  conv_lhs =>
    rw [← List.take_append_drop position ops, ← List.getElem_cons_drop hlen]
  rw [Rewrite.emittedFrom_append]
  simp [Rewrite.emittedFrom, Nat.min_eq_left (Nat.le_of_lt hlen)]

theorem executableCount_map_label (names : List String) :
    executableCount (names.map .label) = 0 := by
  induction names with
  | nil => rfl
  | cons head tail ih => simp [ih, weight, isLabel]

theorem Rewrite.emitted_label (hk : rewrite.KeepsLabels ops)
    (hpos : ops[position]? = some operation)
    (hl : operation.isLabel = true) :
    rewrite.emitted position operation =
      (rewrite.insertions position).map .label ++ [operation] := by
  have hr := hk.removed position operation hpos hl
  cases ho : rewrite.overrides position with
  | none => simp [Rewrite.emitted, hr, ho]
  | some override =>
    have := (hk.overrides position operation override hpos ho).1
    simp [hl] at this

theorem Rewrite.newPC_succ (hpos : ops[position]? = some operation) :
    rewrite.newPC ops (position + 1) = rewrite.newPC ops position +
        executableCount (rewrite.emitted position operation) := by
  obtain ⟨hlen, rfl⟩ := List.getElem?_eq_some_iff.mp hpos
  rw [Rewrite.newPC, List.take_succ_eq_append_getElem hlen,
    Rewrite.emittedFrom_append, executableCount_append, Rewrite.newPC]
  simp [Rewrite.emittedFrom, Nat.min_eq_left (Nat.le_of_lt hlen)]

/-- A label does not move the program counter of the new code either. -/
theorem Rewrite.newPC_succ_label (hk : rewrite.KeepsLabels ops)
    (hpos : ops[position]? = some operation)
    (hl : operation.isLabel = true) :
    rewrite.newPC ops (position + 1) = rewrite.newPC ops position := by
  rw [Rewrite.newPC_succ hpos, Rewrite.emitted_label hk hpos hl]
  simp [executableCount_map_label, weight, hl]

theorem Rewrite.newPC_congr (hk : rewrite.KeepsLabels ops) (hle : first ≤ second)
    (hsn : second ≤ ops.length)
    (hs : executionPC ops first = executionPC ops second) :
    rewrite.newPC ops first = rewrite.newPC ops second := by
  induction second, hle using Nat.le_induction with
  | base => rfl
  | succ position hf ih =>
    have hpos : ops[position]? = some ops[position] :=
      getElem?_eq_getElem (by omega)
    have hsu := executionPC_succ hpos
    have hm := executionPC_mono ops hf
    have hw : ops[position].weight = 0 := by omega
    have hl : ops[position].isLabel = true := by
      by_contra hl
      simp [weight, hl] at hw
    rw [Rewrite.newPC_succ_label hk hpos hl]
    exact ih (by omega) (by omega)

theorem Rewrite.Corresponds.unique (hk : rewrite.KeepsLabels ops)
    (hf : rewrite.Corresponds ops pc first)
    (hs : rewrite.Corresponds ops pc second) : first = second := by
  obtain ⟨position, hpos, hpc, rfl⟩ := hf
  obtain ⟨position', hp, hpc', rfl⟩ := hs
  rcases Nat.le_total position position' with hle | hle
  · exact Rewrite.newPC_congr hk hle hp (hpc ▸ hpc')
  · exact (Rewrite.newPC_congr hk hle hpos (hpc' ▸ hpc)).symm

theorem findLabel_isSome {weight : Operation → Nat} (pc : Nat) (hmem : label name ∈ ops) :
    (findLabel weight name ops pc).isSome := by
  induction ops generalizing pc with
  | nil => cases hmem
  | cons head tail ih =>
    rcases mem_cons.mp hmem with rfl | hmem
    · simp [findLabel]
    · simp [findLabel, ih _ hmem]

/-- What stands before a label among the instructions left by one position are
labels. -/
theorem Rewrite.findLabel_emitted (pc : Nat)
    (hmem : label name ∈ rewrite.emitted position operation) :
    findLabel (·.weight) name (rewrite.emitted position operation) pc = some pc := by
  have hsome : (findLabel (·.weight) name (rewrite.emitted position operation) pc).isSome :=
    findLabel_isSome pc hmem
  obtain ⟨found, hf⟩ := Option.isSome_iff_exists.mp hsome
  obtain ⟨off, hd, rfl⟩ := findLabel_eq_some hf
  have ho : off ≤ (rewrite.insertions position).length := by
    have hlen := (List.getElem?_eq_some_iff.mp hd).1
    simp only [Rewrite.emitted, List.length_append, List.length_map] at hlen
    split at hlen
    · simp at hlen
      omega
    · simp at hlen
      omega
  have hb : (rewrite.emitted position operation).take off =
      ((rewrite.insertions position).take off).map .label := by
    rw [Rewrite.emitted, take_append_of_le_length (by simpa using ho), map_take]
  rw [hf, hb]
  simpa [executableCount] using executableCount_map_label ((rewrite.insertions position).take off)

/-- A label that only one position leaves resolves to that position. -/
theorem Rewrite.labelPC_emittedFrom (hpos : ops[position]? = some operation)
    (hmem : label name ∈ rewrite.emitted position operation)
    (hon : ∀ other origin, ops[other]? = some origin →
      label name ∈ rewrite.emitted other origin → other = position) :
    labelPC (rewrite.emittedFrom 0 ops) name = some (rewrite.newPC ops position) := by
  rw [labelPC, Rewrite.split_emittedFrom hpos, findLabel_append, findLabel_append]
  rw [findLabel_eq_none, Rewrite.findLabel_emitted _ hmem]
  · simp [Rewrite.newPC, executableCount]
  · rintro other ho rfl
    obtain ⟨off, origin, hor, ho⟩ := rewrite.mem_emittedFrom ho
    rw [getElem?_drop] at hor
    have := hon _ origin hor ho
    omega

theorem Rewrite.labelsUnique_emittedFrom
    (hw : ∀ position operation, ops[position]? = some operation →
      LabelsUnique (rewrite.emitted (pc + position) operation))
    (ha : ∀ first second left right name, ops[first]? = some left → ops[second]? = some right →
      label name ∈ rewrite.emitted (pc + first) left →
      label name ∈ rewrite.emitted (pc + second) right → first = second) :
    LabelsUnique (rewrite.emittedFrom pc ops) := by
  induction ops generalizing pc with
  | nil => simp [LabelsUnique, Defines, Rewrite.emittedFrom]
  | cons head tail ih =>
    have hh := labelsUnique_iff_pairwise.mp (hw 0 head rfl)
    have ht := labelsUnique_iff_pairwise.mp (ih (fun position operation hop => by
        have := hw (position + 1) operation (by simpa using hop)
        rwa [← Nat.add_assoc, Nat.add_right_comm] at this)
      (fun first second left right name hf hs hl hr => by
        have := ha (first + 1) (second + 1) left right name (by simpa using hf) (by simpa using hs)
          (by rwa [← Nat.add_assoc, Nat.add_right_comm])
          (by rwa [← Nat.add_assoc, Nat.add_right_comm])
        omega))
    rw [labelsUnique_iff_pairwise, Rewrite.emittedFrom, pairwise_append]
    refine ⟨hh, ht, ?_⟩
    rintro _ hf _ hs name rfl rfl
    obtain ⟨off, origin, ho, hs⟩ := rewrite.mem_emittedFrom hs
    have := ha 0 (off + 1) head origin name rfl (by simpa using ho) hf
      (by rwa [← Nat.add_assoc, Nat.add_right_comm])
    omega

variable {code : MicroCode}

theorem executable?_rewriteMicroCode (hpos : code.instructions[position]? = some instr)
    (hr : rewrite.removed position = false)
    (he : (rewrite.keep code position instr).1.operation.isLabel = false) :
    ∃ kept, (rewriteMicroCode code rewrite).executable?
          (rewrite.newPC code.operations position) = some kept ∧
      kept.operation = (rewrite.keep code position instr).1.operation ∧
      kept.cost = (rewrite.keep code position instr).1.cost ∧
      (rewriteMicroCode code rewrite).flow kept = (rewrite.keep code position instr).2 := by
  obtain ⟨hlen, hg⟩ := List.getElem?_eq_some_iff.mp hpos
  let before := rewrite.emitFrom code 0 (code.instructions.take position) ++
    (rewrite.insertions position).map fun name =>
      (({ operation := .label name, operands := 0, cost := 1 },
        {}) : MicroInstruction × RegisterFlow)
  have hs : rewrite.emitFrom code 0 code.instructions = before ++
      rewrite.keep code position instr :: rewrite.emitFrom code (position + 1)
          (code.instructions.drop (position + 1)) := by
    conv_lhs =>
      rw [← take_append_drop position code.instructions, ← getElem_cons_drop hlen, hg]
    rw [Rewrite.emitFrom_append]
    simp [before, Rewrite.emitFrom, Rewrite.emit, hr, Nat.min_eq_left (Nat.le_of_lt hlen)]
  have hem : (rewrite.emitFrom code 0 code.instructions)[before.length]? =
      some (rewrite.keep code position instr) := by
    rw [hs, getElem?_append_right (Nat.le_refl _)]
    simp
  let kept : MicroInstruction :=
    { (rewrite.keep code position instr).1 with operands := before.length }
  have hn : (rewriteMicroCode code rewrite).instructions[before.length]? = some kept := by
    simp [rewriteMicroCode, getElem?_mapIdx, hem, kept]
  have hpc : executionPC (rewriteMicroCode code rewrite).operations
      before.length = rewrite.newPC code.operations position := by
    have hb : before.map (·.1.operation) = rewrite.emittedFrom 0 (code.operations.take position) ++
          (rewrite.insertions position).map .label := by
      simp [before, Rewrite.emitFrom_operations, operations, Function.comp_def]
    rw [executionPC, rewriteMicroCode_operations, operations,
      ← rewrite.emitFrom_operations code, hs, map_append,
      take_append_of_le_length (by simp), take_of_length_le (by simp),
      hb, executableCount_append, executableCount_map_label]
    rfl
  refine ⟨kept, ?_, rfl, rfl, ?_⟩
  · rw [← hpc]
    exact executable?_executionPC hn he
  · simp [flow, rewriteMicroCode, hem, kept]

theorem Rewrite.mem_emitFrom {ins : List MicroInstruction} {e : Emitted}
    (hmem : e ∈ rewrite.emitFrom c pc ins) :
    ∃ off origin, ins[off]? = some origin ∧ e ∈ rewrite.emit c (pc + off) origin :=
  exists_origin (fun _ => rfl) (fun _ _ _ => rfl) hmem

theorem mem_rewriteMicroCode (hmem : instr ∈ (rewriteMicroCode code rewrite).instructions) :
    ∃ position origin entry, code.instructions[position]? = some origin ∧
      entry ∈ rewrite.emit code position origin ∧
      instr.operation = entry.1.operation ∧
      (rewriteMicroCode code rewrite).flow instr = entry.2 := by
  obtain ⟨idx, hi⟩ := getElem?_of_mem hmem
  simp only [rewriteMicroCode, getElem?_mapIdx, Option.map_eq_some_iff] at hi
  obtain ⟨entry, he, rfl⟩ := hi
  obtain ⟨position, origin, ho, hem⟩ :=
    Rewrite.mem_emitFrom (mem_of_getElem? he)
  rw [Nat.zero_add] at hem
  exact ⟨position, origin, entry, ho, hem, rfl,
    by simp [flow, rewriteMicroCode, he]⟩

end Positions

end MiniGo.Emit
