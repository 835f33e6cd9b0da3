/-
Register instructions on operands of their declared types.

The fast paths of the register instructions read raw bits and the general paths
read values. On operands that hold numbers of their declared types the two
compute the same number, so that what an instruction does is a function of the
numbers alone.
-/
import MiniGo.Runtime.Register

namespace MiniGo.Runtime

open Bytecode

/-- What the runtime promises of its helpers: a number of the declared type is
assignable as it is, floats compare the same both ways round, and no length is
negative. -/
structure RegisterMachine.Laws (machine : RegisterMachine) : Prop where
  coerceAssignable : ∀ type value, value.type = type →
    value.scalarKind ≠ .none → machine.coerceAssignable type value = .ok value
  compareFloat_swap : ∀ left right, machine.compareFloat right left =
    (machine.compareFloat left right).map Ordering.swap
  lengthValue : ∀ world value length,
    machine.lengthValue world value = .ok length → 0 ≤ length.toInt

/-- The scalar kind of a type. -/
def RegisterMachine.kindOf (machine : RegisterMachine) (type : TypeRef) :
    ScalarKind :=
  primitiveScalarKind (machine.types.primitive type)

/-- The value is a number of its type. -/
def IsNumber (machine : RegisterMachine) (value : VmValue) : Prop :=
  value.scalarKind = machine.kindOf value.type ∧ value.scalarKind ≠ .none

/-- The operand holds the value, which is a number of the operand's declared
type, and the raw bits of the operand are those of the value. -/
structure OperandTyped (machine : RegisterMachine) (static : StaticTypes)
    (frame : Frame machine.World) (operand : Operand) (value : VmValue) :
    Prop where
  read : readOperand machine static frame operand = .ok value
  type : value.type = static.operandType operand
  number : IsNumber machine value
  bits : ∀ bits, integerOperand machine frame operand = some bits → bits = value.scalar

section Kinds

variable (machine : RegisterMachine) (static : StaticTypes)

theorem scalarKind_cases {kind : ScalarKind} (hn : kind ≠ .none) :
    isInteger kind = true ∨ kind = .float := by
  cases kind <;> simp_all [isInteger]

variable {primitive : PrimitiveKind} {opd : Operand} {value : VmValue}

/-- The loader notes the primitive of every number. -/
theorem numericInput_of_number (hn : machine.kindOf (static.operandType opd) ≠ .none) :
    numericInput machine static opd = machine.types.primitive (static.operandType opd) := by
  unfold numericInput
  unfold RegisterMachine.kindOf at hn
  generalize machine.types.primitive (static.operandType opd) = primitive at hn
  cases primitive <;> simp_all [primitiveScalarKind]

theorem OperandTyped.numericInput {machine : RegisterMachine} {static : StaticTypes}
    {frame : Frame machine.World} (hty : OperandTyped machine static frame opd value) :
    numericInput machine static opd = machine.types.primitive value.type := by
  have hn := hty.number
  rw [IsNumber, hty.type] at hn
  rw [hty.type]
  exact numericInput_of_number machine static (hn.1 ▸ hn.2)

theorem primitive_ne_invalid
    (hn : primitiveScalarKind primitive ≠ .none) : primitive ≠ .invalid := by
  rintro rfl
  exact hn rfl

theorem primitive_builtin (hn : primitiveScalarKind primitive ≠ .none) :
    machine.types.primitive (.builtin primitive) = primitive := by
  have hv := primitive_ne_invalid hn
  rw [machine.types.ofPrimitive _ (by simp [TypeRef.builtin, hv])]
  simp [TypeRef.builtin, hv]

/-- The width of a number is that of its underlying primitive. -/
theorem resultBits_builtin {type : TypeRef}
    (hn : machine.kindOf type ≠ .none) (ht : type.kind ≠ .primitive) :
    resultBits machine.types (machine.kindOf type) (.builtin (machine.types.primitive type)) =
      resultBits machine.types (machine.kindOf type) type := by
  have hv := primitive_ne_invalid hn
  simp [resultBits, TypeRef.builtin, hv, ht, RegisterMachine.kindOf]

/-- A value of a number type as `evalBinary` sees it. -/
def operandView (value : VmValue) (primitive : PrimitiveKind) : VmValue :=
  if value.type.kind ≠ .primitive then
    numericOperandValue machine value primitive
  else value

/-- Looking through a named type changes the type only, to one of the same
primitive and width. -/
theorem operandView_number (hn : IsNumber machine value) :
    ∃ type, operandView machine value (machine.types.primitive value.type) =
        { value with type := type } ∧
      machine.types.primitive type = machine.types.primitive value.type ∧
      resultBits machine.types value.scalarKind type =
        resultBits machine.types value.scalarKind value.type := by
  have hk : machine.kindOf value.type ≠ .none := hn.1 ▸ hn.2
  by_cases ht : value.type.kind = .primitive
  · exact ⟨value.type, by simp [operandView, ht], rfl, rfl⟩
  · refine ⟨.builtin (machine.types.primitive value.type), ?_, primitive_builtin machine hk, ?_⟩
    · simp [operandView, numericOperandValue, ht, primitive_ne_invalid hk]
    · rw [hn.1]
      exact resultBits_builtin machine hk ht

end Kinds

variable {static : StaticTypes} {oper : Operator} {left right : VmValue}

variable {value : VmValue}

section Frames

variable {mach : RegisterMachine} {frame : Frame mach.World}

theorem OperandTyped.setCell {operand : Operand} {index : Nat} (cell : Cell)
    (hty : OperandTyped mach static frame operand value) (hother : operand ≠ .localVar index) :
    OperandTyped mach static (frame.setCell index cell) operand value := by
  have hs : readOperand mach static (frame.setCell index cell) operand =
        readOperand mach static frame operand ∧
      integerOperand mach (frame.setCell index cell) operand =
        integerOperand mach frame operand := by
    cases operand with
    | slot slot => exact ⟨rfl, rfl⟩
    | constant constant => exact ⟨rfl, rfl⟩
    | localVar other =>
      have hne : other ≠ index := fun heq => hother (heq ▸ rfl)
      simp [readOperand, integerOperand, Frame.setCell, hne]
  exact ⟨hs.1.trans hty.read, hty.type, hty.number,
    fun bits hb => hty.bits bits (hs.2.symm.trans hb)⟩

theorem number_ne_bool (hn : IsNumber mach value) : value.type ≠ .builtin .bool := by
  intro ht
  have hb : mach.types.primitive (.builtin .bool) = .bool := mach.types.ofPrimitive _ rfl
  apply hn.2
  rw [hn.1, ht, RegisterMachine.kindOf, hb]
  rfl

theorem operandTyped_publish {index : Nat} (ht : value.type = static.localType index)
    (hn : IsNumber mach value) (hd : value.data = .scalar) :
    OperandTyped mach static (frame.setCell index ((frame.cells index).publish value))
      (.localVar index) value := by
  refine ⟨?_, ht, hn, ?_⟩
  · cases hc : frame.cells index with
    | direct lane =>
      simp only [readOperand, Frame.setCell, Function.update_self, Cell.publish,
        Cell.load, ↓reduceIte, if_neg (number_ne_bool hn)]
      rw [← hd]
    | shared stored => simp [readOperand, Frame.setCell, Cell.publish, Cell.load]
  · intro bits hb
    cases hc : frame.cells index with
    | direct lane => simpa [integerOperand, Frame.setCell, Cell.publish, hc, eq_comm] using hb
    | shared stored => simp [integerOperand, Frame.setCell, Cell.publish, hc] at hb

end Frames

section Arithmetic

variable (machine : RegisterMachine) (static : StaticTypes)

/-- The operators of a numeric update. -/
def IsUpdate (operator : Operator) : Prop :=
  operator = .add ∨ operator = .sub

def updateBits (operator : Operator) (left right : BitVec 64) : BitVec 64 :=
  if operator = .add then left + right else left - right

/-- The number that an update of a number by another of its kind yields. -/
def updatedNumber (operator : Operator) (left right : VmValue) : VmValue :=
  match left.scalarKind with
  | .signed =>
    normalizeSignedValue machine.types left.type (updateBits operator left.scalar right.scalar)
  | .unsigned =>
    normalizeUnsignedValue machine.types left.type (updateBits operator left.scalar right.scalar)
  | _ =>
    newFloatVMValue left.type (machine.floatArithmetic operator
      (machine.types.primitive left.type) left.scalar right.scalar)

theorem updatedNumber_type (operator : Operator) (left right : VmValue) :
    (updatedNumber machine operator left right).type = left.type := by
  unfold updatedNumber
  split <;> rfl

variable {type : TypeRef}

theorem updatedNumber_kind (hn : left.scalarKind ≠ .none) :
    (updatedNumber machine oper left right).scalarKind = left.scalarKind := by
  cases hk : left.scalarKind <;>
    simp_all [updatedNumber, normalizeSignedValue, normalizeUnsignedValue,
      newSignedVMValue, newUnsignedVMValue, newFloatVMValue]

theorem updatedNumber_data (oper : Operator) (left right : VmValue) :
    (updatedNumber machine oper left right).data = .scalar := by
  unfold updatedNumber
  split <;> rfl

theorem updatedNumber_number (hn : IsNumber machine left) :
    IsNumber machine (updatedNumber machine oper left right) := by
  rw [IsNumber, updatedNumber_type, updatedNumber_kind machine hn.2]
  exact hn

theorem normalizeSignedValue_congr {other : TypeRef} (value : BitVec 64)
    (hb : resultBits machine.types .signed type = resultBits machine.types .signed other) :
    normalizeSignedValue machine.types type value =
      { normalizeSignedValue machine.types other value with type := type } :=
  congrArg (fun width => newSignedVMValue type ((value.truncate width).signExtend 64)) hb

theorem normalizeUnsignedValue_congr {other : TypeRef} (value : BitVec 64)
    (hb : resultBits machine.types .unsigned type = resultBits machine.types .unsigned other) :
    normalizeUnsignedValue machine.types type value =
      { normalizeUnsignedValue machine.types other value with type := type } :=
  congrArg (fun width => newUnsignedVMValue type ((value.truncate width).zeroExtend 64)) hb

/-- The raw arithmetic of two integers of one kind. -/
theorem evalIntegerBinary_update (hop : IsUpdate oper) (hi : isInteger left.scalarKind = true)
    (hb : resultBits machine.types left.scalarKind type =
      resultBits machine.types left.scalarKind left.type) :
    evalIntegerBinary machine.types oper type left.scalarKind left.scalar
        left.scalarKind right.scalar =
      some (.ok { updatedNumber machine oper left right with
        type := type }) := by
  cases hk : left.scalarKind with
  | none => simp [hk, isInteger] at hi
  | float => simp [hk, isInteger] at hi
  | signed =>
    rw [hk] at hb
    rcases hop with rfl | rfl <;>
      simp [evalIntegerBinary, evalSignedBinary, updatedNumber, hk,
        normalizeSignedValue_congr machine _ hb, updateBits]
  | unsigned =>
    rw [hk] at hb
    rcases hop with rfl | rfl <;>
      simp [evalIntegerBinary, evalUnsignedBinary, updatedNumber, hk,
        normalizeUnsignedValue_congr machine _ hb, updateBits]

/-- The general arithmetic of two numbers of one kind. -/
theorem evalBinary_update (world : machine.World) (hop : IsUpdate oper) (hl : IsNumber machine left)
    (hr : IsNumber machine right) (hs : right.scalarKind = left.scalarKind) :
    evalBinary machine world oper left right (machine.types.primitive left.type)
        (machine.types.primitive right.type) =
      .ok (updatedNumber machine oper left right) := by
  obtain ⟨leftType, hle, hp, hb⟩ := operandView_number machine hl
  obtain ⟨rightType, hri, -, -⟩ := operandView_number machine hr
  unfold evalBinary
  rw [show (if left.type.kind ≠ .primitive then _ else _) = _ from hle,
    show (if right.type.kind ≠ .primitive then _ else _) = _ from hri]
  simp only [hs]
  rcases scalarKind_cases hl.2 with hi | hf
  · rw [evalIntegerBinary_update machine hop hi hb]
    have hk : (updatedNumber machine oper left right).scalarKind =
        left.scalarKind := updatedNumber_kind machine hl.2
    have ht := updatedNumber_type machine oper left right
    simp only [hk, ne_eq, hl.2, not_false_eq_true, ↓reduceIte]
    rw [← hk, ← ht]
  · have hco : isComparison oper = false := by
      rcases hop with rfl | rfl <;> rfl
    simp only [hf, evalIntegerBinary, evalGeneral, hco,
      Bool.false_eq_true, ↓reduceIte, updatedNumber, hp]
    rw [if_pos ⟨trivial, trivial, hop⟩]

/-- An update of a typed operand by another of its kind. -/
theorem evalOperands_update {frame : Frame machine.World} {left right : Operand}
    {leftValue rightValue : VmValue} (hop : IsUpdate oper)
    (hl : OperandTyped machine static frame left leftValue)
    (hr : OperandTyped machine static frame right rightValue)
    (hs : rightValue.scalarKind = leftValue.scalarKind) :
    evalOperands machine static frame oper left right =
      .ok (updatedNumber machine oper leftValue rightValue) := by
  have hle := hl.numericInput
  have hri := hr.numericInput
  have hg := evalBinary_update machine frame.world hop hl.number hr.number hs
  have hlef : primitiveScalarKind (machine.types.primitive leftValue.type) =
      leftValue.scalarKind := hl.number.1.symm
  have hrig : primitiveScalarKind
      (machine.types.primitive rightValue.type) = leftValue.scalarKind := by
    rw [← hs]
    exact hr.number.1.symm
  unfold evalOperands
  simp only [hle, hri, hl.read, hr.read, hlef, hrig, Bool.and_self]
  split
  · next hi =>
    split
    · next leftBits rightBits hleftBits hrightBits =>
      rw [hl.bits leftBits hleftBits, hr.bits rightBits hrightBits,
        ← hl.type, evalIntegerBinary_update machine hop hi rfl,
        ← updatedNumber_type machine oper leftValue rightValue]
      rfl
    · exact hg
  · exact hg

end Arithmetic

section Comparison

variable (mach : RegisterMachine) (static : StaticTypes)

@[simp] theorem truthy_newBoolValue (value : Bool) :
    truthy (newBoolValue value) = .ok value := by
  cases value <;> rfl

variable {ordering : Option Ordering}

theorem evalIntegerBinary_comparison (type : TypeRef) (hop : isComparison oper = true)
    (hc : compareNumbers mach left right = some ordering) :
    evalIntegerBinary mach.types oper type left.scalarKind left.scalar
        right.scalarKind right.scalar = none ∨
      evalIntegerBinary mach.types oper type left.scalarKind left.scalar
        right.scalarKind right.scalar =
          some (.ok (newBoolValue (compareOrdering oper ordering))) := by
  unfold compareNumbers at hc
  cases hl : left.scalarKind <;> cases hr : right.scalarKind <;>
    simp only [hl, hr, Option.some.injEq, reduceCtorEq] at hc <;>
    subst hc <;>
    cases oper <;>
    simp_all [evalIntegerBinary, evalSignedBinary, evalUnsignedBinary, isComparison]

/-- The general comparison of two numbers. -/
theorem evalBinary_comparison (world : mach.World) (hop : isComparison oper = true)
    (hl : IsNumber mach left) (hr : IsNumber mach right)
    (hc : compareNumbers mach left right = some ordering) :
    evalBinary mach world oper left right (mach.types.primitive left.type)
        (mach.types.primitive right.type) =
      .ok (newBoolValue (compareOrdering oper ordering)) := by
  obtain ⟨leftType, hle, -, -⟩ := operandView_number mach hl
  obtain ⟨rightType, hri, -, -⟩ := operandView_number mach hr
  unfold evalBinary
  rw [show (if left.type.kind ≠ .primitive then _ else _) = _ from hle,
    show (if right.type.kind ≠ .primitive then _ else _) = _ from hri]
  rcases evalIntegerBinary_comparison mach leftType hop hc with
    hnone | hsome
  · simp only [hnone, evalGeneral, hop, ↓reduceIte]
    rw [show compareNumbers mach { left with type := leftType }
      { right with type := rightType } = some ordering from hc]
  · simp [hsome, newBoolValue]

/-- A comparison of typed operands. -/
theorem evalOperands_comparison {frame : Frame mach.World} {left right : Operand}
    {leftValue rightValue : VmValue} (hop : isComparison oper = true)
    (hl : OperandTyped mach static frame left leftValue)
    (hr : OperandTyped mach static frame right rightValue)
    (hc : compareNumbers mach leftValue rightValue = some ordering) :
    evalOperands mach static frame oper left right =
      .ok (newBoolValue (compareOrdering oper ordering)) := by
  have hg := evalBinary_comparison mach frame.world hop hl.number hr.number hc
  have hle : primitiveScalarKind (mach.types.primitive leftValue.type) =
      leftValue.scalarKind := hl.number.1.symm
  have hri : primitiveScalarKind (mach.types.primitive rightValue.type) = rightValue.scalarKind :=
    hr.number.1.symm
  unfold evalOperands
  simp only [hl.numericInput, hr.numericInput, hl.read, hr.read, hle, hri]
  split
  · split
    · next leftBits rightBits hlef hrig =>
      rw [hl.bits leftBits hlef, hr.bits rightBits hrig]
      rcases evalIntegerBinary_comparison mach (static.operandType left) hop hc with hnone | hsome
      · rw [hnone]
        exact hg
      · rw [hsome]
        rfl
    · exact hg
  · exact hg

/-- Numbers of one kind compare. -/
theorem compareNumbers_same (hl : left.scalarKind ≠ .none)
    (hs : right.scalarKind = left.scalarKind) :
    ∃ ordering, compareNumbers mach left right = some ordering := by
  cases hk : left.scalarKind <;> simp_all [compareNumbers]

theorem compareInt64_swap (left right : BitVec 64) :
    compareInt64 right left = (compareInt64 left right).swap := by
  unfold compareInt64
  exact Std.OrientedCmp.eq_swap

theorem compareUint64_swap (left right : BitVec 64) :
    compareUint64 right left = (compareUint64 left right).swap := by
  unfold compareUint64
  exact Std.OrientedCmp.eq_swap

theorem compareNumbers_swap {mach : RegisterMachine} (laws : mach.Laws)
    (hc : compareNumbers mach left right = some ordering) :
    compareNumbers mach right left = some (ordering.map Ordering.swap) := by
  unfold compareNumbers at hc ⊢
  cases hl : left.scalarKind <;> cases hr : right.scalarKind <;>
    simp only [hl, hr, Option.some.injEq, reduceCtorEq] at hc ⊢ <;>
    subst hc
  · simp [compareInt64_swap left.scalar]
  · split <;> simp [compareUint64_swap left.scalar]
  · split <;> simp [compareUint64_swap left.scalar]
  · simp [compareUint64_swap left.scalar]
  · exact laws.compareFloat_swap _ _

/-- A length compares with an integer as the number it is. -/
theorem compareLengthValue_eq (oper : Operator) {length : BitVec 64} (hlen : 0 ≤ length.toInt)
    (hr : isInteger right.scalarKind = true) :
    ∃ ordering, compareNumbers mach
        (newSignedVMValue (.builtin .int) length) right = some ordering ∧
      compareLengthValue oper length right = .ok (compareOrdering oper ordering) := by
  cases hk : right.scalarKind with
  | none => simp [hk, isInteger] at hr
  | float => simp [hk, isInteger] at hr
  | signed => simp [compareNumbers, newSignedVMValue, compareLengthValue, hk]
  | unsigned => simp [compareNumbers, newSignedVMValue, compareLengthValue, hk, Int.not_lt.mpr hlen]

end Comparison

section UpdateComparison

variable {machine : RegisterMachine} {frame : Frame machine.World} {data : UpdateComparison}
  {index : Nat} {step other : Operand} {cur stepValue otherValue : VmValue}

/-- The fused instruction works on raw bits. -/
def FastReady (machine : RegisterMachine) (static : StaticTypes)
    (frame : Frame machine.World) (index : Nat) (step other : Operand) : Prop :=
  isInteger (machine.kindOf (static.localType index)) = true ∧
    (integerOperand machine frame (.localVar index)).isSome ∧
    (integerOperand machine frame step).isSome ∧
    (integerOperand machine frame other).isSome

instance (machine : RegisterMachine) (static : StaticTypes)
    (frame : Frame machine.World) (index : Nat) (step other : Operand) :
    Decidable (FastReady machine static frame index step other) :=
  inferInstanceAs (Decidable (_ ∧ _))

/-- The cell that the fused instruction leaves. -/
def fusedCell (machine : RegisterMachine) (static : StaticTypes)
    (frame : Frame machine.World) (index : Nat) (step other : Operand)
    (updated : VmValue) : Cell :=
  match frame.cells index with
  | .direct lane =>
    if FastReady machine static frame index step other then
      .direct (lane.update updated)
    else (frame.cells index).publish updated
  | .shared _ => (frame.cells index).publish updated

theorem fastUpdateComparison_general
    (hcur : OperandTyped machine static frame (.localVar index) cur)
    (hr : ¬FastReady machine static frame index step other) :
    fastUpdateComparison machine static frame data index step other = none := by
  have hk : primitiveScalarKind (numericInput machine static (.localVar index)) =
        machine.kindOf (static.localType index) := by
    rw [hcur.numericInput, hcur.type]
    rfl
  unfold fastUpdateComparison
  simp only [hk]
  unfold FastReady at hr
  cases hi : isInteger (machine.kindOf (static.localType index)) with
  | false =>
    simp only [Bool.false_and, guard, Bool.false_eq_true, ↓reduceIte]
    rfl
  | true =>
    simp only [hi, true_and] at hr
    cases hc : integerOperand machine frame (.localVar index) with
    | none => simp [guard]
    | some currentBits =>
      cases hs : integerOperand machine frame step with
      | none => simp [guard]
      | some stepBits =>
        cases hot : integerOperand machine frame other with
        | none => simp [guard]
        | some otherBits => simp [hc, hs, hot] at hr

theorem store_declared (laws : machine.Laws) {cell : Cell} {type : TypeRef} (ht : value.type = type)
    (hn : value.scalarKind ≠ .none) : cell.store machine type value = .ok (cell.publish value) := by
  unfold Cell.store
  split
  · rfl
  · rw [laws.coerceAssignable type value ht hn]
    rfl

section Typed

variable (hu : IsUpdate data.update) (hco : isComparison data.comparison = true)
  (hcur : OperandTyped machine static frame (.localVar index) cur)
  (hstep : OperandTyped machine static frame step stepValue)
  (hother : OperandTyped machine static frame other otherValue)
  (hst : stepValue.scalarKind = cur.scalarKind)
  (ho : otherValue.scalarKind = cur.scalarKind)
  {ordering : Option Ordering}
  (hord : compareNumbers machine
    (updatedNumber machine data.update cur stepValue) otherValue = some ordering)
include hu hco hcur hstep hother hst ho hord

theorem fastUpdateComparison_ready (hr : FastReady machine static frame index step other) :
    fastUpdateComparison machine static frame data index step other =
      some (.ok (frame.setCell index (fusedCell machine static frame index step
          other (updatedNumber machine data.update cur stepValue)),
        compareOrdering data.comparison ordering)) := by
  obtain ⟨hi, hcurrentReady, hs, hot⟩ := hr
  obtain ⟨currentBits, hcu⟩ := Option.isSome_iff_exists.mp hcurrentReady
  obtain ⟨stepBits, hste⟩ := Option.isSome_iff_exists.mp hs
  obtain ⟨otherBits, hoth⟩ := Option.isSome_iff_exists.mp hot
  have ht : cur.type = static.localType index := hcur.type
  have hk : machine.kindOf (static.localType index) = cur.scalarKind := by
    rw [← ht]
    exact hcur.number.1.symm
  rw [hk] at hi
  obtain ⟨lane, hc⟩ : ∃ lane, frame.cells index = .direct lane := by
    cases hc : frame.cells index with
    | direct lane => exact ⟨lane, rfl⟩
    | shared value => simp [integerOperand, hc] at hcu
  have hup : evalIntegerBinary machine.types data.update cur.type
      cur.scalarKind cur.scalar cur.scalarKind stepValue.scalar =
        some (.ok { updatedNumber machine data.update cur stepValue with
          type := cur.type }) :=
    evalIntegerBinary_update machine hu hi rfl
  have hcom : evalIntegerBinary machine.types data.comparison cur.type cur.scalarKind
      (updatedNumber machine data.update cur stepValue).scalar
      cur.scalarKind otherValue.scalar = some (.ok (newBoolValue
          (compareOrdering data.comparison ordering))) := by
    have hki := evalIntegerBinary_comparison machine cur.type hco hord
    rw [updatedNumber_kind machine hcur.number.2, ho] at hki
    rcases hki with hnone | hsome
    · exfalso
      revert hnone
      cases hcurrentKind : cur.scalarKind <;>
        cases hop : data.comparison <;>
        simp_all [evalIntegerBinary, evalSignedBinary, evalUnsignedBinary, isComparison, isInteger]
    · exact hsome
  have hr : FastReady machine static frame index step other := ⟨hk ▸ hi, hcurrentReady, hs, hot⟩
  unfold fastUpdateComparison
  simp only [hcur.numericInput, hstep.numericInput, hother.numericInput]
  rw [show primitiveScalarKind (machine.types.primitive cur.type) =
      cur.scalarKind from hcur.number.1.symm,
    show primitiveScalarKind (machine.types.primitive stepValue.type) =
      cur.scalarKind from hst ▸ hstep.number.1.symm,
    show primitiveScalarKind (machine.types.primitive otherValue.type) =
      cur.scalarKind from ho ▸ hother.number.1.symm]
  simp only [hi, Bool.and_self, guard_true, pure_bind, hcu,
    hste, hoth, Option.bind_eq_bind, Option.bind_some,
    hcur.bits _ hcu, hstep.bits _ hste,
    hother.bits _ hoth, ← ht, hup, hcom, hc, fusedCell,
    if_pos hr, truthy_newBoolValue]
  rfl

omit ho in
/-- The general path on typed operands. -/
theorem generalUpdateComparison_typed (laws : machine.Laws) :
    generalUpdateComparison machine static frame data index step other =
      (frame.setCell index ((frame.cells index).publish
          (updatedNumber machine data.update cur stepValue)),
        .ok (compareOrdering data.comparison ordering)) := by
  have hup := evalBinary_update machine frame.world hu hcur.number hstep.number hst
  have hn : IsNumber machine (updatedNumber machine data.update cur stepValue) :=
    updatedNumber_number machine hcur.number
  have hc := evalBinary_comparison machine frame.world hco hn hother.number hord
  rw [updatedNumber_type] at hc
  have hs : (frame.cells index).store machine (static.localType index)
      (updatedNumber machine data.update cur stepValue) = .ok ((frame.cells index).publish
          (updatedNumber machine data.update cur stepValue)) :=
    store_declared laws (by rw [updatedNumber_type]; exact hcur.type) hn.2
  simp only [generalUpdateComparison, hother.read, hstep.read, hcur.read,
    hcur.numericInput, hstep.numericInput, hother.numericInput,
    hup, hs, hc, bind, Except.bind, pure, Except.pure,
    truthy_newBoolValue]

/-- What the fused instruction does to typed operands: it compares the updated
number with the other operand as it was before. -/
theorem updateComparison_typed (laws : machine.Laws) :
    updateComparison machine static frame data index step other =
      (frame.setCell index (fusedCell machine static frame index step other
          (updatedNumber machine data.update cur stepValue)),
        .ok (compareOrdering data.comparison ordering)) := by
  unfold updateComparison
  by_cases hr : FastReady machine static frame index step other
  · rw [fastUpdateComparison_ready hu hco hcur hstep hother hst ho hord hr]
  · rw [fastUpdateComparison_general hcur hr]
    have hc : fusedCell machine static frame index step other
        (updatedNumber machine data.update cur stepValue) = (frame.cells index).publish
            (updatedNumber machine data.update cur stepValue) := by
      unfold fusedCell
      split
      · rw [if_neg hr]
      · rfl
    rw [hc]
    exact generalUpdateComparison_typed hu hco hcur hstep hother hst hord laws

end Typed

end UpdateComparison

end MiniGo.Runtime
