/-
The evaluators of integer operators (`runtime/operators.go`, `comparison.go`,
`instruction.go`).

An integer operator has a direct evaluator over raw bits, `evalIntegerBinary`, and the
switch of `evalBinary` behind it, which goes to `evalNumeric`, `evalBitwise` or
`evalCompare`. Both give the operation on the integers, reduced to the type of the left
operand. Of the second, the branches that integers take are modelled.
-/
import MiniGo.Emit.FusionSound

namespace MiniGo.Runtime

open Bytecode Emit BitVec

section Generic

variable (machine : RegisterMachine) (operator : Operator) (left right : VmValue)

/-- `normalizeUnsignedValue` or `normalizeSignedValue`, by the kind. -/
def normalizeInteger (types : NumericTypes) (kind : ScalarKind) (type : TypeRef)
    (value : BitVec 64) : VmValue :=
  if kind = .unsigned then normalizeUnsignedValue types type value
  else normalizeSignedValue types type value

/-- `evalNumeric`. -/
def evalNumeric : Except Fault VmValue :=
  let kind := if right.scalarKind = .unsigned then .unsigned else left.scalarKind
  let normalize value := .ok (normalizeInteger machine.types kind left.type value)
  match operator with
  | .add => normalize (left.scalar + right.scalar)
  | .sub => normalize (left.scalar - right.scalar)
  | .mul => normalize (left.scalar * right.scalar)
  | .div =>
    if right.scalar = 0 then .error (.guestPanic "division by zero")
    else if kind = .unsigned then normalize (left.scalar / right.scalar)
    else normalize (left.scalar.sdiv right.scalar)
  | .mod =>
    if right.scalar = 0 then .error (.guestPanic "division by zero")
    else if kind = .unsigned then normalize (left.scalar % right.scalar)
    else normalize (left.scalar.srem right.scalar)
  | _ => .error (.error "unsupported numeric operator")

/-- `numericShiftCount`. -/
def numericShiftCount (value : VmValue) : Except Fault (BitVec 64) :=
  if value.scalarKind = .signed ∧ value.scalar.toInt < 0 then
    .error (.guestPanic "negative shift amount")
  else .ok value.scalar

/-- `evalBitwise`. -/
def evalBitwise : Except Fault VmValue :=
  let normalize value := .ok (normalizeInteger machine.types left.scalarKind left.type value)
  match operator with
  | .bitAnd => normalize (left.scalar &&& right.scalar)
  | .bitOr => normalize (left.scalar ||| right.scalar)
  | .bitXor => normalize (left.scalar ^^^ right.scalar)
  | .bitClear => normalize (left.scalar &&& ~~~right.scalar)
  | .shiftLeft => do normalize (left.scalar <<< (← numericShiftCount right))
  | .shiftRight => do
    let count ← numericShiftCount right
    if left.scalarKind = .unsigned then normalize (left.scalar >>> count)
    else normalize (left.scalar.sshiftRight count.toNat)
  | _ => .error (.error "unsupported bitwise operator")

/-- `evalCompare` on integers, with `equalNumericValues` and `compareNumericValues`. -/
def evalIntegerCompare : Except Fault VmValue :=
  match compareNumbers machine left right with
  | none => .error (.error ("invalid integer operands " ++ left.type.text ++ " and " ++
      right.type.text))
  | some ordering =>
    match operator with
    | .equal => .ok (newBoolValue (ordering = some .eq))
    | .notEqual => .ok (newBoolValue (!decide (ordering = some .eq)))
    | _ => .ok (newBoolValue (compareOrdering operator ordering))

/-- `normalizeUnaryNumericResult`. -/
def normalizeUnaryNumericResult (type : TypeRef) (value : VmValue) : VmValue :=
  if type.valid ∧ type ≠ value.type ∧ value.type ≠ .builtin .bool then { value with type }
  else value

/-- The switch of `evalBinary`. -/
def evalSwitch (type : TypeRef) : Except Fault VmValue :=
  match operator with
  | .add | .sub | .mul | .div | .mod =>
    (evalNumeric machine operator left right).map (normalizeUnaryNumericResult type)
  | .bitAnd | .bitOr | .bitXor | .bitClear | .shiftLeft | .shiftRight =>
    (evalBitwise machine operator left right).map (normalizeUnaryNumericResult type)
  | .equal | .notEqual | .less | .greater | .lessEqual | .greaterEqual =>
    evalIntegerCompare machine operator left right
  | _ => .error (.error "unsupported binary operator")

end Generic

section Meaning

/-- The integer that bits of a kind stand for. -/
def integerOf (kind : ScalarKind) (bits : BitVec 64) : Int :=
  if kind = .unsigned then bits.toNat else bits.toInt

/-- The operation on integers; division truncates. -/
def exactOperation (left right : Int) : Operator → Int
  | .add => left + right
  | .sub => left - right
  | .mul => left * right
  | .div => left.tdiv right
  | .mod => left.tmod right
  | .bitAnd => Int.land left right
  | .bitOr => Int.lor left right
  | .bitXor => Int.xor left right
  | .bitClear => Int.ldiff left right
  | .shiftLeft => left * 2 ^ right.toNat
  | .shiftRight => left / 2 ^ right.toNat
  | _ => 0

/-- Reduction modulo a power of two into the range of a kind. -/
def reduced (kind : ScalarKind) (bits : Nat) (value : Int) : Int :=
  if kind = .unsigned then value % 2 ^ bits else value.bmod (2 ^ bits)

/-- What an operator gives on two integers. -/
def exactResult (operator : Operator) (value : Int → VmValue) (left right : Int) :
    Except Fault VmValue :=
  if isComparison operator then
    .ok (newBoolValue (compareOrdering operator (some (compare left right))))
  else if right = 0 ∧ (operator = .div ∨ operator = .mod) then
    .error (.guestPanic "division by zero")
  else if right < 0 ∧ (operator = .shiftLeft ∨ operator = .shiftRight) then
    .error (.guestPanic "negative shift amount")
  else .ok (value (exactOperation left right operator))

end Meaning

section Agreement

variable {mach : RegisterMachine} {oper : Operator} {left right : VmValue}
  {type : TypeRef} {result : Except Fault VmValue}

/-- The direct evaluator depends on the type by its width. -/
theorem evalIntegerBinary_retype {left right : BitVec 64} {kind other : ScalarKind}
    {actual : TypeRef}
    (hb : resultBits mach.types kind type = resultBits mach.types kind actual) :
    evalIntegerBinary mach.types oper type kind left other right =
      (evalIntegerBinary mach.types oper actual kind left other right).map
        (Except.map fun out => if out.scalarKind ≠ .none then { out with type } else out) := by
  cases kind with
  | none => rfl
  | float => rfl
  | signed =>
    have hn := fun val => normalizeSignedValue_congr mach val hb
    cases other <;> cases oper <;>
      simp only [evalIntegerBinary, evalSignedBinary, hn] <;> (try split_ifs) <;> rfl
  | unsigned =>
    have hn := fun val => normalizeUnsignedValue_congr mach val hb
    cases other <;> cases oper <;>
      simp only [evalIntegerBinary, evalUnsignedBinary, hn] <;> (try split_ifs) <;> rfl

theorem normalizeUnaryNumericResult_integer {actual : TypeRef} {kind : ScalarKind}
    (hv : type.valid = true) (hbo : actual ≠ .builtin .bool) (value : BitVec 64)
    (hb : resultBits mach.types kind type = resultBits mach.types kind actual)
    (hi : isInteger kind = true) :
    normalizeUnaryNumericResult type (normalizeInteger mach.types kind actual value) =
      normalizeInteger mach.types kind type value := by
  have ht : (normalizeInteger mach.types kind actual value).type = actual := by
    unfold normalizeInteger
    split <;> rfl
  by_cases hs : type = actual
  · simp [normalizeUnaryNumericResult, ht, hs]
  · rw [normalizeUnaryNumericResult, ht, if_pos ⟨hv, hs, hbo⟩]
    cases kind with
    | none => cases hi
    | float => cases hi
    | signed => exact (normalizeSignedValue_congr mach value hb).symm
    | unsigned => exact (normalizeUnsignedValue_congr mach value hb).symm

variable (hleft : IsNumber mach left) (hright : IsNumber mach right)
  (hdirect : evalIntegerBinary mach.types oper left.type left.scalarKind left.scalar
    right.scalarKind right.scalar = some result)
include hleft hright hdirect

theorem evalBinary_direct (world : mach.World) :
    evalBinary mach world oper left right (mach.types.primitive left.type)
      (mach.types.primitive right.type) = result := by
  obtain ⟨leftType, hl, -, hb⟩ := operandView_number mach hleft
  obtain ⟨rightType, hr, -, -⟩ := operandView_number mach hright
  unfold evalBinary
  rw [show (if left.type.kind ≠ .primitive then _ else _) = _ from hl,
    show (if right.type.kind ≠ .primitive then _ else _) = _ from hr]
  rw [evalIntegerBinary_retype hb.symm] at hdirect
  obtain ⟨direct, ha, rfl⟩ := Option.map_eq_some_iff.mp hdirect
  simp only [ha]
  cases direct <;> rfl

theorem evalSwitch_direct (hv : left.type.valid = true) :
    evalSwitch mach oper (operandView mach left (mach.types.primitive left.type))
      (operandView mach right (mach.types.primitive right.type)) left.type = result := by
  obtain ⟨leftType, hl, hp, hb⟩ := operandView_number mach hleft
  obtain ⟨rightType, hr, -, -⟩ := operandView_number mach hright
  have hnu : IsNumber mach { left with type := leftType } :=
    ⟨by rw [RegisterMachine.kindOf, hp]; exact hleft.1, hleft.2⟩
  have hn := fun val =>
    normalizeUnaryNumericResult_integer hv (number_ne_bool hnu) val hb.symm
  rw [hl, hr]
  clear hl hr hleft hright hnu
  cases hk : left.scalarKind <;> cases ho : right.scalarKind <;> cases oper <;>
    simp_all [evalIntegerBinary, evalSignedBinary, evalUnsignedBinary, isComparison, evalSwitch,
      evalNumeric, evalBitwise, evalIntegerCompare, numericShiftCount, compareNumbers, isInteger,
      Except.map, normalizeInteger, compareOrdering, bind, Except.bind]
  all_goals split_ifs at hdirect ⊢ <;> cases hdirect <;> simp_all

end Agreement

section Bits

theorem ofInt_integerOf (kind : ScalarKind) (bits : BitVec 64) :
    BitVec.ofInt 64 (integerOf kind bits) = bits := by
  unfold integerOf
  split
  · rw [ofInt_natCast, ofNat_toNat, setWidth_eq]
  · exact ofInt_toInt

theorem setWidth_ofInt {width : Nat} (hw : width ≤ 64) (value : Int) :
    (BitVec.ofInt 64 value).setWidth width = BitVec.ofInt width value := by
  refine eq_of_toInt_eq ?_
  rw [← signExtend_eq_setWidth_of_le _ hw, toInt_signExtend, toInt_ofInt,
    toInt_ofInt, Nat.min_eq_left hw, Int.bmod_bmod_of_dvd (Nat.pow_dvd_pow 2 hw)]

theorem getLsbD_ofInt (val : Int) (idx : Nat) :
    (BitVec.ofInt 64 val).getLsbD idx = (decide (idx < 64) && val.testBit idx) := by
  cases val with
  | ofNat magnitude => exact getLsbD_ofNat 64 magnitude idx
  | negSucc complement =>
    rw [ofInt_negSucc_eq_not_ofNat, getLsbD_not, getLsbD_ofNat]
    by_cases hi : idx < 64 <;> simp [hi, Int.testBit]

variable {kind : ScalarKind} {left right : BitVec 64}

/-- A normalised value holds the bits of the reduced integer. -/
theorem normalizeInteger_ofInt {types : NumericTypes} {type : TypeRef} {val : Int}
    (hk : isInteger kind = true) (hw : resultBits types kind type ≤ 64) :
    normalizeInteger types kind type (BitVec.ofInt 64 val) =
      ⟨type, .scalar, BitVec.ofInt 64 (reduced kind (resultBits types kind type) val), kind⟩ := by
  cases kind with
  | none => cases hk
  | float => cases hk
  | signed =>
    refine congrArg (newSignedVMValue type) ?_
    rw [truncate_eq_setWidth, setWidth_ofInt hw, signExtend, toInt_ofInt]
    rfl
  | unsigned =>
    refine congrArg (newUnsignedVMValue type) ?_
    rw [truncate_eq_setWidth, setWidth_ofInt hw, zeroExtend_eq_setWidth,
      ← ofNat_toNat, toNat_ofInt, ← ofInt_natCast,
      Int.toNat_of_nonneg (Int.emod_nonneg _ (Int.natCast_ne_zero.mpr (Nat.two_pow_pos _).ne'))]
    simp [reduced]

theorem ofInt_sub (left right : Int) :
    BitVec.ofInt 64 (left - right) = BitVec.ofInt 64 left - BitVec.ofInt 64 right := by
  rw [Int.sub_eq_add_neg, ofInt_add, ofInt_neg, sub_eq_add_neg]

theorem ofInt_bitwise (left right : Int) :
    BitVec.ofInt 64 (Int.land left right) = BitVec.ofInt 64 left &&& BitVec.ofInt 64 right ∧
    BitVec.ofInt 64 (Int.lor left right) = BitVec.ofInt 64 left ||| BitVec.ofInt 64 right ∧
    BitVec.ofInt 64 (Int.xor left right) = BitVec.ofInt 64 left ^^^ BitVec.ofInt 64 right ∧
    BitVec.ofInt 64 (Int.ldiff left right) = BitVec.ofInt 64 left &&& ~~~BitVec.ofInt 64 right := by
  refine ⟨?_, ?_, ?_, ?_⟩ <;> refine eq_of_getLsbD_eq fun idx hi => ?_ <;>
    simp [getLsbD_ofInt, hi, -getLsbD_eq_getElem]

theorem ofInt_two_pow (count : Nat) : BitVec.ofInt 64 (2 ^ count) = twoPow 64 count := by
  refine eq_of_toNat_eq ?_
  rw [toNat_ofInt, toNat_twoPow]
  norm_cast

theorem ofInt_shiftRight (count : Nat) : BitVec.ofInt 64 (integerOf kind left / 2 ^ count) =
      if kind = .unsigned then left >>> count else left.sshiftRight count := by
  unfold integerOf
  split
  · have hb : (left.toNat / 2 ^ count : Int) = (left >>> count).toNat := by
      rw [toNat_ushiftRight, Nat.shiftRight_eq_div_pow]
      simp
    rw [hb, ofInt_natCast, ofNat_toNat, setWidth_eq]
  · have hb : left.toInt / 2 ^ count = (left.sshiftRight count).toInt := by
      rw [toInt_sshiftRight, Int.shiftRight_eq_div_pow]
      simp
    rw [hb, ofInt_toInt]

theorem ofInt_tdiv : BitVec.ofInt 64 ((integerOf kind left).tdiv (integerOf kind right)) =
      if kind = .unsigned then left / right else left.sdiv right := by
  unfold integerOf
  split
  · rw [udiv_def, ← Int.ofNat_tdiv, ofInt_natCast]
  · refine eq_of_toInt_eq ?_
    rw [toInt_ofInt, toInt_sdiv]

theorem ofInt_tmod : BitVec.ofInt 64 ((integerOf kind left).tmod (integerOf kind right)) =
      if kind = .unsigned then left % right else left.srem right := by
  unfold integerOf
  split
  · rw [umod_def, ← Int.ofNat_tmod, ofInt_natCast]
  · rw [← toInt_srem, ofInt_toInt]

theorem toNat_integerOf (hc : 0 ≤ integerOf kind right) :
    (integerOf kind right).toNat = right.toNat := by
  unfold integerOf at *
  split at hc
  · simp [*]
  · rw [if_neg ‹_›, toInt_eq_toNat_cond] at *
    split_ifs at * <;> omega

theorem integerOf_eq_zero : integerOf kind right = 0 ↔ right = 0 := by
  unfold integerOf
  split
  · rw [Int.natCast_eq_zero]
    exact (toNat_inj (y := 0))
  · exact toInt_inj (y := 0)

theorem compareUint64_eq (left right : BitVec 64) :
    compareUint64 left right = compare (integerOf .unsigned left) (integerOf .unsigned right) := by
  simp [compareUint64, compare, compareOfLessAndEq, integerOf]

theorem compareInt64_eq (left right : BitVec 64) :
    compareInt64 left right = compare (integerOf .signed left) (integerOf .signed right) :=
  rfl

variable {types : NumericTypes} {oper : Operator} {type : TypeRef} {other : ScalarKind}
  {res : Except Fault VmValue}

/-- The direct evaluator computes on the integers. -/
theorem evalIntegerBinary_exact
    (hdirect : evalIntegerBinary types oper type kind left other right = some res) :
    res = exactResult oper (fun val => normalizeInteger types kind type (BitVec.ofInt 64 val))
      (integerOf kind left) (integerOf other right) := by
  have hb := ofInt_bitwise (integerOf kind left) (integerOf other right)
  have hc := @toNat_integerOf other right
  have hs : right.toInt = integerOf .signed right := rfl
  have hu : 0 ≤ integerOf .unsigned right := Int.natCast_nonneg _
  cases kind <;> cases other <;> cases oper <;>
    simp [evalIntegerBinary, evalSignedBinary, evalUnsignedBinary, isComparison,
      compareInt64_eq, compareUint64_eq, hs] at hdirect <;>
    simp [exactResult, isComparison, exactOperation, normalizeInteger, hb, ofInt_integerOf,
      ofInt_add, ofInt_mul, ofInt_sub, ofInt_tdiv, ofInt_tmod, ofInt_two_pow, ofInt_shiftRight,
      integerOf_eq_zero, ← hdirect]
  -- the operators that can panic
  all_goals split_ifs at hdirect ⊢ <;> first | simp_all; done | omega

end Bits

section Paths

theorem setCell_inj {World : Type} {frame : Frame World} {idx : Nat} {first second : Cell} :
    frame.setCell idx first = frame.setCell idx second ↔ first = second := by
  refine ⟨fun hs => ?_, fun hs => by rw [hs]⟩
  simpa [Frame.setCell] using congrFun (congrArg Frame.cells hs) idx

theorem resultBits_number {machine : RegisterMachine} {val : VmValue} (hn : IsNumber machine val) :
    resultBits machine.types val.scalarKind val.type =
      primitiveBits (machine.types.primitive val.type) := by
  unfold resultBits
  split
  · next hp =>
    have hs := hn.1
    rw [RegisterMachine.kindOf, machine.types.ofPrimitive _ hp] at hs
    rw [if_pos hs.symm, machine.types.ofPrimitive _ hp]
  · rfl

theorem primitiveBits_le (primitive : PrimitiveKind) : primitiveBits primitive ≤ 64 := by
  cases primitive <;> decide

/-- Wherever the direct evaluator applies, it, `evalBinary` and the switch behind it give
the operation on the integers, reduced to the width of the left operand's type. The fused
comparison of a length gives that of the length as an `Int`. The fused update gives the
cell and the branch of the general evaluation exactly if the lane that it updates in
place has the declared type of the local. -/
theorem integer_paths_agree (machine : RegisterMachine) (laws : machine.Laws) :
    (∀ world operator left right result, IsNumber machine left → IsNumber machine right →
      left.type.valid = true →
      evalIntegerBinary machine.types operator left.type left.scalarKind left.scalar
        right.scalarKind right.scalar = some result →
      evalBinary machine world operator left right (machine.types.primitive left.type)
          (machine.types.primitive right.type) = result ∧
        evalSwitch machine operator (operandView machine left (machine.types.primitive left.type))
          (operandView machine right (machine.types.primitive right.type)) left.type = result ∧
        result = exactResult operator
          (fun value => ⟨left.type, .scalar, BitVec.ofInt 64 (reduced left.scalarKind
            (primitiveBits (machine.types.primitive left.type)) value), left.scalarKind⟩)
          (integerOf left.scalarKind left.scalar) (integerOf right.scalarKind right.scalar)) ∧
    (∀ world operator length right, isComparison operator = true → 0 ≤ length.toInt →
      IsNumber machine right → isInteger right.scalarKind = true →
      compareLengthValue operator length right =
        (evalBinary machine world operator (newSignedVMValue (.builtin .int) length) right
          .int (machine.types.primitive right.type) >>= truthy)) ∧
    ∀ static frame payload index step other current stepValue otherValue,
      IsUpdate payload.update → isComparison payload.comparison = true →
      OperandTyped machine static frame (.localVar index) current →
      OperandTyped machine static frame step stepValue →
      OperandTyped machine static frame other otherValue →
      stepValue.scalarKind = current.scalarKind → otherValue.scalarKind = current.scalarKind →
      (updateComparison machine static frame payload index step other =
          generalUpdateComparison machine static frame payload index step other ↔
        (FastReady machine static frame index step other →
          ∀ lane, frame.cells index = .direct lane → lane.type = static.localType index)) := by
  refine ⟨?_, ?_, ?_⟩
  · intro world operator left right result hleft hright hvalid hdirect
    refine ⟨evalBinary_direct hleft hright hdirect world,
      evalSwitch_direct hleft hright hdirect hvalid, ?_⟩
    have hkind : isInteger left.scalarKind = true := by
      rcases scalarKind_cases hleft.2 with hinteger | hfloat
      · exact hinteger
      · rw [hfloat] at hdirect
        cases hdirect
    rw [evalIntegerBinary_exact hdirect, ← resultBits_number hleft]
    refine congrArg (exactResult operator · _ _) (funext fun value => ?_)
    exact normalizeInteger_ofInt hkind (resultBits_number hleft ▸ primitiveBits_le _)
  · intro world operator length right hoperator hlength hright hinteger
    obtain ⟨ordering, hordering, hcompared⟩ :=
      compareLengthValue_eq machine operator hlength hinteger
    have hint : machine.types.primitive (.builtin .int) = .int :=
      primitive_builtin machine (by decide)
    have hnumber : IsNumber machine (newSignedVMValue (.builtin .int) length) :=
      ⟨by rw [RegisterMachine.kindOf, newSignedVMValue, hint]; rfl, nofun⟩
    have hbinary := evalBinary_comparison machine world hoperator hnumber hright hordering
    rw [show (newSignedVMValue (.builtin .int) length).type = .builtin .int from rfl,
      hint] at hbinary
    rw [hcompared, hbinary]
    exact (truthy_newBoolValue _).symm
  · intro static frame payload index step other current stepValue otherValue hupdate hcomparison
      hcurrent hstep hother hstepKind hotherKind
    have hkind := @updatedNumber_kind payload.update _ stepValue machine hcurrent.number.2
    obtain ⟨ordering, hordering⟩ := compareNumbers_same machine (hkind.trans_ne hcurrent.number.2)
      (hotherKind.trans hkind.symm)
    rw [updateComparison_typed hupdate hcomparison hcurrent hstep hother hstepKind hotherKind
        hordering laws, generalUpdateComparison_typed hupdate hcomparison hcurrent hstep hother
          hstepKind hordering laws, Prod.mk.injEq, setCell_inj, eq_comm,
      publish_eq_fusedCell_iff ((updatedNumber_type ..).trans hcurrent.type)]
    exact and_iff_left rfl

/-- An uninitialised local that is increased in place: the value that it then holds has no
valid type, where the general evaluation stores an `Int`. -/
theorem updateComparison_keeps_invalid_type :
    let static := staticTypes countingContext (countingCode (.constant 0))
    let frame := { countingFrame with cells := fun _ => .direct {} }
    let payload : UpdateComparison := ⟨.add, .less, .builtin .int, "exit", true⟩
    OperandTyped countingMachine static frame (.localVar 0) (newSignedVMValue (.builtin .int) 0) ∧
      (updateComparison countingMachine static frame payload 0 (.constant 0)
        (.constant 0)).1.cells 0 = .direct ⟨{}, 1, .signed, true⟩ ∧
      (generalUpdateComparison countingMachine static frame payload 0 (.constant 0)
        (.constant 0)).1.cells 0 = .direct ⟨.builtin .int, 1, .signed, true⟩ := by
  refine ⟨⟨rfl, rfl, ⟨rfl, by decide⟩, ?_⟩, ?_, ?_⟩
  · simp [integerOperand, newSignedVMValue]
  · decide
  · decide

/-- A counter of its declared type. -/
theorem integer_paths_agree_counting :
    let static := staticTypes countingContext (countingCode (.constant 0))
    let payload : UpdateComparison := ⟨.add, .less, .builtin .int, "exit", true⟩
    let number := newSignedVMValue (.builtin .int)
    evalBinary countingMachine () .shiftRight (number (-5)) (number 1) .int .int =
        .ok (number (-3)) ∧
      (compareLengthValue .less 0 (number 1) = evalBinary countingMachine () .less (number 0)
        (number 1) .int .int >>= truthy) ∧
      updateComparison countingMachine static countingFrame payload 0 (.constant 0) (.constant 0) =
        generalUpdateComparison countingMachine static countingFrame payload 0
          (.constant 0) (.constant 0) := by
  have hagree := integer_paths_agree countingMachine countingMachine_executes.laws
  have hconstant := countingFrame_constant (countingCode (.constant 0))
  refine ⟨?_, hagree.2.1 () .less 0 _ rfl (by decide) ⟨rfl, by decide⟩ rfl,
    (hagree.2.2 _ _ _ _ _ _ _ _ _ (.inl rfl) rfl (countingFrame_local _) hconstant hconstant rfl
      rfl).mpr ?_⟩
  · exact (hagree.1 () .shiftRight _ _ _ ⟨rfl, by decide⟩ ⟨rfl, by decide⟩ (by decide)
      (by decide)).1
  rintro - lane hlane
  cases hlane
  rfl

end Paths

end MiniGo.Runtime
