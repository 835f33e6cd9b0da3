/-
The laws of constant arithmetic and where `Binary` keeps them.

Division truncates when both operands carry the name of a builtin integer type. A
declared type has another name, and its constants are divided exactly. The kind of an
untyped result is that of the left operand whenever the decimal routines compute it.
-/
import MiniGo.Constant.Value

namespace MiniGo.Constant

open Option

section Paths

variable {operator : Operator}

/-- The operators whose result is a number that depends on both kinds. -/
def isNumeric (operator : Operator) : Bool :=
  operator ∈ [Operator.add, .subtract, .multiply, .divide, .remainder, .bitAnd, .bitOr, .bitXor,
    .bitClear]

/-- Two real numbers are combined exactly or by the decimal routines. -/
theorem binary_numbers (hn : isNumeric operator = true) (first second : ℚ)
    (leftType rightType : String) (leftUntyped rightUntyped : Bool) :
    binary operator ⟨.number first, leftType, leftUntyped⟩
        ⟨.number second, rightType, rightUntyped⟩ =
      if isArithmetic operator && (!integerType leftType || !integerType rightType) then
        rationalBinary operator ⟨.number first, leftType, leftUntyped⟩
          ⟨.number second, rightType, rightUntyped⟩
      else integerBinary operator ⟨.number first, leftType, leftUntyped⟩
        ⟨.number second, rightType, rightUntyped⟩ := by
  cases operator <;> first | rfl | cases hn

theorem integer_intCast (value : Int) : Content.integer (.number value) = some value := rfl

end Paths

section Division

/-- An integer constant of some type. -/
def integerValue (value : Int) (type : String) (untyped : Bool) : Value :=
  ⟨.number value, type, untyped⟩

/-- Division truncates, and `(a / b) * b + a % b` is `a`. -/
def DivisionLaw (a b : Int) (left right : Value) : Prop :=
  ∃ quotient product rest total,
    binary .divide left right = some quotient ∧ quotient.content = .number (a.tdiv b : Int) ∧
    binary .multiply quotient right = some product ∧
    binary .remainder left right = some rest ∧
    binary .add product rest = some total ∧ total.content = .number a

variable {a b : Int} {leftType rightType : String} {leftUntyped rightUntyped : Bool}

theorem joinedType_integer {left right : Value} (hl : integerType left.type = true)
    (hr : integerType right.type = true) : integerType (joinedType left right) = true := by
  unfold joinedType
  split_ifs
  · exact hr
  · exact hl

/-- The operators that are left to the decimal routines. -/
theorem binary_integers {operator : Operator} {result : Int} (hn : isNumeric operator = true)
    (hp : (isArithmetic operator && (!integerType leftType || !integerType rightType)) = false)
    (hr : integerOperation operator a b = some result) :
    binary operator (integerValue a leftType leftUntyped) (integerValue b rightType rightUntyped) =
      some (integerValue result (joinedType (integerValue a leftType leftUntyped)
          (integerValue b rightType rightUntyped))
        (leftUntyped && rightUntyped)) := by
  have hs : isShift operator = false := by
    cases operator <;> first | rfl | cases hn
  rw [integerValue, integerValue, binary_numbers hn, hp]
  simp only [Bool.false_eq_true, if_false, integerBinary, integer_intCast, bind_eq_bind,
    bind_some, hr, hs]
  rfl

theorem divisionLaw_of_integerType (hb : b ≠ 0) (hl : integerType leftType = true)
    (hr : integerType rightType = true) :
    DivisionLaw a b (integerValue a leftType leftUntyped)
      (integerValue b rightType rightUntyped) := by
  have hd : integerOperation .divide a b = some (a.tdiv b) := if_neg hb
  have hre : integerOperation .remainder a b = some (a.tmod b) := if_neg hb
  have hj : integerType (joinedType (integerValue a leftType leftUntyped)
      (integerValue b rightType rightUntyped)) = true := joinedType_integer hl hr
  refine ⟨_, _, _, _, binary_integers rfl ?_ hd, rfl, binary_integers rfl ?_ rfl,
    binary_integers rfl rfl hre, binary_integers rfl ?_ rfl, ?_⟩
  · rw [hl, hr]
    rfl
  · rw [hj, hr]
    rfl
  · rw [hj, joinedType_integer hj hr]
    rfl
  · rw [integerValue, Int.mul_comm, Int.mul_tdiv_add_tmod]

/-- The type of a result that is computed exactly. -/
def exactType (leftType rightType : String) : String :=
  if integerType leftType && !integerType rightType then rightType else leftType

theorem exactType_not_integer
    (hnot : ¬ (integerType leftType = true ∧ integerType rightType = true)) :
    integerType (exactType leftType rightType) = false := by
  unfold exactType
  cases hl : integerType leftType <;> cases hr : integerType rightType <;> simp_all

/-- With the name of another type, an arithmetic operator is exact. -/
theorem binary_rationals {operator : Operator} {first second result : ℚ}
    (ha : isArithmetic operator = true)
    (hnot : ¬ (integerType leftType = true ∧ integerType rightType = true))
    (hre : rationalOperation operator first second = some result) :
    binary operator ⟨.number first, leftType, leftUntyped⟩
        ⟨.number second, rightType, rightUntyped⟩ =
      some ⟨.number result, exactType leftType rightType, leftUntyped && rightUntyped⟩ := by
  have hn : isNumeric operator = true := by
    cases operator <;> first | rfl | cases ha
  have hp : (isArithmetic operator && (!integerType leftType || !integerType rightType)) =
      true := by
    cases hl : integerType leftType <;> cases hr : integerType rightType <;> simp_all
  rw [binary_numbers hn, if_pos hp]
  simp only [rationalBinary, Content.rational, bind_eq_bind, bind_some, hre]
  rfl

/-- The division law for integer constants of any two types. -/
theorem divisionLaw_iff (hb : b ≠ 0) :
    DivisionLaw a b (integerValue a leftType leftUntyped) (integerValue b rightType rightUntyped) ↔
      integerType leftType = true ∧ integerType rightType = true ∨ b ∣ a := by
  by_cases hi : integerType leftType = true ∧ integerType rightType = true
  · exact iff_of_true (divisionLaw_of_integerType hb hi.1 hi.2) (.inl hi)
  have hbq : (b : ℚ) ≠ 0 := Int.cast_ne_zero.mpr hb
  have hd : rationalOperation .divide (a : ℚ) (b : ℚ) = some ((a : ℚ) / b) := if_neg hbq
  have hqu := @binary_rationals leftType rightType leftUntyped rightUntyped .divide a b _ rfl hi hd
  rw [or_iff_right hi]
  constructor
  · rintro ⟨quotient, -, -, -, hq, htr, -⟩
    rw [integerValue, integerValue, hqu, some.injEq] at hq
    rw [← hq, Content.number.injEq] at htr
    refine ⟨a.tdiv b, Rat.intCast_injective ?_⟩
    rw [Rat.intCast_mul, ← htr]
    field_simp
  · rintro ⟨factor, rfl⟩
    have he : ((b * factor : Int) : ℚ) / b = factor := by
      rw [Rat.intCast_mul]
      field_simp
    have ht := exactType_not_integer hi
    have hnot : ∀ other, ¬ (integerType (exactType leftType rightType) = true ∧
        integerType other = true) := fun other h => by simp [ht] at h
    have hr : integerOperation .remainder (b * factor) b = some 0 := by
      rw [integerOperation, if_neg hb, Int.mul_tmod_right]
    refine ⟨_, _, _, _, hqu, ?_, binary_rationals rfl (hnot _) rfl,
      binary_integers rfl rfl hr, binary_rationals rfl ?_ rfl, ?_⟩
    · rw [he, Int.mul_tdiv_cancel_left factor hb]
    · rw [show exactType (exactType leftType rightType) rightType = exactType leftType rightType by
        rw [exactType, ht]; rfl]
      exact hnot _
    · rw [he, Rat.intCast_zero, add_zero, Rat.intCast_mul, mul_comm]

end Division

section Untyped

/-- The kinds of untyped numeric constants. -/
inductive NumericKind where
  | int | rune | float | complex
deriving Repr, DecidableEq

namespace NumericKind

/-- The place of a kind in the order of the language. -/
def rank : NumericKind → Nat
  | .int => 0
  | .rune => 1
  | .float => 2
  | .complex => 3

/-- The default type, by which the analyser tells untyped constants apart. -/
def typeName : NumericKind → String
  | .int => "Int"
  | .rune => "Int32"
  | .float => "Float64"
  | .complex => "Complex128"

/-- The later of two kinds. -/
def later (left right : NumericKind) : NumericKind := if left.rank ≤ right.rank then right else left

end NumericKind

/-- An untyped numeric constant. -/
inductive UntypedNumber where
  | int (value : Int)
  | rune (value : Int)
  | float (value : ℚ)
  | complex (re im : ℚ)
deriving DecidableEq

namespace UntypedNumber

def kind : UntypedNumber → NumericKind
  | .int _ => .int
  | .rune _ => .rune
  | .float _ => .float
  | .complex _ _ => .complex

def content : UntypedNumber → Content
  | .int value => .number value
  | .rune value => .number value
  | .float value => .number value
  | .complex re im => .complex re im

def value (number : UntypedNumber) : Value := ⟨number.content, number.kind.typeName, true⟩

/-- The number is an integer, of whatever kind. -/
def isInteger : UntypedNumber → Bool
  | .int _ => true
  | .rune _ => true
  | .float value => value.den == 1
  | .complex _ _ => false

def isZero : UntypedNumber → Bool
  | .int value => value == 0
  | .rune value => value == 0
  | .float value => value == 0
  | .complex re im => re == 0 && im == 0

end UntypedNumber

/-- The operators that may be exchanged. -/
def isCommutative (operator : Operator) : Bool :=
  operator ∈ [Operator.add, .multiply, .bitAnd, .bitOr, .bitXor]

/-- Whether the decimal routines compute the result. -/
def usesIntegers (operator : Operator) (left right : UntypedNumber) : Bool :=
  !isArithmetic operator || integerType left.kind.typeName && integerType right.kind.typeName

/-- The operands for which the decimal routines have no result: one of them is no integer, or
the divisor is zero. -/
def isRefused (operator : Operator) (left right : UntypedNumber) : Bool :=
  !left.isInteger || !right.isInteger ||
    operator ∈ [Operator.divide, .remainder] && right.isZero

/-- A result is untyped and of the later kind. -/
def KindLaw (operator : Operator) (left right : UntypedNumber) : Prop :=
  ∀ result, binary operator left.value right.value = some result →
    result.type = (left.kind.later right.kind).typeName ∧ result.untyped = true

variable {operator : Operator}

theorem isNumeric_of_isCommutative (h : isCommutative operator = true) :
    isNumeric operator = true := by
  cases operator <;> first | rfl | cases h

theorem UntypedNumber.content_isComplex (num : UntypedNumber) :
    num.content.isComplex = decide (num.kind = .complex) := by
  cases num <;> rfl

/-- An untyped number that is not complex has a real value. -/
theorem UntypedNumber.content_real {num : UntypedNumber} (h : num.kind ≠ .complex) :
    ∃ real, num.content = .number real := by
  cases num with
  | int value => exact ⟨value, rfl⟩
  | rune value => exact ⟨value, rfl⟩
  | float value => exact ⟨value, rfl⟩
  | complex re im => exact absurd rfl h

variable {left right res : Value}

theorem rationalBinary_eq_some (h : rationalBinary operator left right = some res) :
    res.type = exactType left.type right.type ∧ res.untyped = (left.untyped && right.untyped) := by
  simp only [rationalBinary, bind_eq_bind, bind_eq_some_iff, pure_def, some.injEq] at h
  obtain ⟨_, _, _, _, _, _, rfl⟩ := h
  exact ⟨rfl, rfl⟩

theorem integerBinary_eq_some (hn : isNumeric operator = true)
    (h : integerBinary operator left right = some res) :
    res.type = joinedType left right ∧ res.untyped = (left.untyped && right.untyped) := by
  have hs : isShift operator = false := by
    cases operator <;> first | rfl | cases hn
  simp only [integerBinary, bind_eq_bind, bind_eq_some_iff, pure_def,
    some.injEq, hs, Bool.false_eq_true, if_false] at h
  obtain ⟨_, _, _, _, _, _, rfl⟩ := h
  exact ⟨rfl, rfl⟩

section Operands

variable {left right : UntypedNumber}

/-- A complex operand makes the result complex. -/
theorem binary_complex (hn : isNumeric operator = true)
    (hcp : left.kind = .complex ∨ right.kind = .complex) :
    binary operator left.value right.value = complexBinary operator left.value right.value := by
  have hcm : isComparison operator = false := by
    cases operator <;> first | rfl | cases hn
  have hsome : (left.value.content.isComplex || right.value.content.isComplex) = true := by
    rwa [UntypedNumber.value, UntypedNumber.value, left.content_isComplex,
      right.content_isComplex, Bool.or_eq_true, decide_eq_true_iff, decide_eq_true_iff]
  unfold binary
  split
  case h_1 hf hs =>
    rw [hf, hs] at hsome
    cases hsome
  case h_2 =>
    rw [hcm, hsome]
    rfl

/-- Two real operands are combined exactly unless the decimal routines apply. -/
theorem binary_real (hn : isNumeric operator = true) {first second : ℚ}
    (hl : left.content = .number first) (hr : right.content = .number second) :
    binary operator left.value right.value =
      if usesIntegers operator left right then integerBinary operator left.value right.value
      else rationalBinary operator left.value right.value := by
  unfold UntypedNumber.value usesIntegers
  rw [hl, hr, binary_numbers hn]
  cases isArithmetic operator <;> cases integerType left.kind.typeName <;>
    cases integerType right.kind.typeName <;> rfl

/-- The later kind is the one that exact arithmetic gives, unless both are integers. -/
theorem exactType_eq_later (hle : left.kind ≠ .complex) (hri : right.kind ≠ .complex)
    (hf : ¬ (integerType left.kind.typeName = true ∧ integerType right.kind.typeName = true)) :
    exactType left.kind.typeName right.kind.typeName = (left.kind.later right.kind).typeName := by
  cases hl : left.kind <;> cases hr : right.kind <;> simp_all +decide

theorem later_of_isComplex (hcp : left.kind = .complex ∨ right.kind = .complex) :
    (if !left.value.content.isComplex || left.value.untyped && !right.value.untyped
      then right.value.type else left.value.type) = (left.kind.later right.kind).typeName := by
  simp only [UntypedNumber.value, left.content_isComplex]
  revert hcp
  cases left.kind <;> cases right.kind <;> decide

theorem typeName_eq_later_iff : left.kind.typeName = (left.kind.later right.kind).typeName ↔
      right.kind.rank ≤ left.kind.rank := by
  cases left.kind <;> cases right.kind <;> decide

theorem kindLaw_of_isComplex (hn : isNumeric operator = true)
    (hcp : left.kind = .complex ∨ right.kind = .complex) :
    KindLaw operator left right := by
  intro res hr
  rw [binary_complex hn hcp] at hr
  simp only [complexBinary, bind_eq_bind, bind_eq_some_iff, pure_def, some.injEq] at hr
  obtain ⟨_, _, _, _, _, _, rfl⟩ := hr
  exact ⟨later_of_isComplex hcp, rfl⟩

/-- The decimal routines refuse a complex operand. -/
theorem binary_eq_none_of_isComplex (hn : isNumeric operator = true)
    (hcp : left.kind = .complex ∨ right.kind = .complex)
    (hu : usesIntegers operator left right = true) :
    binary operator left.value right.value = none := by
  have hk : (integerType left.kind.typeName && integerType right.kind.typeName) = false := by
    revert hcp
    cases left.kind <;> cases right.kind <;> decide
  have hnot : isArithmetic operator = false := by
    rwa [usesIntegers, hk, Bool.or_false, Bool.not_eq_true'] at hu
  have hnone : ∀ first second, complexOperation operator first second = none := by
    intro first second
    cases operator <;> first | rfl | cases hnot
  rw [binary_complex hn hcp, complexBinary]
  simp [hnone]

theorem not_both_integers_of_not_usesIntegers (hu : ¬ usesIntegers operator left right = true) :
    ¬ (integerType left.kind.typeName = true ∧ integerType right.kind.typeName = true) := by
  rintro ⟨hl, hr⟩
  rw [usesIntegers, hl, hr] at hu
  exact hu (Bool.or_true _)

/-- The kind of a result is the later one, unless the decimal routines meet an earlier kind on the
left. -/
theorem kindLaw_iff (hn : isNumeric operator = true) :
    KindLaw operator left right ↔ (usesIntegers operator left right = true →
        binary operator left.value right.value = none ∨ right.kind.rank ≤ left.kind.rank) := by
  by_cases hcp : left.kind = .complex ∨ right.kind = .complex
  · exact iff_of_true (kindLaw_of_isComplex hn hcp)
      fun hu => .inl (binary_eq_none_of_isComplex hn hcp hu)
  obtain ⟨hl, hr⟩ := not_or.mp hcp
  obtain ⟨first, hf⟩ := UntypedNumber.content_real hl
  obtain ⟨second, hs⟩ := UntypedNumber.content_real hr
  have hre := binary_real hn hf hs
  by_cases hu : usesIntegers operator left right = true
  · rw [if_pos hu] at hre
    rw [forall_prop_of_true hu, ← @typeName_eq_later_iff left right]
    constructor
    · intro hla
      cases hres : binary operator left.value right.value with
      | none => exact .inl rfl
      | some res =>
        obtain ⟨ht, _⟩ := integerBinary_eq_some hn (hre ▸ hres)
        exact .inr (ht.symm.trans (hla res hres).1)
    · rintro (hnone | hra) res hres
      · rw [hnone] at hres
        cases hres
      · obtain ⟨ht, hun⟩ := integerBinary_eq_some hn (hre ▸ hres)
        exact ⟨ht.trans hra, hun⟩
  · rw [if_neg hu] at hre
    refine iff_of_true (fun res hres => ?_) fun h => absurd h hu
    obtain ⟨ht, hun⟩ := rationalBinary_eq_some (hre ▸ hres)
    exact ⟨ht.trans (exactType_eq_later hl hr (not_both_integers_of_not_usesIntegers hu)), hun⟩

theorem UntypedNumber.content_integer_isSome (number : UntypedNumber) :
    number.content.integer.isSome = number.isInteger := by
  cases number with
  | int value => rfl
  | rune value => rfl
  | float value =>
    by_cases hden : value.den = 1 <;> simp [UntypedNumber.content, Content.integer, hden,
      UntypedNumber.isInteger]
  | complex re im => rfl

theorem UntypedNumber.isZero_of_integer {number : UntypedNumber} {value : Int}
    (hvalue : number.content.integer = some value) : number.isZero = (value == 0) := by
  cases number with
  | int stored =>
    obtain rfl := some.inj hvalue
    rfl
  | rune stored =>
    obtain rfl := some.inj hvalue
    rfl
  | float stored =>
    rw [UntypedNumber.content, Content.integer] at hvalue
    split at hvalue
    · obtain rfl := some.inj hvalue
      rw [UntypedNumber.isZero, Bool.eq_iff_iff, beq_iff_eq, beq_iff_eq, Rat.num_eq_zero]
    · cases hvalue
  | complex re im => cases hvalue

theorem integerOperation_isSome (hn : isNumeric operator = true) (first second : Int) :
    (integerOperation operator first second).isSome =
      !(operator ∈ [Operator.divide, .remainder] && second == 0) := by
  cases operator with
  | divide => by_cases hzero : second = 0 <;> simp [integerOperation, hzero]
  | remainder => by_cases hzero : second = 0 <;> simp [integerOperation, hzero]
  | add | subtract | multiply | bitAnd | bitOr | bitXor | bitClear => rfl
  | _ => cases hn

/-- The decimal routines have no result exactly for the operands that they refuse. -/
theorem integerBinary_eq_none_iff (hn : isNumeric operator = true) :
    integerBinary operator left.value right.value = none ↔
      isRefused operator left right = true := by
  have hs : isShift operator = false := by
    cases operator <;> first | rfl | cases hn
  have hl := left.content_integer_isSome
  have hr := right.content_integer_isSome
  simp only [integerBinary, hs, bind_eq_bind, Bool.false_eq_true, if_false, UntypedNumber.value]
  cases hleft : left.content.integer with
  | none =>
    rw [hleft] at hl
    simp [isRefused, ← hl]
  | some first =>
    cases hright : right.content.integer with
    | none =>
      rw [hright] at hr
      simp [isRefused, ← hr]
    | some second =>
      rw [hleft] at hl
      rw [hright] at hr
      have hsome := integerOperation_isSome hn first second
      rw [isRefused, ← hl, ← hr, UntypedNumber.isZero_of_integer hright]
      simp only [bind_some, isSome_some, Bool.not_true, Bool.false_or]
      cases hoperation : integerOperation operator first second with
      | none =>
        rw [hoperation, isSome_none] at hsome
        exact iff_of_true rfl ((Bool.not_eq_false' _).mp hsome.symm)
      | some result =>
        rw [hoperation, isSome_some] at hsome
        refine iff_of_false (some_ne_none _) fun hrefused => ?_
        rw [hrefused] at hsome
        cases hsome

/-- Whenever the decimal routines apply, there is no result exactly for refused operands. -/
theorem binary_eq_none_iff (hn : isNumeric operator = true)
    (hu : usesIntegers operator left right = true) :
    binary operator left.value right.value = none ↔ isRefused operator left right = true := by
  by_cases hcp : left.kind = .complex ∨ right.kind = .complex
  · refine iff_of_true (binary_eq_none_of_isComplex hn hcp hu) ?_
    rcases hcp with hl | hr
    · cases left with
      | complex re im => rfl
      | _ => cases hl
    · cases right with
      | complex re im => simp [isRefused, UntypedNumber.isInteger]
      | _ => cases hr
  obtain ⟨hl, hr⟩ := not_or.mp hcp
  obtain ⟨first, hf⟩ := UntypedNumber.content_real hl
  obtain ⟨second, hs⟩ := UntypedNumber.content_real hr
  rw [binary_real hn hf hs, if_pos hu, integerBinary_eq_none_iff hn]

theorem later_comm (first second : NumericKind) : first.later second = second.later first := by
  cases first <;> cases second <;> rfl

section

variable (hc : isCommutative operator = true)
include hc

theorem integerOperation_comm (first second : Int) :
    integerOperation operator first second = integerOperation operator second first := by
  cases operator with
  | add => exact congrArg some (Int.add_comm first second)
  | multiply => exact congrArg some (Int.mul_comm first second)
  | bitAnd =>
    refine congrArg some ?_
    cases first <;> cases second <;> simp [Int.land, Nat.land_comm, Nat.lor_comm]
  | bitOr =>
    refine congrArg some ?_
    cases first <;> cases second <;> simp [Int.lor, Nat.land_comm, Nat.lor_comm]
  | bitXor =>
    refine congrArg some ?_
    cases first <;> cases second <;> simp [Int.xor, Nat.xor_comm]
  | _ => cases hc

theorem rationalOperation_comm (first second : ℚ) :
    rationalOperation operator first second = rationalOperation operator second first := by
  cases operator with
  | add => exact congrArg some (add_comm first second)
  | multiply => exact congrArg some (mul_comm first second)
  | bitAnd => rfl
  | bitOr => rfl
  | bitXor => rfl
  | _ => cases hc

theorem complexOperation_comm (first second : ℚ × ℚ) :
    complexOperation operator first second = complexOperation operator second first := by
  obtain ⟨a, b⟩ := first
  obtain ⟨c, d⟩ := second
  cases operator with
  | add => exact congrArg some (Prod.ext (add_comm a c) (add_comm b d))
  | multiply =>
    have hre : a * c - b * d = c * a - d * b := by ring
    have him : a * d + b * c = c * b + d * a := by ring
    exact congrArg some (Prod.ext hre him)
  | bitAnd => rfl
  | bitOr => rfl
  | bitXor => rfl
  | _ => cases hc

theorem exchange_of_isComplex (hcp : left.kind = .complex ∨ right.kind = .complex) :
    binary operator left.value right.value = binary operator right.value left.value := by
  have hn := isNumeric_of_isCommutative hc
  obtain ⟨first, hf⟩ : ∃ first, left.value.content.parts = some first := by
    cases left <;> exact ⟨_, rfl⟩
  obtain ⟨second, hs⟩ : ∃ second, right.value.content.parts = some second := by
    cases right <;> exact ⟨_, rfl⟩
  rw [binary_complex hn hcp, binary_complex hn hcp.symm, complexBinary, complexBinary, hf, hs]
  simp only [bind_eq_bind, bind_some, later_of_isComplex hcp,
    later_of_isComplex hcp.symm, later_comm right.kind left.kind,
    complexOperation_comm hc second first]
  rfl

end

theorem usesIntegers_comm (operator : Operator) (left right : UntypedNumber) :
    usesIntegers operator left right = usesIntegers operator right left := by
  rw [usesIntegers, usesIntegers, Bool.and_comm]

theorem typeName_injective {first second : NumericKind} (h : first.typeName = second.typeName) :
    first = second := by
  cases first <;> cases second <;> first | rfl | exact absurd h (by decide)

theorem integerBinary_exchange (hc : isCommutative operator = true) (left right : UntypedNumber) :
    integerBinary operator right.value left.value =
      (integerBinary operator left.value right.value).map
        fun res => { res with type := right.kind.typeName } := by
  have hs : isShift operator = false := by
    cases operator <;> first | rfl | cases hc
  simp only [integerBinary, hs, bind_eq_bind, Bool.false_eq_true, if_false]
  cases hr : right.value.content.integer with
  | none => cases left.value.content.integer <;> rfl
  | some second =>
    cases left.value.content.integer with
    | none => rfl
    | some first =>
      simp only [bind_some, integerOperation_comm hc second first]
      cases integerOperation operator first second <;> rfl

theorem integerBinary_type (hc : isCommutative operator = true)
    (h : integerBinary operator left.value right.value = some res) :
    res.type = left.kind.typeName :=
  (integerBinary_eq_some (isNumeric_of_isCommutative hc) h).1

/-- A commutative operator may be exchanged, unless the decimal routines meet two kinds. -/
theorem exchange_iff (hc : isCommutative operator = true) :
    binary operator left.value right.value = binary operator right.value left.value ↔
      (usesIntegers operator left right = true →
        binary operator left.value right.value = none ∨ left.kind = right.kind) := by
  have hn := isNumeric_of_isCommutative hc
  by_cases hcp : left.kind = .complex ∨ right.kind = .complex
  · exact iff_of_true (exchange_of_isComplex hc hcp)
      fun hu => .inl (binary_eq_none_of_isComplex hn hcp hu)
  obtain ⟨hl, hr⟩ := not_or.mp hcp
  obtain ⟨first, hfs⟩ := UntypedNumber.content_real hl
  obtain ⟨second, hs⟩ := UntypedNumber.content_real hr
  rw [binary_real hn hfs hs, binary_real hn hs hfs, usesIntegers_comm operator right left]
  by_cases hu : usesIntegers operator left right = true
  · rw [if_pos hu, if_pos hu, forall_prop_of_true hu, integerBinary_exchange hc left right]
    cases hre : integerBinary operator left.value right.value with
    | none => exact iff_of_true rfl (.inl rfl)
    | some res =>
      have ht := integerBinary_type hc hre
      rw [map_some, some.injEq, or_iff_right (some_ne_none res)]
      constructor
      · intro h
        exact typeName_injective (ht.symm.trans (congrArg Value.type h))
      · intro h
        rw [← h, ← ht]
  · rw [if_neg hu, if_neg hu]
    refine iff_of_true ?_ fun h => absurd h hu
    have hf := not_both_integers_of_not_usesIntegers hu
    have ht : exactType left.kind.typeName right.kind.typeName =
        exactType right.kind.typeName left.kind.typeName := by
      rw [exactType_eq_later hl hr hf, exactType_eq_later hr hl fun h => hf h.symm, later_comm]
    unfold exactType at ht
    simp only [rationalBinary, UntypedNumber.value, hfs, hs, Content.rational,
      bind_eq_bind, bind_some, ht, rationalOperation_comm hc second first]
    rfl

end Operands

/-- The laws of constant arithmetic. Integer constants of any two types obey the division law
exactly when both types are builtin or the division has no remainder. Two untyped numbers have
the later kind as the kind of their result, and may be exchanged, exactly when the decimal
routines do not apply, or refuse the operands, or do not meet different kinds in the wrong
order. -/
theorem constant_arithmetic_iff (a b : Int) (hb : b ≠ 0) (leftType rightType : String)
    (leftUntyped rightUntyped : Bool) (operator : Operator) (left right : UntypedNumber) :
    (DivisionLaw a b (integerValue a leftType leftUntyped) (integerValue b rightType rightUntyped) ↔
      integerType leftType = true ∧ integerType rightType = true ∨ b ∣ a) ∧
    (isNumeric operator = true → (KindLaw operator left right ↔
      (usesIntegers operator left right = true → isRefused operator left right = true ∨
        right.kind.rank ≤ left.kind.rank))) ∧
    (isCommutative operator = true →
      (binary operator left.value right.value = binary operator right.value left.value ↔
        (usesIntegers operator left right = true → isRefused operator left right = true ∨
          left.kind = right.kind))) := by
  refine ⟨divisionLaw_iff hb, fun hn => ?_, fun hc => ?_⟩
  · rw [kindLaw_iff hn]
    exact forall_congr' fun hu => by rw [binary_eq_none_iff hn hu]
  · rw [exchange_iff hc]
    exact forall_congr' fun hu => by rw [binary_eq_none_iff (isNumeric_of_isCommutative hc) hu]

/-- `7 / 2` for builtin integers, and the sum of a rune and an integer. -/
theorem constant_arithmetic_seven :
    DivisionLaw 7 2 (integerValue 7 "Int8" false) (integerValue 2 "Int8" false) ∧
      KindLaw .add (.rune 97) (.int 1) :=
  have laws := constant_arithmetic_iff 7 2 (by decide) "Int8" "Int8" false false .add (.rune 97)
    (.int 1)
  ⟨laws.1.mpr (.inl ⟨rfl, rfl⟩), (laws.2.1 rfl).mpr fun _ => .inr (by decide)⟩

/-- With a declared type, `(7 / 2) * 2 + 7 % 2` is `8`; and `1 + 'a'` is an integer whereas
`'a' + 1` is a rune. -/
theorem constant_arithmetic_declared :
    ¬ DivisionLaw 7 2 (integerValue 7 "main.T" false) (integerValue 2 "main.T" false) ∧ (do
        let quotient ← binary .divide (integerValue 7 "main.T" false)
          (integerValue 2 "main.T" false)
        let product ← binary .multiply quotient (integerValue 2 "main.T" false)
        let rest ← binary .remainder (integerValue 7 "main.T" false) (integerValue 2 "main.T" false)
        binary .add product rest) = some (integerValue 8 "main.T" false) ∧
      ¬ KindLaw .add (.int 1) (.rune 97) ∧
      binary .add (UntypedNumber.int 1).value (UntypedNumber.rune 97).value ≠
        binary .add (UntypedNumber.rune 97).value (UntypedNumber.int 1).value := by
  refine ⟨fun h => ?_, by decide +kernel, fun h => ?_, by decide +kernel⟩
  · exact absurd ((divisionLaw_iff (by decide)).mp h) (by decide +kernel)
  · exact absurd ((kindLaw_iff rfl).mp h) (by decide +kernel)

end Untyped

end MiniGo.Constant
