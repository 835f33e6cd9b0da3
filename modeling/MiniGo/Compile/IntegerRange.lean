/-
Ranging over an integer (`lowerIntegerRange` of `compiler/lower/control_range.go`).

The loop is lowered to jumps between four fresh labels. The limit and the index are
kept in synthetic locals of type `Int`, so the body cannot touch them; everything else
that the body sees is the world. What the body does is a parameter, and so is the
expression that is ranged over.
-/
import MiniGo.Types

namespace MiniGo.Compile.IntegerRange

open Function Int BitVec

/-- An integer type, by the primitive type under it. -/
structure IntegerType where
  primitive : PrimitiveKind
  declared : Bool
  integer : isInteger (primitiveScalarKind primitive) = true

/-- The values of the type. -/
def IntegerType.Contains (type : IntegerType) (n : Int) : Prop :=
  match primitiveScalarKind type.primitive with
  | .signed => -2 ^ (primitiveBits type.primitive - 1) ≤ n ∧
      n < 2 ^ (primitiveBits type.primitive - 1)
  | _ => 0 ≤ n ∧ n < 2 ^ primitiveBits type.primitive

/-- How an assignment or a body ends. A body that leaves returns, panics, jumps to a
label outside the loop or does not come back. -/
inductive Exit where
  | next | «continue» | «break» | leave
deriving DecidableEq

/-- What the source of the loop provides. -/
structure Loop (World : Type) where
  type : IntegerType
  /-- The expression that is ranged over. -/
  object : World → {n : Int // type.Contains n} × World
  /-- The stores of `lowerRangeTargets`, if there is an iteration variable; they may panic. -/
  targets : Option (Int → World → Option World)
  body : World → Exit × World

inductive Label where
  | cond | body | post | finish
deriving DecidableEq

/-- The lowered statements; the two locals of type `Int` are named by what they hold. -/
inductive Statement where
  | storeLimit (convert : Bool)
  | storeZero
  | storeNext
  | label (name : Label)
  | jumpIfLess (name : Label)
  | jump (name : Label)
  | storeTargets
  | runBody
deriving DecidableEq

section
variable {World : Type} (loop : Loop World)

def lowerIntegerRange : List Statement :=
  [.storeLimit (loop.type.declared || loop.type.primitive != .int), .storeZero,
    .label .cond, .jumpIfLess .body, .jump .finish, .label .body] ++
  (if loop.targets.isSome then [.storeTargets] else []) ++
  [.runBody, .label .post, .storeNext, .jump .cond, .label .finish]

/-- The machine at a statement, with what has happened so far. -/
structure State (World : Type) where
  /-- `none` once the loop has ended or has been left. -/
  pc : Option Nat := some 0
  limit : BitVec 64 := 0
  index : BitVec 64 := 0
  world : World
  evaluations : Nat := 0
  /-- The values that the body was started for. -/
  starts : List Int := []
  completed : Nat := 0
  /-- How the loop was left early. -/
  exit : Option Exit := none

def address (name : Label) : Option Nat :=
  (lowerIntegerRange loop).findIdx? (· = .label name)

/-- The conversion to `Int` is that of `numericAsInt64`: the bits stay. -/
def exec (statement : Statement) (pc : Nat) (state : State World) : State World :=
  match statement with
  | .storeLimit convert =>
    let (n, world) := loop.object state.world
    let bits := if convert then BitVec.ofInt 64 (Int.bmod n (2 ^ 64)) else BitVec.ofInt 64 n
    { state with pc := some (pc + 1), limit := bits, world, evaluations := state.evaluations + 1 }
  | .storeZero => { state with pc := some (pc + 1), index := 0 }
  | .storeNext => { state with pc := some (pc + 1), index := state.index + 1 }
  | .label _ => { state with pc := some (pc + 1) }
  | .jumpIfLess name =>
    { state with pc := if state.index.slt state.limit then address loop name else some (pc + 1) }
  | .jump name => { state with pc := address loop name }
  | .storeTargets =>
    match loop.targets.bind (· state.index.toInt state.world) with
    | some world => { state with pc := some (pc + 1), world }
    | none => { state with pc := none, exit := some .leave }
  | .runBody =>
    let (exit, world) := loop.body state.world
    let state := { state with world, starts := state.starts ++ [state.index.toInt] }
    match exit with
    | .next => { state with pc := some (pc + 1), completed := state.completed + 1 }
    | .continue => { state with pc := address loop .post, completed := state.completed + 1 }
    | .break => { state with pc := address loop .finish, exit := some .break }
    | .leave => { state with pc := none, exit := some .leave }

def step (state : State World) : State World :=
  match state.pc with
  | none => state
  | some pc =>
    match (lowerIntegerRange loop)[pc]? with
    | none => { state with pc := none }
    | some statement => exec loop statement pc state

/-- The loop comes to rest in the state. -/
def Rests (world : World) (final : State World) : Prop :=
  ∃ steps, (step loop)^[steps] { world } = final ∧ final.pc = none

/-- What ranging over `n` means: the range expression is evaluated once, the body is
started for `0, 1, …` in order, never for more than `n`, and for all of them unless the
loop is left. -/
structure Counts (n : Int) (final : State World) : Prop where
  once : final.evaluations = 1
  order : final.starts = (List.range final.starts.length).map Int.ofNat
  bounded : final.completed ≤ final.starts.length ∧ final.starts.length ≤ n.toNat
  whole : final.exit = none → final.starts.length = n.toNat ∧ final.completed = n.toNat

end

/-! ### Laps -/

section
variable {World : Type} {loop : Loop World}

/-- Where the body stands. -/
def entry (loop : Loop World) : Nat := if loop.targets.isSome then 7 else 6

theorem address_cond : address loop .cond = some 2 := rfl

theorem address_body : address loop .body = some 5 := rfl

theorem code_body (loop : Loop World) : (lowerIntegerRange loop)[entry loop]? = some .runBody ∧
    (lowerIntegerRange loop)[entry loop + 1]? = some (.label .post) ∧
    (lowerIntegerRange loop)[entry loop + 2]? = some .storeNext ∧
    (lowerIntegerRange loop)[entry loop + 3]? = some (.jump .cond) ∧
    (lowerIntegerRange loop)[entry loop + 4]? = some (.label .finish) ∧
    (lowerIntegerRange loop)[entry loop + 5]? = none ∧ address loop .post = some (entry loop + 1) ∧
    address loop .finish = some (entry loop + 4) := by
  unfold address entry lowerIntegerRange
  cases loop.targets <;> exact ⟨rfl, rfl, rfl, rfl, rfl, rfl, rfl, rfl⟩

theorem code_cond : (lowerIntegerRange loop)[2]? = some (.label .cond) ∧
    (lowerIntegerRange loop)[3]? = some (.jumpIfLess .body) ∧ (lowerIntegerRange loop)[4]? = some
    (.jump .finish) ∧ (lowerIntegerRange loop)[5]? = some (.label .body) := ⟨rfl, rfl, rfl, rfl⟩

theorem step_at {pc : Nat} {stmt : Statement} {state : State World}
    (hpc : state.pc = some pc) (hc : (lowerIntegerRange loop)[pc]? = some stmt) :
    step loop state = exec loop stmt pc state := by
  simp [step, hpc, hc]

/-- The machine in the lap of that number, all earlier ones being complete. -/
def inLap (pc : Nat) (limit : BitVec 64) (lap : Nat) (world : World) : State World where
  pc := some pc
  limit := limit
  index := BitVec.ofNat 64 lap
  world := world
  evaluations := 1
  starts := (List.range lap).map Int.ofNat
  completed := lap

/-- Both ways to store the limit keep its bits. -/
theorem start_inLap (world : World) : (step loop)^[2] { world } =
    inLap 2 (BitVec.ofInt 64 (loop.object world).1) 0 (loop.object world).2 := by
  have hs : step loop { world } = exec loop (.storeLimit _) 0 { world } := rfl
  rcases hobject : loop.object world with ⟨n, after⟩
  have hsa : BitVec.ofInt 64 (bmod n (2 ^ 64)) = BitVec.ofInt 64 n := by
    apply eq_of_toInt_eq
    simp
  simp only [exec, hobject, hsa, ite_self] at hs
  rw [iterate_succ_apply, hs]
  rfl

variable {limit : BitVec 64} {lap : Nat}

/-- A lap whose index has reached the limit ends the loop. -/
theorem lap_last {world : World}
    (hl : (BitVec.ofNat 64 lap).slt limit = false) :
    (step loop)^[5] (inLap 2 limit lap world) = { inLap 2 limit lap world with pc := none } := by
  obtain ⟨-, -, -, -, hf, ho, -, ha⟩ := code_body loop
  simp [step, inLap, code_cond, exec, hl, ha, hf, ho]

/-- The loop was left in the lap. -/
structure Left (lap : Nat) (final : State World) : Prop where
  pc : final.pc = none
  evaluations : final.evaluations = 1
  exit : final.exit ≠ none
  completed : final.completed = lap
  starts : ∃ started, lap ≤ started ∧ started ≤ lap + 1 ∧
    final.starts = (List.range started).map Int.ofNat

/-- The body is run: the lap is complete, or the loop is left in it. -/
theorem lap_body (loop : Loop World) (limit : BitVec 64) (world : World)
    (hl : lap < 2 ^ 63) :
    ∃ steps, (∃ after, (step loop)^[steps] (inLap (entry loop) limit lap world) =
        inLap 2 limit (lap + 1) after) ∨
      Left lap ((step loop)^[steps] (inLap (entry loop) limit lap world)) := by
  have hi : (BitVec.ofNat 64 lap).toInt = lap := by
    rw [toInt_ofNat']
    exact bmod_eq_of_le (by omega) (by omega)
  have hsu : BitVec.ofNat 64 lap + 1#64 = BitVec.ofNat 64 (lap + 1) :=
    (ofNat_add ..).symm
  have hs : (List.range lap).map ofNat ++ [(lap : Int)] =
      (List.range (lap + 1)).map ofNat := by simp [List.range_succ]
  obtain ⟨hb, hpo, hnext, hj, hfi, ho, hp, hf⟩ := code_body loop
  rcases hr : loop.body world with ⟨exit, after⟩
  cases exit with
  | next | «continue» =>
    refine ⟨4, .inl ⟨after, ?_⟩⟩
    simp [step, inLap, exec, hb, hr, hp, hpo, hnext, hj, address_cond, hi, hs, ← hsu]
  | «break» =>
    refine ⟨3, .inr ?_⟩
    constructor <;>
      simp [step, inLap, exec, hb, hr, hf, hfi, ho, hi, hs]
    exact ⟨_, Nat.le_succ _, le_rfl, rfl⟩
  | leave =>
    refine ⟨1, .inr ?_⟩
    constructor <;> simp [step, inLap, exec, hb, hr, hi, hs]
    exact ⟨_, Nat.le_succ _, le_rfl, rfl⟩

theorem lap_next (loop : Loop World) (world : World)
    (hl : lap < 2 ^ 63) (hle : (BitVec.ofNat 64 lap).slt limit = true) :
    ∃ steps, (∃ after, (step loop)^[steps] (inLap 2 limit lap world) =
        inLap 2 limit (lap + 1) after) ∨
      Left lap ((step loop)^[steps] (inLap 2 limit lap world)) := by
  have he : (step loop)^[3] (inLap 2 limit lap world) = inLap 6 limit lap world := by
    simp [step, inLap, code_cond, exec, hle, address_body]
  cases ht : loop.targets with
  | none =>
    obtain ⟨steps, hr⟩ := lap_body loop limit world hl
    rw [entry, ht] at hr
    refine ⟨steps + 3, ?_⟩
    rw [iterate_add_apply, he]
    exact hr
  | some assign =>
    have hc : (lowerIntegerRange loop)[6]? = some .storeTargets := by
      simp [lowerIntegerRange, ht]
    have hs : step loop (inLap 6 limit lap world) =
        exec loop .storeTargets 6 (inLap 6 limit lap world) := step_at rfl hc
    rw [exec, ht, Option.bind_some] at hs
    cases ha : assign (inLap 6 limit lap world).index.toInt world with
    | none =>
      refine ⟨4, .inr ?_⟩
      rw [iterate_succ_apply', he, hs]
      simp only [inLap] at ha ⊢
      rw [ha]
      exact ⟨rfl, rfl, nofun, rfl, _, le_rfl, Nat.le_succ _, rfl⟩
    | some stored =>
      obtain ⟨steps, hr⟩ := lap_body loop limit stored hl
      rw [entry, ht] at hr
      refine ⟨steps + 4, ?_⟩
      rw [iterate_add_apply, iterate_succ_apply', he, hs]
      simp only [inLap] at ha hr ⊢
      rw [ha]
      exact hr

/-- A loop that is left has counted so far. -/
theorem Left.counts {n : Int} {final : State World} (hl : Left lap final)
    (hla : lap < n.toNat) : Counts n final := by
  obtain ⟨started, hle, hsu, hs⟩ := hl.starts
  have hlength : final.starts.length = started := by simp [hs]
  refine ⟨hl.evaluations, by rw [hlength, hs], ?_, fun h => absurd h hl.exit⟩
  have hc := hl.completed
  omega

/-- From any lap on the loop comes to rest and has counted. The induction is on the
number of laps that are left. -/
theorem laps {n : Int} (hn : n < 2 ^ 63) (hli : ∀ lap : Nat, lap < 2 ^ 63 →
      (BitVec.ofNat 64 lap).slt limit = decide ((lap : Int) < n)) (left : Nat) :
    ∀ {lap : Nat} {world : World}, lap + left = n.toNat →
    ∃ steps, ((step loop)^[steps] (inLap 2 limit lap world)).pc = none ∧
      Counts n ((step loop)^[steps] (inLap 2 limit lap world)) := by
  induction left with
  | zero =>
    intro lap world hla
    have hl := hli lap (by omega)
    rw [decide_eq_false (by omega)] at hl
    refine ⟨5, ?_⟩
    rw [lap_last hl]
    have hlength : ((List.range lap).map ofNat).length = lap := by simp
    exact ⟨rfl, rfl, by rw [inLap, hlength], ⟨hlength.ge, hlength.trans hla |>.le⟩,
      fun _ => ⟨hlength.trans hla, hla⟩⟩
  | succ left ih =>
    intro lap world hla
    have hl := hli lap (by omega)
    rw [decide_eq_true (by omega)] at hl
    obtain ⟨steps, ⟨after, hnext⟩ | hle⟩ := lap_next loop world (by omega) hl
    · obtain ⟨more, hrest⟩ := @ih (lap + 1) after (by omega)
      refine ⟨more + steps, ?_⟩
      rw [iterate_add_apply, hnext]
      exact hrest
    · exact ⟨steps, hle.pc, hle.counts (by omega)⟩

/-- A machine at rest stays there. -/
theorem Rests.unique {world : World} {first second : State World}
    (hf : Rests loop world first) (hs : Rests loop world second) : first = second := by
  obtain ⟨m, rfl, hm⟩ := hf
  obtain ⟨n, rfl, hn⟩ := hs
  have hst : ∀ {state : State World} (k : Nat), state.pc = none →
      (step loop)^[k] state = state := by
    intro state k hrest
    exact iterate_fixed (by simp [step, hrest]) k
  rcases Nat.le_total m n with hle | hle
  · obtain ⟨k, rfl⟩ := Nat.exists_eq_add_of_le' hle
    rw [iterate_add_apply, hst k hm]
  · obtain ⟨k, rfl⟩ := Nat.exists_eq_add_of_le' hle
    rw [iterate_add_apply, hst k hn]

theorem IntegerType.bounds {type : IntegerType} {n : Int} (hn : type.Contains n) :
    -2 ^ 63 ≤ n ∧ n < 2 ^ 64 := by
  obtain ⟨primitive, declared, integer⟩ := type
  cases primitive <;>
    simp [Contains, primitiveScalarKind, primitiveBits, isInteger] at hn integer <;> omega

/-- A limit beyond the largest `Int` turns negative, and the body is never started. -/
theorem not_counts_of_le {world : World} (hn : 2 ^ 63 ≤ ((loop.object world).1 : Int)) :
    ¬ ∃ final, Rests loop world final ∧ Counts (loop.object world).1 final := by
  rintro ⟨final, hr, hc⟩
  have hb := IntegerType.bounds (loop.object world).1.2
  have hl : (BitVec.ofNat 64 0).slt (BitVec.ofInt 64 (loop.object world).1) = false := by
    rw [slt_eq_decide, toInt_ofInt]
    have hw : bmod (loop.object world).1 (2 ^ 64) = (loop.object world).1 - 2 ^ 64 := by
      rw [← sub_bmod_right]
      exact bmod_eq_of_le (by omega) (by omega)
    rw [hw]
    simp
    omega
  have hidle : Rests loop world _ := ⟨5 + 2, by
    rw [iterate_add_apply, start_inLap, lap_last hl], rfl⟩
  obtain rfl := hr.unique hidle
  have hwh : 0 = ((loop.object world).1 : Int).toNat := (hc.whole rfl).2
  omega

end

theorem uint64_contains : IntegerType.Contains ⟨.uint64, false, rfl⟩ (2 ^ 63) :=
  ⟨by decide, by decide⟩

/-- `for range uint64(1 << 63)` with an empty body. -/
def wide : Loop Unit where
  type := ⟨.uint64, false, rfl⟩
  object := fun world => (⟨2 ^ 63, uint64_contains⟩, world)
  targets := none
  body := fun world => (.next, world)

end MiniGo.Compile.IntegerRange
