/-
The stack of frames between two steps.

Each frame is linked to the one below it. A frame is a deferred call if and only if the
one below is completing, and a deferred call that has recovered a panic has recovered the
one that the frame below it completes with. Everything here holds in every run.
-/
import MiniGo.Runtime.FrameChanges

namespace MiniGo.Runtime.Frames

open ExecutionFrame Frames.Task List

variable {V : Type}

/-- The part of a frame that links it to its neighbours. -/
structure Core (V : Type) where
  id : ActivationId
  deferred : Bool
  recoveredPanic : Option (MachinePanic V)
  panic : Option (MachinePanic V)
  active : Bool
  resume : Bool

def ExecutionFrame.core (frame : ExecutionFrame V) : Core V where
  id := frame.id
  deferred := frame.deferred
  recoveredPanic := frame.recoveredPanic
  panic := frame.completion.panic
  active := frame.completionActive
  resume := frame.completion.resume

/-- Every frame of a stack is in a relation to the one below it. -/
def Stacked (link : Core V → Option (Core V) → Prop) : List (Core V) → Prop
  | [] => True
  | frame :: below => link frame below.head? ∧ Stacked link below

variable {link : Core V → Option (Core V) → Prop} {stack : List (Core V)}

theorem Stacked.mono {other : Core V → Option (Core V) → Prop} (hst : Stacked link stack)
    (hl : ∀ frame ∈ stack, ∀ below, (∀ owner, below = some owner → owner ∈ stack.tail) →
      link frame below → other frame below) :
    Stacked other stack := by
  induction stack with
  | nil => trivial
  | cons frame below ih =>
    refine ⟨hl frame mem_cons_self _ ?_ hst.1, ih hst.2 ?_⟩
    · intro owner how
      exact mem_of_mem_head? how
    · intro other ho owner how
      refine hl other (mem_cons_of_mem frame ho) owner ?_
      intro found hf
      exact mem_of_mem_tail (how found hf)

theorem Stacked.of_mem (hst : Stacked link stack) : ∀ frame ∈ stack, ∃ below, link frame below := by
  induction stack with
  | nil => simp
  | cons top below ih =>
    intro frame hf
    rcases mem_cons.mp hf with rfl | hf
    · exact ⟨_, hst.1⟩
    · exact ih hst.2 frame hf

theorem Stacked.drop {upper lower : List (Core V)}
    (hst : Stacked link (upper ++ lower)) : Stacked link lower := by
  induction upper with
  | nil => exact hst
  | cons frame upper ih => exact ih hst.2

namespace Task

def cores (task : Task V) : List (Core V) :=
  task.frames.map ExecutionFrame.core

def originOf (task : Task V) (activation : ActivationId) : Option (Origin V) :=
  (task.activations[activation]?).map Activation.origin

/-- The panics whose value a call of `recover` has returned. -/
def recoveredPanics (task : Task V) : List Nat :=
  task.log.filterMap fun
    | .recovered _ panic => some panic.id
    | _ => none

end Task

/-- The panic that the frame below completes with. -/
def ownerPanic (below : Option (Core V)) : Option (MachinePanic V) :=
  below.bind Core.panic

/-- The link of a frame to the one below it. -/
structure Linked (task : Task V) (frame : Core V) (below : Option (Core V)) : Prop where
  known : frame.id < task.activations.length
  owner : frame.deferred = below.any Core.active
  recovered : ∀ {panic}, frame.recoveredPanic = some panic →
    frame.deferred = true ∧ ownerPanic below = some panic ∧ panic.id ∈ task.recoveredPanics
  consumed : ∀ {panic}, ownerPanic below = some panic → panic.id ∈ task.recoveredPanics →
    frame.recoveredPanic = some panic
  deferredOrigin : ∀ {activation cause},
    task.originOf frame.id = some (.deferred activation cause) →
    frame.deferred = true ∧ cause = ownerPanic below
  calledOrigin : ∀ {caller}, task.originOf frame.id = some (.called caller) →
    (some caller = below.map Core.id ∧ frame.deferred = false) ∨
    ∀ {activation cause}, task.originOf caller = some (.deferred activation cause) →
      frame.deferred = true ∧ cause = ownerPanic below
  running : frame.active = false → frame.panic = none
  noResume : frame.resume = false

attribute [local simp] ExecutionFrame.core

/-- The panics that the frames of a stack complete with. -/
def panicIds (stack : List (Core V)) : List Nat :=
  stack.filterMap fun frame => frame.panic.map MachinePanic.id

variable {frame : Core V} {below : Option (Core V)} {task : Task V}

theorem panicIds_cons_none (stack : List (Core V)) (hp : frame.panic = none) :
    panicIds (frame :: stack) = panicIds stack := by
  simp [panicIds, hp]

theorem panicIds_cons_some (stack : List (Core V)) {panic : MachinePanic V}
    (hp : frame.panic = some panic) : panicIds (frame :: stack) = panic.id :: panicIds stack := by
  simp [panicIds, hp]

theorem panicIds_sublist (upper lower : List (Core V)) :
    (panicIds lower).Sublist (panicIds (upper ++ lower)) :=
  (sublist_append_right upper lower).filterMap _

/-- The invariant of the stack. -/
structure WellStacked (task : Task V) : Prop where
  linked : Stacked (Linked task) task.cores
  callers : ∀ {activation caller}, task.originOf activation = some (.called caller) →
    caller < task.activations.length
  top : ∀ {frame panic}, task.cores.head? = some frame → frame.panic = some panic →
    panic.id ∉ task.recoveredPanics
  distinct : (panicIds task.cores).Nodup
  panicsKnown : ∀ panic ∈ panicIds task.cores, panic < task.nextPanic
  recoveredKnown : ∀ panic ∈ task.recoveredPanics, panic < task.nextPanic
  recoveredOnce : task.recoveredPanics.Nodup

theorem WellStacked.completing (hs : WellStacked task) : Completing task where
  owner := by
    intro current owner rest hfr
    have hl := hs.linked
    simp only [cores, hfr, map_cons] at hl
    simpa using hl.1.owner
  noResume := by
    intro frame hf
    obtain ⟨below, hl⟩ := hs.linked.of_mem _ (mem_map_of_mem hf)
    exact hl.noResume

/-- A link survives as long as the activations and the recovered panics it speaks of
stay the same. -/
theorem Linked.transfer {next : Task V} (hl : Linked task frame below)
    (hcal : ∀ {activation caller}, task.originOf activation = some (.called caller) →
      caller < task.activations.length)
    (hlen : task.activations.length ≤ next.activations.length)
    (hor : ∀ activation < task.activations.length,
      next.originOf activation = task.originOf activation)
    (hr : ∀ {panic}, panic ∈ task.recoveredPanics → panic ∈ next.recoveredPanics)
    (ho : ∀ {panic}, ownerPanic below = some panic → panic.id ∈ next.recoveredPanics →
      panic.id ∈ task.recoveredPanics) :
    Linked next frame below where
  known := Nat.lt_of_lt_of_le hl.known hlen
  owner := hl.owner
  recovered := by
    intro panic hp
    obtain ⟨hd, hb, hmem⟩ := hl.recovered hp
    exact ⟨hd, hb, hr hmem⟩
  consumed := fun hb hmem => hl.consumed hb (ho hb hmem)
  deferredOrigin := by
    intro activation cause hca
    rw [hor _ hl.known] at hca
    exact hl.deferredOrigin hca
  calledOrigin := by
    intro caller hc
    rw [hor _ hl.known] at hc
    refine (hl.calledOrigin hc).imp id fun hd => ?_
    intro activation cause hca
    rw [hor _ (hcal hc)] at hca
    exact hd hca
  running := hl.running
  noResume := hl.noResume

/-- How a frame completes is no part of its link. -/
theorem Linked.settle {other : Core V} (hl : Linked task frame below) (hid : other.id = frame.id)
    (hd : other.deferred = frame.deferred) (hre : other.recoveredPanic = frame.recoveredPanic)
    (hru : other.active = false → other.panic = none) (hr : other.resume = false) :
    Linked task other below := by
  obtain ⟨id, deferred, recoveredPanic, panic, active, resume⟩ := frame
  obtain ⟨_, _, _, panic', active', resume'⟩ := other
  subst hid hd hre
  exact { hl with running := hru, noResume := hr }

section Bookkeeping

variable {task : Task V} {frames : List (ExecutionFrame V)} {frame : ExecutionFrame V}
  {origin : Origin V} {events : List (Event V)}

variable {activation : ActivationId}

theorem originOf_enter_old (hold : activation < task.activations.length) :
    (task.enter frames frame origin events).originOf activation = task.originOf activation := by
  simp [originOf, enter, getElem?_append_left hold]

theorem originOf_enter_new :
    (task.enter frames frame origin events).originOf task.activations.length = some origin := by
  simp [originOf, enter]

theorem originOf_lt (ho : task.originOf activation = some origin) :
    activation < task.activations.length := by
  obtain ⟨entry, he, -⟩ := Option.map_eq_some_iff.mp ho
  exact (List.getElem?_eq_some_iff.mp he).1

/-- Only a call of `recover` recovers a panic. -/
theorem recoveredPanics_append {next : Task V} (hl : next.log = task.log ++ events)
    (hev : ∀ event ∈ events, ∀ activation panic, event ≠ .recovered activation panic) :
    next.recoveredPanics = task.recoveredPanics := by
  unfold recoveredPanics
  rw [hl, filterMap_append]
  have hnone : events.filterMap (fun
      | .recovered _ panic => some panic.id
      | _ => none) = [] := by
    refine filterMap_eq_nil_iff.mpr fun event he => ?_
    cases event with
    | recovered activation panic => exact absurd rfl (hev _ he activation panic)
    | _ => rfl
  rw [hnone, append_nil]

/-- Writing to a frame what its links do not read. -/
theorem cores_set {depth : Nat} {other : ExecutionFrame V} (hf : task.frames[depth]? = some frame)
    (hc : other.core = frame.core) : (task.frames.set depth other).map core = task.cores := by
  rw [List.map_set, hc]
  obtain ⟨hd, rfl⟩ := List.getElem?_eq_some_iff.mp hf
  unfold cores
  rw [← List.getElem_map core (h := by simpa using hd), List.set_getElem_self]

end Bookkeeping

namespace WellStacked

variable {task next : Task V}

section

variable (hs : WellStacked task)
include hs

theorem callers_of_eq (ha : next.activations = task.activations) {activation caller : ActivationId}
    (hc : next.originOf activation = some (.called caller)) : caller < next.activations.length := by
  rw [originOf, ha] at hc
  exact ha ▸ hs.callers hc

theorem linked_of_eq {core : Core V} (ha : next.activations = task.activations)
    (hr : next.recoveredPanics = task.recoveredPanics) (hl : Linked task core below) :
    Linked next core below := by
  refine hl.transfer hs.callers (Nat.le_of_eq (by rw [ha])) ?_ ?_ ?_
  · simp [originOf, ha]
  · simp [hr]
  · simp [hr]

/-- The frames are the same, as far as their links go. -/
theorem sameCores (hcs : next.cores = task.cores) (ha : next.activations = task.activations)
    (hr : next.recoveredPanics = task.recoveredPanics)
    (hp : next.nextPanic = task.nextPanic) : WellStacked next where
  linked := by
    rw [hcs]
    exact hs.linked.mono fun _ _ _ _ => hs.linked_of_eq ha hr
  callers := hs.callers_of_eq ha
  top := by
    rw [hcs, hr]
    exact hs.top
  distinct := by simpa [hcs] using hs.distinct
  panicsKnown := by simpa [hcs, hp] using hs.panicsKnown
  recoveredKnown := by simpa [hr, hp] using hs.recoveredKnown
  recoveredOnce := by simpa [hr] using hs.recoveredOnce

/-- The frames above one are gone, and that one completes in another way. -/
theorem settle (upper : List (ExecutionFrame V)) {rest : List (ExecutionFrame V)}
    {frame settled : ExecutionFrame V} (hfr : task.frames = upper ++ frame :: rest)
    (hnext : next.frames = settled :: rest) (ha : next.activations = task.activations)
    (hre : next.recoveredPanics = task.recoveredPanics)
    (hpa : task.nextPanic ≤ next.nextPanic) (hid : settled.id = frame.id)
    (hd : settled.deferred = frame.deferred)
    (hsa : settled.recoveredPanic = frame.recoveredPanic)
    (hru : settled.completionActive = false → settled.completion.panic = none)
    (hres : settled.completion.resume = false)
    (hp : ∀ panic, settled.completion.panic = some panic →
      panic.id ∉ task.recoveredPanics ∧ panic.id < next.nextPanic ∧
        panic.id ∉ panicIds (rest.map core)) :
    WellStacked next := by
  have hcs : task.cores = upper.map core ++ frame.core :: rest.map core := by simp [cores, hfr]
  have hl : Stacked (Linked task) (frame.core :: rest.map core) := (hcs ▸ hs.linked).drop
  have ht : ∀ {core below}, Linked task core below → Linked next core below :=
    hs.linked_of_eq ha hre
  have hr : (panicIds (rest.map core)).Sublist (panicIds task.cores) := by
    rw [hcs, append_cons]
    exact panicIds_sublist _ _
  refine ⟨?_, ?_, ?_, ?_, ?_, ?_, ?_⟩
  · rw [cores, hnext, map_cons]
    refine ⟨?_, hl.2.mono fun core _ below _ => ht⟩
    exact (ht hl.1).settle hid hd hsa hru hres
  · exact hs.callers_of_eq ha
  · intro core panic hc hf
    rw [cores, hnext] at hc
    cases hc
    rw [hre]
    exact (hp panic hf).1
  · rw [cores, hnext, map_cons]
    have hnd := hs.distinct.sublist hr
    cases hse : settled.core.panic with
    | none => rwa [panicIds_cons_none _ hse]
    | some panic =>
      rw [panicIds_cons_some _ hse]
      exact nodup_cons.mpr ⟨(hp panic hse).2.2, hnd⟩
  · intro panic hmem
    rw [cores, hnext, map_cons] at hmem
    have hkn : panic ∈ panicIds (rest.map core) → panic < next.nextPanic :=
      fun hmem => Nat.lt_of_lt_of_le (hs.panicsKnown panic (hr.subset hmem)) hpa
    cases hse : settled.core.panic with
    | none =>
      rw [panicIds_cons_none _ hse] at hmem
      exact hkn hmem
    | some current =>
      rw [panicIds_cons_some _ hse] at hmem
      rcases mem_cons.mp hmem with rfl | hmem
      · exact (hp current hse).2.1
      · exact hkn hmem
  · intro panic hmem
    rw [hre] at hmem
    exact Nat.lt_of_lt_of_le (hs.recoveredKnown panic hmem) hpa
  · rw [hre]
    exact hs.recoveredOnce

/-- All frames are gone. -/
theorem empty (hnext : next.frames = []) (ha : next.activations = task.activations)
    (hr : next.recoveredPanics = task.recoveredPanics)
    (hp : next.nextPanic = task.nextPanic) : WellStacked next where
  linked := by
    rw [cores, hnext]
    trivial
  callers := hs.callers_of_eq ha
  top := by simp [cores, hnext]
  distinct := by simp [cores, hnext, panicIds]
  panicsKnown := by simp [cores, hnext, panicIds]
  recoveredKnown := by simpa [hr, hp] using hs.recoveredKnown
  recoveredOnce := by simpa [hr] using hs.recoveredOnce

variable {below : List (ExecutionFrame V)} {cur : ExecutionFrame V}

variable {fn : ExecutionFrame V} {panic : MachinePanic V}

/-- A new frame is put above a part of the stack. -/
theorem push (upper : List (ExecutionFrame V)) {origin : Origin V} {events : List (Event V)}
    (hcs : task.cores = upper.map core ++ below.map core)
    (he : ∀ event ∈ events, ∀ activation panic, event ≠ .recovered activation panic)
    (hfr : fn.Fresh task)
    (hc : ∀ caller, origin = .called caller → caller < task.activations.length)
    (hln : Linked (task.enter (fn :: below) fn origin events) fn.core (below.map core).head?) :
    WellStacked (task.enter (fn :: below) fn origin events) := by
  have hr : (task.enter (fn :: below) fn origin events).recoveredPanics =
      task.recoveredPanics := recoveredPanics_append rfl he
  have hp : fn.core.panic = none := by simp [hfr.completion_eq]
  have hb : (panicIds (below.map core)).Sublist (panicIds task.cores) := by
    rw [hcs]
    exact panicIds_sublist _ _
  refine ⟨⟨hln, ?_⟩, ?_, ?_, ?_, ?_, ?_, ?_⟩
  · have hl : Stacked (Linked task) (below.map core) :=
      (hcs ▸ hs.linked).drop
    refine hl.mono fun core _ below _ hold => ?_
    refine hold.transfer hs.callers ?_ (fun _ hold => originOf_enter_old hold) ?_ ?_
    · simp [enter]
    · simp [hr]
    · simp [hr]
  · intro activation caller ho
    have hlen : (task.enter (fn :: below) fn origin events).activations.length =
        task.activations.length + 1 := by simp [enter]
    have hkn := originOf_lt ho
    rw [hlen] at hkn ⊢
    rcases Nat.lt_succ_iff_lt_or_eq.mp hkn with hold | rfl
    · rw [originOf_enter_old hold] at ho
      exact Nat.lt_succ_of_lt (hs.callers ho)
    · rw [originOf_enter_new] at ho
      exact Nat.lt_succ_of_lt (hc caller (Option.some.inj ho))
  · intro core panic hco hf
    cases hco
    rw [hp] at hf
    cases hf
  · change (panicIds (fn.core :: below.map core)).Nodup
    rw [panicIds_cons_none _ hp]
    exact hs.distinct.sublist hb
  · intro panic hmem
    refine hs.panicsKnown panic (hb.subset ?_)
    rwa [← panicIds_cons_none _ hp]
  · rw [hr]
    exact hs.recoveredKnown
  · rw [hr]
    exact hs.recoveredOnce

theorem head (hf : task.frames = cur :: below) : Linked task cur.core (below.map core).head? ∧
      Stacked (Linked task) (below.map core) := by
  have hl := hs.linked
  rw [cores, hf] at hl
  exact hl

/-- The panic of the running frame has not been recovered, and no other frame has it. -/
theorem topPanic (hf : task.frames = cur :: below) (hp : cur.completion.panic = some panic) :
    panic.id ∉ task.recoveredPanics ∧ panic.id < task.nextPanic ∧
      panic.id ∉ panicIds (below.map core) := by
  have hi : panicIds task.cores = panic.id :: panicIds (below.map core) := by
    rw [cores, hf, map_cons]
    exact panicIds_cons_some _ hp
  have ht : task.cores.head? = some cur.core := by simp [cores, hf]
  refine ⟨hs.top ht hp, ?_, ?_⟩
  · exact hs.panicsKnown panic.id (by simp [hi])
  · exact (nodup_cons.mp (hi ▸ hs.distinct)).1

/-- The calls, the tail calls and the deferred calls. -/
theorem changeEnter (upper : List (ExecutionFrame V)) {origin : Origin V} {events : List (Event V)}
    (hcs : task.cores = upper.map core ++ below.map core)
    (he : ∀ event ∈ events, ∀ activation panic, event ≠ .recovered activation panic)
    (hfr : fn.Fresh task)
    (ho : fn.deferred = (below.map core).head?.any Core.active)
    (hre : ∀ panic, fn.recoveredPanic = some panic → fn.deferred = true ∧
      ownerPanic (below.map core).head? = some panic ∧ panic.id ∈ task.recoveredPanics)
    (hco : ∀ panic, ownerPanic (below.map core).head? = some panic →
      panic.id ∈ task.recoveredPanics → fn.recoveredPanic = some panic)
    (hd : ∀ activation cause, origin = .deferred activation cause →
      fn.deferred = true ∧ cause = ownerPanic (below.map core).head?)
    (hcl : ∀ caller, origin = .called caller → caller < task.activations.length ∧
      ((some caller = (below.map core).head?.map Core.id ∧ fn.deferred = false) ∨
      ∀ activation cause, task.originOf caller = some (.deferred activation cause) →
        fn.deferred = true ∧ cause = ownerPanic (below.map core).head?)) :
    WellStacked (task.enter (fn :: below) fn origin events) := by
  refine hs.push upper hcs he hfr (fun caller hor => (hcl caller hor).1) ?_
  have hr : (task.enter (fn :: below) fn origin events).recoveredPanics =
      task.recoveredPanics := recoveredPanics_append rfl he
  have hor : (task.enter (fn :: below) fn origin events).originOf fn.core.id =
      some origin := by
    rw [core, hfr.id_eq]
    exact originOf_enter_new
  constructor
  · simp [hfr.id_eq, enter]
  · exact ho
  · intro panic hp
    rw [hr]
    exact hre panic hp
  · intro panic hp hmem
    rw [hr] at hmem
    exact hco panic hp hmem
  · intro activation cause hca
    rw [hor] at hca
    exact hd activation cause (Option.some.inj hca)
  · intro caller hc
    rw [hor] at hc
    obtain ⟨hkn, hcas⟩ := hcl caller (Option.some.inj hc)
    refine hcas.imp id fun hcas => ?_
    intro activation cause hca
    rw [originOf_enter_old hkn] at hca
    exact hcas activation cause hca
  · simp [hfr.completion_eq]
  · simp [hfr.completion_eq]

/-- A call of `recover` that stops a panic. -/
theorem changeRecover {frame owner : ExecutionFrame V} {upper rest : List (ExecutionFrame V)}
    (hcu : task.frames.head? = some cur) (hru : cur.completionActive = false)
    (hfrs : task.frames = upper ++ frame :: owner :: rest)
    (hu : upper = [] ∨ (upper = [cur] ∧ cur.deferred = false)) (hd : frame.deferred = true)
    (hnone : frame.recoveredPanic = none) (hp : owner.completion.panic = some panic) :
    WellStacked (task.update (upper ++ { frame with recoveredPanic := some panic } :: owner :: rest)
      [.recovered cur.id panic]) := by
  have hcs : task.cores = upper.map core ++
      frame.core :: owner.core :: rest.map core := by simp [cores, hfrs]
  have hl : Stacked (Linked task) (frame.core :: owner.core :: rest.map core) :=
    (hcs ▸ hs.linked).drop
  have hidle : frame.completionActive = false := by
    rcases hu with rfl | ⟨rfl, hcl⟩
    · rw [hfrs] at hcu
      cases hcu
      exact hru
    · have hc := (hs.head hfrs).1.owner
      simpa [hcl] using hc.symm
  have hi : (panicIds (owner.core :: rest.map core)).Sublist (panicIds task.cores) := by
    rw [hcs, append_cons]
    exact panicIds_sublist _ _
  rw [panicIds_cons_some _ hp] at hi
  have hne : panic.id ∉ task.recoveredPanics := by
    intro hmem
    have hsam : frame.recoveredPanic = some panic := hl.1.consumed hp hmem
    rw [hnone] at hsam
    cases hsam
  generalize hnext : task.update
    (upper ++ { frame with recoveredPanic := some panic } :: owner :: rest)
    [.recovered cur.id panic] = next
  have hre : next.recoveredPanics = task.recoveredPanics ++ [panic.id] := by
    subst hnext
    simp [recoveredPanics, update]
  have ha : next.activations = task.activations := by
    subst hnext
    rfl
  have hpa : next.nextPanic = task.nextPanic := by
    subst hnext
    rfl
  have hn : next.cores = upper.map core ++
      { frame.core with recoveredPanic := some panic } :: owner.core ::
        rest.map core := by
    subst hnext
    simp [cores, update]
  -- the links away from the recovered panic
  have ht : ∀ {core below}, Linked task core below →
      (∀ other, ownerPanic below = some other → other.id ≠ panic.id) →
      Linked next core below := by
    intro core below hln ho
    refine hln.transfer hs.callers (Nat.le_of_eq (by rw [ha])) ?_ ?_ ?_
    · simp [originOf, ha]
    · intro found hmem
      rw [hre]
      exact mem_append_left _ hmem
    · intro found hf hmem
      rw [hre] at hmem
      rcases mem_append.mp hmem with hmem | hmem
      · exact hmem
      · exact absurd (mem_singleton.mp hmem) (ho found hf)
  have hfr : Linked next { frame.core with recoveredPanic := some panic } (some owner.core) := by
    have hor : ∀ activation, next.originOf activation = task.originOf activation := by
      simp [originOf, ha]
    refine ⟨ha ▸ hl.1.known, hl.1.owner, ?_, ?_, ?_, ?_, hl.1.running, hl.1.noResume⟩
    · rintro other ho
      cases ho
      exact ⟨hd, hp, by simp [hre]⟩
    · intro other ho _
      exact hp.symm.trans ho
    · intro activation cause hca
      rw [hor] at hca
      exact hl.1.deferredOrigin hca
    · intro caller hc
      simp only [hor] at hc ⊢
      exact hl.1.calledOrigin hc
  have hr : Stacked (Linked next) (owner.core :: rest.map core) := by
    refine hl.2.mono fun core _ below hb hln => ht hln ?_
    intro other ho hsam
    obtain ⟨found, rfl, hf⟩ := Option.bind_eq_some_iff.mp ho
    have hmem : other.id ∈ panicIds (rest.map ExecutionFrame.core) :=
      mem_filterMap.mpr ⟨found, hb found rfl, by simp [hf]⟩
    exact (nodup_cons.mp (hs.distinct.sublist hi)).1 (hsam ▸ hmem)
  have hsa : panicIds next.cores = panicIds task.cores := by
    rw [hn, hcs]
    simp only [panicIds, filterMap_append]
    rfl
  have hqt : frame.core.panic = none := hl.1.running hidle
  refine ⟨?_, ?_, ?_, ?_, ?_, ?_, ?_⟩
  · rw [hn]
    rcases hu with rfl | ⟨rfl, hcl⟩
    · exact ⟨hfr, hr⟩
    · have hln : Linked next cur.core (some frame.core) :=
        ht (hs.head hfrs).1 fun other ho => by cases hqt.symm.trans ho
      exact ⟨{ hln with }, hfr, hr⟩
  · exact hs.callers_of_eq ha
  · intro core other hco ho
    rw [hn] at hco
    rcases hu with rfl | ⟨rfl, hcl⟩
    · cases hco
      cases hqt.symm.trans ho
    · cases hco
      cases ((hs.head hfrs).1.running hru).symm.trans ho
  · rw [hsa]
    exact hs.distinct
  · rw [hsa, hpa]
    exact hs.panicsKnown
  · intro other hmem
    rw [hre] at hmem
    rw [hpa]
    rcases mem_append.mp hmem with hmem | hmem
    · exact hs.recoveredKnown other hmem
    · rw [mem_singleton.mp hmem]
      exact hs.panicsKnown _ (hi.subset mem_cons_self)
  · rw [hre]
    exact nodup_append.mpr ⟨hs.recoveredOnce, nodup_singleton _, by
      intro other hmem last hla hsam
      rw [mem_singleton.mp hla] at hsam
      exact hne (hsam ▸ hmem)⟩

/-- The invariant is kept by every change. -/
theorem change {mods : Modules V} {mayReplace : Task V → Prop}
    (hch : Change mods mayReplace task next) : WellStacked next := by
  cases hch with
  | @call fn cur below hfrs hru hfresh hd hr =>
    have hcu := (hs.head hfrs).1
    have hp : ownerPanic ((cur :: below).map core).head? = none := hcu.running hru
    refine hs.changeEnter [] ?_ (by simp) hfresh ?_ ?_ ?_ ?_ ?_
    · simp [cores, hfrs]
    · simp [hd, hru]
    · simp [hr]
    · intro panic hf
      rw [hp] at hf
      cases hf
    · simp
    · intro caller hc
      cases hc
      exact ⟨hcu.known, .inl ⟨rfl, hd⟩⟩
  | @tailCall fn cur below hrep hfrs hru hdf hfresh hd hr =>
    have hcu := (hs.head hfrs).1
    refine hs.changeEnter [cur] ?_ (by simp) hfresh ?_ ?_ ?_ ?_ ?_
    · simp [cores, hfrs]
    · rw [hd]
      exact hcu.owner
    · intro panic hp
      rw [hd]
      rw [hr] at hp
      exact hcu.recovered hp
    · intro panic hp hmem
      rw [hr]
      exact hcu.consumed hp hmem
    · simp
    · intro caller hc
      cases hc
      refine ⟨hcu.known, .inr fun activation cause hca => ?_⟩
      rw [hd]
      exact hcu.deferredOrigin hca
  | register ref src ho =>
    exact hs.sameCores (cores_set ho rfl) rfl (recoveredPanics_append rfl (by simp)) rfl
  | recover hcu hru hfrs hu hd hnone ha hp => exact hs.changeRecover hcu hru hfrs hu hd hnone hp
  | store cells hfr => exact hs.sameCores (cores_set hfr rfl) rfl rfl rfl
  | @raise cur below val hfrs hru =>
    refine hs.settle [] hfrs rfl rfl (recoveredPanics_append rfl (by simp))
      (Nat.le_succ _) rfl rfl rfl (by simp [ExecutionFrame.setCompletion]) rfl ?_
    intro panic hp
    cases hp
    refine ⟨fun hmem => ?_, Nat.lt_succ_self _, fun hmem => ?_⟩
    · exact Nat.lt_irrefl _ (hs.recoveredKnown _ hmem)
    · refine Nat.lt_irrefl _ (hs.panicsKnown _ ?_)
      rw [cores, hfrs]
      exact (panicIds_sublist [cur.core] _).subset hmem
  | complete vals hfrs hru =>
    exact hs.settle [] hfrs rfl rfl (recoveredPanics_append rfl (by simp))
      (Nat.le_refl _) rfl rfl rfl (fun _ => rfl) rfl (fun _ hp => nomatch hp)
  | @startDeferred cur below record rest hfrs ha hdf =>
    refine hs.changeEnter [] ?_ (by simp) ⟨rfl, rfl, rfl, rfl⟩ ?_ ?_ ?_ ?_ ?_
    · simp [cores, hfrs]
    · simp [ha]
    · intro panic hp
      cases hp
    · intro panic hp hmem
      exact absurd hmem (hs.topPanic hfrs hp).1
    · intro activation cause hca
      cases hca
      exact ⟨rfl, rfl⟩
    · simp
  | @replace cur owner rest panic hfrs ha hdf hd hp
  | @propagate cur owner rest panic hfrs ha hdf hd hp =>
    obtain ⟨hn, hkn, hdi⟩ := hs.topPanic hfrs hp
    refine hs.settle [cur] hfrs rfl rfl
      (recoveredPanics_append rfl (by simp)) (Nat.le_refl _) rfl rfl rfl
      (by simp [ExecutionFrame.setCompletion]) rfl ?_
    intro panic hp
    cases hp
    exact ⟨hn, hkn, fun hmem => hdi ((panicIds_sublist [owner.core] _).subset hmem)⟩
  | restore vals hfrs ha hdf hd hp hre =>
    exact hs.settle [_] hfrs rfl rfl (recoveredPanics_append rfl (by simp))
      (Nat.le_refl _) rfl rfl rfl (fun _ => rfl) rfl (fun _ hp => nomatch hp)
  | @endDeferred cur owner rest hfrs ha hdf hd hp hre =>
    have hl := (hs.head hfrs).1
    have ho := (hs.head hfrs).2.1
    refine hs.settle [cur] hfrs rfl rfl
      (recoveredPanics_append rfl (by simp)) (Nat.le_refl _) rfl rfl rfl ho.running
      ho.noResume ?_
    intro panic hf
    have hi : panicIds (owner.core :: rest.map core) =
        panic.id :: panicIds (rest.map core) := panicIds_cons_some _ hf
    have hsu : (panicIds (owner.core :: rest.map core)).Sublist (panicIds task.cores) := by
      rw [cores, hfrs]
      exact panicIds_sublist [cur.core] _
    rw [hi] at hsu
    refine ⟨fun hmem => ?_, ?_, ?_⟩
    · have hsa : cur.recoveredPanic = some panic := hl.consumed hf hmem
      simp [ExecutionFrame.recovers, hsa, hf] at hre
    · exact hs.panicsKnown _ (hsu.subset mem_cons_self)
    · exact (nodup_cons.mp (hs.distinct.sublist hsu)).1
  | @deliver cur below vals hfrs ha hdf hd hp =>
    cases below with
    | nil => exact hs.empty rfl rfl (recoveredPanics_append rfl (by simp)) rfl
    | cons owner rest =>
      have hl := (hs.head hfrs).1
      have ho := (hs.head hfrs).2.1
      have hidle : owner.completionActive = false := by
        have := hl.owner
        simpa [hd] using this.symm
      refine hs.settle [cur] hfrs rfl rfl
        (recoveredPanics_append rfl (by simp)) (Nat.le_refl _) rfl rfl rfl ho.running
        ho.noResume ?_
      intro panic hf
      exact absurd (ho.running hidle) (by simp [hf])
  | escape hfrs ha hdf hp => exact hs.empty rfl rfl (recoveredPanics_append rfl (by simp)) rfl

end

end WellStacked

end MiniGo.Runtime.Frames
