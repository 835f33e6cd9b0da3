/-
Which call of `recover` stops a panic.

The value of a panic is for the function that was deferred, and for a function that a
deferred one has called directly: the compiler wraps every deferred call in a function
of its own, so the wrapper is the deferred function and the function of the source is
what it calls.

`recoverValue` decides by the place of a frame in the stack. That is right as long as a
tail call does not take the place of a frame from which `recover` still could stop a
panic.
-/
import MiniGo.Runtime.FrameLives

namespace MiniGo.Runtime.Frames

open ExecutionFrame Frames.Task

variable {V : Type}

/-- An activation is a deferred function that was started because of a panic, or is
called directly by one. -/
def DirectlyDeferred (task : Task V) (activation : ActivationId) (panic : MachinePanic V) :
    Prop :=
  (∃ owner, task.originOf activation = some (.deferred owner (some panic))) ∨
  ∃ wrapper owner, task.originOf activation = some (.called wrapper) ∧
    task.originOf wrapper = some (.deferred owner (some panic))

/-- `recover` in the running activation returns the panic that it is directly deferred
for, if that has not been recovered, and nil in every other case. -/
def RecoversDirectly (task : Task V) : Prop :=
  ∀ current below, task.frames = current :: below → current.completionActive = false →
    ∀ panic, (Task.recoverValue task.frames).2 = some panic ↔
      DirectlyDeferred task current.id panic ∧ panic.id ∉ task.recoveredPanics

/-- `recover` would return nil. -/
def Unrecoverable (task : Task V) : Prop :=
  (Task.recoverValue task.frames).2 = none

/-- A deferred call that can still recover is the one that was started for the panic,
and what runs above it was called by it. -/
structure Direct (task : Task V) (frame : Core V) (below : Option (Core V)) : Prop where
  origin : ∀ {panic}, frame.deferred = true → frame.recoveredPanic = none →
    ownerPanic below = some panic →
    ∃ owner, task.originOf frame.id = some (.deferred owner (some panic))
  caller : ∀ {wrapper owner panic}, below = some wrapper → wrapper.recoveredPanic = none →
    task.originOf wrapper.id = some (.deferred owner (some panic)) →
    frame.deferred = false → task.originOf frame.id = some (.called wrapper.id)

/-- The stack of a run without harmful tail calls. -/
structure DirectStacked (task : Task V) : Prop extends WellStacked task where
  direct : Stacked (Direct task) task.cores

variable {rest : List (ExecutionFrame V)}

theorem recoverValue_of_frames (upper : List (ExecutionFrame V))
    {frames : List (ExecutionFrame V)} {frame owner : ExecutionFrame V}
    {panic : MachinePanic V}
    (hf : frames = upper ++ frame :: owner :: rest)
    (hu : upper = [] ∨ ∃ top, upper = [top] ∧ top.deferred = false)
    (hd : frame.deferred = true) (hnone : frame.recoveredPanic = none)
    (ha : owner.completionActive = true) (hp : owner.completion.panic = some panic) :
    (recoverValue frames).2 = some panic := by
  rcases hu with rfl | ⟨top, rfl, ht⟩
  · simp [hf, recoverValue, recoverIndex, hd, hnone, ha, hp]
  · simp [hf, recoverValue, recoverIndex, ht, hd, hnone, ha, hp]

namespace WellStacked

variable {task : Task V} {cur : ExecutionFrame V} {below : List (ExecutionFrame V)}
  {panic : MachinePanic V}

/-- `recover` in a deferred call whose owner panics. -/
theorem recoverValue_deferred (hs : WellStacked task)
    (hf : task.frames = cur :: below) (hd : cur.deferred = true)
    (hnone : cur.recoveredPanic = none)
    (ho : ownerPanic (below.map core).head? = some panic) :
    (recoverValue task.frames).2 = some panic := by
  have hl := (hs.head hf).1
  cases below with
  | nil => cases ho
  | cons owner rest =>
    have ha : cur.deferred = owner.completionActive := hs.completing.owner hf
    exact recoverValue_of_frames [] hf (.inl rfl) hd hnone (ha ▸ hd) ho

/-- `recover` in a function that a deferred call has called. -/
theorem recoverValue_called (hs : WellStacked task) {wrapper : ExecutionFrame V}
    (hf : task.frames = cur :: wrapper :: rest)
    (hc : cur.deferred = false) (hd : wrapper.deferred = true)
    (hnone : wrapper.recoveredPanic = none)
    (ho : ownerPanic (rest.map core).head? = some panic) :
    (recoverValue task.frames).2 = some panic := by
  have hl := (hs.head hf).2.1
  cases rest with
  | nil => cases ho
  | cons owner rest =>
    have ha : wrapper.deferred = owner.completionActive := by
      simpa [core] using hl.owner
    exact recoverValue_of_frames [cur] hf (.inr ⟨cur, rfl, hc⟩) hd hnone (ha ▸ hd) ho

end WellStacked

/-- A panic that has not been recovered was not recovered by the frame above its own. -/
theorem Linked.recoveredPanic_none {task : Task V} {frame : Core V} {below : Option (Core V)}
    {panic : MachinePanic V} (hl : Linked task frame below)
    (how : ownerPanic below = some panic) (hn : panic.id ∉ task.recoveredPanics) :
    frame.recoveredPanic = none := by
  cases hf : frame.recoveredPanic with
  | none => rfl
  | some other =>
    obtain ⟨-, ho, hmem⟩ := hl.recovered hf
    rw [how] at ho
    cases ho
    exact absurd hmem hn

namespace DirectStacked

variable {task next : Task V}

/-- `recover` finds the panic of the deferred function that it is called by, and no
other. -/
theorem recoversDirectly (hs : DirectStacked task) : RecoversDirectly task := by
  intro current below hfr hru panic
  have hd := hs.direct
  rw [cores, hfr] at hd
  have hl := hs.toWellStacked.head hfr
  constructor
  · intro hrc
    obtain ⟨after, ha⟩ : ∃ after, recoverValue task.frames = (after, some panic) :=
      ⟨_, Prod.ext rfl hrc⟩
    obtain ⟨upper, frame, owner, rest, hsp, hu, hde, hnone, hac, hp, -⟩ :=
      recoverValue_eq_some ha
    rw [hfr] at hsp
    rcases hu with rfl | ⟨top, rfl, ht⟩
    · obtain ⟨rfl, rfl⟩ := List.cons.inj hsp
      refine ⟨.inl (hd.1.origin hde hnone hp), fun hmem => ?_⟩
      cases hnone.symm.trans (hl.1.consumed hp hmem)
    · obtain ⟨rfl, rfl⟩ := List.cons.inj hsp
      obtain ⟨activation, hor⟩ := hd.2.1.origin hde hnone hp
      have hc := hd.1.caller rfl hnone hor ht
      refine ⟨.inr ⟨frame.id, activation, hc, hor⟩, fun hmem => ?_⟩
      cases hnone.symm.trans (hl.2.1.consumed hp hmem)
  · rintro ⟨hde, hn⟩
    -- the frame is a deferred call itself, or it lies above one
    have how : current.deferred = true → some panic = ownerPanic (below.map core).head? →
        (recoverValue task.frames).2 = some panic := by
      intro hcu ho
      exact hs.recoverValue_deferred hfr hcu (hl.1.recoveredPanic_none ho.symm hn) ho.symm
    rcases hde with ⟨activation, hor⟩ | ⟨wrapper, activation, hc, hor⟩
    · obtain ⟨hcu, ho⟩ := hl.1.deferredOrigin hor
      exact how hcu ho
    · rcases hl.1.calledOrigin hc with ⟨hid, hcu⟩ | hr
      · cases below with
        | nil => cases hid
        | cons frame rest =>
          cases hid
          obtain ⟨hf, ho⟩ := hl.2.1.deferredOrigin hor
          exact hs.recoverValue_called hfr hcu hf (hl.2.1.recoveredPanic_none ho.symm hn) ho.symm
      · obtain ⟨hcu, ho⟩ := hr hor
        exact how hcu ho

/-- The activations that a stack knows are the same. -/
theorem directTransfer {stack : List (Core V)} (hs : Stacked (Direct task) stack)
    (hkn : ∀ frame ∈ stack, frame.id < task.activations.length)
    (hor : ∀ activation < task.activations.length,
      next.originOf activation = task.originOf activation) :
    Stacked (Direct next) stack := by
  refine hs.mono fun frame hf below hb hdi => ⟨?_, ?_⟩
  · intro panic hd hnone ho
    rw [hor _ (hkn frame hf)]
    exact hdi.origin hd hnone ho
  · intro wrapper owner panic hw hnone hd hc
    rw [hor _ (hkn wrapper (List.mem_of_mem_tail (hb wrapper hw)))] at hd
    rw [hor _ (hkn frame hf)]
    exact hdi.caller hw hnone hd hc

/-- A new frame above a part of the stack. -/
theorem directEnter (hs : DirectStacked task) (upper : List (ExecutionFrame V))
    {fn : ExecutionFrame V} {below : List (ExecutionFrame V)} {origin : Origin V}
    {events : List (Event V)}
    (hcs : task.cores = upper.map core ++ below.map core)
    (hfr : fn.Fresh task)
    (hor : ∀ panic, fn.deferred = true → fn.recoveredPanic = none →
      ownerPanic (below.map core).head? = some panic →
      ∃ owner, origin = .deferred owner (some panic))
    (hc : ∀ wrapper owner panic, (below.map core).head? = some wrapper →
      wrapper.recoveredPanic = none →
      task.originOf wrapper.id = some (.deferred owner (some panic)) →
      fn.deferred = false → origin = .called wrapper.id) :
    Stacked (Direct (task.enter (fn :: below) fn origin events)) (fn.core :: below.map core) := by
  have hkn : ∀ frame ∈ below.map core, frame.id < task.activations.length := by
    intro frame hf
    have hl : Stacked (Linked task) (below.map core) :=
      (hcs ▸ hs.linked).drop
    obtain ⟨_, hli⟩ := hl.of_mem frame hf
    exact hli.known
  have hn : (task.enter (fn :: below) fn origin events).originOf fn.core.id =
      some origin := by
    rw [core, hfr.id_eq]
    exact originOf_enter_new
  refine ⟨⟨?_, ?_⟩, directTransfer (hcs ▸ hs.direct).drop hkn fun _ hold => originOf_enter_old hold⟩
  · intro panic hd hnone ho
    rw [hn]
    obtain ⟨owner, rfl⟩ := hor panic hd hnone ho
    exact ⟨owner, rfl⟩
  · intro wrapper owner panic hw hnone hd hcl
    rw [originOf_enter_old (hkn wrapper (List.mem_of_mem_head? hw))] at hd
    rw [hn, hc wrapper owner panic hw hnone hd hcl]

/-- The same activations are known. -/
theorem directSame {stack : List (Core V)} (hs : Stacked (Direct task) stack)
    (ha : next.activations = task.activations) : Stacked (Direct next) stack := by
  have ho : ∀ activation, next.originOf activation = task.originOf activation := by
    simp [originOf, ha]
  refine hs.mono fun core _ below _ hd => ⟨?_, ?_⟩
  · intro panic
    rw [ho]
    exact hd.origin
  · intro wrapper owner panic
    rw [ho, ho]
    exact hd.caller

theorem directSameCores (hs : DirectStacked task) (hcs : next.cores = task.cores)
    (ha : next.activations = task.activations) : Stacked (Direct next) next.cores := by
  rw [hcs]
  exact directSame hs.direct ha

/-- The running frame completes in another way, possibly after those above it have
ended. -/
theorem directSettle (hs : DirectStacked task) (upper : List (ExecutionFrame V))
    {frame settled : ExecutionFrame V}
    (hf : task.frames = upper ++ frame :: rest) (hnext : next.frames = settled :: rest)
    (ha : next.activations = task.activations)
    (hid : settled.id = frame.id) (hd : settled.deferred = frame.deferred)
    (hr : settled.recoveredPanic = frame.recoveredPanic) :
    Stacked (Direct next) next.cores := by
  have hcs : task.cores = upper.map core ++ frame.core :: rest.map core := by
    simp [cores, hf]
  have hl : Stacked (Direct next) (frame.core :: rest.map core) :=
    directSame (hcs ▸ hs.direct).drop ha
  rw [cores, hnext]
  change settled.core.id = frame.core.id at hid
  change settled.core.deferred = frame.core.deferred at hd
  change settled.core.recoveredPanic = frame.core.recoveredPanic at hr
  refine ⟨⟨?_, ?_⟩, hl.2⟩
  · intro panic
    rw [hid, hd, hr]
    exact hl.1.origin
  · intro wrapper owner panic
    rw [hid, hd]
    exact hl.1.caller

/-- The invariant is kept by every change, if tail calls replace a frame only where
`recover` would return nil. -/
theorem change {mods : Modules V} (hs : DirectStacked task)
    (hch : Change mods Unrecoverable task next) : DirectStacked next := by
  refine ⟨hs.toWellStacked.change hch, ?_⟩
  cases hch with
  | @call fn current below hfrs hru hfr hd hr =>
    refine hs.directEnter [] ?_ hfr ?_ ?_
    · simp [cores, hfrs]
    · simp [hd]
    · rintro wrapper owner panic hw
      cases hw
      simp [core]
  | @tailCall fn current below hre hfrs hru hdf hfr hd hr =>
    refine hs.directEnter [current] ?_ hfr ?_ ?_
    · simp [cores, hfrs]
    · intro panic hn hnone ho
      have hrc := hs.recoverValue_deferred hfrs (hd ▸ hn) (hr ▸ hnone) ho
      cases hre.symm.trans hrc
    · intro wrapper owner panic hw hnone hor hc
      cases below with
      | nil => cases hw
      | cons frame rest =>
        cases hw
        obtain ⟨hf, ho⟩ := (hs.head hfrs).2.1.deferredOrigin hor
        have hrc := hs.recoverValue_called hfrs (hd ▸ hc) hf hnone ho.symm
        cases hre.symm.trans hrc
  | @register owner depth ref src ho =>
    exact hs.directSameCores (cores_set ho rfl) rfl
  | @recover current frame owner upper rest panic hcu hru hfrs hu hd hnone ha hp =>
    have hcs : task.cores = upper.map core ++ frame.core :: owner.core :: rest.map core := by
      simp [cores, hfrs]
    have hdi : Stacked (Direct (task.update
        (upper ++ { frame with recoveredPanic := some panic } :: owner :: rest)
        [.recovered current.id panic])) task.cores := directSame hs.direct rfl
    rw [hcs] at hdi
    rw [cores, update, List.map_append]
    -- a deferred call that has recovered is out of the question
    have hf : Stacked (Direct _)
        ({ frame.core with recoveredPanic := some panic } :: owner.core :: rest.map core) :=
      ⟨⟨fun _ hn => (by cases hn), hdi.drop.1.caller⟩, hdi.drop.2⟩
    rcases hu with rfl | ⟨rfl, -⟩
    · exact hf
    · exact ⟨⟨hdi.1.origin, fun hw hn => by cases hw; cases hn⟩, hf⟩
  | @store frame depth cells hf =>
    exact hs.directSameCores (cores_set hf rfl) rfl
  | @raise current below val hfrs hru =>
    exact hs.directSettle [] hfrs rfl rfl rfl rfl rfl
  | complete vals hfrs hru =>
    exact hs.directSettle [] hfrs rfl rfl rfl rfl rfl
  | @startDeferred current below record rest hfrs ha hdf =>
    refine hs.directEnter [] ?_ ⟨rfl, rfl, rfl, rfl⟩ ?_ ?_
    · simp [cores, hfrs, core]
    · intro panic _ _ ho
      exact ⟨current.id, congrArg _ ho⟩
    · intro wrapper owner panic _ _ _ hc
      cases hc
  | @replace current owner rest panic hfrs ha hdf hd hp
  | @restore current owner rest vals hfrs ha hdf hd hp hrec
  | @endDeferred current owner rest hfrs ha hdf hd hp hrec
  | @propagate current owner rest panic hfrs ha hdf hd hp =>
    exact hs.directSettle [current] hfrs rfl rfl rfl rfl rfl
  | @deliver current below vals hfrs ha hdf hd hp =>
    cases below with
    | nil => trivial
    | cons owner rest => exact hs.directSettle [current] hfrs rfl rfl rfl rfl rfl
  | escape hfrs ha hdf hp => trivial

end DirectStacked

end MiniGo.Runtime.Frames
