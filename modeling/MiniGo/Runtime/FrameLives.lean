/-
The stack of frames refines the lives of the activations.

The log of a task is accepted, activation by activation, by the automaton of
`MiniGo.Runtime.Lifecycle`; the frame of an activation that has not ended shows where
it stands.
-/
import MiniGo.Runtime.FrameLinks
import MiniGo.Runtime.Lifecycle

namespace MiniGo.Runtime.Frames

open Replay Frames.Task List

variable {V : Type}

/-- The phase that a frame is in. -/
def ExecutionFrame.phase (frame : ExecutionFrame V) : Phase V :=
  if frame.completionActive then
    match frame.completion.panic with
    | some panic => .panicking panic
    | none => .returning
  else .running

def ExecutionFrame.life (frame : ExecutionFrame V) : Life V where
  phase := frame.phase
  pending := frame.defers.map DeferredCall.id

/-- The life of an activation by its frame, or what is known of it without one. -/
def lifeIn (frames : List (ExecutionFrame V)) (activation : ActivationId) (absent : Life V) :
    Life V :=
  match frames with
  | [] => absent
  | frame :: rest => if frame.id = activation then frame.life else lifeIn rest activation absent

namespace Task

/-- An activation without a frame has ended or has not been started. -/
def absentLife (task : Task V) (activation : ActivationId) : Life V :=
  if activation < task.activations.length then .done else .fresh

def lifeOf (task : Task V) (activation : ActivationId) : Life V :=
  lifeIn task.frames activation (task.absentLife activation)

end Task

/-- The log is accepted for every activation. -/
structure Lively (task : Task V) : Prop where
  distinct : (task.frames.map ExecutionFrame.id).Nodup
  known : ∀ frame ∈ task.frames, frame.id < task.activations.length
  lives : ∀ activation,
    replay (Life.step activation) task.log .fresh = some (task.lifeOf activation)

section Lookup

variable {frames : List (ExecutionFrame V)} {activation : ActivationId} {absent : Life V}

theorem lifeIn_absent (hab : ∀ frame ∈ frames, frame.id ≠ activation) :
    lifeIn frames activation absent = absent := by
  induction frames with
  | nil => rfl
  | cons frame rest ih =>
    rw [lifeIn, if_neg (hab frame mem_cons_self)]
    exact ih fun other ho => hab other (mem_cons_of_mem frame ho)

variable {frame other : ExecutionFrame V} {depth : Nat}

/-- Writing to one frame. -/
theorem lifeIn_set (hd : (frames.map ExecutionFrame.id).Nodup)
    (hf : frames[depth]? = some frame) (hid : other.id = frame.id) :
    lifeIn (frames.set depth other) activation absent =
      if frame.id = activation then other.life else lifeIn frames activation absent := by
  induction frames generalizing depth with
  | nil => cases hf
  | cons first rest ih =>
    obtain ⟨hfs, hr⟩ := nodup_cons.mp hd
    cases depth with
    | zero =>
      cases hf
      simp only [set_cons_zero, lifeIn, hid]
      split <;> rfl
    | succ depth =>
      have hmem : frame ∈ rest := mem_of_getElem? hf
      have hne : first.id ≠ frame.id := fun hs =>
        hfs (hs ▸ mem_map_of_mem hmem)
      simp only [set_cons_succ, lifeIn, ih hr hf]
      by_cases hac : frame.id = activation
      · rw [if_pos hac, if_neg (fun hs => hne (hs.trans hac.symm)), if_pos hac]
      · simp [hac]

theorem lifeIn_mem (hd : (frames.map ExecutionFrame.id).Nodup)
    (hf : frames[depth]? = some frame) : lifeIn frames frame.id absent = frame.life := by
  have hs : lifeIn (frames.set depth frame) frame.id absent = _ :=
    lifeIn_set hd hf rfl
  obtain ⟨hde, rfl⟩ := List.getElem?_eq_some_iff.mp hf
  rw [List.set_getElem_self] at hs
  simpa using hs

theorem map_id_set (hf : frames[depth]? = some frame) (hid : other.id = frame.id) :
    (frames.set depth other).map ExecutionFrame.id = frames.map ExecutionFrame.id := by
  obtain ⟨hd, rfl⟩ := List.getElem?_eq_some_iff.mp hf
  rw [List.map_set, hid, ← List.getElem_map ExecutionFrame.id (h := by simpa using hd),
    List.set_getElem_self]

end Lookup

namespace Lively

attribute [local simp] Life.apply ExecutionFrame.life ExecutionFrame.phase

variable {task : Task V} {rest : List (ExecutionFrame V)} {events : List (Event V)} {next : Task V}
  {frame : ExecutionFrame V}

/-- The life of a new activation and of the others. -/
theorem lifeOf_enter {fn : ExecutionFrame V} {origin : Origin V} (hfr : fn.Fresh task)
    (activation : ActivationId) :
    (task.enter (fn :: rest) fn origin events).lifeOf activation =
      if activation = task.activations.length then .fresh
      else lifeIn rest activation (task.absentLife activation) := by
  have hl : fn.life = .fresh := by
    simp [hfr.running, hfr.defers_eq, Life.fresh]
  simp only [lifeOf, enter, lifeIn, hfr.id_eq, hl]
  by_cases hn : activation = task.activations.length
  · simp [hn]
  · have hab : absentLife (task.enter (fn :: rest) fn origin events) activation =
        task.absentLife activation := by
      have hi : activation < task.activations.length + 1 ↔ activation < task.activations.length :=
        ⟨fun hlt => (Nat.lt_succ_iff_lt_or_eq.mp hlt).resolve_right hn, Nat.lt_succ_of_lt⟩
      simp [absentLife, enter, hi]
    simp only [enter] at hab
    rw [if_neg (Ne.symm hn), if_neg hn, hab]

/-- A change keeps the invariant if its events lead from the old lives to the new. -/
theorem extend (hli : Lively task) (hl : next.log = task.log ++ events)
    (hd : (next.frames.map ExecutionFrame.id).Nodup)
    (hkn : ∀ frame ∈ next.frames, frame.id < next.activations.length)
    (hliv : ∀ activation, replay (Life.step activation) events (task.lifeOf activation) =
      some (next.lifeOf activation)) : Lively next where
  distinct := hd
  known := hkn
  lives := by
    intro activation
    rw [hl]
    exact replay_append_eq_some.mpr ⟨_, hli.lives activation, hliv activation⟩

variable {settled : ExecutionFrame V} {event : Event V}

/-- One event about one activation. -/
theorem replay_single {activation : ActivationId} {life next : Life V}
    (hab : event.activation = activation → Life.apply event life = some next)
    (ho : event.activation ≠ activation → life = next) :
    replay (Life.step activation) [event] life = some next := by
  refine replay_cons_eq_some.mpr ⟨next, ?_, rfl⟩
  by_cases hs : event.activation = activation
  · rw [Life.step, if_pos hs]
    exact hab hs
  · rw [Life.step_other hs, ho hs]

/-- Something happens to the running activation. -/
theorem replay_top (hfrs : task.frames = frame :: rest) (hid : settled.id = frame.id)
    (hab : event.activation = frame.id)
    (ha : Life.apply event frame.life = some settled.life) (activation : ActivationId) :
    replay (Life.step activation) [event] (task.lifeOf activation) =
      some (lifeIn (settled :: rest) activation (task.absentLife activation)) := by
  refine replay_single ?_ ?_
  · rintro rfl
    simpa [lifeOf, hfrs, lifeIn, hid, hab] using ha
  · intro ho
    have hne : frame.id ≠ activation := hab ▸ ho
    rw [lifeOf, hfrs, lifeIn, lifeIn, hid, if_neg hne, if_neg hne]

theorem settle (event : Event V) (hli : Lively task)
    (hfrs : task.frames = frame :: rest) (hnext : next.frames = settled :: rest)
    (hac : next.activations = task.activations) (hl : next.log = task.log ++ [event])
    (hid : settled.id = frame.id) (hab : event.activation = frame.id)
    (ha : Life.apply event frame.life = some settled.life) : Lively next := by
  have hd := hli.distinct
  have hkn := hli.known
  rw [hfrs] at hd hkn
  refine hli.extend hl ?_ ?_ fun activation => ?_
  · rw [hnext, map_cons, hid]
    exact hd
  · intro other ho
    rw [hnext] at ho
    rw [hac]
    rcases mem_cons.mp ho with rfl | ho
    · exact hid ▸ hkn frame mem_cons_self
    · exact hkn other (mem_cons_of_mem frame ho)
  · rw [replay_top hfrs hid hab ha, lifeOf, hnext, absentLife, absentLife, hac]

section Leave

variable {cur : ExecutionFrame V} {below : List (ExecutionFrame V)} {ending : Ending V}
  (hli : Lively task) (hfrs : task.frames = cur :: below)
include hli hfrs

theorem tail : (below.map ExecutionFrame.id).Nodup ∧
    ∀ frame ∈ below, frame.id < task.activations.length := by
  have hd := hli.distinct
  have hkn := hli.known
  rw [hfrs] at hd hkn
  exact ⟨(nodup_cons.mp hd).2, fun frame hf => hkn frame (mem_cons_of_mem cur hf)⟩

variable (ha : Life.apply (.left cur.id ending) cur.life = some .done)
include ha

/-- The running activation ends. -/
theorem replay_left (activation : ActivationId) :
    replay (Life.step activation) [.left cur.id ending] (task.lifeOf activation) =
      some (lifeIn below activation (task.absentLife activation)) := by
  have hd := hli.distinct
  have hkn := hli.known
  rw [hfrs] at hd hkn
  obtain ⟨hc, hb⟩ := nodup_cons.mp hd
  refine replay_single ?_ ?_
  · rintro rfl
    have hg : ∀ other ∈ below, other.id ≠ cur.id := fun other ho hs =>
      hc (hs ▸ mem_map_of_mem ho)
    have hab : lifeIn below cur.id (task.absentLife cur.id) = .done := by
      rw [lifeIn_absent hg]
      simp [absentLife, hkn cur mem_cons_self]
    have hl : task.lifeOf cur.id = cur.life := by
      simp [lifeOf, hfrs, lifeIn]
    rw [Event.activation, hl, ha, hab]
  · intro ho
    have hne : cur.id ≠ activation := ho
    rw [lifeOf, hfrs, lifeIn, if_neg hne]

theorem leave : Lively (task.update below [.left cur.id ending]) :=
  hli.extend rfl (hli.tail hfrs).1 (hli.tail hfrs).2 (hli.replay_left hfrs ha)

end Leave

theorem write {depth : Nat} (other : ExecutionFrame V) (events : List (Event V)) (hli : Lively task)
    (hfr : task.frames[depth]? = some frame)
    (hnext : next.frames = task.frames.set depth other) (hid : other.id = frame.id)
    (hac : next.activations = task.activations)
    (hl : next.log = task.log ++ events)
    (hliv : ∀ activation, replay (Life.step activation) events (task.lifeOf activation) =
      some (if frame.id = activation then other.life else task.lifeOf activation)) :
    Lively next := by
  refine hli.extend hl ?_ ?_ fun activation => ?_
  · rw [hnext, map_id_set hfr hid]
    exact hli.distinct
  · intro found hf
    rw [hnext] at hf
    rw [hac]
    rcases mem_or_eq_of_mem_set hf with hf | rfl
    · exact hli.known found hf
    · exact hid ▸ hli.known frame (mem_of_getElem? hfr)
  · rw [hliv, lifeOf, lifeOf, hnext, lifeIn_set hli.distinct hfr hid, absentLife, absentLife, hac]

theorem lifeOf_frame {depth : Nat} (hli : Lively task)
    (hf : task.frames[depth]? = some frame) : task.lifeOf frame.id = frame.life :=
  lifeIn_mem hli.distinct hf

theorem start {fn : ExecutionFrame V} {origin : Origin V} (hli : Lively task) (hfr : fn.Fresh task)
    (hd : (rest.map ExecutionFrame.id).Nodup)
    (hkn : ∀ frame ∈ rest, frame.id < task.activations.length)
    (hev : ∀ event ∈ events, event.activation < task.activations.length)
    (hliv : ∀ activation < task.activations.length,
      replay (Life.step activation) events (task.lifeOf activation) =
        some (lifeIn rest activation (task.absentLife activation))) :
    Lively (task.enter (fn :: rest) fn origin events) := by
  have hn : ∀ frames : List (ExecutionFrame V),
      (∀ frame ∈ frames, frame.id < task.activations.length) →
      ∀ activation, task.activations.length ≤ activation →
      ∀ frame ∈ frames, frame.id ≠ activation := by
    intro frames hfrs activation hac frame hf hs
    exact absurd (hs ▸ hfrs frame hf) (Nat.not_lt.mpr hac)
  have hlen : (task.enter (fn :: rest) fn origin events).activations.length =
      task.activations.length + 1 := by simp [enter]
  refine hli.extend rfl ?_ ?_ fun activation => ?_
  · refine nodup_cons.mpr ⟨?_, hd⟩
    rintro hmem
    obtain ⟨frame, hf, hs⟩ := mem_map.mp hmem
    exact hn rest hkn fn.id (Nat.le_of_eq hfr.id_eq.symm) frame hf hs
  · intro frame hf
    rw [hlen]
    rcases mem_cons.mp hf with rfl | hf
    · rw [hfr.id_eq]
      exact Nat.lt_succ_self _
    · exact Nat.lt_succ_of_lt (hkn frame hf)
  · rw [lifeOf_enter hfr]
    by_cases hold : activation < task.activations.length
    · rw [if_neg (Nat.ne_of_lt hold)]
      exact hliv activation hold
    · -- nothing has happened to an activation that has not been started
      have ho := Nat.not_lt.mp hold
      have hab : task.absentLife activation = .fresh := by simp [absentLife, hold]
      have hl : task.lifeOf activation = .fresh := by
        rw [lifeOf, lifeIn_absent (hn _ hli.known activation ho), hab]
      rw [hl, lifeIn_absent (hn rest hkn activation ho), hab, ite_self]
      refine replay_unchanged fun event he => Life.step_other ?_ _
      exact fun hs => hold (hs ▸ hev event he)

/-- The invariant is kept by every change. -/
theorem change {mods : Modules V} {mayReplace : Task V → Prop} (hli : Lively task)
    (hs : WellStacked task) (hch : Change mods mayReplace task next) : Lively next := by
  cases hch with
  | @call fn current below hfrs hru hfresh hde hre =>
    refine hli.start hfresh (hfrs ▸ hli.distinct) (hfrs ▸ hli.known)
      (by simp) fun activation _ => ?_
    rw [replay_nil, lifeOf, hfrs]
  | @tailCall fn current below hrep hfrs hru hd hfresh hde hre =>
    obtain ⟨hdi, hkn⟩ := hli.tail hfrs
    refine hli.start hfresh hdi hkn ?_ fun activation _ =>
      hli.replay_left hfrs ?_ activation
    · simpa [Event.activation] using hli.known current (by simp [hfrs])
    · simp [hru, hd]
  | @register owner depth ref src how =>
    refine write _ _ hli how rfl rfl rfl rfl fun activation => replay_single ?_ ?_
    · rintro rfl
      rw [Event.activation, hli.lifeOf_frame how, if_pos rfl]
      have hph : owner.phase ≠ .ended := by
        unfold ExecutionFrame.phase
        split
        · split <;> simp
        · simp
      cases hca : owner.phase <;> simp_all
    · intro ho
      have hne : owner.id ≠ activation := ho
      rw [if_neg hne]
  | @recover current frame owner upper rest panic hcu hru hfrs hu hde hnone hac hp =>
    have hfr : task.frames[upper.length]? = some frame := by simp [hfrs]
    have hc : task.frames[0]? = some current := by
      rw [← head?_eq_getElem?]
      exact hcu
    refine write { frame with recoveredPanic := some panic } _ hli hfr ?_ rfl rfl rfl
      fun activation => ?_
    · simp [update, hfrs]
    · have hsa : (if frame.id = activation then
          ({ frame with recoveredPanic := some panic } : ExecutionFrame V).life
          else task.lifeOf activation) = task.lifeOf activation := by
        split
        · next hact =>
          rw [← hact, hli.lifeOf_frame hfr]
          rfl
        · rfl
      rw [hsa]
      refine replay_single ?_ fun _ => rfl
      rintro rfl
      rw [Event.activation, hli.lifeOf_frame hc]
      simp [hru]
  | @store frame depth cells hfr =>
    refine write _ [] hli hfr rfl rfl rfl (by simp) fun activation => ?_
    rw [replay_nil]
    split
    · next hact =>
      rw [← hact, hli.lifeOf_frame hfr]
      rfl
    · rfl
  | @raise current below val hfrs hru | complete vals hfrs hru =>
    refine settle _ hli hfrs rfl rfl rfl rfl rfl ?_
    simp [hru, ExecutionFrame.setCompletion]
  | @startDeferred current below record rest hfrs hac hd =>
    refine hli.start ⟨rfl, rfl, rfl, rfl⟩ ?_ ?_ ?_ fun activation _ =>
      replay_top hfrs ?_ rfl ?_ activation
    · have hdi := hli.distinct
      rw [hfrs] at hdi
      exact hdi
    · have hkn := hli.known
      rw [hfrs] at hkn
      simpa using hkn
    · simpa [Event.activation] using hli.known current (by simp [hfrs])
    · rfl
    · cases hp : current.completion.panic <;>
        simp [hac, hd, hp]
  | @replace current owner rest panic hfrs hac hd hde hp =>
    have how : owner.completionActive = true :=
      (hs.completing.owner hfrs) ▸ hde
    have hl : Lively (task.update (owner :: rest) [.left current.id (.panicked panic)]) :=
      hli.leave hfrs (by simp [hac, hd, hp])
    refine settle (.replaced owner.id panic) hl rfl rfl rfl (by simp [update]) rfl rfl ?_
    cases hca : owner.completion.panic <;>
      simp [how, hca, ExecutionFrame.setCompletion]
  | @restore current owner rest vals hfrs hac hd hde hp hr =>
    have how : owner.completionActive = true :=
      (hs.completing.owner hfrs) ▸ hde
    have hl : Lively (task.update (owner :: rest) [.left current.id (.returned [])]) :=
      hli.leave hfrs (by simp [hac, hd, hp])
    refine settle (.restored owner.id) hl rfl rfl rfl (by simp [update]) rfl rfl ?_
    cases hca : owner.completion.panic with
    | none =>
      cases hf : current.recoveredPanic <;>
        simp [ExecutionFrame.recovers, hca, hf] at hr
    | some panic =>
      simp [how, hca, ExecutionFrame.setCompletion]
  | @endDeferred current owner rest hfrs hac hd hde hp hr
  | @deliver current below vals hfrs hac hd hde hp
  | @escape current panic hfrs hac hd hp =>
    refine hli.leave hfrs ?_
    simp [hac, hd, hp]
  | @propagate current owner rest panic hfrs hac hd hde hp =>
    have how : owner.completionActive = false :=
      (hs.completing.owner hfrs) ▸ hde
    have hl : Lively (task.update (owner :: rest) [.left current.id (.panicked panic)]) :=
      hli.leave hfrs (by simp [hac, hd, hp])
    refine settle (.propagated owner.id panic) hl rfl rfl rfl (by simp [update]) rfl rfl ?_
    simp [how, ExecutionFrame.setCompletion]

end Lively

end MiniGo.Runtime.Frames
