/-
What a step of a task does to its frames.

A step is a sequence of changes: one activation is entered, completed or left at a time.
The invariants of the stack are proved for the changes, in the modules that need them.
-/
import MiniGo.Runtime.Frames

namespace MiniGo.Runtime.Frames

open Relation Result Frames.Task

variable {V : Type}

/-- A frame that has just been made. -/
structure ExecutionFrame.Fresh (frame : ExecutionFrame V) (task : Task V) : Prop where
  id_eq : frame.id = task.activations.length
  defers_eq : frame.defers = []
  completion_eq : frame.completion = {}
  running : frame.completionActive = false

/-- The changes of a stack. Every one of them is about the top of it, except that a
deferred call may be registered further down and that locals may be written anywhere.
A tail call takes the place of its caller only where `mayReplace` allows it. -/
inductive Change (modules : Modules V) (mayReplace : Task V → Prop) (task : Task V) :
    Task V → Prop where
  | call {callee current : ExecutionFrame V} {below : List (ExecutionFrame V)}
      (hframes : task.frames = current :: below)
      (hrunning : current.completionActive = false) (hfresh : callee.Fresh task)
      (hdeferred : callee.deferred = false) (hrecovered : callee.recoveredPanic = none) :
      Change modules mayReplace task
        (task.enter (callee :: current :: below) callee (.called current.id) [])
  | tailCall {callee current : ExecutionFrame V} {below : List (ExecutionFrame V)}
      (hreplace : mayReplace task) (hframes : task.frames = current :: below)
      (hrunning : current.completionActive = false) (hdefers : current.defers = [])
      (hfresh : callee.Fresh task) (hdeferred : callee.deferred = current.deferred)
      (hrecovered : callee.recoveredPanic = current.recoveredPanic) :
      Change modules mayReplace task (task.enter (callee :: below) callee (.called current.id)
          [.left current.id .tailCalled])
  | register {owner : ExecutionFrame V} {depth : Nat} (ref : FunctionRef)
      (source : ActivationId) (howner : task.frames[depth]? = some owner) :
      Change modules mayReplace task
        { task.update
            (task.frames.set depth
              { owner with defers := { id := task.nextDefer, ref := ref } :: owner.defers })
            [.registered owner.id task.nextDefer source] with
          nextDefer := task.nextDefer + 1 }
  | recover {current frame owner : ExecutionFrame V} {upper rest : List (ExecutionFrame V)}
      {panic : MachinePanic V} (hcurrent : task.frames.head? = some current)
      (hrunning : current.completionActive = false)
      (hframes : task.frames = upper ++ frame :: owner :: rest)
      (hupper : upper = [] ∨ (upper = [current] ∧ current.deferred = false))
      (hdeferred : frame.deferred = true) (hnone : frame.recoveredPanic = none)
      (hactive : owner.completionActive = true) (hpanic : owner.completion.panic = some panic) :
      Change modules mayReplace task
        (task.update (upper ++ { frame with recoveredPanic := some panic } :: owner :: rest)
          [.recovered current.id panic])
  | store {frame : ExecutionFrame V} {depth : Nat} (cells : List (String × V))
      (hframe : task.frames[depth]? = some frame) :
      Change modules mayReplace task
        { task with frames := task.frames.set depth { frame with cells := cells } }
  | raise {current : ExecutionFrame V} {below : List (ExecutionFrame V)} (value : V)
      (hframes : task.frames = current :: below)
      (hrunning : current.completionActive = false) :
      Change modules mayReplace task (task.startPanic modules current below value [])
  | complete {current : ExecutionFrame V} {below : List (ExecutionFrame V)}
      (values : List V) (hframes : task.frames = current :: below)
      (hrunning : current.completionActive = false) :
      Change modules mayReplace task
        (task.update (current.setCompletion { returnValues := values } :: below)
          [.returning current.id])
  | startDeferred {current : ExecutionFrame V} {below : List (ExecutionFrame V)}
      {record : DeferredCall} {rest : List DeferredCall}
      (hframes : task.frames = current :: below)
      (hactive : current.completionActive = true)
      (hdefers : current.defers = record :: rest) :
      Change modules mayReplace task (task.startDeferred modules current below record rest)
  | replace {current owner : ExecutionFrame V} {rest : List (ExecutionFrame V)}
      {panic : MachinePanic V} (hframes : task.frames = current :: owner :: rest)
      (hactive : current.completionActive = true) (hdefers : current.defers = [])
      (hdeferred : current.deferred = true) (hpanic : current.completion.panic = some panic) :
      Change modules mayReplace task
        (task.update (owner.setCompletion { panic := some panic } :: rest)
          [.left current.id (.panicked panic), .replaced owner.id panic])
  | restore {current owner : ExecutionFrame V} {rest : List (ExecutionFrame V)}
      (values : List V) (hframes : task.frames = current :: owner :: rest)
      (hactive : current.completionActive = true) (hdefers : current.defers = [])
      (hdeferred : current.deferred = true) (hpanic : current.completion.panic = none)
      (hrecovers : current.recovers owner = true) :
      Change modules mayReplace task
        (task.update (owner.setCompletion { returnValues := values } :: rest)
          [.left current.id (.returned []), .restored owner.id])
  | endDeferred {current owner : ExecutionFrame V} {rest : List (ExecutionFrame V)}
      (hframes : task.frames = current :: owner :: rest)
      (hactive : current.completionActive = true) (hdefers : current.defers = [])
      (hdeferred : current.deferred = true) (hpanic : current.completion.panic = none)
      (hrecovers : current.recovers owner = false) :
      Change modules mayReplace task (task.update (owner :: rest) [.left current.id (.returned [])])
  | propagate {current owner : ExecutionFrame V} {rest : List (ExecutionFrame V)}
      {panic : MachinePanic V} (hframes : task.frames = current :: owner :: rest)
      (hactive : current.completionActive = true) (hdefers : current.defers = [])
      (hdeferred : current.deferred = false) (hpanic : current.completion.panic = some panic) :
      Change modules mayReplace task
        (task.update (owner.setCompletion { panic := some panic } :: rest)
          [.left current.id (.panicked panic), .propagated owner.id panic])
  | deliver {current : ExecutionFrame V} {below : List (ExecutionFrame V)}
      (values : List V) (hframes : task.frames = current :: below)
      (hactive : current.completionActive = true) (hdefers : current.defers = [])
      (hdeferred : current.deferred = false) (hpanic : current.completion.panic = none) :
      Change modules mayReplace task (task.update below [.left current.id (.returned values)])
  | escape {current : ExecutionFrame V} {panic : MachinePanic V} (hframes : task.frames = [current])
      (hactive : current.completionActive = true) (hdefers : current.defers = [])
      (hpanic : current.completion.panic = some panic) :
      Change modules mayReplace task (task.update [] [.left current.id (.panicked panic)])

/-- A tail call takes the place of its caller, unless a debugger is attached, the caller
has deferred calls or the callee belongs to another module. -/
def Action.ReplacesFrame (action : Action V) (task : Task V) : Prop :=
  match action, task.frames with
  | .tailCall _ _ debugging qualify, current :: _ =>
    (!debugging && current.defers.isEmpty && !qualify) = true
  | _, _ => False

/-- A condition holds before every step of a run. -/
def Task.Along (modules : Modules V) (condition : Task V → Action V → Prop) (task : Task V) :
    List (Action V) → Prop
  | [] => True
  | action :: rest => condition task action ∧
      ∀ next, task.step modules action = .ok next → next.Along modules condition rest

/-- The part of the invariant that `advanceCompletion` itself relies on: the owner of a
deferred call is completing, and no completion asks to resume. -/
structure Completing (task : Task V) : Prop where
  owner : ∀ {current owner rest}, task.frames = current :: owner :: rest →
    current.deferred = owner.completionActive
  noResume : ∀ frame ∈ task.frames, frame.completion.resume = false

/-- Taking the results changes the returned values only. -/
theorem ExecutionFrame.refreshResults_eq {modules : Modules V}
    {frame refreshed : ExecutionFrame V} (hr : frame.refreshResults modules = .ok refreshed) :
    ∃ vals, refreshed =
      { frame with completion := { frame.completion with returnValues := vals } } := by
  unfold ExecutionFrame.refreshResults at hr
  split at hr
  · obtain ⟨vals, -, hv⟩ := bind_eq_ok.mp hr
    cases hv
    exact ⟨vals, rfl⟩
  · cases hr
    exact ⟨frame.completion.returnValues, rfl⟩

section Steps

variable {mods : Modules V} {mayReplace Invariant : Task V → Prop}

variable {task next : Task V} {below : List (ExecutionFrame V)}

variable {hostPanic : Option V}

/-- A frame that returns to its caller is left, and the caller may complete or panic
at once. -/
theorem deliver_changes {cur finished caller : ExecutionFrame V}
    (hf : task.frames = cur :: caller :: below)
    (ha : cur.completionActive = true) (hdf : cur.defers = [])
    (hde : cur.deferred = false) (hp : cur.completion.panic = none)
    (hc : caller.completionActive = false) (hid : finished.id = cur.id)
    (hd : task.deliver mods finished caller below hostPanic = .ok next) :
    ReflTransGen (Change mods mayReplace) task next := by
  unfold deliver at hd
  generalize finished.resultValues mods = ress at hd
  rw [hid] at hd
  let returned := task.update (caller :: below) [.left cur.id (.returned ress)]
  have hl : Change mods mayReplace task returned :=
    .deliver ress hf ha hdf hde hp
  dsimp only at hd
  split at hd
  · cases hd
  · split at hd
    · obtain ⟨normalized, -, hnext⟩ := bind_eq_ok.mp hd
      cases hnext
      have hco : Change mods mayReplace returned _ := .complete normalized rfl hc
      exact .head hl (.single (by simpa [returned, update] using hco))
    · next val _ =>
      cases hd
      have hr : Change mods mayReplace returned _ := .raise val rfl hc
      refine .head hl (.single ?_)
      simpa [returned, update, startPanic] using hr
    · cases hd
      exact .single hl

/-- The loop of `advanceCompletion` is a sequence of changes. -/
theorem advanceFrom_changes
    (hk : ∀ {before after}, Invariant before → Change mods mayReplace before after →
      Invariant after)
    (hco : ∀ {before}, Invariant before → Completing before) :
    ∀ {task next : Task V} {cur : ExecutionFrame V},
      task.frames = cur :: below → cur.completionActive = true → Invariant task →
      task.advanceFrom mods hostPanic cur below = .ok next →
      ReflTransGen (Change mods mayReplace) task next := by
  induction below with
  | nil =>
    intro task next cur hf hac hi had
    unfold advanceFrom at had
    split at had
    · next hd =>
      cases had
      exact .single (.startDeferred hf hac hd)
    · next hd =>
      have hre := (hco hi).noResume cur (by simp [hf])
      rw [if_neg (by simp [hre])] at had
      split at had
      · cases had
      · next refreshed href =>
        obtain ⟨vals, rfl⟩ := ExecutionFrame.refreshResults_eq href
        dsimp only at had
        split at had
        · cases had
        · next hde =>
          split at had
          · next hp =>
            cases had
            exact .single (.escape hf hac hd hp)
          · next hp =>
            cases had
            exact .single (.deliver _ hf hac hd (by simpa using hde) hp)
  | cons owner rest ih =>
    intro task next cur hf hac hi had
    unfold advanceFrom at had
    split at had
    · next hd =>
      cases had
      exact .single (.startDeferred hf hac hd)
    · next hd =>
      have ho := (hco hi).owner hf
      have hre := (hco hi).noResume cur (by simp [hf])
      rw [if_neg (by simp [hre])] at had
      split at had
      · cases had
      · next refreshed href =>
        obtain ⟨vals, rfl⟩ := ExecutionFrame.refreshResults_eq href
        dsimp only at had
        -- the rest of the loop, once the frame is left
        have hgo : ∀ {events : List (Event V)} {after : ExecutionFrame V},
            Change mods mayReplace task (task.update (after :: rest) events) →
            after.completionActive = true →
            (task.update (after :: rest) events).advanceFrom mods hostPanic after rest = .ok next →
            ReflTransGen (Change mods mayReplace) task next := by
          intro events after hch ha hr
          exact .head hch (ih rfl ha (hk hi hch) hr)
        split at had
        · next hde =>
          split at had
          · next hp =>
            exact hgo (.replace hf hac hd hde hp) rfl had
          · next hp =>
            split at had
            · cases had
            · split at had
              · next hrec =>
                split at had
                · cases had
                · exact hgo (.restore _ hf hac hd hde hp hrec) rfl had
              · next hrec =>
                exact hgo (.endDeferred hf hac hd hde hp (eq_false_of_ne_true hrec)) (ho ▸ hde) had
        · next hde =>
          split at had
          · next hp =>
            exact hgo (.propagate hf hac hd (by simpa using hde) hp) rfl had
          · next hp =>
            have hc : owner.completionActive = false := by
              rw [← ho]
              simpa using hde
            refine deliver_changes hf hac hd (by simpa using hde) hp hc ?_ had
            rfl

/-- When `recover` returns the value of a panic, the running frame or the one that has
called it is a deferred call that has not recovered yet. -/
theorem recoverValue_eq_some {frames after : List (ExecutionFrame V)} {panic : MachinePanic V}
    (hr : recoverValue frames = (after, some panic)) :
    ∃ upper frame owner rest, frames = upper ++ frame :: owner :: rest ∧
      (upper = [] ∨ ∃ top, upper = [top] ∧ top.deferred = false) ∧
      frame.deferred = true ∧ frame.recoveredPanic = none ∧
      owner.completionActive = true ∧ owner.completion.panic = some panic ∧
      after = upper ++ { frame with recoveredPanic := some panic } :: owner :: rest := by
  unfold recoverValue at hr
  split at hr
  · next frame owner hf ho =>
    split at hr
    · cases hr
    · next hg =>
      simp only [Bool.or_eq_true, not_or, Bool.not_eq_true, Bool.not_eq_false,
        Bool.not_eq_true', Option.isSome_eq_false_iff, Option.isNone_iff_eq_none] at hg
      obtain ⟨⟨hd, hnone⟩, ha⟩ := hg
      split at hr
      · cases hr
      · next hp =>
        cases hr
        cases frames with
        | nil => cases hf
        | cons top below =>
          by_cases ht : top.deferred = true
          · simp only [recoverIndex, ht, if_true] at hf ho ⊢
            cases hf
            cases below with
            | nil => cases ho
            | cons next rest =>
              cases ho
              exact ⟨[], frame, owner, rest, rfl, .inl rfl, hd, hnone, ha, hp, rfl⟩
          · simp only [recoverIndex, ht] at hf ho ⊢
            match below, hf, ho with
            | next :: second :: rest, hf, ho =>
              cases hf
              cases ho
              exact ⟨[top], frame, owner, rest, rfl,
                .inr ⟨top, rfl, eq_false_of_ne_true ht⟩, hd, hnone, ha,
                hp, rfl⟩
  · cases hr

theorem recover_changes {cur : ExecutionFrame V} (hf : task.frames = cur :: below)
    (hru : cur.completionActive = false) :
    ReflTransGen (Change mods mayReplace) task (task.recover cur) := by
  unfold recover
  split
  · exact .refl
  · next frames panic hr =>
    obtain ⟨upper, frame, owner, rest, hs, hu, hd, hnone, ha, hp, rfl⟩ := recoverValue_eq_some hr
    refine .single (.recover (by simp [hf]) hru hs ?_ hd hnone ha hp)
    refine hu.imp id ?_
    rintro ⟨top, rfl, ht⟩
    have hc : cur = top := by
      rw [hf] at hs
      exact (List.cons.inj hs).1
    exact hc ▸ ⟨rfl, hc ▸ ht⟩

theorem store_changes {depth : Nat} {name : String} {val : V}
    (hs : task.store depth name val = .ok next) :
    ReflTransGen (Change mods mayReplace) task next := by
  unfold store at hs
  split at hs
  · cases hs
  · next hf =>
    cases hs
    exact .single (.store _ hf)

section

variable
  (hk : ∀ {before after}, Invariant before → Change mods mayReplace before after → Invariant after)
include hk

/-- Every step is a sequence of changes. -/
theorem step_changes (hc : ∀ {before}, Invariant before → Completing before)
    {action : Action V} (hi : Invariant task)
    (hreplace : action.ReplacesFrame task → mayReplace task)
    (hs : task.step mods action = .ok next) :
    ReflTransGen (Change mods mayReplace) task next := by
  unfold step at hs
  split at hs
  · cases hs
  · next cur below hf =>
    split at hs
    · exact store_changes hs
    · split at hs
      · next ha =>
        exact advanceFrom_changes hk hc hf ha hi hs
      · cases hs
    · split at hs
      · cases hs
      · next ha =>
        have hru := eq_false_of_ne_true ha
        split at hs
        · cases hs
          exact .single (.call hf hru ⟨rfl, rfl, rfl, rfl⟩ rfl rfl)
        · cases hs
          unfold enterDirectTailCall
          split
          · next hr =>
            have hal := hreplace (by simpa [Action.ReplacesFrame, hf] using hr)
            simp only [Bool.and_eq_true, List.isEmpty_iff] at hr
            exact .single (.tailCall hal hf hru hr.1.2 ⟨rfl, rfl, rfl, rfl⟩ rfl rfl)
          · exact .single (.call hf hru ⟨rfl, rfl, rfl, rfl⟩ rfl rfl)
        · unfold deferPush at hs
          split at hs
          · cases hs
          · split at hs
            · cases hs
            · next ho =>
              cases hs
              exact .single (.register _ _ ho)
        · cases hs
          exact recover_changes hf hru
        · cases hs
          exact .single (.raise _ hf hru)
        · obtain ⟨vals, -, hnext⟩ := bind_eq_ok.mp hs
          cases hnext
          exact .single (.complete _ hf hru)
        · obtain ⟨vals, -, hnext⟩ := bind_eq_ok.mp hs
          cases hnext
          exact .single (.complete _ hf hru)
        · exact store_changes hs
        · cases hs

theorem changes_keep (hc : ReflTransGen (Change mods mayReplace) task next)
    (hi : Invariant task) : Invariant next := by
  induction hc with
  | refl => exact hi
  | tail _ hch ih => exact hk ih hch

/-- What the changes keep holds after every run. -/
theorem run_keeps (hc : ∀ {before}, Invariant before → Completing before)
    {actions : List (Action V)} {last : Task V} (hi : Invariant task)
    (hre : task.Along mods (fun before action =>
      action.ReplacesFrame before → mayReplace before) actions)
    (hru : task.run mods actions = .ok last) : Invariant last := by
  induction actions generalizing task with
  | nil =>
    cases hru
    exact hi
  | cons action rest ih =>
    obtain ⟨next, hs, hr⟩ := bind_eq_ok.mp hru
    have hch := step_changes hk hc hi hre.1 hs
    exact ih (changes_keep hk hch hi) (hre.2 next hs) hr

end

end Steps

end MiniGo.Runtime.Frames
