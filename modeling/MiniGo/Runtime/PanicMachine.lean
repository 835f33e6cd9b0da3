/-
Deferred calls, panics and recovery over whole runs.

In every run the deferred calls of an activation run once each, the last registered
first; a panic is recovered at most once; an activation whose panic has been recovered
returns, with the values that its named results have at that moment; and a panic in a
deferred call takes the place of the one before it and leaves the remaining deferred
calls alone. `recover` answers the functions that it should as long as no tail call
takes the place of a frame from which `recover` still could stop a panic.
-/
import MiniGo.Runtime.FrameEndings
import MiniGo.Runtime.FrameRecovery

namespace MiniGo.Runtime.Frames

open Replay Result Relation Frames.Task ExecutionFrame List

variable {V : Type} {modules : Modules V}

/-- The deferred calls of every activation: none is registered twice, each of them is
started once or is still pending, none is pending when the activation has ended, and
what is registered after a call is started before it. -/
def DefersRunInReverse (log : List (Event V)) : Prop :=
  ∀ activation, (log.filterMap (Event.registeredWith activation)).Nodup ∧ (∃ pending,
      (log.filterMap (Event.registeredWith activation)).Perm
        (log.filterMap (Event.startedFrom activation) ++ pending) ∧
      ∀ ending, .left activation ending ∈ log → pending = []) ∧
    ∀ before between after call source, log = before ++ .registered activation call source ::
        (between ++ .started activation call :: after) →
      (between.filterMap (Event.registeredWith activation)).Perm
        (between.filterMap (Event.startedFrom activation))

/-- An activation ends as it completes, and its deferred calls have the last word: it
returns after a return or after the recovery of its panic, and it panics with the panic
that it has raised, that has come from a callee, or that a deferred call has put in the
place of the one before. -/
def EndsAsCompleted (log : List (Event V)) : Prop :=
  ∀ activation before event between ending after,
    log = before ++ event :: (between ++ .left activation ending :: after) →
    (∀ other ∈ between, ¬ other.changes activation) →
    (event = .restored activation ∨ event = .returning activation →
      ∃ values, ending = .returned values) ∧
    ∀ panic, event = .replaced activation panic ∨ event = .raised activation panic ∨
        event = .propagated activation panic →
      ∃ other, ending = .panicked other ∧ other.id = panic.id

/-- The values that a frame delivers are those that its named results have. -/
def Delivers (modules : Modules V) (frame : ExecutionFrame V) (values : List V) : Prop :=
  frame.hasResultLocals = true → ∃ current, frame.currentResultValues modules = .ok current ∧
      values = if frame.qualifyResults then current.map modules.qualifyForExport else current

/-- An activation that returns in a step delivers the values that its named results have
before the step. -/
def ReturnsNamedResults (modules : Modules V) (task next : Task V) : Prop :=
  ∃ events, next.log = task.log ++ events ∧
    ∀ activation values, .left activation (.returned values) ∈ events →
      ∃ frame ∈ task.frames, frame.id = activation ∧ Delivers modules frame values

/-- A tail call takes the place of its caller only where `recover` would return nil. -/
def Harmless (task : Task V) (action : Action V) : Prop :=
  action.ReplacesFrame task → Unrecoverable task

section Invariants

/-- Every registered call has a number of its own. -/
structure Numbered (task : Task V) : Prop where
  distinct : ∀ activation, (task.log.filterMap (Event.registeredWith activation)).Nodup
  known : ∀ activation, ∀ call ∈ task.log.filterMap (Event.registeredWith activation),
    call < task.nextDefer

variable {task next : Task V} {mayReplace : Task V → Prop}

theorem Numbered.append {events : List (Event V)}
    (hn : Numbered task) (hl : next.log = task.log ++ events)
    (hd : next.nextDefer = task.nextDefer)
    (hev : ∀ event ∈ events, ∀ activation, event.registeredWith activation = none) :
    Numbered next := by
  have hs : ∀ activation, next.log.filterMap (Event.registeredWith activation) =
      task.log.filterMap (Event.registeredWith activation) := by
    intro activation
    rw [hl, filterMap_append, filterMap_eq_nil_iff.mpr fun event he => hev event he activation,
      append_nil]
  constructor
  · intro activation
    rw [hs]
    exact hn.distinct activation
  · intro activation
    rw [hs, hd]
    exact hn.known activation

theorem Numbered.change (hn : Numbered task) (hch : Change modules mayReplace task next) :
    Numbered next := by
  cases hch with
  | @register owner depth ref src how =>
    have hl : ∀ activation, (task.log ++ [Event.registered owner.id task.nextDefer src]).filterMap
          (Event.registeredWith activation) =
        task.log.filterMap (Event.registeredWith activation) ++
          (if owner.id = activation then [task.nextDefer] else []) := by
      intro activation
      by_cases how : owner.id = activation <;>
        simp [Event.registeredWith, how]
    constructor
    · intro activation
      change ((task.log ++ [_]).filterMap _).Nodup
      rw [hl]
      split
      · refine nodup_append.mpr ⟨hn.distinct activation, nodup_singleton _, ?_⟩
        intro call hc other ho hs
        rw [mem_singleton.mp ho] at hs
        exact Nat.ne_of_lt (hn.known activation call hc) hs
      · simpa using hn.distinct activation
    · intro activation call hc
      change call ∈ (task.log ++ [_]).filterMap _ at hc
      rw [hl] at hc
      rcases mem_append.mp hc with hc | hc
      · exact Nat.lt_succ_of_lt (hn.known activation call hc)
      · split at hc
        · rw [mem_singleton.mp hc]
          exact Nat.lt_succ_self _
        · cases hc
  | store cells hf => exact hn.append (append_nil _).symm rfl (by simp)
  | _ => exact hn.append rfl rfl (by simp [Event.registeredWith])

/-- The invariant of every run. -/
structure Consistent (task : Task V) : Prop where
  stack : WellStacked task
  lively : Lively task
  numbered : Numbered task
  owned : Owned task
  goesOn : PanicsGoOn task

theorem Consistent.change (hcons : Consistent task) (hc : Change modules mayReplace task next) :
    Consistent next where
  stack := hcons.stack.change hc
  lively := hcons.lively.change hcons.stack hc
  numbered := hcons.numbered.change hc
  owned := hcons.owned.change hcons.lively hc
  goesOn := hcons.goesOn.change hcons.lively hcons.stack hcons.owned hc

theorem start_directStacked (ref : FunctionRef) : DirectStacked (start modules ref) where
  linked := by
    refine ⟨?_, trivial⟩
    constructor <;>
      simp [start, enter, newExecutionFrame, core, originOf, ownerPanic]
  callers := by simp [start, enter, originOf, getElem?_cons]
  top := by
    rintro frame panic hf hp
    cases hf
    cases hp
  distinct := by simp [start, enter, newExecutionFrame, cores, core, panicIds]
  panicsKnown := by simp [start, enter, newExecutionFrame, cores, core, panicIds]
  recoveredKnown := by simp [start, enter, recoveredPanics]
  recoveredOnce := by simp [start, enter, recoveredPanics]
  direct := by
    refine ⟨⟨?_, ?_⟩, trivial⟩ <;> simp [ownerPanic]

theorem start_consistent (ref : FunctionRef) : Consistent (start modules ref) where
  stack := (start_directStacked ref).toWellStacked
  lively := by
    constructor
    · simp [start, enter]
    · simp [start, enter, newExecutionFrame]
    · intro activation
      by_cases hr : activation = 0
      · subst hr
        rfl
      · rw [lifeOf, lifeIn_absent]
        · have hn : ¬ activation < 1 := fun hlt => hr (Nat.lt_one_iff.mp hlt)
          simp [absentLife, start, enter, hn]
        · simpa [start, enter, newExecutionFrame] using Ne.symm hr
  numbered := by constructor <;> simp [start, enter]
  owned := by
    intro upper activation below hids owner cause horigin
    obtain ⟨rfl, rfl, rfl⟩ : upper = [] ∧ activation = 0 ∧ below = [] := by
      simpa [start, enter, newExecutionFrame, singleton_eq_append_iff] using hids
    cases horigin
  goesOn := by
    intro before event after hsplit
    simp [start, enter] at hsplit

theorem Task.along_of_forall {condition : Task V → Action V → Prop}
    (hall : ∀ task action, condition task action) (task : Task V) (actions : List (Action V)) :
    task.Along modules condition actions := by
  induction actions generalizing task with
  | nil => trivial
  | cons action rest ih => exact ⟨hall task action, fun next _ => ih next⟩

theorem run_consistent {ref : FunctionRef} {actions : List (Action V)}
    (hr : (start modules ref).run modules actions = .ok task) : Consistent task := by
  have hk : ∀ {pre after : Task V}, Consistent pre →
      Change modules (fun _ => True) pre after → Consistent after :=
    fun hb hc => hb.change hc
  exact run_keeps hk (fun hb => hb.stack.completing) (start_consistent ref)
    (along_of_forall (fun _ _ _ => trivial) _ _) hr

end Invariants

section Lives

variable {task : Task V}

theorem Consistent.defersRunInReverse (hcons : Consistent task) : DefersRunInReverse task.log := by
  intro activation
  have hli := hcons.lively.lives activation
  have discipline := Life.stackDiscipline (V := V) activation
  refine ⟨hcons.numbered.distinct activation, ⟨(task.lifeOf activation).pending, ?_, ?_⟩, ?_⟩
  · simpa [Life.fresh] using discipline.pushed_perm hli
  · intro ending hl
    rw [Life.pending_of_left hli hl]
    rfl
  · intro pre between after call src hlo
    have hd := hcons.numbered.distinct activation
    rw [hlo] at hli hd
    have hp : Event.registeredWith activation
        (.registered activation call src : Event V) = some call := if_pos rfl
    have hpo : Event.startedFrom activation (.started activation call : Event V) =
        some call := if_pos rfl
    exact discipline.pushed_perm_popped hli hp hpo (by simpa [Life.fresh] using hd)

theorem Consistent.endsAsCompleted (hcons : Consistent task) : EndsAsCompleted task.log := by
  intro activation pre event between ending after hlo hk
  have hli := hcons.lively.lives activation
  rw [hlo] at hli
  obtain ⟨first, -, hli⟩ := replay_append_eq_some.mp hli
  obtain ⟨second, he, hli⟩ := replay_cons_eq_some.mp hli
  obtain ⟨third, hb, hli⟩ := replay_append_eq_some.mp hli
  obtain ⟨fourth, hl, -⟩ := replay_cons_eq_some.mp hli
  have hliv : replay (Life.step activation) (between ++ [.left activation ending]) second =
      some fourth :=
    replay_append_eq_some.mpr ⟨third, hb, replay_cons_eq_some.mpr ⟨fourth, hl, rfl⟩⟩
  have hen : second.phase ≠ .running → second.phase ≠ .ended →
      Life.completes second.phase ending := by
    intro hr hend
    refine Life.ending_of_completing hliv hr hend ?_ (by simp)
    intro other ho
    rcases mem_append.mp ho with ho | ho
    · exact hk other ho
    · rw [mem_singleton.mp ho]
      exact id
  constructor
  · intro hevent
    have hp : second.phase = .returning := by
      obtain ⟨phase, pending⟩ := first
      rcases hevent with rfl | rfl
      all_goals
        simp only [Life.step, Event.activation, if_true] at he
        cases phase <;> simp [Life.apply] at he
        simp [← he]
    have hc := hen (by simp [hp]) (by simp [hp])
    rw [hp] at hc
    cases ending with
    | returned vals => exact ⟨vals, rfl⟩
    | panicked panic => cases hc
    | tailCalled => cases hc
  · intro panic hevent
    have hp : second.phase = .panicking panic := by
      obtain ⟨phase, pending⟩ := first
      rcases hevent with rfl | rfl | rfl
      all_goals
        simp only [Life.step, Event.activation, if_true] at he
        cases phase <;> simp [Life.apply] at he <;> simp [← he]
    have hc := hen (by simp [hp]) (by simp [hp])
    rw [hp] at hc
    cases ending with
    | returned vals => cases hc
    | panicked other => exact ⟨other, rfl, hc⟩
    | tailCalled => cases hc

end Lives

section Results

/-- What a frame delivers when it returns: the current values of its named results. -/
theorem ExecutionFrame.refreshResults_values {frame refreshed : ExecutionFrame V}
    (hr : frame.refreshResults modules = .ok refreshed)
    (hp : refreshed.completion.panic = none) (hn : frame.hasResultLocals = true) :
    frame.currentResultValues modules = .ok refreshed.completion.returnValues := by
  unfold refreshResults at hr
  split at hr
  · obtain ⟨vals, hv, hsome⟩ := bind_eq_ok.mp hr
    cases hsome
    exact hv
  · next hg =>
    cases hr
    simp [hp, hn] at hg

theorem Delivers.refreshed {frame refreshed : ExecutionFrame V}
    (hr : frame.refreshResults modules = .ok refreshed)
    (hp : refreshed.completion.panic = none) :
    Delivers modules frame (refreshed.resultValues modules) := by
  intro hn
  refine ⟨_, refreshResults_values hr hp hn, ?_⟩
  obtain ⟨vals, rfl⟩ := refreshResults_eq hr
  rfl

variable {below : List (ExecutionFrame V)} {hostPanic : Option V}

/-- The end of a call delivers the results of the callee and of no other frame. -/
theorem deliver_results {task next : Task V} {cur caller : ExecutionFrame V}
    (hd : task.deliver modules cur caller below hostPanic = .ok next) :
    ∃ events, next.log = task.log ++ events ∧
      ∀ activation vals, .left activation (.returned vals) ∈ events →
        cur.id = activation ∧ vals = cur.resultValues modules := by
  unfold deliver at hd
  dsimp only at hd
  split at hd
  · cases hd
  · split at hd
    · obtain ⟨normalized, -, hnext⟩ := bind_eq_ok.mp hd
      cases hnext
      exact ⟨_, rfl, by simp [eq_comm]⟩
    · cases hd
      exact ⟨_, rfl, by simp [eq_comm]⟩
    · cases hd
      exact ⟨_, rfl, by simp [eq_comm]⟩

/-- The loop of `advanceCompletion` delivers the named results as they are before it. -/
theorem advanceFrom_results : ∀ {task next : Task V} {cur : ExecutionFrame V},
      task.advanceFrom modules hostPanic cur below = .ok next →
      ∃ events, next.log = task.log ++ events ∧
        ∀ activation values, .left activation (.returned values) ∈ events →
          ∃ frame ∈ cur :: below, frame.id = activation ∧ Delivers modules frame values := by
  induction below with
  | nil =>
    intro task next cur ha
    unfold advanceFrom at ha
    split at ha
    · cases ha
      exact ⟨_, rfl, by simp⟩
    · split at ha
      · cases ha
        exact ⟨_, rfl, by simp⟩
      · split at ha
        · cases ha
        · next refreshed hre =>
          have hid : refreshed.id = cur.id := by
            obtain ⟨values, rfl⟩ := refreshResults_eq hre
            rfl
          dsimp only at ha
          split at ha
          · cases ha
          · split at ha
            · cases ha
              exact ⟨_, rfl, by simp⟩
            · next hp =>
              cases ha
              refine ⟨_, rfl, ?_⟩
              intro activation values hl
              cases mem_singleton.mp hl
              exact ⟨cur, mem_singleton_self _, hid.symm, .refreshed hre hp⟩
  | cons owner rest ih =>
    intro task next cur ha
    -- the rest of the loop sees the frames below with other completions
    have hgo : ∀ {events : List (Event V)} {after : ExecutionFrame V},
        (task.update (after :: rest) events).advanceFrom modules hostPanic after rest =
          .ok next → after.id = owner.id →
        (∀ values, Delivers modules after values → Delivers modules owner values) →
        (∀ activation values, .left activation (.returned values) ∈ events →
          cur.id = activation ∧ Delivers modules cur values) →
        ∃ events, next.log = task.log ++ events ∧
          ∀ activation values, .left activation (.returned values) ∈ events →
            ∃ frame ∈ cur :: owner :: rest, frame.id = activation ∧
              Delivers modules frame values := by
      intro events after hr hid hd he
      obtain ⟨later, hlo, hla⟩ := ih hr
      refine ⟨events ++ later, by simp [hlo, update], ?_⟩
      intro activation values hl
      rcases mem_append.mp hl with hl | hl
      · obtain ⟨hc, hv⟩ := he activation values hl
        exact ⟨cur, mem_cons_self, hc, hv⟩
      · obtain ⟨frame, hf, hs, hv⟩ := hla activation values hl
        rcases mem_cons.mp hf with rfl | hf
        · exact ⟨owner, by simp, hid ▸ hs, hd values hv⟩
        · exact ⟨frame, by simp [hf], hs, hv⟩
    unfold advanceFrom at ha
    split at ha
    · cases ha
      exact ⟨_, rfl, by simp⟩
    · split at ha
      · cases ha
        exact ⟨_, rfl, by simp⟩
      · split at ha
        · cases ha
        · next refreshed hre =>
          have hid : refreshed.id = cur.id := by
            obtain ⟨values, rfl⟩ := refreshResults_eq hre
            rfl
          dsimp only at ha
          split at ha
          · split at ha
            · exact hgo ha rfl (fun _ hv => hv) (by simp)
            · next hp =>
              split at ha
              · cases ha
              · next hlen =>
                have hnone : refreshed.completion.returnValues = [] := by
                  simpa using hlen
                have hd : Delivers modules cur [] := by
                  have := Delivers.refreshed hre hp
                  simpa [resultValues, hnone] using this
                split at ha
                · split at ha
                  · cases ha
                  · refine hgo ha rfl (fun _ hv => hv) ?_
                    simp [hid, hd]
                · refine hgo ha rfl (fun _ hv => hv) ?_
                  simp [hid, hd]
          · split at ha
            · exact hgo ha rfl (fun _ hv => hv) (by simp)
            · next hp =>
              obtain ⟨events, hlo, he⟩ := deliver_results ha
              refine ⟨events, hlo, ?_⟩
              intro activation values hl
              obtain ⟨hac, rfl⟩ := he activation values hl
              exact ⟨cur, mem_cons_self, hid ▸ hac, .refreshed hre hp⟩

theorem step_returnsNamedResults {task next : Task V} {action : Action V}
    (hs : task.step modules action = .ok next) : ReturnsNamedResults modules task next := by
  have hqt : ∀ {after : Task V} (events), after.log = task.log ++ events →
      (∀ activation vals, .left activation (.returned vals) ∉ events) →
      ReturnsNamedResults modules task after :=
    fun events hlo hnone => ⟨events, hlo, fun activation vals hl =>
      absurd hl (hnone activation vals)⟩
  unfold step at hs
  split at hs
  · cases hs
  · next cur below hf =>
    split at hs
    · unfold store at hs
      split at hs
      · cases hs
      · cases hs
        exact hqt [] (by simp) (by simp)
    · split at hs
      · obtain ⟨events, hlo, he⟩ := advanceFrom_results hs
        exact ⟨events, hlo, hf ▸ he⟩
      · cases hs
    · split at hs
      · cases hs
      · split at hs
        · cases hs
          exact hqt _ rfl (by simp)
        · cases hs
          unfold enterDirectTailCall
          split
          · exact hqt _ rfl (by simp)
          · exact hqt _ rfl (by simp)
        · unfold deferPush at hs
          split at hs
          · cases hs
          · split at hs
            · cases hs
            · cases hs
              exact hqt _ rfl (by simp)
        · cases hs
          unfold recover
          split
          · exact hqt [] (by simp) (by simp)
          · exact hqt _ rfl (by simp)
        · cases hs
          exact hqt _ rfl (by simp)
        · obtain ⟨vals, -, hnext⟩ := bind_eq_ok.mp hs
          cases hnext
          exact hqt _ rfl (by simp)
        · obtain ⟨vals, -, hnext⟩ := bind_eq_ok.mp hs
          cases hnext
          exact hqt _ rfl (by simp)
        · unfold store at hs
          split at hs
          · cases hs
          · cases hs
            exact hqt [] (by simp) (by simp)
        · cases hs

end Results

section Recovery

variable {task next : Task V} {action : Action V}

theorem Action.ReplacesFrame.tailCall (hr : action.ReplacesFrame task) :
    ∃ fn resultCount debugging qualify cur below,
      action = .tailCall fn resultCount debugging qualify ∧
      task.frames = cur :: below ∧
      (!debugging && cur.defers.isEmpty && !qualify) = true := by
  unfold Action.ReplacesFrame at hr
  split at hr
  · next fn resultCount debugging qualify cur below hf =>
    exact ⟨fn, resultCount, debugging, qualify, cur, below, rfl, hf, hr⟩
  · cases hr

theorem step_directStacked (hs : DirectStacked task) (hh : Harmless task action)
    (hst : task.step modules action = .ok next) : DirectStacked next := by
  have hk : ∀ {pre after : Task V}, DirectStacked pre →
      Change modules Unrecoverable pre after → DirectStacked after :=
    fun hb hc => hb.change hc
  exact changes_keep hk (step_changes hk (fun hb => hb.toWellStacked.completing) hs hh hst) hs

variable {rest : List (ExecutionFrame V)} {actions : List (Action V)} {panic : MachinePanic V}
  {caller : ActivationId}

theorem run_directStacked (hs : DirectStacked task) (hh : task.Along modules Harmless actions)
    (hr : task.run modules actions = .ok next) : DirectStacked next :=
  run_keeps (fun hb hc => hb.change hc) (fun hb => hb.toWellStacked.completing) hs hh hr

variable {fn : ExecutionFrame V} {events : List (Event V)}

theorem originOf_callee {frames : List (ExecutionFrame V)} (hfr : fn.Fresh task) :
    (task.enter frames fn (.called caller) events).originOf fn.id = some (.called caller) := by
  rw [hfr.id_eq]
  exact originOf_enter_new

/-- A callee in the place of a function that a deferred call has called is answered by
`recover`, though the deferred call has not called it. -/
theorem callee_recovers (hs : DirectStacked task) {cur frame owner : ExecutionFrame V}
    (hfrs : task.frames = cur :: frame :: owner :: rest) (hfr : fn.Fresh task)
    (hcl : fn.deferred = cur.deferred) (hcu : cur.deferred = false)
    (hf : frame.deferred = true) (hnone : frame.recoveredPanic = none)
    (ha : owner.completionActive = true) (hp : owner.completion.panic = some panic) :
    ¬ RecoversDirectly (task.enter (fn :: frame :: owner :: rest) fn (.called cur.id) events) := by
  intro hr
  have hd := hs.direct
  rw [cores, hfrs] at hd
  obtain ⟨activation, hor⟩ := hd.2.1.origin hf hnone hp
  have hc : task.originOf cur.id = some (.called frame.id) :=
    hd.1.caller rfl hnone hor hcu
  have hrc : (recoverValue (fn :: frame :: owner :: rest)).2 = some panic :=
    recoverValue_of_frames [fn] rfl (.inr ⟨fn, rfl, hcl.trans hcu⟩) hf hnone ha hp
  obtain ⟨hde, -⟩ := (hr fn _ rfl hfr.running panic).mp hrc
  rcases hde with ⟨other, ho⟩ | ⟨wrapper, other, hw, ho⟩
  · cases (originOf_callee hfr).symm.trans ho
  · cases (originOf_callee hfr).symm.trans hw
    rw [originOf_enter_old (originOf_lt hc)] at ho
    cases hc.symm.trans ho

/-- What a callee in the place of a deferred call calls is answered by `recover`, though
the deferred call has not called it. -/
theorem second_callee_recovers {owner : ExecutionFrame V} (ref : FunctionRef) (hfr : fn.Fresh task)
    (hd : fn.deferred = true) (hnone : fn.recoveredPanic = none)
    (ha : owner.completionActive = true) (hp : owner.completion.panic = some panic)
    (hnext : next = task.enter (fn :: owner :: rest) fn (.called caller) events) :
    ¬ RecoversDirectly (next.call modules fn (owner :: rest) ref 0 false false) := by
  intro hr
  have hc : next.originOf fn.id = some (.called caller) :=
    hnext ▸ originOf_callee hfr
  have hrc : (recoverValue
      (next.call modules fn (owner :: rest) ref 0 false false).frames).2 = some panic :=
    recoverValue_of_frames [_] rfl (.inr ⟨_, rfl, rfl⟩) hd hnone ha hp
  obtain ⟨hdi, -⟩ := (hr _ _ rfl rfl panic).mp hrc
  rcases hdi with ⟨other, ho⟩ | ⟨wrapper, other, hw, ho⟩
  · cases originOf_enter_new.symm.trans ho
  · cases originOf_enter_new.symm.trans hw
    rw [call, originOf_enter_old (originOf_lt hc), hc] at ho
    cases ho

/-- A tail call that takes the place of a frame from which `recover` could stop a panic
lets a function stop it that no deferred function has called. -/
theorem tailCall_harms (hs : DirectStacked task) (hre : action.ReplacesFrame task)
    (hst : task.step modules action = .ok next) (hr : ¬ Unrecoverable task) :
    ∃ later last, next.Along modules Harmless later ∧ next.run modules later = .ok last ∧
      ¬ RecoversDirectly last := by
  obtain ⟨function, resultCount, debugging, qualify, cur, below, rfl, hfrs, hg⟩ :=
    hre.tailCall
  obtain ⟨panic, hp⟩ := Option.ne_none_iff_exists'.mp hr
  obtain ⟨fn, hnext, hfresh, hd, hrec⟩ : ∃ fn : ExecutionFrame V,
      next = task.enter (fn :: below) fn (.called cur.id) [.left cur.id .tailCalled] ∧
      fn.Fresh task ∧ fn.deferred = cur.deferred ∧
      fn.recoveredPanic = cur.recoveredPanic := by
    unfold step at hst
    rw [hfrs] at hst
    dsimp only at hst
    split at hst
    · cases hst
    · cases hst
      rw [enterDirectTailCall, if_pos hg]
      exact ⟨_, rfl, ⟨rfl, rfl, rfl, rfl⟩, rfl, rfl⟩
  obtain ⟨upper, frame, owner, rest, hsp, hu, hfr, hnone, ha, hf, -⟩ :=
    recoverValue_eq_some (Prod.ext rfl hp : recoverValue task.frames = (_, some panic))
  rw [hfrs] at hsp
  rcases hu with rfl | ⟨top, rfl, ht⟩
  · obtain ⟨rfl, rfl⟩ := cons.inj hsp
    let ref : FunctionRef := { function := {} }
    have ht : next.frames = fn :: owner :: rest := hnext ▸ rfl
    have hc : ¬ (Action.call ref 0 false false : Action V).ReplacesFrame next := by
      simp [Action.ReplacesFrame]
    refine ⟨[.call ref 0 false false], next.call modules fn (owner :: rest) ref 0 false false,
      ⟨fun hre => absurd hre hc, fun _ _ => trivial⟩, ?_,
      second_callee_recovers ref hfresh (hd.trans hfr) (hrec.trans hnone) ha hf hnext⟩
    simp only [run, step, ht, hfresh.running]
    rfl
  · obtain ⟨rfl, rfl⟩ := cons.inj hsp
    exact ⟨[], next, trivial, rfl, hnext ▸ callee_recovers hs hfrs hfresh hd ht hfr hnone ha hf⟩

end Recovery

section Programs

/-- Modules whose values are numbers. -/
def numbers : Modules Nat where
  zeroValue := fun _ => 0
  coerceAssignable := fun value _ => .ok value
  qualifyForExport := id
  normalizePanicValue := id

/-- `func Main() (r int) { defer func() { recover(); r = 5 }(); panic(7) }` -/
def recoveringMain : FunctionRef where
  function := { resultTypes := ["Int"], resultLocals := ["r"] }

/-- The wrapper of a deferred call. -/
def deferWrapper : FunctionRef where
  function := {}

def recoveringRun : List (Action Nat) :=
  [.deferPush deferWrapper 0, .panic 7, .advance none,
    .call { function := {} } 0 false false, .recover, .store 2 "r" 5,
    .finish, .advance none, .finish, .advance none]

/-- `func Main() { defer func() int { return helper() }(); panic(7) }` up to the call of
`helper`, which takes the place of the function literal. -/
def tailCallingRun (debugging : Bool) : List (Action Nat) :=
  [.deferPush deferWrapper 0, .panic 7, .advance none,
    .call { function := { resultTypes := ["Int"] } } 1 false false,
    .tailCall { resultTypes := ["Int"] } 1 debugging false]

end Programs

end MiniGo.Runtime.Frames
