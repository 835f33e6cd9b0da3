/-
What becomes of a panic.

A panic that leaves an activation goes on at once: it replaces how the owner of a deferred
call completes, or it propagates to the caller, or it ends the task. It has not been
recovered then. A deferred call that returns after the panic it was started for has been
recovered turns the completion of its owner into a return.
-/
import MiniGo.Runtime.FrameLives

namespace MiniGo.Runtime.Frames

open ExecutionFrame Frames.Task List

variable {V : Type}

/-- The identities of the panics that a log reports as recovered. -/
def recoveredIn (log : List (Event V)) : List Nat :=
  log.filterMap fun
    | .recovered _ panic => some panic.id
    | _ => none

/-- What stands after the end of an activation in the log of a task. -/
def Answered (task : Task V) (before : List (Event V)) (next : Option (Event V)) :
    Event V → Prop
  | .left activation (.panicked panic) =>
    panic.id ∉ recoveredIn before ∧
    (∀ owner cause, task.originOf activation = some (.deferred owner cause) →
      next = some (.replaced owner panic)) ∧
    ((∃ owner, next = some (.replaced owner panic) ∨ next = some (.propagated owner panic)) ∨
      next = none ∧ task.frames = [])
  | .left activation (.returned _) =>
    ∀ owner panic, task.originOf activation = some (.deferred owner (some panic)) →
      panic.id ∈ recoveredIn before → next = some (.restored owner)
  | _ => True

/-- Every panic goes on, and every recovered panic ends in a return of the owner. -/
def PanicsGoOn (task : Task V) : Prop :=
  ∀ before event after, task.log = before ++ event :: after →
    Answered task before after.head? event

/-- A deferred call stands on the frame of its owner. -/
def Owned (task : Task V) : Prop :=
  ∀ upper activation below, task.frames.map ExecutionFrame.id = upper ++ activation :: below →
    ∀ owner cause, task.originOf activation = some (.deferred owner cause) →
      below.head? = some owner

section Owned

variable {task next : Task V}

theorem Owned.of_suffix (howned : Owned task)
    (hframes : next.frames.map ExecutionFrame.id <:+ task.frames.map ExecutionFrame.id)
    (hactivations : next.activations = task.activations) : Owned next := by
  intro upper activation below hids owner cause horigin
  obtain ⟨gone, hgone⟩ := hframes
  rw [originOf, hactivations] at horigin
  refine howned (gone ++ upper) activation below ?_ owner cause horigin
  rw [← hgone, hids, append_assoc]

/-- A new frame is put on frames that were there before. -/
theorem Owned.enter (howned : Owned task)
    (hknown : ∀ frame ∈ task.frames, frame.id < task.activations.length)
    {frames : List (ExecutionFrame V)} {frame : ExecutionFrame V} {origin : Origin V}
    {events : List (Event V)}
    (hframes : frames.map ExecutionFrame.id <:+ task.frames.map ExecutionFrame.id)
    (hid : frame.id = task.activations.length)
    (horigin : ∀ owner cause, origin = .deferred owner cause →
      (frames.map ExecutionFrame.id).head? = some owner) :
    Owned (task.enter (frame :: frames) frame origin events) := by
  intro upper activation below hids owner cause hactivation
  have hsplit : frame.id :: frames.map ExecutionFrame.id = upper ++ activation :: below := hids
  rcases cons_eq_append_iff.mp hsplit with ⟨rfl, htop⟩ | ⟨rest, rfl, hrest⟩
  · obtain ⟨rfl, rfl⟩ := cons.inj htop
    rw [hid, originOf_enter_new] at hactivation
    exact horigin owner cause (Option.some.inj hactivation)
  · obtain ⟨gone, hgone⟩ := hframes
    have hold : task.frames.map ExecutionFrame.id = (gone ++ rest) ++ activation :: below := by
      rw [← hgone, hrest, append_assoc]
    have hmem : activation ∈ task.frames.map ExecutionFrame.id := by simp [hold]
    obtain ⟨found, hfound, rfl⟩ := mem_map.mp hmem
    rw [originOf_enter_old (hknown found hfound)] at hactivation
    exact howned _ _ _ hold owner cause hactivation

theorem Owned.change {modules : Modules V} {mayReplace : Task V → Prop} (howned : Owned task)
    (hlively : Lively task) (hchange : Change modules mayReplace task next) : Owned next := by
  cases hchange with
  | @call callee current below hframes hrunning hfresh =>
    exact howned.enter hlively.known (by rw [hframes]) hfresh.id_eq (by simp)
  | @tailCall callee current below hreplace hframes hrunning hdefers hfresh =>
    exact howned.enter hlively.known (by rw [hframes]; exact suffix_cons _ _) hfresh.id_eq
      (by simp)
  | @register owner depth ref source howner =>
    refine howned.of_suffix ⟨[], map_id_set howner ?_⟩ rfl
    rfl
  | @recover current frame owner upper rest panic hcurrent hrunning hframes =>
    refine howned.of_suffix ?_ rfl
    simp [update, hframes]
  | @store frame depth cells hframe =>
    refine howned.of_suffix ⟨[], map_id_set hframe ?_⟩ rfl
    rfl
  | raise value hframes hrunning =>
    exact howned.of_suffix (by simp [startPanic, update, hframes, setCompletion]) rfl
  | complete values hframes hrunning =>
    exact howned.of_suffix (by simp [update, hframes, setCompletion]) rfl
  | @startDeferred current below record rest hframes hactive hdefers =>
    refine howned.enter hlively.known (by simp [hframes]) rfl ?_
    intro owner cause horigin
    cases horigin
    rfl
  | replace hframes => exact howned.of_suffix (by simp [update, hframes, setCompletion]) rfl
  | restore values hframes => exact howned.of_suffix (by simp [update, hframes, setCompletion]) rfl
  | endDeferred hframes => exact howned.of_suffix (by simp [update, hframes]) rfl
  | propagate hframes => exact howned.of_suffix (by simp [update, hframes, setCompletion]) rfl
  | deliver values hframes => exact howned.of_suffix (by simp [update, hframes]) rfl
  | escape hframes => exact howned.of_suffix (by simp [update]) rfl

end Owned

section Change

variable {task next : Task V}

/-- More may happen as long as the task has a frame. -/
theorem Answered.mono {before : List (Event V)} {event : Event V} {old new : Option (Event V)}
    (hanswered : Answered task before old event) (hframes : task.frames ≠ [])
    (hnext : ∀ answer, old = some answer → new = some answer)
    (horigin : ∀ ending, event = .left event.activation ending →
      next.originOf event.activation = task.originOf event.activation) :
    Answered next before new event := by
  cases event with
  | left activation ending =>
    have hsame := horigin ending rfl
    cases ending with
    | panicked panic =>
      obtain ⟨hopen, hdeferred, hgoes⟩ := hanswered
      refine ⟨hopen, fun owner cause hactivation => ?_, .inl ?_⟩
      · exact hnext _ (hdeferred owner cause (hsame.symm.trans hactivation))
      · obtain ⟨owner, hgoes⟩ := hgoes.resolve_right fun hlast => hframes hlast.2
        exact ⟨owner, hgoes.imp (hnext _) (hnext _)⟩
    | returned values =>
      intro owner panic hactivation hrecovered
      exact hnext _ (hanswered owner panic (hsame.symm.trans hactivation) hrecovered)
    | tailCalled => trivial
  | _ => trivial

/-- New events are answered among themselves, and old ones as before. -/
theorem PanicsGoOn.append {events : List (Event V)} (hgoOn : PanicsGoOn task)
    (hlively : Lively task) (hframes : task.frames ≠ [])
    (hlog : next.log = task.log ++ events)
    (horigin : ∀ activation < task.activations.length,
      next.originOf activation = task.originOf activation)
    (hnew : ∀ before event after, events = before ++ event :: after →
      Answered next (task.log ++ before) after.head? event) : PanicsGoOn next := by
  intro before event after hsplit
  rw [hlog] at hsplit
  rcases append_eq_append_iff.mp hsplit with ⟨more, rfl, hevents⟩ | ⟨more, hold, hevents⟩
  · exact hnew more event after hevents
  · cases more with
    | nil =>
      rw [append_nil] at hold
      rw [← hold, ← append_nil task.log]
      exact hnew [] event after hevents.symm
    | cons first more =>
      obtain ⟨rfl, rfl⟩ := cons.inj hevents
      refine (hgoOn before event more hold).mono hframes ?_ fun ending hleft => horigin _ ?_
      · intro answer hanswer
        exact head?_append.trans (by rw [hanswer, Option.some_or])
      · have hdone := Life.pending_of_left (hlively.lives event.activation)
          (hleft ▸ hold ▸ mem_append_right before mem_cons_self)
        by_contra hunknown
        have habsent : ∀ frame ∈ task.frames, frame.id ≠ event.activation := fun frame hframe hid =>
          hunknown (hid ▸ hlively.known frame hframe)
        rw [lifeOf, lifeIn_absent habsent, absentLife, if_neg hunknown] at hdone
        cases hdone

/-- Events that are no end of an activation need no answer. -/
theorem PanicsGoOn.quiet {events : List (Event V)} (hgoOn : PanicsGoOn task)
    (hlively : Lively task) (hframes : task.frames ≠ []) (hlog : next.log = task.log ++ events)
    (horigin : ∀ activation < task.activations.length,
      next.originOf activation = task.originOf activation)
    (hquiet : ∀ event ∈ events, ∀ activation ending, event = .left activation ending →
      ending = .tailCalled) : PanicsGoOn next := by
  refine hgoOn.append hlively hframes hlog horigin fun before event after hsplit => ?_
  have hends := hquiet event (hsplit ▸ mem_append_right before mem_cons_self)
  cases event with
  | left activation ending =>
    rw [hends activation ending rfl]
    trivial
  | _ => trivial

/-- One activation ends, and at most one other event follows. -/
theorem PanicsGoOn.leave {activation : ActivationId} {ending : Ending V} {rest : List (Event V)}
    (hgoOn : PanicsGoOn task) (hlively : Lively task) (hframes : task.frames ≠ [])
    (hlog : next.log = task.log ++ .left activation ending :: rest)
    (hactivations : next.activations = task.activations)
    (hrest : ∀ event ∈ rest, ∀ other found, event ≠ .left other found)
    (hanswered : Answered next task.log rest.head? (.left activation ending)) :
    PanicsGoOn next := by
  refine hgoOn.append hlively hframes hlog (fun _ _ => by rw [originOf, originOf, hactivations])
    fun before event after hsplit => ?_
  rcases cons_eq_append_iff.mp hsplit with ⟨rfl, htop⟩ | ⟨middle, rfl, hmiddle⟩
  · obtain ⟨rfl, rfl⟩ := cons.inj htop
    rw [append_nil]
    exact hanswered
  · have hother := hrest event (hmiddle ▸ mem_append_right middle mem_cons_self)
    cases event with
    | left other found => exact absurd rfl (hother other found)
    | _ => trivial

variable {current : ExecutionFrame V} {below : List (ExecutionFrame V)}

/-- The link of the running frame to the one below it. -/
theorem WellStacked.linked_top (hstack : WellStacked task)
    (hframes : task.frames = current :: below) :
    Linked task current.core (below.map core).head? := by
  have hlinked := hstack.linked
  rw [cores, hframes] at hlinked
  exact hlinked.1

theorem WellStacked.not_recovered (hstack : WellStacked task)
    (hframes : task.frames = current :: below) {panic : MachinePanic V}
    (hpanic : current.completion.panic = some panic) : panic.id ∉ recoveredIn task.log := by
  have htop : task.cores.head? = some current.core := by rw [cores, hframes]; rfl
  exact hstack.top htop hpanic

/-- The running frame is a deferred call of the frame below it. -/
theorem Owned.owner_eq {owner : ExecutionFrame V} {rest : List (ExecutionFrame V)}
    (howned : Owned task) (hframes : task.frames = current :: owner :: rest)
    {activation : ActivationId} {cause : Option (MachinePanic V)}
    (horigin : task.originOf current.id = some (.deferred activation cause)) :
    activation = owner.id := by
  have hids : task.frames.map ExecutionFrame.id =
      [] ++ current.id :: (owner :: rest).map ExecutionFrame.id := by rw [hframes]; rfl
  exact (Option.some.inj (howned _ _ _ hids _ _ horigin)).symm

theorem PanicsGoOn.change {modules : Modules V} {mayReplace : Task V → Prop}
    (hgoOn : PanicsGoOn task) (hlively : Lively task) (hstack : WellStacked task)
    (howned : Owned task) (hchange : Change modules mayReplace task next) : PanicsGoOn next := by
  have hsome : task.frames ≠ [] := by
    intro hnone
    cases hchange with
    | register ref source howner => simp [hnone] at howner
    | store cells hframe => simp [hnone] at hframe
    | recover hcurrent => simp [hnone] at hcurrent
    | call hframes | tailCall _ hframes | raise _ hframes | complete _ hframes
    | startDeferred hframes | replace hframes | restore _ hframes | endDeferred hframes
    | propagate hframes | deliver _ hframes | escape hframes => simp [hnone] at hframes
  cases hchange with
  | call => exact hgoOn.quiet hlively hsome rfl (fun _ => originOf_enter_old) (by simp)
  | tailCall => exact hgoOn.quiet hlively hsome rfl (fun _ => originOf_enter_old) (by simp)
  | startDeferred => exact hgoOn.quiet hlively hsome rfl (fun _ => originOf_enter_old) (by simp)
  | store => exact hgoOn.quiet hlively hsome (append_nil _).symm (fun _ _ => rfl) (by simp)
  | register | recover | raise | complete =>
    exact hgoOn.quiet hlively hsome rfl (fun _ _ => rfl) (by simp)
  | @replace current owner rest panic hframes hactive hdefers hdeferred hpanic =>
    refine hgoOn.leave hlively hsome rfl rfl (by simp)
      ⟨hstack.not_recovered hframes hpanic, fun activation cause horigin => ?_,
        .inl ⟨owner.id, .inl rfl⟩⟩
    rw [howned.owner_eq hframes horigin]
    rfl
  | @restore current owner rest values hframes hactive hdefers hdeferred hpanic hrecovers =>
    refine hgoOn.leave hlively hsome rfl rfl (by simp) fun activation panic horigin _ => ?_
    rw [howned.owner_eq hframes horigin]
    rfl
  | @endDeferred current owner rest hframes hactive hdefers hdeferred hpanic hrecovers =>
    refine hgoOn.leave hlively hsome rfl rfl (by simp) fun activation panic horigin hrecovered => ?_
    -- the call would have been found to recover the panic of its owner
    have hlinked := hstack.linked_top hframes
    have hcause : owner.completion.panic = some panic := (hlinked.deferredOrigin horigin).2.symm
    have hconsumed : current.recoveredPanic = some panic := hlinked.consumed hcause hrecovered
    simp [recovers, hconsumed, hcause] at hrecovers
  | @propagate current owner rest panic hframes hactive hdefers hdeferred hpanic =>
    refine hgoOn.leave hlively hsome rfl rfl (by simp)
      ⟨hstack.not_recovered hframes hpanic, fun activation cause horigin => ?_,
        .inl ⟨owner.id, .inr rfl⟩⟩
    have hcalled := ((hstack.linked_top hframes).deferredOrigin horigin).1
    exact absurd (hdeferred.symm.trans hcalled) (by simp)
  | @deliver current below values hframes hactive hdefers hdeferred hpanic =>
    refine hgoOn.leave hlively hsome rfl rfl (by simp) fun activation panic horigin _ => ?_
    have hcalled := ((hstack.linked_top hframes).deferredOrigin horigin).1
    exact absurd (hdeferred.symm.trans hcalled) (by simp)
  | @escape current panic hframes hactive hdefers hpanic =>
    refine hgoOn.leave hlively hsome rfl rfl (by simp)
      ⟨hstack.not_recovered hframes hpanic, fun activation cause horigin => ?_, .inr ⟨rfl, rfl⟩⟩
    have hlinked := hstack.linked_top hframes
    exact absurd (hlinked.owner.symm.trans (hlinked.deferredOrigin horigin).1) (by simp)

end Change

end MiniGo.Runtime.Frames
