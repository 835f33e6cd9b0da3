/-
A worklist solver for forward data flow.

Every node that has been met holds a state; a node taken off the list passes a
state on to its targets, which keep the meet of what they are passed and are put
on the list again when that changes them. When the list is empty every state is
stable: what a node passes on is above the states of its targets.
-/
import MiniGo.Lib.Result

namespace MiniGo.Worklist

open Function List

variable {α σ ε : Type} [DecidableEq α] [SemilatticeInf σ] [DecidableEq σ]

/-- The states so far and the nodes that still have to pass theirs on. -/
structure Progress (α σ : Type) where
  states : α → Option σ
  queued : α → Bool
  queue : List α

/-- Put a node on the list unless it is there. -/
def Progress.enqueue (progress : Progress α σ) (node : α) : Progress α σ :=
  if progress.queued node then progress
  else
    { progress with
      queued := Function.update progress.queued node true
      queue := node :: progress.queue }

/-- Give a node a new state and put it on the list. -/
def Progress.change (progress : Progress α σ) (node : α) (state : σ) :
    Progress α σ :=
  Progress.enqueue { progress with states := Function.update progress.states node (some state) }
    node

/-- Pass a state to a target. -/
def pass (state : σ) (progress : Progress α σ) (target : α) : Progress α σ :=
  match progress.states target with
  | none => progress.change target state
  | some held =>
    if held ⊓ state = held then progress else progress.change target (held ⊓ state)

/-- What a node makes of its state: the targets and the state they are passed. -/
abbrev Flow (α σ ε : Type) := α → σ → Except ε (List α × σ)

/-- Empty the list; `none` when the steps do not suffice. -/
def solve (flow : Flow α σ ε) : Nat → Progress α σ → Option (Except ε (α → Option σ))
  | 0, _ => none
  | steps + 1, progress =>
    match progress.queue with
    | [] => some (.ok progress.states)
    | node :: queue =>
      match progress.states node with
      | none => none
      | some state =>
        match flow node state with
        | .error fault => some (.error fault)
        | .ok (targets, next) =>
          solve flow steps (targets.foldl (pass next) { progress with
              queued := Function.update progress.queued node false
              queue })

section Order

variable {α σ ε : Type} [SemilatticeInf σ]

/-- What a node passes on is above the states of its targets. -/
def Stable (flow : Flow α σ ε) (states : α → Option σ) (node : α) (state : σ) :
    Prop :=
  ∃ targets next, flow node state = .ok (targets, next) ∧
    ∀ target ∈ targets, ∃ held, states target = some held ∧ held ≤ next

/-- The states of the second are below those of the first. -/
def Below (states later : α → Option σ) : Prop :=
  ∀ node state, states node = some state → ∃ held, later node = some held ∧ held ≤ state

theorem Below.refl (states : α → Option σ) : Below states states := fun _ st hs => ⟨st, hs, le_rfl⟩

theorem Below.trans {first second third : α → Option σ}
    (hf : Below first second) (hsn : Below second third) :
    Below first third := by
  intro node st hs
  obtain ⟨held, hheld, hle⟩ := hf node st hs
  obtain ⟨last, hla, hl⟩ := hsn node held hheld
  exact ⟨last, hla, hl.trans hle⟩

theorem Stable.below {flow : Flow α σ ε} {states later : α → Option σ} {node : α}
    {state : σ} (hs : Stable flow states node state)
    (hb : Below states later) : Stable flow later node state := by
  obtain ⟨tgts, next, hf, ht⟩ := hs
  refine ⟨tgts, next, hf, fun tgt htg => ?_⟩
  obtain ⟨held, hheld, hle⟩ := ht tgt htg
  obtain ⟨last, hla, hl⟩ := hb tgt held hheld
  exact ⟨last, hla, hl.trans hle⟩

/-- The flags agree with the list, whose nodes have been met. -/
structure Progress.Queued (progress : Progress α σ) : Prop where
  flag_iff : ∀ node, progress.queued node = true ↔ node ∈ progress.queue
  nodup : progress.queue.Nodup
  met : ∀ node ∈ progress.queue, progress.states node ≠ none

/-- What passing a state to some targets leaves. -/
structure Passed (state : σ) (targets : List α) (before after : Progress α σ) :
    Prop where
  queued : after.Queued
  kept : ∀ node ∈ before.queue, node ∈ after.queue
  below : Below before.states after.states
  reached : ∀ target ∈ targets, ∃ held, after.states target = some held ∧ held ≤ state
  unchanged : ∀ node, node ∉ after.queue → after.states node = before.states node

end Order

variable {progress : Progress α σ}

omit [DecidableEq σ] in
theorem Progress.Queued.change_passed {target : α}
    {next state : σ} (hq : progress.Queued) (hle : next ≤ state)
    (hl : ∀ held, progress.states target = some held → next ≤ held) :
    Passed state [target] progress (progress.change target next) := by
  have hb : Below progress.states (update progress.states target (some next)) := by
    intro node held hheld
    by_cases ht : node = target
    · subst ht
      exact ⟨next, update_self .., hl held hheld⟩
    · exact ⟨held, by rw [update_of_ne ht, hheld], le_rfl⟩
  have hm : ∀ node, (node ∈ progress.queue ∨ node = target) →
      update progress.states target (some next) node ≠ none := by
    intro node hn
    by_cases ht : node = target
    · subst ht
      simp
    · rw [update_of_ne ht]
      exact hq.met node (hn.resolve_right ht)
  have hr : ∀ other ∈ [target], ∃ held,
      update progress.states target (some next) other = some held ∧ held ≤ state := by
    intro other ho
    obtain rfl := mem_singleton.mp ho
    exact ⟨next, update_self .., hle⟩
  unfold Progress.change Progress.enqueue
  split_ifs with hf
  · have ht := (hq.flag_iff target).mp hf
    refine ⟨⟨hq.flag_iff, hq.nodup, fun node hn => hm node (.inl hn)⟩,
      fun _ hn => hn, hb, hr, fun node hn => ?_⟩
    have hne : node ≠ target := by
      rintro rfl
      exact hn ht
    exact update_of_ne hne _ _
  · have ht : target ∉ progress.queue :=
      fun hmem => hf ((hq.flag_iff target).mpr hmem)
    refine ⟨⟨fun node => ?_, nodup_cons.mpr ⟨ht, hq.nodup⟩,
      fun node hn => ?_⟩, fun _ hn => mem_cons_of_mem _ hn, hb,
      hr, fun node hn => ?_⟩
    · rw [mem_cons, ← hq.flag_iff]
      dsimp only
      by_cases hn : node = target <;> simp [hn]
    · exact hm node (mem_cons.mp hn).symm
    · have hne : node ≠ target := by
        rintro rfl
        exact hn mem_cons_self
      exact update_of_ne hne _ _

theorem pass_passed (st : σ) (tgt : α) (hq : progress.Queued) :
    Passed st [tgt] progress (pass st progress tgt) := by
  unfold pass
  cases ht : progress.states tgt with
  | none => exact hq.change_passed le_rfl (by simp [ht])
  | some held =>
    dsimp only
    split_ifs with hs
    · refine ⟨hq, fun _ hn => hn, Below.refl _, ?_, fun _ _ => rfl⟩
      intro other ho
      obtain rfl := mem_singleton.mp ho
      exact ⟨held, ht, inf_eq_left.mp hs⟩
    · refine hq.change_passed inf_le_right fun other ho => ?_
      rw [ht] at ho
      cases ho
      exact inf_le_left

theorem foldl_pass_passed (st : σ) (tgts : List α) (hq : progress.Queued) :
    Passed st tgts progress (tgts.foldl (pass st) progress) := by
  induction tgts generalizing progress with
  | nil =>
    exact ⟨hq, fun _ hn => hn, Below.refl _, by simp, fun _ _ => rfl⟩
  | cons tgt tgts ih =>
    have hf := pass_passed st tgt hq
    have hr := ih hf.queued
    refine ⟨hr.queued, fun node hn => hr.kept node (hf.kept node hn),
      hf.below.trans hr.below, ?_, fun node hn => ?_⟩
    · intro other ho
      rcases mem_cons.mp ho with rfl | ho
      · obtain ⟨held, hheld, hle⟩ := hf.reached _ mem_cons_self
        obtain ⟨last, hla, hl⟩ := hr.below _ held hheld
        exact ⟨last, hla, hl.trans hle⟩
      · exact hr.reached other ho
    · rw [foldl_cons, hr.unchanged node hn]
      exact hf.unchanged node fun hmem => hn (hr.kept node hmem)

/-- A node off the list is stable. -/
structure Progress.Valid (flow : Flow α σ ε) (progress : Progress α σ) : Prop where
  queued : progress.Queued
  stable : ∀ node state, progress.states node = some state →
    node ∉ progress.queue → Stable flow progress.states node state

/-- One step of the solver. -/
theorem Progress.Valid.step {flow : Flow α σ ε} {node : α}
    {queue : List α} {st next : σ} {tgts : List α}
    (hv : progress.Valid flow) (hq : progress.queue = node :: queue)
    (hs : progress.states node = some st)
    (hf : flow node st = .ok (tgts, next)) :
    let after := tgts.foldl (pass next) { progress with
        queued := update progress.queued node false
        queue }
    after.Valid flow ∧ Below progress.states after.states := by
  intro after
  have hnd : (node :: queue).Nodup := hq ▸ hv.queued.nodup
  have ht : Progress.Queued { progress with
      queued := update progress.queued node false
      queue } := by
    refine ⟨fun other => ?_, (nodup_cons.mp hnd).2, fun other ho => ?_⟩
    · by_cases ho : other = node
      · subst ho
        simp [(nodup_cons.mp hnd).1]
      · dsimp only
        rw [update_of_ne ho, hv.queued.flag_iff, hq]
        simp [ho]
    · exact hv.queued.met other (hq ▸ mem_cons_of_mem node ho)
  have hp : Passed next tgts _ after := foldl_pass_passed next tgts ht
  refine ⟨⟨hp.queued, fun other held hheld ho => ?_⟩, hp.below⟩
  rw [hp.unchanged other ho] at hheld
  by_cases hn : other = node
  · subst hn
    rw [hs] at hheld
    cases hheld
    exact ⟨tgts, next, hf, hp.reached⟩
  · refine (hv.stable other held hheld ?_).below hp.below
    rw [hq]
    intro hmem
    exact ho (hp.kept other ((mem_cons.mp hmem).resolve_left hn))

/-- When the solver is done every state is stable and below what it was. -/
theorem solve_stable {flow : Flow α σ ε} {steps : Nat}
    {states : α → Option σ} (hv : progress.Valid flow)
    (hsl : solve flow steps progress = some (.ok states)) :
    Below progress.states states ∧
      ∀ node state, states node = some state → Stable flow states node state := by
  induction steps generalizing progress with
  | zero => cases hsl
  | succ steps ih =>
    rw [solve] at hsl
    cases hq : progress.queue with
    | nil =>
      rw [hq] at hsl
      cases hsl
      exact ⟨Below.refl _, fun node state hs =>
        hv.stable node state hs (by simp [hq])⟩
    | cons node queue =>
      rw [hq] at hsl
      dsimp only at hsl
      cases hs : progress.states node with
      | none => exact absurd hs (hv.queued.met node (by simp [hq]))
      | some state =>
        rw [hs] at hsl
        dsimp only at hsl
        cases hf : flow node state with
        | error fault =>
          rw [hf] at hsl
          cases hsl
        | ok passed =>
          obtain ⟨tgts, next⟩ := passed
          rw [hf] at hsl
          obtain ⟨ha, hb⟩ := hv.step hq hs hf
          obtain ⟨hl, hst⟩ := ih ha hsl
          exact ⟨hb.trans hl, hst⟩

end MiniGo.Worklist
