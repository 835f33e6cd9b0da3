/-
Logs that a partial automaton accepts.

A log is accepted from a state if every event of it is allowed where it occurs. The
second half is about automata that keep a stack: what has been pushed and not been
popped is on the stack, and what is pushed above an item is popped before it.
-/
import Mathlib

namespace MiniGo.Replay

open List

variable {Event State Item : Type}

/-- The state after a log, if the automaton accepts it. -/
def replay (step : Event → State → Option State) : List Event → State → Option State
  | [], state => some state
  | event :: rest, state => (step event state).bind (replay step rest)

variable {step : Event → State → Option State}

@[simp] theorem replay_nil (state : State) : replay step [] state = some state := rfl

theorem replay_cons (event : Event) (rest : List Event) (state : State) :
    replay step (event :: rest) state = (step event state).bind (replay step rest) := rfl

theorem replay_append (first second : List Event) (state : State) :
    replay step (first ++ second) state = (replay step first state).bind (replay step second) := by
  induction first generalizing state with
  | nil => rfl
  | cons event rest ih =>
    rw [cons_append, replay_cons, replay_cons, Option.bind_assoc]
    congr 1
    funext next
    exact ih next

variable {state start : State} {event : Event} {log : List Event}

variable {before after : State} {last : State}

theorem replay_append_eq_some {first second : List Event} :
    replay step (first ++ second) state = some last ↔
      ∃ mid, replay step first state = some mid ∧ replay step second mid = some last := by
  rw [replay_append, Option.bind_eq_some_iff]

theorem replay_cons_eq_some {rest : List Event} : replay step (event :: rest) state = some last ↔
      ∃ next, step event state = some next ∧ replay step rest next = some last := by
  rw [replay_cons, Option.bind_eq_some_iff]

/-- A log of events that change nothing. -/
theorem replay_unchanged (hs : ∀ event ∈ log, step event state = some state) :
    replay step log state = some state := by
  induction log with
  | nil => rfl
  | cons event rest ih =>
    refine replay_cons_eq_some.mpr ⟨state, hs event mem_cons_self, ih ?_⟩
    exact fun other ho => hs other (mem_cons_of_mem event ho)

/-- A state that the automaton passes while it reads a log. -/
def Passes (step : Event → State → Option State) (log : List Event) (start state : State) :
    Prop :=
  ∃ first rest, log = first ++ rest ∧ replay step first start = some state

/-- An event of a log, with the states before and after it. -/
def Occurs (step : Event → State → Option State) (log : List Event) (start before : State)
    (event : Event) (after : State) : Prop :=
  ∃ first rest, log = first ++ event :: rest ∧ replay step first start = some before ∧
    step event before = some after

theorem Occurs.passes
    (ho : Occurs step log start before event after) : Passes step log start before := by
  obtain ⟨first, rest, hl, hf, -⟩ := ho
  exact ⟨first, event :: rest, hl, hf⟩

/-- The steps of the automaton on a log. -/
def transitions (step : Event → State → Option State) :
    List Event → State → List (State × Event × State)
  | [], _ => []
  | event :: rest, state =>
    match step event state with
    | none => []
    | some next => (state, event, next) :: transitions step rest next

/-- The steps can be enumerated. -/
theorem Occurs.mem_transitions (ho : Occurs step log start before event after) :
    (before, event, after) ∈ transitions step log start := by
  obtain ⟨first, rest, rfl, hf, hs⟩ := ho
  induction first generalizing start with
  | nil =>
    cases hf
    rw [nil_append, transitions, hs]
    exact mem_cons_self
  | cons head first ih =>
    obtain ⟨next, hh, hnext⟩ := replay_cons_eq_some.mp hf
    rw [cons_append, transitions, hh]
    exact mem_cons_of_mem _ (ih hnext)

/-- What holds at the start and is kept by the events of a log holds wherever it passes. -/
theorem passes_induction {Property : State → Prop} (hs : Property start)
    (hk : ∀ before event after, Occurs step log start before event after →
      Property before → Property after) :
    ∀ state, Passes step log start state → Property state := by
  rintro state ⟨first, rest, hl, hf⟩
  induction first using reverseRecOn generalizing rest state with
  | nil =>
    cases hf
    exact hs
  | append_singleton first event ih =>
    rw [append_assoc] at hl
    obtain ⟨before, hb, he⟩ := replay_append_eq_some.mp hf
    obtain ⟨after, ha, hla⟩ := replay_cons_eq_some.mp he
    cases hla
    exact hk before event state ⟨first, rest, hl, hb, ha⟩ (ih before ([event] ++ rest) hl hb)

/-- The events push on a stack and pop from it. -/
structure StackDiscipline (step : Event → State → Option State)
    (stack : State → List Item) (pushed popped : Event → Option Item) : Prop where
  push : ∀ {event state next item}, step event state = some next →
    pushed event = some item → popped event = none ∧ stack next = item :: stack state
  pop : ∀ {event state next item}, step event state = some next →
    popped event = some item → pushed event = none ∧ stack state = item :: stack next
  keep : ∀ {event state next}, step event state = some next →
    pushed event = none → popped event = none → stack next = stack state

namespace StackDiscipline

variable {stack : State → List Item} {pushed popped : Event → Option Item}
  (discipline : StackDiscipline step stack pushed popped)

include discipline

/-- What has been pushed has been popped or is on the stack. -/
theorem pushed_perm (hre : replay step log state = some last) :
    (log.filterMap pushed ++ stack state).Perm (log.filterMap popped ++ stack last) := by
  induction log generalizing state with
  | nil =>
    cases hre
    exact .refl _
  | cons event rest ih =>
    obtain ⟨next, hst, hr⟩ := replay_cons_eq_some.mp hre
    have hp := ih hr
    cases hpu : pushed event with
    | some item =>
      obtain ⟨hpo, hs⟩ := discipline.push hst hpu
      rw [filterMap_cons_some hpu, filterMap_cons_none hpo]
      rw [hs] at hp
      exact perm_middle.symm.trans hp
    | none =>
      rw [filterMap_cons_none hpu]
      cases hpo : popped event with
      | some item =>
        obtain ⟨-, hs⟩ := discipline.pop hst hpo
        rw [filterMap_cons_some hpo, hs]
        exact perm_middle.trans (hp.cons item)
      | none =>
        rw [filterMap_cons_none hpo, ← discipline.keep hst hpu hpo]
        exact hp

/-- As long as an item is not popped, what is pushed after it lies above it. -/
theorem pushed_above {above below : List Item}
    {item : Item} (hre : replay step log state = some last)
    (hs : stack state = above ++ item :: below)
    (hi : item ∉ log.filterMap popped) :
    ∃ now, stack last = now ++ item :: below ∧
      (log.filterMap pushed ++ above).Perm (log.filterMap popped ++ now) := by
  induction log generalizing state above with
  | nil =>
    cases hre
    exact ⟨above, hs, .refl _⟩
  | cons event rest ih =>
    obtain ⟨next, hst, hr⟩ := replay_cons_eq_some.mp hre
    cases hp : pushed event with
    | some other =>
      obtain ⟨hpo, hnext⟩ := discipline.push hst hp
      rw [filterMap_cons_none hpo] at hi ⊢
      rw [hs, ← cons_append] at hnext
      obtain ⟨now, hl, hpe⟩ := ih hr hnext hi
      refine ⟨now, hl, ?_⟩
      rw [filterMap_cons_some hp]
      exact perm_middle.symm.trans hpe
    | none =>
      rw [filterMap_cons_none hp]
      cases hpo : popped event with
      | some other =>
        obtain ⟨-, hnext⟩ := discipline.pop hst hpo
        rw [filterMap_cons_some hpo] at hi ⊢
        rw [hs] at hnext
        cases above with
        | nil =>
          have ho : item = other := (cons.inj hnext).1
          exact absurd (ho ▸ mem_cons_self) hi
        | cons first above =>
          obtain ⟨rfl, hb⟩ := cons.inj hnext
          obtain ⟨now, hl, hpe⟩ :=
            ih hr hb.symm fun h => hi (mem_cons_of_mem _ h)
          exact ⟨now, hl, perm_middle.trans (hpe.cons _)⟩
      | none =>
        rw [filterMap_cons_none hpo] at hi ⊢
        exact ih hr ((discipline.keep hst hp hpo).trans hs) hi

/-- Between the push of an item and its pop, exactly what has been pushed has been
popped. -/
theorem pushed_perm_popped {before between after : List Event} {push pop : Event} {item : Item}
    (hr : replay step (before ++ push :: (between ++ pop :: after)) state = some last)
    (hpu : pushed push = some item) (hpop : popped pop = some item)
    (hnd : ((before ++ push :: (between ++ pop :: after)).filterMap pushed ++ stack state).Nodup) :
    (between.filterMap pushed).Perm (between.filterMap popped) := by
  have hpops := (discipline.pushed_perm hr).nodup_iff.mp hnd
  obtain ⟨first, hb, hr⟩ := replay_append_eq_some.mp hr
  obtain ⟨second, hp, hr⟩ := replay_cons_eq_some.mp hr
  obtain ⟨third, hbe, hr⟩ := replay_append_eq_some.mp hr
  obtain ⟨fourth, hpo, ha⟩ := replay_cons_eq_some.mp hr
  obtain ⟨hnone, hsn⟩ := discipline.push hp hpu
  obtain ⟨hno, ht⟩ := discipline.pop hpo hpop
  -- an item is pushed once, so it is popped once and no other copy lies above it
  have hi : item ∉ between.filterMap popped := by
    simp only [filterMap_append, filterMap_cons_none hnone, filterMap_cons_some hpop] at hpops
    have := (nodup_append.mp (nodup_append.mp hpops).1).2.1
    exact fun h => (nodup_append.mp this).2.2 item h item mem_cons_self rfl
  have hit : item ∉ between.filterMap pushed := by
    simp only [filterMap_append, filterMap_cons_some hpu] at hnd
    have := (nodup_append.mp (nodup_append.mp hnd).1).2.1
    exact fun h => (nodup_cons.mp this).1 (mem_append_left _ h)
  have hs : stack second = [] ++ item :: stack first := hsn
  obtain ⟨now, hn, hpe⟩ := discipline.pushed_above hbe hs hi
  rw [append_nil] at hpe
  cases now with
  | nil => simpa using hpe
  | cons top now =>
    rw [ht] at hn
    have hto : item = top := (cons.inj hn).1
    have : item ∈ between.filterMap popped ++ top :: now :=
      mem_append_right _ (hto ▸ mem_cons_self)
    exact absurd (hpe.mem_iff.mpr this) hit

end StackDiscipline

end MiniGo.Replay
