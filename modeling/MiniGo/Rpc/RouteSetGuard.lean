/-
Who may touch a resource of a route set.

A closer that has made an attempt keeps everybody else away from the resource until the
attempt is recorded, and no call borrows a resource that is being closed. The cleanup
goes on only when those who could still close something are done.
-/
import MiniGo.Rpc.RouteSetChange

namespace MiniGo.Rpc

open Table AList List

/-- An identifier below the largest one has a successor. -/
theorem toNat_add_one_of_ne_max {id : UInt64} (h : id ≠ 18446744073709551615) :
    (id + 1).toNat = id.toNat + 1 := by
  have hlt := id.toNat_lt
  have hne : id.toNat ≠ 18446744073709551615 := fun heq => h (UInt64.toNat_inj.mp heq)
  change (id.toNat + 1) % 2 ^ 64 = id.toNat + 1
  omega

theorem lt_add_one_of_ne_max {id : UInt64} (h : id ≠ 18446744073709551615) : id < id + 1 := by
  rw [UInt64.lt_iff_toNat_lt, toNat_add_one_of_ne_max h]
  exact Nat.lt_succ_self _

namespace RouteSet

variable {careful : Prop} {routes next : RouteSet} {token : Nat} {closer : Closer} {id : UInt64}
  {thread : CallThread}

variable {entry : ProviderResource} {other : Closer} {stage : CallStage}

variable {nextCloser : Nat}

section Guarded

/-- The call is in its handler and has borrowed the resource. -/
def borrowsObject (id : UInt64) (thread : CallThread) : Bool :=
  decide (thread.stage = .invoking) && decide (id ∈ thread.borrows)

/-- Nobody borrows the resource any more, or the closer waits for those who do. -/
def Calm (borrowsDone : List (UInt64 × UInt64)) (stage : CloserStage) (id : UInt64)
    (entry : ProviderResource) : Prop :=
  entry.borrowed = 0 ∨ ∃ channel, stage = .waiting (some channel) ∧
    entry.borrowDone = some channel ∧ (id, channel) ∉ borrowsDone

/-- A closer that has made an attempt holds the resource. -/
def Holds (routes : RouteSet) (token : Nat) (closer : Closer) : Prop :=
  ∃ id rest entry, closer.objects = id :: rest ∧ routes.resources.lookup id = some entry ∧
    routes.resourceCloses.lookup id = some ⟨token, false⟩ ∧
    Calm routes.borrowsDone closer.stage id entry

/-- The closer keeps its hold when its resource and its attempt stay. -/
theorem Holds.imp (hh : routes.Holds token closer)
    (hk : ∀ id entry, routes.resources.lookup id = some entry →
      routes.resourceCloses.lookup id = some ⟨token, false⟩ →
      Calm routes.borrowsDone closer.stage id entry →
      ∃ entry, next.resources.lookup id = some entry ∧
        next.resourceCloses.lookup id = some ⟨token, false⟩ ∧
        Calm next.borrowsDone closer.stage id entry) :
    next.Holds token closer := by
  obtain ⟨id, rest, entry, hob, he, hcl, hc⟩ := hh
  obtain ⟨other, ho⟩ := hk id entry he hcl hc
  exact ⟨id, rest, other, hob, ho⟩

/-- Closers and borrowers of a resource exclude each other. -/
structure Guarded (routes : RouteSet) : Prop where
  resources : ∀ id entry, routes.resources.lookup id = some entry → id ≤ routes.nextResource
  closers : ∀ token closer, routes.closers.lookup token = some closer → token < routes.nextCloser
  calls : ∀ id thread, routes.calls.lookup id = some thread → id ≤ routes.nextCall
  channels : ∀ id channel, (id, channel) ∈ routes.borrowsDone → channel ≤ routes.nextCall
  opened : ∀ id entry channel, routes.resources.lookup id = some entry →
    entry.borrowDone = some channel → channel ≤ routes.nextCall
  holds : ∀ token closer, routes.closers.lookup token = some closer →
    closer.stage.engaged = true → routes.Holds token closer
  counted : ∀ id entry, routes.resources.lookup id = some entry →
    entry.borrowed = Table.tally (borrowsObject id) routes.calls ∧
      (0 < entry.borrowed → ∃ channel, entry.borrowDone = some channel ∧
        (id, channel) ∉ routes.borrowsDone)
  present : ∀ call thread, routes.calls.lookup call = some thread → thread.stage = .invoking →
    ∀ id ∈ thread.borrows, id ∈ routes.resources

variable {borrows : List UInt64}

section

variable (hg : routes.Guarded)
include hg

/-- Closers without an attempt come and go. -/
theorem Guarded.idle {closers : Table Nat Closer}
    (hbd : ∀ token closer, closers.lookup token = some closer → token < nextCloser)
    (he : ∀ token closer, closers.lookup token = some closer →
      closer.stage.engaged = true → routes.closers.lookup token = some closer) :
    Guarded { routes with closers, nextCloser } :=
  { hg with
    closers := hbd
    holds := fun token closer hl hs => hg.holds token closer (he token closer hl hs) hs }

theorem Guarded.startCloser (owner : CloserOwner) (objs : List UInt64) :
    (routes.startCloser owner objs).Guarded :=
  hg.idle (forall_insert (fun token closer h => Nat.lt_succ_of_lt (hg.closers token closer h))
      (Nat.lt_succ_self _))
    (forall_insert (fun _ _ hl _ => hl) nofun)

theorem Guarded.eraseCloser (token : Nat) :
    Guarded { routes with closers := routes.closers.erase token } :=
  hg.idle (forall_erase hg.closers) (forall_erase fun _ _ hl _ => hl)

theorem Guarded.setIdle (hcl : routes.closers.lookup token = some closer)
    (ho : other.stage.engaged = false) : (routes.setCloser token other).Guarded :=
  hg.idle (forall_insert hg.closers (hg.closers _ _ hcl))
    (forall_insert (fun _ _ hl _ => hl) fun hs => absurd (ho.symm.trans hs) Bool.false_ne_true)

/-- A call that is not in its handler gets on. -/
theorem Guarded.setCall (hl : routes.calls.lookup id = some thread)
    (hold : thread.stage ≠ .invoking) (hn : stage ≠ .invoking) :
    (routes.setCall id thread stage).Guarded := by
  have ht : ∀ obj, tally (borrowsObject obj) (routes.calls.insert id { thread with stage }) =
        tally (borrowsObject obj) routes.calls := by
    intro obj
    have ht := @tally_insert_of_lookup _ _ _ (borrowsObject obj) _ _ { thread with stage } _ hl
    have hb : borrowsObject obj thread = false := by simp [borrowsObject, hold]
    have ha : borrowsObject obj { thread with stage } = false := by
      simp [borrowsObject, hn]
    rw [hb, ha] at ht
    exact ht
  refine
    { hg with
      calls := forall_insert hg.calls (hg.calls _ _ hl)
      counted := ?_
      present := forall_insert hg.present fun h => absurd h hn }
  intro obj entry he
  obtain ⟨hbo, hc⟩ := hg.counted obj entry he
  exact ⟨hbo.trans (ht obj).symm, hc⟩

/-- Resources are edited without regard to borrows. -/
theorem Guarded.reviseActive (objs : List UInt64) :
    Guarded { routes with
      resources := revise (fun obj entry =>
        if obj ∈ objs then { entry with active := true } else entry) routes.resources } := by
  refine
    { hg with
      resources := forall_revise hg.resources
      opened := ?_
      holds := ?_
      counted := ?_
      present := fun call found hf hi obj ho =>
        mem_revise.mpr (hg.present call found hf hi obj ho) }
  · intro obj entry chan he hc
    obtain ⟨old, hold, rfl⟩ := lookup_revise_cases he
    refine hg.opened obj old chan hold ?_
    split_ifs at hc <;> exact hc
  · intro token closer hl hs
    refine (hg.holds token closer hl hs).imp fun obj entry he hcl hca =>
      ⟨_, lookup_revise_eq_some he, hcl, ?_⟩
    split_ifs <;> exact hca
  · refine forall_revise fun obj entry he => ?_
    split_ifs <;> exact hg.counted obj entry he

/-- The calm of a resource with its own channel. -/
theorem Guarded.calm (he : routes.resources.lookup id = some entry) :
    Calm routes.borrowsDone (.waiting entry.borrowDone) id entry := by
  rcases Nat.eq_zero_or_pos entry.borrowed with hz | hpos
  · exact .inl hz
  · obtain ⟨chan, hc, hopen⟩ := (hg.counted id entry he).2 hpos
    exact .inr ⟨chan, by rw [hc], hc, hopen⟩

/-- An attempt is made where none is under way. -/
theorem Guarded.attempt {rest : List UInt64} (ht : token < nextCloser)
    (hnext : routes.nextCloser ≤ nextCloser)
    (hidle : ∀ attempt, routes.resourceCloses.lookup id = some attempt → attempt.done = true)
    (he : routes.resources.lookup id = some entry) (ho : other.objects = id :: rest)
    (hs : other.stage = .waiting entry.borrowDone) :
    Guarded { routes with
      resourceCloses := routes.resourceCloses.insert id ⟨token, false⟩
      closers := routes.closers.insert token other
      nextCloser } := by
  refine
    { hg with
      closers := forall_insert
        (fun key found hf => Nat.lt_of_lt_of_le (hg.closers key found hf) hnext) ht
      holds := ?_ }
  · intro key found hf hen
    rcases lookup_insert_cases hf with ⟨rfl, rfl⟩ | ⟨hk, hf⟩
    · exact ⟨id, rest, entry, ho, he, lookup_insert _, hs ▸ hg.calm he⟩
    · refine (hg.holds key found hf hen).imp fun obj entry he hc hca =>
        ⟨entry, he, (lookup_insert_ne ?_).trans hc, hca⟩
      rintro rfl
      cases hidle _ hc

/-- A closer that holds its resource gets on. -/
theorem Guarded.setHolding (hcl : routes.closers.lookup token = some closer)
    (ho : routes.Holds token other) : (routes.setCloser token other).Guarded :=
  { hg with
    closers := forall_insert hg.closers (hg.closers _ _ hcl)
    holds := forall_insert hg.holds fun _ => ho }

/-- Attempts are edited by their closers only. -/
theorem Guarded.editCloses {resourceCloses : Table UInt64 ResourceClose}
    (hk : ∀ token closer id, routes.closers.lookup token = some closer →
      closer.stage.engaged = true → routes.resourceCloses.lookup id = some ⟨token, false⟩ →
      resourceCloses.lookup id = some ⟨token, false⟩) :
    Guarded { routes with resourceCloses } := by
  refine { hg with holds := ?_ }
  intro token closer hcl hen
  exact (hg.holds token closer hcl hen).imp fun obj entry he hcls hc =>
    ⟨entry, he, hk token closer obj hcl hen hcls, hc⟩

/-- A resource that nobody borrows or closes is removed. -/
theorem Guarded.eraseResource (he : routes.resources.lookup id = some entry)
    (hb : entry.borrowed = 0)
    (hfr : ∀ token closer, routes.closers.lookup token = some closer →
      closer.stage.engaged = true → routes.resourceCloses.lookup id ≠ some ⟨token, false⟩) :
    Guarded { routes with resources := routes.resources.erase id } := by
  refine
    { hg with
      resources := forall_erase hg.resources
      opened := fun obj found chan hf =>
        hg.opened obj found chan (lookup_erase_cases hf).2
      holds := ?_
      counted := forall_erase hg.counted
      present := ?_ }
  · intro token closer hcl hen
    refine (hg.holds token closer hcl hen).imp fun obj found hf hcls hca =>
      ⟨found, (lookup_erase_ne ?_).trans hf, hcls, hca⟩
    rintro rfl
    exact hfr token closer hcl hen hcls
  · intro call found hf hi obj ho
    rw [mem_erase]
    refine ⟨?_, hg.present call found hf hi obj ho⟩
    rintro rfl
    have ht := (hg.counted obj entry he).1
    rw [hb] at ht
    have hc : borrowsObject obj found = false :=
      eq_false_of_tally_eq_zero ht.symm hf
    simp [borrowsObject, hi, ho] at hc

theorem Guarded.number (hnext : routes.nextCall ≠ 18446744073709551615) :
    Guarded { routes with nextCall := routes.nextCall + 1 } := by
  have hle := UInt64.le_of_lt (lt_add_one_of_ne_max hnext)
  exact
    { hg with
      calls := fun id thread h => UInt64.le_trans (hg.calls id thread h) hle
      channels := fun id chan h => UInt64.le_trans (hg.channels id chan h) hle
      opened := fun id entry chan h hc =>
        UInt64.le_trans (hg.opened id entry chan h hc) hle }

theorem notMem_calls_of_numbered (hnext : routes.nextCall ≠ 18446744073709551615) :
    routes.nextCall + 1 ∉ routes.calls := by
  intro hmem
  obtain ⟨thread, hl⟩ := exists_of_mem hmem
  exact UInt64.not_lt.mpr (hg.calls _ thread hl) (lt_add_one_of_ne_max hnext)

/-- A call begins and borrows resources that nobody is closing. -/
theorem Guarded.begin (hnext : routes.nextCall ≠ 18446744073709551615)
    (hbo : ∀ obj ∈ borrows, obj ∈ routes.resources ∧ obj ∉ routes.resourceCloses) :
    Guarded { routes with
      nextCall := routes.nextCall + 1
      resources := revise (fun obj entry =>
        if obj ∈ borrows then entry.borrow (routes.nextCall + 1) else entry) routes.resources
      calls := routes.calls.insert (routes.nextCall + 1) { borrows, stage := .invoking } } := by
  have hlt := lt_add_one_of_ne_max hnext
  have hn := hg.number hnext
  refine
    { hn with
      resources := forall_revise hg.resources
      calls := forall_insert hn.calls (UInt64.le_refl _)
      opened := ?_
      holds := ?_
      counted := forall_revise ?_
      present := ?_ }
  · intro obj entry chan he hc
    obtain ⟨old, hold, rfl⟩ := lookup_revise_cases he
    have hold := hn.opened obj old chan hold
    split_ifs at hc
    · rw [ProviderResource.borrow] at hc
      split_ifs at hc
      · obtain rfl := Option.some.inj hc
        exact UInt64.le_refl _
      · exact hold hc
    · exact hold hc
  · intro token closer hcl hen
    refine (hg.holds token closer hcl hen).imp fun obj entry he hcls hca =>
      ⟨entry, ?_, hcls, hca⟩
    have ho : obj ∉ borrows := fun hmem =>
      (hbo obj hmem).2 (mem_of_lookup hcls)
    rw [lookup_revise_eq_some he, if_neg ho]
  · intro obj entry he
    obtain ⟨hb, hc⟩ := hg.counted obj entry he
    rw [tally_insert_of_notMem (notMem_calls_of_numbered hg hnext)]
    split_ifs with ho
    · refine ⟨?_, fun _ => ?_⟩
      · simp [ProviderResource.borrow, borrowsObject, ho, hb]
      · rw [ProviderResource.borrow]
        split_ifs with hz
        · refine ⟨_, rfl, fun hmem => ?_⟩
          exact UInt64.not_lt.mpr (hg.channels _ _ hmem) hlt
        · exact hc (Nat.pos_of_ne_zero hz)
    · refine ⟨?_, hc⟩
      simp [borrowsObject, ho, hb]
  · refine forall_insert ?_ fun _ obj ho =>
      mem_revise.mpr (hbo obj ho).1
    exact fun call found hf hi obj ho =>
      mem_revise.mpr (hg.present call found hf hi obj ho)

theorem Guarded.notMem_next (hnext : routes.nextResource ≠ 18446744073709551615) :
    routes.resources.lookup (routes.nextResource + 1) = none := by
  cases hl : routes.resources.lookup (routes.nextResource + 1) with
  | none => rfl
  | some entry =>
    exact absurd (lt_add_one_of_ne_max hnext) (UInt64.not_lt.mpr (hg.resources _ entry hl))

theorem Guarded.exported (typeHash : Bytes) (hnext : routes.nextResource ≠ 18446744073709551615) :
    Guarded { routes with
      nextResource := routes.nextResource + 1
      resources := routes.resources.insert (routes.nextResource + 1) { typeHash } } := by
  have hfr := hg.notMem_next hnext
  have hne : ∀ {obj entry}, routes.resources.lookup obj = some entry →
      obj ≠ routes.nextResource + 1 := by
    rintro obj entry he rfl
    rw [hfr] at he
    cases he
  refine
    { hg with
      resources := forall_insert (fun obj entry he =>
        UInt64.le_trans (hg.resources obj entry he)
          (UInt64.le_of_lt (lt_add_one_of_ne_max hnext))) (UInt64.le_refl _)
      opened := ?_
      holds := ?_
      counted := forall_insert hg.counted ?_
      present := fun call thread hl hi obj ho => (mem_insert _).mpr
        (.inr (hg.present call thread hl hi obj ho)) }
  · intro obj entry chan he hc
    rcases lookup_insert_cases he with ⟨-, rfl⟩ | ⟨-, he⟩
    · cases hc
    · exact hg.opened obj entry chan he hc
  · intro token closer hcl hen
    exact (hg.holds token closer hcl hen).imp fun obj entry he hcls hca =>
      ⟨entry, (lookup_insert_ne (hne he)).trans he, hcls, hca⟩
  · refine ⟨(tally_eq_zero ?_).symm, nofun⟩
    intro call thread hl
    by_contra hb
    rw [Bool.not_eq_false, borrowsObject, Bool.and_eq_true, decide_eq_true_iff,
      decide_eq_true_iff] at hb
    have hmem := hg.present call thread hl hb.1 _ hb.2
    rw [← lookup_isSome, hfr] at hmem
    cases hmem

end

theorem mem_channelsClosed {channel : UInt64} (h : (id, channel) ∈ routes.channelsClosed borrows) :
    id ∈ borrows ∧ ∃ entry, routes.resources.lookup id = some entry ∧ entry.borrowed = 1 ∧
      entry.borrowDone = some channel := by
  rw [channelsClosed, mem_filterMap] at h
  obtain ⟨obj, ho, h⟩ := h
  simp only [Option.bind_eq_some_iff, Option.filter_eq_some_iff, decide_eq_true_eq,
    Option.map_eq_some_iff, Prod.mk.injEq] at h
  obtain ⟨entry, ⟨he, hb⟩, found, hf, rfl, rfl⟩ := h
  exact ⟨ho, entry, he, hb, hf⟩

/-- The last borrow closes the channel that a closer waits for. -/
theorem Calm.giveBack {pre after : List (UInt64 × UInt64)} {stage : CloserStage}
    (hca : Calm pre stage id entry)
    (ha : ∀ {channel}, entry.borrowed ≠ 1 ∨ id ∉ borrows → (id, channel) ∉ pre →
      (id, channel) ∉ after) :
    Calm after stage id (if id ∈ borrows then entry.giveBack else entry) := by
  rcases hca with hz | ⟨channel, hs, hc, hopen⟩
  · refine .inl ?_
    split_ifs
    · rw [ProviderResource.giveBack, hz]
    · exact hz
  · split_ifs with hmem
    · by_cases ho : entry.borrowed = 1
      · refine .inl ?_
        rw [ProviderResource.giveBack, ho]
      · refine .inr ⟨channel, hs, ?_, ha (.inl ho) hopen⟩
        exact (if_neg ho).trans hc
    · exact .inr ⟨channel, hs, hc, ha (.inr hmem) hopen⟩

/-- A handler returns and its borrows end. -/
theorem Guarded.giveBack (hg : routes.Guarded)
    (hl : routes.calls.lookup id = some thread) (hs : thread.stage = .invoking) :
    (routes.releaseResourceBorrows id thread).Guarded := by
  have hcls : ∀ {obj chan entry}, routes.resources.lookup obj = some entry →
      entry.borrowed ≠ 1 ∨ obj ∉ thread.borrows → (obj, chan) ∉ routes.borrowsDone →
      (obj, chan) ∉ routes.channelsClosed thread.borrows ++ routes.borrowsDone := by
    intro obj chan entry he hk hopen hmem
    rcases mem_append.mp hmem with hmem | hmem
    · obtain ⟨hob, found, hf, ho, -⟩ := mem_channelsClosed hmem
      obtain rfl := Option.some.inj (he.symm.trans hf)
      exact hk.elim (absurd ho) (absurd hob)
    · exact hopen hmem
  have ht : ∀ obj, tally (borrowsObject obj)
      (routes.calls.insert id { thread with stage := .returned }) +
        (decide (obj ∈ thread.borrows)).toNat =
        tally (borrowsObject obj) routes.calls := by
    intro obj
    have ht := @tally_insert_of_lookup _ _ _ (borrowsObject obj) _ _
      { thread with stage := .returned } _ hl
    have hb : borrowsObject obj thread = decide (obj ∈ thread.borrows) := by
      simp [borrowsObject, hs]
    have ha : borrowsObject obj { thread with stage := .returned } = false := by
      simp [borrowsObject]
    rw [hb, ha] at ht
    exact ht
  refine
    { hg with
      resources := forall_revise hg.resources
      calls := forall_insert hg.calls (hg.calls _ _ hl)
      channels := ?_
      opened := ?_
      holds := ?_
      counted := forall_revise ?_
      present := forall_insert (fun call found hf hi obj hob =>
        mem_revise.mpr (hg.present call found hf hi obj hob)) nofun }
  · intro obj chan hmem
    rcases mem_append.mp hmem with hmem | hmem
    · obtain ⟨-, entry, he, -, hch⟩ := mem_channelsClosed hmem
      exact hg.opened obj entry chan he hch
    · exact hg.channels obj chan hmem
  · intro obj entry chan he hch
    obtain ⟨old, hold, rfl⟩ := lookup_revise_cases he
    refine hg.opened obj old chan hold ?_
    split_ifs at hch
    · rw [ProviderResource.giveBack] at hch
      split_ifs at hch
      exact hch
    · exact hch
  · intro token closer hcl hen
    exact (hg.holds token closer hcl hen).imp fun obj entry he hclo hca =>
      ⟨_, lookup_revise_eq_some he, hclo, hca.giveBack (hcls he)⟩
  · intro obj old hold
    obtain ⟨hbo, hch⟩ := hg.counted obj old hold
    have hc := ht obj
    split_ifs with hob
    · rw [decide_eq_true hob] at hc
      refine ⟨?_, fun hpos => ?_⟩
      · rw [ProviderResource.giveBack]
        rw [hbo, ← hc]
        rfl
      · rw [ProviderResource.giveBack] at hpos ⊢
        have hm : old.borrowed ≠ 1 := fun ho => by
          rw [ho] at hpos
          exact Nat.lt_irrefl 0 hpos
        rw [if_neg hm]
        obtain ⟨chan, hf, hopen⟩ := hch (Nat.lt_of_lt_of_le hpos (Nat.sub_le _ _))
        exact ⟨chan, hf, hcls hold (.inl hm) hopen⟩
    · rw [decide_eq_false hob] at hc
      refine ⟨hbo.trans hc.symm, fun hpos => ?_⟩
      obtain ⟨chan, hf, hopen⟩ := hch hpos
      exact ⟨chan, hf, hcls hold (.inr hob) hopen⟩

end Guarded

section Phased

/-- The cleanup has waited for the calls. -/
def pastCalls : Option CleanupStage → Bool
  | some (.results ..) | some .releasing | some .leaving => true
  | _ => false

/-- The cleanup has decided the results. -/
def pastResults : Option CleanupStage → Bool
  | some .releasing | some .leaving => true
  | _ => false

/-- Closers work for calls and cleanups that wait for them, and the cleanup has waited for
everybody before it goes on. -/
structure Phased (routes : RouteSet) : Prop where
  accepting : routes.state.acceptsResourceCalls = true → routes.cleanup = none
  forCall : ∀ token closer id, routes.closers.lookup token = some closer → closer.owner = .call id →
    ∃ thread, routes.calls.lookup id = some thread ∧ thread.stage.closing = true
  forCleanup : ∀ token closer, routes.closers.lookup token = some closer →
    closer.owner = .cleanup → routes.cleanup = some .releasing
  unique : ∀ first second closer other, routes.closers.lookup first = some closer →
    routes.closers.lookup second = some other → closer.owner = other.owner →
    closer.owner = .drop ∨ closer.owner = .release ∨ first = second
  shape : ∀ token closer, routes.closers.lookup token = some closer →
    if closer.owner = .drop then closer.stage ≠ .next ∧ ∃ id, closer.objects = [id]
    else closer.stage ≠ .leaving
  callsDone : pastCalls routes.cleanup = true →
    (∀ id thread, routes.calls.lookup id = some thread → thread.stage.working = false) ∧
    ∀ token closer, routes.closers.lookup token = some closer →
      closer.owner ≠ .release ∧ (closer.owner = .drop → closer.stage = .leaving)
  resultsDone : ∀ owners resources, routes.cleanup = some (.results owners resources) →
    ∀ id thread, routes.calls.lookup id = some thread → thread.stage.owned = true → id ∈ owners
  resultsOver : pastResults routes.cleanup = true →
    ∀ id thread, routes.calls.lookup id = some thread → thread.stage.owned = false

theorem pastCalls_of_pastResults {cleanup : Option CleanupStage}
    (h : pastResults cleanup = true) : pastCalls cleanup = true := by
  rcases cleanup with _ | _ | _ | _ | _ <;> first | rfl | cases h

/-- A call gets on whose closers, if any, are not affected. -/
theorem Phased.setCall (hph : routes.Phased) (hl : routes.calls.lookup id = some thread)
    (hclg : (∃ token closer, routes.closers.lookup token = some closer ∧
      closer.owner = .call id) → stage.closing = true)
    (hw : stage.working = true → thread.stage.working = true)
    (how : stage.owned = true → thread.stage.owned = true ∨ thread.stage.working = true) :
    (routes.setCall id thread stage).Phased := by
  refine { hph with forCall := ?_, callsDone := ?_, resultsDone := ?_, resultsOver := ?_ }
  · intro token closer call hcl ho
    by_cases hc : call = id
    · subst hc
      exact ⟨_, lookup_insert _, hclg ⟨token, closer, hcl, ho⟩⟩
    · obtain ⟨found, hf, hs⟩ := hph.forCall token closer call hcl ho
      exact ⟨found, (lookup_insert_ne hc).trans hf, hs⟩
  · intro hp
    obtain ⟨hca, hcls⟩ := hph.callsDone hp
    refine ⟨fun call found hf => ?_, hcls⟩
    rcases lookup_insert_cases hf with ⟨-, rfl⟩ | ⟨-, hf⟩
    · refine Bool.eq_false_iff.mpr fun hs => ?_
      exact Bool.false_ne_true ((hca id thread hl).symm.trans (hw hs))
    · exact hca call found hf
  · intro owners ress hcln call found hf hs
    rcases lookup_insert_cases hf with ⟨rfl, rfl⟩ | ⟨-, hf⟩
    · have hp : pastCalls routes.cleanup = true := by
        change routes.cleanup = _ at hcln
        rw [hcln]
        rfl
      rcases how hs with hold | hold
      · exact hph.resultsDone owners ress hcln _ _ hl hold
      · exact absurd ((hph.callsDone hp).1 _ _ hl) (by rw [hold]; nofun)
    · exact hph.resultsDone owners ress hcln call found hf hs
  · intro hp call found hf
    rcases lookup_insert_cases hf with ⟨rfl, rfl⟩ | ⟨-, hf⟩
    · refine Bool.eq_false_iff.mpr fun hs => ?_
      rcases how hs with hold | hold
      · exact Bool.false_ne_true ((hph.resultsOver hp _ _ hl).symm.trans hold)
      · exact Bool.false_ne_true
          (((hph.callsDone (pastCalls_of_pastResults hp)).1 _ _ hl).symm.trans hold)
    · exact hph.resultsOver hp call found hf

/-- What a closer needs that is entered or gets on. -/
theorem Phased.insertCloser (hph : routes.Phased)
    (hcl : pastCalls routes.cleanup = true → closer.owner ≠ .release ∧ closer.owner ≠ .drop)
    (hfor : ∀ id, closer.owner = .call id →
      ∃ thread, routes.calls.lookup id = some thread ∧ thread.stage.closing = true)
    (hfo : closer.owner = .cleanup → routes.cleanup = some .releasing)
    (huq : ∀ key other, key ≠ token → routes.closers.lookup key = some other →
      other.owner = closer.owner → closer.owner = .drop ∨ closer.owner = .release)
    (hs : if closer.owner = .drop then closer.stage ≠ .next ∧ ∃ id, closer.objects = [id]
      else closer.stage ≠ .leaving) :
    Phased { routes with closers := routes.closers.insert token closer, nextCloser } := by
  refine
    { hph with forCall := ?_, forCleanup := ?_, unique := ?_, shape := ?_, callsDone := ?_ }
  · intro key found call hf how
    rcases lookup_insert_cases hf with ⟨-, rfl⟩ | ⟨-, hf⟩
    · exact hfor call how
    · exact hph.forCall key found call hf how
  · exact forall_insert hph.forCleanup hfo
  · intro first second found other hf ho how
    rcases lookup_insert_cases hf with ⟨rfl, rfl⟩ | ⟨hfs, hold⟩ <;>
      rcases lookup_insert_cases ho with ⟨rfl, rfl⟩ | ⟨hsn, hn⟩
    · exact .inr (.inr rfl)
    · exact (huq second other hsn hn how.symm).imp_right .inl
    · rw [how]
      exact (huq first found hfs hold how).imp_right .inl
    · exact hph.unique first second found other hold hn how
  · exact forall_insert hph.shape hs
  · intro hp
    obtain ⟨hc, hcls⟩ := hph.callsDone hp
    exact ⟨hc, forall_insert hcls ⟨(hcl hp).1, fun hd => absurd hd (hcl hp).2⟩⟩

/-- A closer that has not left gets on. -/
theorem Phased.setCloser (hph : routes.Phased)
    (hcl : routes.closers.lookup token = some closer) (ho : other.owner = closer.owner)
    (hs : closer.stage ≠ .leaving)
    (hsh : if other.owner = .drop then other.stage ≠ .next ∧ ∃ id, other.objects = [id]
      else other.stage ≠ .leaving) :
    (routes.setCloser token other).Phased := by
  refine hph.insertCloser (fun hp => ?_) (fun call hc => ?_) (fun hcln => ?_)
    (fun key found hk hf heq => ?_) hsh
  · obtain ⟨hr, hd⟩ := (hph.callsDone hp).2 token closer hcl
    rw [ho]
    exact ⟨hr, fun h => hs (hd h)⟩
  · exact hph.forCall token closer call hcl (ho ▸ hc)
  · exact hph.forCleanup token closer hcl (ho ▸ hcln)
  · rw [ho] at heq ⊢
    rcases hph.unique _ _ _ _ hcl hf heq.symm with h | h | h
    · exact .inl h
    · exact .inr h
    · exact absurd h.symm hk

theorem Phased.not_drop_of_next (hph : routes.Phased)
    (hcl : routes.closers.lookup token = some closer) (hs : closer.stage = .next) :
    closer.owner ≠ .drop := by
  intro ho
  have hsh := hph.shape token closer hcl
  rw [if_pos ho] at hsh
  exact hsh.1 hs

/-- A closer gets to another stage of its attempt. -/
theorem Phased.setStage {stage : CloserStage} (hph : routes.Phased)
    (hcl : routes.closers.lookup token = some closer) (hold : closer.stage ≠ .leaving)
    (hn : stage.engaged = true) :
    (routes.setCloser token { closer with stage }).Phased := by
  refine hph.setCloser hcl rfl hold ?_
  have hs := hph.shape token closer hcl
  split_ifs at hs ⊢
  · refine ⟨?_, hs.2⟩
    rintro rfl
    cases hn
  · rintro rfl
    cases hn

theorem Phased.eraseCloser (hph : routes.Phased) (token : Nat) :
    Phased { routes with closers := routes.closers.erase token } := by
  refine
    { hph with forCall := ?_, forCleanup := ?_, unique := ?_, shape := ?_, callsDone := ?_ }
  · exact fun key found call hf =>
      hph.forCall key found call (lookup_erase_cases hf).2
  · exact forall_erase hph.forCleanup
  · exact fun first second found other hf ho =>
      hph.unique first second found other (lookup_erase_cases hf).2 (lookup_erase_cases ho).2
  · exact forall_erase hph.shape
  · exact fun hp => (hph.callsDone hp).imp_right forall_erase

theorem CallStage.working_or_owned_of_closing (h : stage.closing = true) :
    stage.working = true ∨ stage.owned = true := by
  cases stage <;> first | exact .inl rfl | exact .inr rfl | cases h

/-- At the end of the cleanup nobody but goroutines that have left is closing anything. -/
theorem Phased.only_drops (hph : routes.Phased) (hc : routes.cleanup = some .leaving)
    (hcl : routes.closers.lookup token = some closer) :
    closer.owner = .drop ∧ closer.stage = .leaving := by
  obtain ⟨hca, hcls⟩ := hph.callsDone (by rw [hc]; rfl)
  obtain ⟨hre, hd⟩ := hcls token closer hcl
  have ho : closer.owner = .drop := by
    cases ho : closer.owner with
    | call id =>
      obtain ⟨thread, hl, hclg⟩ := hph.forCall token closer id hcl ho
      rcases CallStage.working_or_owned_of_closing hclg with hw | how
      · exact absurd (hca id thread hl) (by rw [hw]; nofun)
      · exact absurd (hph.resultsOver (by rw [hc]; rfl) id thread hl) (by rw [how]; nofun)
    | release => exact absurd ho hre
    | cleanup =>
      have hr := hph.forCleanup token closer hcl ho
      rw [hc] at hr
      cases hr
    | drop => rfl
  exact ⟨ho, hd ho⟩

theorem callsHeld_eq_false (h : routes.callsHeld = false) :
    (∀ id thread, routes.calls.lookup id = some thread → thread.stage.working = false) ∧
    ∀ token closer, routes.closers.lookup token = some closer →
      closer.owner ≠ .release ∧ (closer.owner = .drop → closer.stage = .leaving) := by
  rw [callsHeld, Bool.or_eq_false_iff, any_eq_false, any_eq_false] at h
  refine ⟨fun id thread hl => ?_, fun token closer hcl => ?_⟩
  · exact Bool.eq_false_iff.mpr (h.1 ⟨id, thread⟩ (mem_lookup_iff.mp hl))
  · have hheld := h.2 ⟨token, closer⟩ (mem_lookup_iff.mp hcl)
    constructor
    · intro ho
      simp [ho] at hheld
    · intro ho
      simpa [ho] using hheld

theorem mem_resultOwners (hl : routes.calls.lookup id = some thread)
    (ho : thread.stage.owned = true) : id ∈ routes.resultOwners := by
  rw [resultOwners, mem_map]
  exact ⟨⟨id, thread⟩, mem_filter.mpr ⟨mem_lookup_iff.mp hl, ho⟩, rfl⟩

theorem Guarded.notMem_nextCloser (hg : routes.Guarded) : routes.nextCloser ∉ routes.closers := by
  intro hmem
  obtain ⟨closer, hl⟩ := exists_of_mem hmem
  exact Nat.lt_irrefl _ (hg.closers _ closer hl)

theorem Phased.no_closer (hph : routes.Phased)
    (hl : routes.calls.lookup id = some thread) (hc : thread.stage.closing = false) :
    ¬ ∃ token closer, routes.closers.lookup token = some closer ∧ closer.owner = .call id := by
  rintro ⟨token, closer, hcl, ho⟩
  obtain ⟨found, hf, hs⟩ := hph.forCall token closer id hcl ho
  obtain rfl := Option.some.inj (hl.symm.trans hf)
  exact Bool.false_ne_true (hc.symm.trans hs)

/-- A cleanup has begun. -/
theorem Phased.not_accepting {stage : CleanupStage} {cleanup : Option CleanupStage}
    (hph : routes.Phased) (hc : routes.cleanup = some stage)
    (ha : routes.state.acceptsResourceCalls = true) : cleanup = none := by
  cases (hph.accepting ha).symm.trans hc

theorem Phased.no_cleanup (hph : routes.Phased) (hc : routes.cleanup ≠ some .releasing)
    (hcl : routes.closers.lookup token = some closer) : closer.owner ≠ .cleanup :=
  fun ho => hc (hph.forCleanup token closer hcl ho)

/-- A call and the cleanup have one closer at a time. -/
theorem Phased.erased_owner (hph : routes.Phased) {key : Nat}
    (hcl : routes.closers.lookup token = some closer) (hd : closer.owner ≠ .drop)
    (hr : closer.owner ≠ .release) (ho : (routes.closers.erase token).lookup key = some other) :
    other.owner ≠ closer.owner := by
  intro hs
  obtain ⟨hk, ho⟩ := lookup_erase_cases ho
  rcases hph.unique _ _ _ _ ho hcl hs with h | h | h
  · exact hd (hs.symm.trans h)
  · exact hr (hs.symm.trans h)
  · exact hk h

/-- `releaseObjects` is started by a call that has no closer. -/
theorem Phased.startForCall {objs : List UInt64} (hph : routes.Phased)
    (hl : routes.calls.lookup id = some thread)
    (hold : thread.stage.closing = false) (hn : stage.closing = true)
    (hw : stage.working = true → thread.stage.working = true)
    (howd : stage.owned = true → thread.stage.owned = true ∨ thread.stage.working = true) :
    ((routes.startCloser (.call id) objs).setCall id thread stage).Phased := by
  have hm : (routes.setCall id thread stage).Phased :=
    hph.setCall hl (fun _ => hn) hw howd
  refine @Phased.insertCloser (routes.setCall id thread stage) _ _ _ hm
    (fun _ => ⟨nofun, nofun⟩) ?_ nofun ?_ ?_
  · rintro call hc
    obtain rfl := CloserOwner.call.inj hc
    exact ⟨_, lookup_insert _, hn⟩
  · exact fun token other _ ho how =>
      absurd ⟨token, other, ho, how⟩ (hph.no_closer hl hold)
  · exact fun h => nomatch h

end Phased

section Changes

variable {rest : List UInt64}

theorem Phased.change (hph : routes.Phased) (hg : routes.Guarded)
    (hch : Change careful routes next) : next.Phased := by
  cases hch with
  | number hnext => exact { hph with }
  | begin pendingCalls ha hnext hb =>
    have hcln := hph.accepting ha
    have hfr := notMem_calls_of_numbered hg hnext
    refine { hph with forCall := ?_, callsDone := ?_, resultsDone := ?_, resultsOver := ?_ }
    · intro token closer id hcl how
      obtain ⟨thread, hl, hclg⟩ := hph.forCall token closer id hcl how
      refine ⟨thread, (lookup_insert_ne ?_).trans hl, hclg⟩
      rintro rfl
      exact hfr (mem_of_lookup hl)
    · intro hp
      rw [hcln] at hp
      cases hp
    · intro owners resources h
      exact nomatch hcln.symm.trans h
    · intro hp
      rw [hcln] at hp
      cases hp
  | exported typeHash ha hnext => exact { hph with }
  | giveBack hl hs =>
    exact @Phased.setCall { routes with resources := _, borrowsDone := _ } _ _ _ { hph with } hl
      (fun h => absurd h (hph.no_closer hl (by rw [hs]; rfl)))
      (fun _ => by rw [hs]; rfl) nofun
  | move stage pendingCalls pendingResults hl hqt =>
    exact @Phased.setCall { routes with pendingCalls, pendingResults } _ _ _ { hph with }
      hl (fun h => absurd h (hph.no_closer hl hqt.closing)) hqt.working
      hqt.owned
  | reject hl hw hqt hk | discard hl hqt hk =>
    exact @Phased.startForCall { routes with provisionalResources := _ } _ _ _ _ { hph with }
      hl hqt.closing rfl hqt.working hqt.owned
  | accept stage hl ha hqt hk =>
    exact @Phased.setCall
      { routes with provisionalResources := _, resources := _, resourceOrder := _ } _ _ _
      { hph with } hl
      (fun h => absurd h (hph.no_closer hl hqt.closing)) hqt.working hqt.owned
  | release objects ha =>
    refine hph.insertCloser ?_ nofun nofun (fun _ _ _ _ _ => .inr rfl) fun h => nomatch h
    rw [hph.accepting ha]
    nofun
  | @drop id entry ha hl hidle =>
    have hi := @Phased.insertCloser routes routes.nextCloser
      { owner := .drop, objects := [id], stage := .waiting entry.borrowDone }
      (routes.nextCloser + 1) hph
      (fun hp => by rw [hph.accepting ha] at hp; cases hp) nofun nofun
      (fun _ _ _ _ _ => .inl rfl) ⟨nofun, id, rfl⟩
    exact { hi with }
  | endCall stage hcl how hob hl hclg hs hin hw howd =>
    refine (hph.eraseCloser _).setCall hl ?_ hw fun h => .inl (howd h)
    rintro ⟨key, other, ho, hc⟩
    exact absurd (hc.trans how.symm) (hph.erased_owner hcl (by simp [how]) (by simp [how]) ho)
  | remove hcl hob how => exact hph.eraseCloser _
  | @endRelease token closer hcl hob how =>
    have hcln := hph.forCleanup token closer hcl how
    have hp : pastResults routes.cleanup = true := by rw [hcln]; rfl
    have he := hph.eraseCloser token
    refine
      { he with
        accepting := ?_, forCleanup := ?_, callsDone := ?_, resultsDone := nofun,
        resultsOver := fun _ => hph.resultsOver hp }
    · exact hph.not_accepting hcln
    · intro key other ho hc
      exact absurd (hc.trans how.symm) (hph.erased_owner hcl (by simp [how]) (by simp [how]) ho)
    · exact fun _ => he.callsDone (pastCalls_of_pastResults hp)
  | skip hcl hs hob hl =>
    refine hph.setCloser hcl rfl (by rw [hs]; nofun) ?_
    rw [if_neg (hph.not_drop_of_next hcl hs), hs]
    nofun
  | attempt hcl hs hob hl hidle =>
    exact @Phased.setStage { routes with resourceCloses := _, released := _ } _ _ _
      { hph with } hcl (by rw [hs]; nofun) rfl
  | closing hcl hs hob hb =>
    exact @Phased.setStage { routes with closeCalls := _ } _ _ _ { hph with } hcl
      (by rw [hs]; nofun) rfl
  | closed failed hcl hs hob =>
    exact @Phased.setStage { routes with closeSuccesses := _ } _ _ _ { hph with } hcl
      (by rw [hs]; nofun) rfl
  | detach hcl hs hob how ho =>
    refine @Phased.setCloser
      { routes with resources := _, resourceOrder := _, resourceCloses := _ } _ _ _
      { hph with } hcl how (by rw [hs]; nofun) ?_
    rcases ho with ⟨hd, hle, hobj⟩ | ⟨hd, hnext, -⟩
    · have hsh := hph.shape _ _ hcl
      rw [if_pos hd, hob] at hsh
      rw [if_pos (how.trans hd), hle, hobj]
      exact ⟨nofun, hsh.2⟩
    · rw [if_neg (how ▸ hd), hnext]
      nofun
  | failedDrop hcl hs hob how =>
    refine hph.setCloser hcl rfl (by rw [hs]; nofun) ?_
    have hsh := hph.shape _ _ hcl
    rw [if_pos how] at hsh ⊢
    exact ⟨nofun, hsh.2⟩
  | failedRelease hcl hs hob how ho hnext hr horder =>
    refine @Phased.setCloser { routes with resourceOrder := _, resourceCloses := _ } _ _ _
      { hph with } hcl ho (by rw [hs]; nofun) ?_
    rw [if_neg (ho ▸ how), hnext]
    nofun
  | @leaveDrop token closer id rest hcl hs hob =>
    exact { hph.eraseCloser token with }
  | drain hst =>
    exact { hph with accepting := fun _ => hph.accepting (by rw [hst]; rfl) }
  | beginCleanup ha hres =>
    have hcln := hph.accepting ha
    refine
      { hph with
        accepting := nofun, forCleanup := ?_, callsDone := nofun, resultsDone := nofun,
        resultsOver := nofun }
    intro token closer hcl how
    exact absurd how (hph.no_cleanup (by simp [hcln]) hcl)
  | callsDone hcln hheld =>
    refine
      { hph with
        accepting := ?_, forCleanup := ?_, callsDone := fun _ => callsHeld_eq_false hheld,
        resultsDone := ?_, resultsOver := nofun }
    · exact hph.not_accepting hcln
    · intro token closer hcl how
      exact absurd how (hph.no_cleanup (by simp [hcln]) hcl)
    · intro owners resources heq call found hl howd
      cases heq
      exact mem_resultOwners hl howd
  | @resultDone id rest resources thread hcln hl hs =>
    refine
      { hph with
        accepting := ?_, forCleanup := ?_, callsDone := ?_, resultsDone := ?_,
        resultsOver := nofun }
    · exact hph.not_accepting hcln
    · intro token closer hcl how
      exact absurd how (hph.no_cleanup (by simp [hcln]) hcl)
    · exact fun _ => hph.callsDone (by rw [hcln]; rfl)
    · intro owners resources heq call found hf howd
      cases heq
      rcases mem_cons.mp (hph.resultsDone _ _ hcln call found hf howd) with
        rfl | hmem
      · obtain rfl := Option.some.inj (hl.symm.trans hf)
        exact absurd (hs.symm.trans howd) Bool.false_ne_true
      · exact hmem
  | @resultsDone resources hcln =>
    have hnone : ∀ token closer, routes.closers.lookup token = some closer →
        closer.owner ≠ .cleanup := fun _ _ => hph.no_cleanup (by simp [hcln])
    have hp : pastCalls routes.cleanup = true := by rw [hcln]; rfl
    have hre : Phased { routes with cleanup := some .releasing } := by
      refine
        { hph with
          accepting := ?_, forCleanup := fun _ _ _ _ => rfl,
          callsDone := fun _ => hph.callsDone hp, resultsDone := nofun,
          resultsOver := ?_ }
      · exact hph.not_accepting hcln
      · intro _ call found hf
        exact Bool.eq_false_iff.mpr fun howd =>
          nomatch hph.resultsDone _ _ hcln call found hf howd
    exact hre.insertCloser (fun _ => ⟨nofun, nofun⟩) nofun (fun _ => rfl)
      (fun token other _ ho how => absurd how (hnone token other ho))
      fun h => nomatch h
  | endCleanup hcln =>
    refine
      { hph with
        accepting := nofun, forCleanup := ?_, callsDone := nofun, resultsDone := nofun,
        resultsOver := nofun }
    intro token closer hcl how
    exact nomatch how.symm.trans (hph.only_drops hcln hcl).1

/-- What a closer that has closed its resource holds. -/
theorem Guarded.held (hg : routes.Guarded) (hcl : routes.closers.lookup token = some closer)
    (hen : closer.stage.engaged = true) (ho : closer.objects = id :: rest) :
    ∃ entry, routes.resources.lookup id = some entry ∧
      routes.resourceCloses.lookup id = some ⟨token, false⟩ ∧
      Calm routes.borrowsDone closer.stage id entry := by
  obtain ⟨obj, rest', entry, hob, he, hcls, hc⟩ :=
    hg.holds token closer hcl hen
  obtain ⟨rfl, -⟩ := cons.inj (ho.symm.trans hob)
  exact ⟨entry, he, hcls, hc⟩

theorem Calm.of_not_waiting {borrowsDone : List (UInt64 × UInt64)} {stage : CloserStage}
    (hc : Calm borrowsDone stage id entry)
    (hs : ∀ borrows, stage ≠ .waiting borrows) : entry.borrowed = 0 := by
  rcases hc with hz | ⟨chan, hw, -⟩
  · exact hz
  · exact absurd hw (hs _)

/-- A closer puts away what it has closed. -/
theorem Guarded.detach (hg : routes.Guarded) {failed : Bool}
    (hcl : routes.closers.lookup token = some closer)
    (hs : closer.stage = .closed failed) (hob : closer.objects = id :: rest)
    (ho : other.stage.engaged = false) :
    (RouteSet.setCloser { routes.detachResource id with
      resourceCloses := routes.resourceCloses.erase id } token other).Guarded := by
  obtain ⟨entry, he, hcls, hc⟩ := hg.held hcl (by rw [hs]; rfl) hob
  have hidle := hg.setIdle hcl ho
  have hfr : ∀ key found obj, (routes.setCloser token other).closers.lookup key = some found →
      found.stage.engaged = true → routes.resourceCloses.lookup obj = some ⟨key, false⟩ →
      obj ≠ id := by
    rintro key found obj hf hen ha rfl
    obtain rfl : token = key := congrArg ResourceClose.closer (Option.some.inj (hcls.symm.trans ha))
    obtain rfl := Option.some.inj ((lookup_insert _).symm.trans hf)
    exact Bool.false_ne_true (ho.symm.trans hen)
  have her := hidle.eraseResource he (hc.of_not_waiting (by rw [hs]; nofun))
    fun key found hf hen ha => hfr key found id hf hen ha rfl
  have hed := @Guarded.editCloses _ her (routes.resourceCloses.erase id)
    fun key found obj hf hen ha =>
      (lookup_erase_ne (hfr key found obj hf hen ha)).trans ha
  exact { hed with }

theorem Guarded.change (hg : routes.Guarded) (hph : routes.Phased)
    (hch : Change careful routes next) : next.Guarded := by
  cases hch with
  | number hnext => exact hg.number hnext
  | begin pendingCalls hac hnext hb => exact { hg.begin hnext hb with }
  | exported typeHash hac hnext => exact { hg.exported typeHash hnext with }
  | giveBack hl hs => exact hg.giveBack hl hs
  | move stage pendingCalls pendingResults hl hqt =>
    exact @Guarded.setCall { routes with pendingCalls, pendingResults } _ _ _ { hg with }
      hl hqt.old_ne hqt.new_ne
  | @reject id thread objects hl hw hqt hk
  | @discard id thread objects accepted failed hl hqt hk =>
    exact { (hg.startCloser (.call id) objects).setCall hl hqt.old_ne hqt.new_ne with }
  | @accept id thread objects stage hl hac hqt hk =>
    exact { (hg.reviseActive objects).setCall hl hqt.old_ne hqt.new_ne with }
  | release objects hac => exact hg.startCloser .release objects
  | @drop id entry hac hl hidle =>
    have ha := @Guarded.attempt routes routes.nextCloser id entry
      { owner := .drop, objects := [id], stage := .waiting entry.borrowDone }
      (routes.nextCloser + 1) hg [] (Nat.lt_succ_self _) (Nat.le_succ _) hidle hl rfl rfl
    exact { ha with }
  | @endCall token closer id thread stage hcl how hob hl hclg hs hi hw howd =>
    refine (hg.eraseCloser token).setCall hl ?_ hi
    intro hold
    rw [hold] at hclg
    cases hclg
  | @remove token closer hcl hob how => exact hg.eraseCloser token
  | @endRelease token closer hcl hob how =>
    exact { hg.eraseCloser token with }
  | skip hcl hs hob hl =>
    exact hg.setIdle hcl (by rw [hs]; rfl)
  | @attempt token closer id rest entry hcl hs hob hl hidle =>
    have ha := @Guarded.attempt routes token id entry
      { closer with stage := .waiting entry.borrowDone } routes.nextCloser hg rest
      (hg.closers token closer hcl) (Nat.le_refl _) hidle hl hob rfl
    exact { ha with }
  | @closing token closer id rest borrows hcl hs hob hb =>
    obtain ⟨entry, he, hcls, hc⟩ :=
      hg.held hcl (by rw [hs]; rfl) hob
    have hz : entry.borrowed = 0 := by
      rcases hc with hz | ⟨chan, hwa, -, hopen⟩
      · exact hz
      · rw [hs, CloserStage.waiting.injEq] at hwa
        exact absurd (hb chan hwa) hopen
    have hh := @Guarded.setHolding routes token closer
      { closer with stage := .closing } hg hcl ⟨id, rest, entry, hob, he, hcls, .inl hz⟩
    exact { hh with }
  | @closed token closer id rest failed hcl hs hob =>
    obtain ⟨entry, he, hcls, hc⟩ :=
      hg.held hcl (by rw [hs]; rfl) hob
    have hz := hc.of_not_waiting (by rw [hs]; nofun)
    have hh := @Guarded.setHolding routes token closer
      { closer with stage := .closed failed } hg hcl
      ⟨id, rest, entry, hob, he, hcls, .inl hz⟩
    exact { hh with }
  | detach hcl hs hob how ho =>
    refine hg.detach hcl hs hob ?_
    rcases ho with ⟨-, hle, -⟩ | ⟨-, hnext, -⟩
    · rw [hle]
      rfl
    · rw [hnext]
      rfl
  | failedDrop hcl hs hob how => exact hg.setIdle hcl rfl
  | @failedRelease token closer other id rest order hcl hs hob how ho hnext hr horder =>
    obtain ⟨entry, he, hcls, hc⟩ :=
      hg.held hcl (by rw [hs]; rfl) hob
    have hidle := @Guarded.setIdle _ _ _ other hg hcl (by rw [hnext]; rfl)
    have hed := @Guarded.editCloses _ hidle (routes.resourceCloses.insert id ⟨token, true⟩) (by
      intro key found obj hf hen ha
      refine (lookup_insert_ne ?_).trans ha
      rintro rfl
      obtain rfl : token = key := congrArg ResourceClose.closer
        (Option.some.inj (hcls.symm.trans ha))
      obtain rfl := Option.some.inj ((lookup_insert _).symm.trans hf)
      rw [hnext] at hen
      cases hen)
    exact { hed with }
  | @leaveDrop token closer id rest hcl hs hob =>
    refine (hg.eraseCloser token).editCloses ?_
    intro key found obj hf hen ha
    rw [lookup_revise, ha, Option.map_some, if_neg fun h => (lookup_erase_cases hf).1 h.2]
  | drain hst => exact { hg with }
  | beginCleanup hac hre => exact { hg with }
  | callsDone hcln hheld => exact { hg with }
  | resultDone hcln hl howd => exact { hg with }
  | @resultsDone resources hcln =>
    exact { hg.startCloser .cleanup resources.reverse with }
  | endCleanup hcln =>
    refine
      { hg with
        resources := nofun, opened := nofun, holds := ?_, counted := nofun, present := ?_ }
    · intro token closer hcl hen
      rw [(hph.only_drops hcln hcl).2] at hen
      cases hen
    · intro call thread hl hi
      have hw := (hph.callsDone (by rw [hcln]; rfl)).1 call thread hl
      rw [hi] at hw
      cases hw

end Changes

section Recorded

variable {edit : UInt64 → ProviderResource → ProviderResource}

/-- The resource has been exported and is gone. -/
def Gone (routes : RouteSet) (id : UInt64) : Prop :=
  routes.resources.lookup id = none ∧ id ≤ routes.nextResource

/-- The closer is about to put the resource away. -/
def Finishes (routes : RouteSet) (id : UInt64) : Prop :=
  ∃ token closer rest, routes.closers.lookup token = some closer ∧
    closer.objects = id :: rest ∧ closer.stage = .closed false

/-- What has been closed is gone or about to go, and what has been released is out of reach. -/
structure Recorded (routes : RouteSet) : Prop where
  succeeded : ∀ id ∈ routes.closeSuccesses, routes.Gone id ∨ routes.Finishes id
  released : ∀ id ∈ routes.released, routes.Gone id ∨ id ∈ routes.resourceCloses
  bounded : ∀ id ∈ routes.released, id ≤ routes.nextResource

theorem Gone.revise (hgo : routes.Gone id) :
    Gone { routes with resources := revise edit routes.resources } id := by
  refine ⟨?_, hgo.2⟩
  rw [lookup_revise, hgo.1]
  rfl

theorem Finishes.insertCloser (hfi : routes.Finishes id)
    (hold : ∀ other, routes.closers.lookup token = some other → other.stage ≠ .closed false) :
    Finishes { routes with closers := routes.closers.insert token closer, nextCloser } id := by
  obtain ⟨key, found, rest, hf, ho, hs⟩ := hfi
  refine ⟨key, found, rest, (lookup_insert_ne ?_).trans hf, ho, hs⟩
  rintro rfl
  exact hold found hf hs

theorem Finishes.eraseCloser (hfi : routes.Finishes id)
    (hold : ∀ other, routes.closers.lookup token = some other →
      other.stage ≠ .closed false ∨ other.objects = []) :
    Finishes { routes with closers := routes.closers.erase token } id := by
  obtain ⟨key, found, rest, hf, ho, hs⟩ := hfi
  refine ⟨key, found, rest, (lookup_erase_ne ?_).trans hf, ho, hs⟩
  rintro rfl
  rcases hold found hf with h | h
  · exact h hs
  · exact nomatch ho.symm.trans h

theorem Recorded.startCloser (hr : routes.Recorded) (hg : routes.Guarded)
    (owner : CloserOwner) (objs : List UInt64) :
    (routes.startCloser owner objs).Recorded := by
  refine { hr with
    succeeded := fun id hid => (hr.succeeded id hid).imp_right fun h => ?_ }
  refine h.insertCloser fun other ho => ?_
  exact absurd (mem_of_lookup ho) hg.notMem_nextCloser

/-- A closer that is not about to put anything away gets on. -/
theorem Recorded.setCloser (hr : routes.Recorded)
    (hcl : routes.closers.lookup token = some closer) (hold : closer.stage ≠ .closed false) :
    (routes.setCloser token other).Recorded := by
  refine { hr with
    succeeded := fun id hid => (hr.succeeded id hid).imp_right fun h => ?_ }
  refine h.insertCloser fun found hf => ?_
  obtain rfl := Option.some.inj (hcl.symm.trans hf)
  exact hold

theorem Recorded.eraseCloser (hr : routes.Recorded)
    (hcl : routes.closers.lookup token = some closer)
    (hold : closer.stage ≠ .closed false ∨ closer.objects = []) :
    Recorded { routes with closers := routes.closers.erase token } := by
  refine { hr with
    succeeded := fun id hid => (hr.succeeded id hid).imp_right fun h => ?_ }
  refine h.eraseCloser fun found hf => ?_
  obtain rfl := Option.some.inj (hcl.symm.trans hf)
  exact hold

theorem Recorded.revise (hr : routes.Recorded) :
    Recorded { routes with resources := revise edit routes.resources } :=
  { hr with
    succeeded := fun id hid => (hr.succeeded id hid).imp_left Gone.revise
    released := fun id hid => (hr.released id hid).imp_left Gone.revise }

/-- An attempt puts the resource out of reach. -/
theorem Recorded.attempt {close : ResourceClose} (hr : routes.Recorded)
    (hid : id ≤ routes.nextResource) :
    Recorded { routes with
      resourceCloses := routes.resourceCloses.insert id close
      released := id :: routes.released } := by
  refine ⟨hr.succeeded, fun obj ho => ?_, fun obj ho => ?_⟩
  · rcases mem_cons.mp ho with rfl | ho
    · exact .inr ((mem_insert _).mpr (.inl rfl))
    · exact (hr.released obj ho).imp_right fun h =>
        (mem_insert _).mpr (.inr h)
  · rcases mem_cons.mp ho with rfl | ho
    · exact hid
    · exact hr.bounded obj ho

theorem Recorded.change (hre : routes.Recorded) (hg : routes.Guarded)
    (hph : routes.Phased) (hch : Change careful routes next) : next.Recorded := by
  cases hch with
  | number hnext | move stage pendingCalls pendingResults hl hqt | drain hst
  | beginCleanup ha hres | callsDone hc hheld
  | resultDone hc hl howd => exact { hre with }
  | @begin borrows pendingCalls ha hnext hb =>
    have hrev := @Recorded.revise _ (fun object entry =>
      if object ∈ borrows then entry.borrow (routes.nextCall + 1) else entry) hre
    exact { hrev with }
  | exported typeHash ha hnext =>
    have hlt := lt_add_one_of_ne_max hnext
    have hgo : ∀ id, routes.Gone id → Gone { routes with
        nextResource := routes.nextResource + 1
        resources := routes.resources.insert (routes.nextResource + 1) { typeHash } } id := by
      rintro id ⟨hnone, hle⟩
      refine ⟨(lookup_insert_ne ?_).trans hnone, UInt64.le_trans hle (UInt64.le_of_lt hlt)⟩
      rintro rfl
      exact UInt64.not_lt.mpr hle hlt
    exact ⟨fun id hid => (hre.succeeded id hid).imp_left (hgo id),
      fun id hid => (hre.released id hid).imp_left (hgo id),
      fun id hid => UInt64.le_trans (hre.bounded id hid) (UInt64.le_of_lt hlt)⟩
  | @giveBack id thread hl hs =>
    have hrev := @Recorded.revise _ (fun object entry =>
      if object ∈ thread.borrows then entry.giveBack else entry) hre
    exact { hrev with }
  | @reject id thread objs hl hw hqt hkn =>
    exact { hre.startCloser hg (.call id) objs with }
  | @accept id thread objs stage hl ha hqt hkn =>
    have hrev := @Recorded.revise _ (fun object entry =>
      if object ∈ objs then { entry with active := true } else entry) hre
    exact { hrev with }
  | @discard id thread objs accepted failed hl hqt hkn =>
    exact { hre.startCloser hg (.call id) objs with }
  | release objs ha => exact hre.startCloser hg .release objs
  | @drop id entry ha hl hidle =>
    have hat := @Recorded.attempt _ id ⟨routes.nextCloser, false⟩ hre (hg.resources id entry hl)
    refine { hat with succeeded := fun object hobj => ?_ }
    refine (hat.succeeded object hobj).imp_right fun h => ?_
    exact h.insertCloser fun other ho => absurd (mem_of_lookup ho) hg.notMem_nextCloser
  | endCall stage hcl how hob hl hclg hs hi hw howd =>
    exact { hre.eraseCloser hcl (.inr hob) with }
  | remove hcl hob how => exact hre.eraseCloser hcl (.inr hob)
  | endRelease hcl hob how =>
    exact { hre.eraseCloser hcl (.inr hob) with }
  | skip hcl hs hob hl =>
    exact hre.setCloser hcl (by rw [hs]; nofun)
  | @attempt token closer id rest entry hcl hs hob hl hidle =>
    have hat := @Recorded.attempt _ id ⟨token, false⟩ hre (hg.resources id entry hl)
    exact hat.setCloser hcl (by rw [hs]; nofun)
  | @closing token closer id rest borrows hcl hs hob hb =>
    have hse := @Recorded.setCloser _ _ _ { closer with stage := .closing } hre hcl
      (by rw [hs]; nofun)
    exact { hse with }
  | @closed token closer id rest failed hcl hs hob =>
    have hse := @Recorded.setCloser _ _ _ { closer with stage := .closed failed } hre
      hcl (by rw [hs]; nofun)
    refine { hse with succeeded := fun object hobj => ?_ }
    cases failed with
    | true => exact hse.succeeded object hobj
    | false =>
      rcases mem_cons.mp hobj with rfl | hobj
      · exact .inr ⟨token, _, rest, lookup_insert _, hob, rfl⟩
      · exact hse.succeeded object hobj
  | @detach token closer other id rest failed hcl hs hob how ho =>
    obtain ⟨entry, he, hcls, hca⟩ :=
      hg.held hcl (by rw [hs]; rfl) hob
    have hgo : ∀ object, routes.Gone object → (RouteSet.setCloser { routes.detachResource id with
          resourceCloses := routes.resourceCloses.erase id } token other).Gone object := by
      rintro object ⟨hnone, hle⟩
      refine ⟨?_, hle⟩
      by_cases hobj : object = id
      · subst hobj
        exact lookup_erase _ _
      · exact (lookup_erase_ne hobj).trans hnone
    have hsel : (RouteSet.setCloser { routes.detachResource id with
        resourceCloses := routes.resourceCloses.erase id } token other).Gone id :=
      ⟨lookup_erase _ _, hg.resources id entry he⟩
    refine ⟨?_, ?_, hre.bounded⟩
    · intro object hobj
      rcases hre.succeeded object hobj with h | ⟨key, found, rest', hf, hmem, hd⟩
      · exact .inl (hgo object h)
      · by_cases hk : key = token
        · subst hk
          obtain rfl := Option.some.inj (hcl.symm.trans hf)
          obtain ⟨rfl, -⟩ := cons.inj (hob.symm.trans hmem)
          exact .inl hsel
        · exact .inr ⟨key, found, rest', (lookup_insert_ne hk).trans hf, hmem, hd⟩
    · intro object hobj
      rcases hre.released object hobj with h | h
      · exact .inl (hgo object h)
      · by_cases hid : object = id
        · exact .inl (hid ▸ hsel)
        · exact .inr (mem_erase.mpr ⟨hid, h⟩)
  | failedDrop hcl hs hob how =>
    exact hre.setCloser hcl (by rw [hs]; nofun)
  | @failedRelease token closer other id rest order hcl hs hob how ho hnext hr horder =>
    have hse := @Recorded.setCloser _ _ _ other hre hcl (by rw [hs]; nofun)
    refine { hse with released := fun object hobj => ?_ }
    exact (hse.released object hobj).imp_right fun h => (mem_insert _).mpr (.inr h)
  | @leaveDrop token closer id rest hcl hs hob =>
    have her := hre.eraseCloser hcl (.inl (by rw [hs]; nofun))
    refine { her with released := fun object hobj => ?_ }
    refine (her.released object hobj).imp_right fun h => ?_
    exact mem_revise.mpr h
  | @resultsDone resources hc =>
    exact { hre.startCloser hg .cleanup resources.reverse with }
  | endCleanup hc =>
    refine ⟨?_, fun object hobj => .inl ⟨rfl, hre.bounded object hobj⟩, hre.bounded⟩
    · intro object hobj
      rcases hre.succeeded object hobj with h | ⟨key, found, rest, hf, -, hd⟩
      · exact .inl ⟨rfl, h.2⟩
      · exact nomatch hd.symm.trans (hph.only_drops hc hf).2

end Recorded

end RouteSet

end MiniGo.Rpc
