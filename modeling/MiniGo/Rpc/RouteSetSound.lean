/-
The life of a resource in a route set.

A resource is not closed while it is borrowed, not closed again once that has
succeeded, and not handed out once it has been released. At the end every resource has
been closed, provided that nobody exports one after the handler has returned: the result
forgets such a resource, and nothing else knows it.
-/
import MiniGo.Rpc.RouteSetGuard

namespace MiniGo.Rpc

open AList List Option Table

/-- Below a successor there is only what was below before. -/
theorem le_of_le_add_one {id other : UInt64} (h : id ≠ 18446744073709551615)
    (hle : other ≤ id + 1) (hne : other ≠ id + 1) : other ≤ id := by
  have ha := toNat_add_one_of_ne_max h
  have hn : other.toNat ≠ (id + 1).toNat := fun heq => hne (UInt64.toNat_inj.mp heq)
  rw [UInt64.le_iff_toNat_le] at hle ⊢
  omega

namespace RouteSet

section Traced

/-- The resources that are left to the cleanup. -/
def cleanupList : Option CleanupStage → List UInt64
  | some (.calls resources) => resources
  | some (.results _ resources) => resources
  | _ => []

/-- The cleanup would come to the resource, or will. -/
def Stored (routes : RouteSet) (id : UInt64) : Prop :=
  routes.cleanup = none ∧ (id ∈ routes.resourceOrder ∨
      ∃ call objects, routes.provisionalResources.lookup call = some objects ∧ id ∈ objects) ∨
    id ∈ cleanupList routes.cleanup

/-- Somebody will close the resource. -/
def Listed (routes : RouteSet) (id : UInt64) : Prop :=
  (∃ token closer, routes.closers.lookup token = some closer ∧ id ∈ closer.objects) ∨
    routes.Stored id

/-- The stages after a `Close` has been called. -/
def Called (stage : CloserStage) : Prop :=
  stage = .closing ∨ (∃ failed, stage = .closed failed) ∨ stage = .leaving

/-- Every exported resource has been closed or is known to somebody who will close it. -/
structure Traced (routes : RouteSet) : Prop where
  called : ∀ token closer id rest, routes.closers.lookup token = some closer →
    closer.objects = id :: rest → Called closer.stage → id ∈ routes.closeCalls
  gone : ∀ id, 0 < id → id ≤ routes.nextResource → routes.resources.lookup id = none →
    id ∈ routes.closeCalls
  kept : ∀ id entry, routes.resources.lookup id = some entry →
    id ∈ routes.closeCalls ∨ routes.Listed id
  emptied : routes.state.acceptsResourceCalls = false → routes.cleanup = none → routes.resources = ∅
  ended : routes.state = .closed → routes.cleanup = none

variable {routes next : RouteSet} {token : Nat} {closer : Closer} {id : UInt64}

section

variable (htraced : routes.Traced)
include htraced

theorem Traced.not_closed {stage : CleanupStage} (hc : routes.cleanup = some stage) :
    routes.state ≠ .closed :=
  fun hcl => nomatch hc.symm.trans (htraced.ended hcl)

/-- A closer drops objects only if they are gone or have been closed. -/
theorem Traced.setCloser {other : Closer} (hcl : routes.closers.lookup token = some closer)
    (ho : ∀ obj entry, routes.resources.lookup obj = some entry →
      obj ∈ closer.objects → obj ∈ routes.closeCalls ∨ obj ∈ other.objects)
    (hc : ∀ obj rest, other.objects = obj :: rest → Called other.stage → obj ∈ routes.closeCalls) :
    (routes.setCloser token other).Traced := by
  refine { htraced with called := ?_, kept := ?_ }
  · intro key found obj rest hf hob hs
    rcases lookup_insert_cases hf with ⟨-, rfl⟩ | ⟨-, hf⟩
    · exact hc obj rest hob hs
    · exact htraced.called key found obj rest hf hob hs
  · intro obj entry he
    rcases htraced.kept obj entry he with hcls | ⟨key, found, hf, hob⟩ | hst
    · exact .inl hcls
    · by_cases hk : key = token
      · subst hk
        obtain rfl := some.inj (hcl.symm.trans hf)
        exact (ho obj entry he hob).imp_right fun h =>
          .inl ⟨key, other, lookup_insert _, h⟩
      · exact .inr (.inl ⟨key, found, (lookup_insert_ne hk).trans hf, hob⟩)
    · exact .inr (.inr hst)

/-- A closer gets on with the same objects. -/
theorem Traced.setStage {stage : CloserStage} (hcl : routes.closers.lookup token = some closer)
    (hc : Called stage → Called closer.stage) :
    (routes.setCloser token { closer with stage }).Traced :=
  htraced.setCloser hcl (fun _ _ _ h => .inr h) fun obj rest ho hs =>
    htraced.called token closer obj rest hcl ho (hc hs)

/-- A closer gets past an object that has been closed. -/
theorem Traced.passCloser {other : Closer} {rest : List UInt64}
    (hcl : routes.closers.lookup token = some closer)
    (hob : closer.objects = id :: rest) (hid : id ∈ routes.closeCalls)
    (ho : other.objects = id :: rest ∨ other.stage = .next ∧ other.objects = rest) :
    (routes.setCloser token other).Traced := by
  refine htraced.setCloser hcl ?_ ?_
  · intro obj entry he hobj
    rw [hob] at hobj
    rcases mem_cons.mp hobj with rfl | hobj
    · exact .inl hid
    · rcases ho with ho | ⟨-, ho⟩
      · exact .inr (ho ▸ mem_cons_of_mem id hobj)
      · exact .inr (ho ▸ hobj)
  · intro obj rest hobj hcd
    rcases ho with ho | ⟨hs, -⟩
    · obtain ⟨rfl, -⟩ := cons.inj (ho.symm.trans hobj)
      exact hid
    · rw [hs] at hcd
      simp [Called] at hcd

/-- A new closer has not closed anything. -/
theorem Traced.insertCloser {nextCloser : Nat} (hfr : token ∉ routes.closers)
    (hs : ¬ Called closer.stage) :
    Traced { routes with closers := routes.closers.insert token closer, nextCloser } := by
  have hne : ∀ key found, routes.closers.lookup key = some found → key ≠ token := by
    rintro key found hf rfl
    exact hfr (lookup_isSome.mp (isSome_of_mem hf))
  refine { htraced with called := ?_, kept := ?_ }
  · intro key found obj rest hf ho hc
    rcases lookup_insert_cases hf with ⟨-, rfl⟩ | ⟨-, hf⟩
    · exact absurd hc hs
    · exact htraced.called key found obj rest hf ho hc
  · intro obj entry he
    refine (htraced.kept obj entry he).imp_right (Or.imp_left ?_)
    rintro ⟨key, found, hf, ho⟩
    exact ⟨key, found, (lookup_insert_ne (hne key found hf)).trans hf, ho⟩

/-- A closer leaves when its objects have been closed. -/
theorem Traced.eraseCloser (hcl : routes.closers.lookup token = some closer)
    (ho : ∀ obj ∈ closer.objects, obj ∈ routes.closeCalls) :
    Traced { routes with closers := routes.closers.erase token } := by
  refine { htraced with called := ?_, kept := ?_ }
  · exact fun key found obj rest hf =>
      htraced.called key found obj rest (lookup_erase_cases hf).2
  · intro obj entry he
    rcases htraced.kept obj entry he with hc | ⟨key, found, hf, hob⟩ | hs
    · exact .inl hc
    · by_cases hk : key = token
      · subst hk
        obtain rfl := some.inj (hcl.symm.trans hf)
        exact .inl (ho obj hob)
      · exact .inr (.inl ⟨key, found, (lookup_erase_ne hk).trans hf, hob⟩)
    · exact .inr (.inr hs)

theorem Traced.revise {change : UInt64 → ProviderResource → ProviderResource} :
    Traced { routes with resources := Table.revise change routes.resources } := by
  refine { htraced with gone := ?_, kept := ?_, emptied := ?_ }
  · intro obj hpos hle hnone
    rw [lookup_revise, map_eq_none_iff] at hnone
    exact htraced.gone obj hpos hle hnone
  · intro obj entry he
    rw [lookup_revise, map_eq_some_iff] at he
    obtain ⟨old, hold, -⟩ := he
    exact htraced.kept obj old hold
  · intro hs hc
    rw [htraced.emptied hs hc]
    rfl

/-- What a call forgets is known to it or stored elsewhere. -/
theorem Traced.forget {objs : List UInt64} {object : UInt64} {entry : ProviderResource}
    (hk : routes.Knows id objs) (he : routes.resources.lookup object = some entry) :
    object ∈ routes.closeCalls ∨ object ∈ objs ∨
      Listed { routes with
        provisionalResources := routes.provisionalResources.erase id } object := by
  rcases htraced.kept object entry he with hcls | hcl | hst
  · exact .inl hcls
  · exact .inr (.inr (.inl hcl))
  · refine .inr ?_
    rcases hst with ⟨hcln, horder | ⟨call, found, hf, ho⟩⟩ | hl
    · exact .inr (.inr (.inl ⟨hcln, .inl horder⟩))
    · by_cases hc : call = id
      · subst hc
        refine .inl (hk ?_ object (by rw [hf]; exact ho))
        by_contra hs
        rw [htraced.emptied (Bool.eq_false_iff.mpr hs) hcln] at he
        exact nomatch he
      · exact .inr (.inr (.inl ⟨hcln, .inr ⟨call, found, (lookup_erase_ne hc).trans hf, ho⟩⟩))
    · exact .inr (.inr (.inr hl))

/-- A call hands what it forgets to a closer. -/
theorem Traced.handOver {objects : List UInt64} (hg : routes.Guarded)
    (hk : routes.Knows id objects) (owner : CloserOwner) :
    (RouteSet.startCloser
      { routes with provisionalResources := routes.provisionalResources.erase id }
      owner objects).Traced := by
  have hs := @Traced.insertCloser routes routes.nextCloser
    { owner, objects, stage := .next } htraced (routes.nextCloser + 1) hg.notMem_nextCloser
    (by simp [Called])
  refine { hs with kept := ?_ }
  intro obj entry he
  rcases htraced.forget hk he with hc | ho | hcl | hst
  · exact .inl hc
  · exact .inr (.inl ⟨_, _, lookup_insert _, ho⟩)
  · obtain ⟨key, found, hf, ho⟩ := hcl
    refine .inr (.inl ⟨key, found, (lookup_insert_ne ?_).trans hf, ho⟩)
    rintro rfl
    exact hg.notMem_nextCloser (lookup_isSome.mp (isSome_of_mem hf))
  · exact .inr (.inr hst)

theorem Traced.change (hg : routes.Guarded) (hph : routes.Phased)
    (hch : Change True routes next) : next.Traced := by
  cases hch with
  | number hnt => exact { htraced with }
  | @begin b p ha hnt hb =>
    have hre := @Traced.revise _ htraced fun obj entry =>
      if obj ∈ b then entry.borrow (routes.nextCall + 1) else entry
    exact { hre with }
  | @exported id typeHash ha hnt =>
    have hcln := hph.accepting ha
    refine { htraced with gone := ?_, kept := ?_, emptied := ?_ }
    · intro obj hps hle hn
      by_cases hobj : obj = routes.nextResource + 1
      · subst hobj
        exact nomatch (lookup_insert _).symm.trans hn
      · refine htraced.gone obj hps ?_ ((lookup_insert_ne hobj).symm.trans hn)
        exact le_of_le_add_one hnt hle hobj
    · intro obj entry he
      rcases lookup_insert_cases he with ⟨rfl, -⟩ | ⟨hobj, he⟩
      · exact .inr (.inr (.inl ⟨hcln, .inr ⟨id, _, lookup_insert _,
          mem_append_right _ (mem_singleton_self _)⟩⟩))
      · refine (htraced.kept obj entry he).imp_right (Or.imp_right ?_)
        rintro (⟨-, hod | ⟨ca, f, hf, hm⟩⟩ | hl)
        · exact .inl ⟨hcln, .inl hod⟩
        · refine .inl ⟨hcln, .inr ?_⟩
          by_cases hc : ca = id
          · subst hc
            refine ⟨ca, _, lookup_insert _, mem_append_left _ ?_⟩
            rw [hf]
            exact hm
          · exact ⟨ca, f, (lookup_insert_ne hc).trans hf, hm⟩
        · exact .inr hl
    · exact fun hst => absurd (ha.symm.trans hst) (by decide)
  | @giveBack id t hlo hs =>
    have hre := @Traced.revise _ htraced fun obj entry =>
      if obj ∈ t.borrows then entry.giveBack else entry
    exact { hre with }
  | move stage p pendingResults hlo hqt => exact { htraced with }
  | @reject id t objects hlo hw hqt hk => exact { htraced.handOver hg (hk trivial) (.call id) with }
  | @accept id t objects stage hlo ha hqt hk =>
    have hcln := hph.accepting ha
    have hre := @Traced.revise _ htraced (fun obj entry =>
      if obj ∈ objects then { entry with active := true } else entry)
    refine { hre with kept := ?_ }
    intro obj entry he
    change (Table.revise _ _).lookup _ = _ at he
    rw [lookup_revise, map_eq_some_iff] at he
    obtain ⟨old, hold, -⟩ := he
    rcases htraced.forget (hk trivial) hold with hcls | hobj | hcl | hstd
    · exact .inl hcls
    · refine .inr (.inr (.inl ⟨hcln, .inl (mem_append_right _ ?_)⟩))
      refine mem_filter.mpr ⟨hobj, decide_eq_true ?_⟩
      exact lookup_isSome.mp (isSome_of_mem hold)
    · exact .inr (.inl hcl)
    · refine .inr (.inr (hstd.imp_left ?_))
      rintro ⟨-, hod | hp⟩
      · exact ⟨hcln, .inl (mem_append_left _ hod)⟩
      · exact ⟨hcln, .inr hp⟩
  | @discard id t objects accepted fa hlo hqt hk =>
    exact { htraced.handOver hg (hk trivial) (.call id) with }
  | release objects ha => exact htraced.insertCloser hg.notMem_nextCloser (by simp [Called])
  | @drop id entry ha hlo hie =>
    have hi := @Traced.insertCloser routes routes.nextCloser
      { owner := .drop, objects := [id], stage := .waiting entry.borrowDone }
      htraced (routes.nextCloser + 1) hg.notMem_nextCloser (by simp [Called])
    exact { hi with }
  | endCall stage hcl how hob hlo hclg hs hin hw howd =>
    exact { htraced.eraseCloser hcl (by rw [hob]; nofun) with }
  | remove hcl hob how => exact htraced.eraseCloser hcl (by rw [hob]; nofun)
  | @endRelease token c hcl hob how =>
    have hcln := hph.forCleanup token c hcl how
    have her := htraced.eraseCloser hcl (by rw [hob]; nofun)
    refine
      { her with
        kept := ?_, emptied := nofun, ended := fun h => absurd h (htraced.not_closed hcln) }
    intro obj entry he
    refine (her.kept obj entry he).imp_right (Or.imp_right ?_)
    rintro (⟨hn, -⟩ | hl)
    · exact nomatch hcln.symm.trans hn
    · rw [hcln] at hl
      exact nomatch hl
  | @skip token c id re hcl hs hob hlo =>
    refine htraced.setCloser hcl ?_ ?_
    · intro obj entry he hobj
      rw [hob] at hobj
      rcases mem_cons.mp hobj with rfl | hobj
      · exact nomatch hlo.symm.trans he
      · exact .inr hobj
    · intro obj o _ hcd
      rw [hs] at hcd
      simp [Called] at hcd
  | @attempt token c id re entry hcl hs hob hlo hie =>
    have hse := @Traced.setStage _ _ _ htraced (.waiting entry.borrowDone) hcl (by simp [Called])
    exact { hse with }
  | @closing token c id re b hcl hs hob hb =>
    have hcd : Traced { routes with closeCalls := id :: routes.closeCalls } :=
      { htraced with
        called := fun key f obj o hf hobj hs =>
          mem_cons_of_mem id (htraced.called key f obj o hf hobj hs)
        gone := fun obj hps hle hn => mem_cons_of_mem id (htraced.gone obj hps hle hn)
        kept := fun obj entry he => (htraced.kept obj entry he).imp_left (mem_cons_of_mem id) }
    refine hcd.setCloser hcl (fun _ _ _ h => .inr h) ?_
    rintro obj o hobj -
    obtain ⟨rfl, -⟩ := cons.inj (hob.symm.trans hobj)
    exact mem_cons_self
  | @closed token c id re fa hcl hs hob =>
    have hse := @Traced.setStage _ _ _ htraced (.closed fa) hcl fun _ => .inl hs
    exact { hse with }
  | @detach token c ot id re fa hcl hs hob how ho =>
    have hcls := htraced.called token c id re hcl hob (.inr (.inl ⟨_, hs⟩))
    have hse := htraced.passCloser hcl hob hcls (ho.imp (·.2.2) (·.2))
    refine { hse with gone := ?_, kept := ?_, emptied := ?_ }
    · intro obj hps hle hn
      by_cases hobj : obj = id
      · exact hobj ▸ hcls
      · exact htraced.gone obj hps hle ((lookup_erase_ne hobj).symm.trans hn)
    · intro obj entry he
      obtain ⟨hobj, he⟩ := lookup_erase_cases he
      refine (hse.kept obj entry he).imp_right (Or.imp_right ?_)
      rintro (⟨hcln, hod | hp⟩ | hl)
      · exact .inl ⟨hcln, .inl ((mem_erase_of_ne hobj).mpr hod)⟩
      · exact .inl ⟨hcln, .inr hp⟩
      · exact .inr hl
    · intro hst hcln
      have hem := htraced.emptied hst hcln
      change routes.resources.erase id = ∅
      rw [hem]
      rfl
  | @failedDrop token c id re hcl hs hob how =>
    exact htraced.setStage hcl fun _ => .inr (.inl ⟨_, hs⟩)
  | @failedRelease token c ot id re order hcl hs hob how ho hnt hr hod =>
    have hcls := htraced.called token c id re hcl hob (.inr (.inl ⟨_, hs⟩))
    have hse := htraced.passCloser hcl hob hcls (.inr ⟨hnt, hr⟩)
    refine { hse with kept := ?_ }
    intro obj entry he
    refine (hse.kept obj entry he).imp_right (Or.imp_right ?_)
    rintro (⟨hcln, hor | hp⟩ | hl)
    · exact .inl ⟨hcln, .inl (hod obj hor)⟩
    · exact .inl ⟨hcln, .inr hp⟩
    · exact .inr hl
  | @leaveDrop token c id re hcl hs hob =>
    have hcls := htraced.called token c id re hcl hob (.inr (.inr hs))
    have hsh := hph.shape token c hcl
    have her := htraced.eraseCloser hcl (by
      intro obj hobj
      split_ifs at hsh
      · obtain ⟨-, only, hon⟩ := hsh
        obtain ⟨rfl, -⟩ := cons.inj (hob.symm.trans hon)
        rw [hon, mem_singleton] at hobj
        exact hobj ▸ hcls
      · exact absurd hs hsh)
    exact { her with }
  | drain hst => exact { htraced with emptied := nofun, ended := nofun }
  | @beginCleanup rs ha hres =>
    have hcln := hph.accepting ha
    refine { htraced with kept := ?_, emptied := nofun, ended := nofun }
    intro obj entry he
    refine (htraced.kept obj entry he).imp_right (Or.imp_right ?_)
    rcases hres with hem | rfl
    · exact absurd he (lookup_ne_some_of_size_eq_zero hem)
    · rintro (⟨-, hod | ⟨ca, f, hf, hm⟩⟩ | hl)
      · exact .inr (mem_append_left _ hod)
      · refine .inr (mem_append_right _ (mem_flatten.mpr ⟨f, ?_, hm⟩))
        exact mem_map.mpr ⟨⟨ca, f⟩, mem_lookup_iff.mp hf, rfl⟩
      · rw [hcln] at hl
        exact nomatch hl
  | callsDone hcln hheld | resultDone hcln hlo howd =>
    refine
      { htraced with
        kept := ?_, emptied := nofun, ended := fun h => absurd h (htraced.not_closed hcln) }
    intro obj entry he
    refine (htraced.kept obj entry he).imp_right (Or.imp_right ?_)
    rintro (⟨hn, -⟩ | hl)
    · exact nomatch hcln.symm.trans hn
    · rw [hcln] at hl
      exact .inr hl
  | @resultsDone rs hcln =>
    have hsta := @Traced.insertCloser routes routes.nextCloser
      { owner := .cleanup, objects := rs.reverse, stage := .next }
      htraced (routes.nextCloser + 1) hg.notMem_nextCloser (by simp [Called])
    refine
      { hsta with
        kept := ?_, emptied := nofun, ended := fun h => absurd h (htraced.not_closed hcln) }
    intro obj entry he
    rcases hsta.kept obj entry he with hcls | hcl | ⟨hn, -⟩ | hl
    · exact .inl hcls
    · exact .inr (.inl hcl)
    · exact nomatch hcln.symm.trans hn
    · rw [hcln] at hl
      exact .inr (.inl ⟨_, _, lookup_insert _, mem_reverse.mpr hl⟩)
  | endCleanup hcln =>
    refine ⟨htraced.called, ?_, nofun, fun _ _ => rfl, fun _ => rfl⟩
    intro obj hps hle _
    cases he : routes.resources.lookup obj with
    | none => exact htraced.gone obj hps hle he
    | some entry =>
      rcases htraced.kept obj entry he with hcls | ⟨key, f, hf, hobj⟩ | ⟨hn, -⟩ | hl
      · exact hcls
      · obtain ⟨hd, hlea⟩ := hph.only_drops hcln hf
        have hsh := hph.shape key f hf
        rw [if_pos hd] at hsh
        obtain ⟨-, only, hon⟩ := hsh
        rw [hon, mem_singleton] at hobj
        subst hobj
        exact htraced.called key f obj [] hf hon (.inr (.inr hlea))
      · exact nomatch hcln.symm.trans hn
      · rw [hcln] at hl
        exact nomatch hl

end

end Traced

section Runs

open Replay (Passes Occurs)

/-- A `Close` is running only on a resource that nobody borrows and that has not been
closed, and what has been dropped or released cannot be used again. -/
structure Lifetime (routes : RouteSet) : Prop where
  closing : ∀ token closer id rest, routes.closers.lookup token = some closer →
    closer.stage = .closing → closer.objects = id :: rest →
    id ∉ routes.closeSuccesses ∧
      ∀ call thread, routes.calls.lookup call = some thread → thread.stage = .invoking →
        id ∉ thread.borrows
  released : ∀ ref : ResourceRef, ref.objectID ∈ routes.released →
    routes.usable ref = false ∧ routes.resolve ref = none

/-- Every resource that was ever exported has had its `Close` called. -/
def AllClosed (routes : RouteSet) : Prop :=
  ∀ id, 0 < id → id ≤ routes.nextResource → id ∈ routes.closeCalls

variable {routes : RouteSet}

theorem Guarded.unborrowed {token : Nat} {closer : Closer} {id call : UInt64} {rest : List UInt64}
    {thread : CallThread} (hg : routes.Guarded)
    (hcl : routes.closers.lookup token = some closer) (hs : closer.stage = .closing)
    (ho : closer.objects = id :: rest) (ht : routes.calls.lookup call = some thread)
    (hi : thread.stage = .invoking) : id ∉ thread.borrows := by
  intro hb
  obtain ⟨entry, he, -, hc⟩ := hg.held hcl (by rw [hs]; rfl) ho
  have hz := hc.of_not_waiting (by rw [hs]; nofun)
  rw [(hg.counted id entry he).1] at hz
  have hnot := eq_false_of_tally_eq_zero hz ht
  simp [borrowsObject, hi, hb] at hnot

theorem Recorded.notMem_closeSuccesses {token : Nat} {closer : Closer} {id : UInt64}
    {rest : List UInt64} (hr : routes.Recorded) (hg : routes.Guarded)
    (hcl : routes.closers.lookup token = some closer) (hs : closer.stage = .closing)
    (hob : closer.objects = id :: rest) : id ∉ routes.closeSuccesses := by
  intro hsu
  obtain ⟨entry, he, ha, -⟩ := hg.held hcl (by rw [hs]; rfl) hob
  rcases hr.succeeded id hsu with ⟨hnone, -⟩ | ⟨other, found, tail, hf, hobj, hc⟩
  · exact nomatch hnone.symm.trans he
  · -- the attempt belongs to one closer, which is not in two stages
    obtain ⟨-, -, ho, -⟩ := hg.held hf (by rw [hc]; rfl) hobj
    obtain rfl : token = other := by
      simpa using ha.symm.trans ho
    obtain rfl := some.inj (hcl.symm.trans hf)
    exact nomatch hs.symm.trans hc

theorem Recorded.usable_eq_false {ref : ResourceRef} (hr : routes.Recorded)
    (hre : ref.objectID ∈ routes.released) : routes.usable ref = false := by
  rcases hr.released ref.objectID hre with ⟨hnone, -⟩ | ha
  · simp [usable, hnone]
  · simp [usable, ha]

theorem Recorded.lifetime (hr : routes.Recorded) (hg : routes.Guarded) :
    routes.Lifetime := by
  refine ⟨?_, ?_⟩
  · intro token closer id rest hcl hs ho
    exact ⟨hr.notMem_closeSuccesses hg hcl hs ho, fun call thread => hg.unborrowed hcl hs ho⟩
  · intro ref hre
    have hu := hr.usable_eq_false hre
    exact ⟨hu, by simp [resolve, hu]⟩

/-- At the end nothing is left in the tables, so everything has been closed. -/
theorem Traced.allClosed (htraced : routes.Traced) (hc : routes.state = .closed) :
    routes.AllClosed := by
  intro id hpos hle
  have he := htraced.emptied (by rw [hc]; rfl) (htraced.ended hc)
  exact htraced.gone id hpos hle (by rw [he]; rfl)

variable {epoch : UInt64} {limits : Limits}

/-- The invariants hold when a set is opened. -/
theorem opened_sound : (opened epoch limits).Guarded ∧ (opened epoch limits).Phased ∧
      (opened epoch limits).Recorded := by
  have hca : ∀ id thread, (opened epoch limits).calls.lookup id ≠ some thread := nofun
  have hc : ∀ token closer, (opened epoch limits).closers.lookup token ≠ some closer := nofun
  have hr : ∀ id entry, (opened epoch limits).resources.lookup id ≠ some entry := nofun
  refine ⟨⟨fun _ _ h => absurd h (hr _ _), fun _ _ h => absurd h (hc _ _),
      fun _ _ h => absurd h (hca _ _), nofun, fun _ _ _ h => absurd h (hr _ _),
      fun _ _ h => absurd h (hc _ _), fun _ _ h => absurd h (hr _ _),
      fun _ _ h => absurd h (hca _ _)⟩,
    ⟨fun _ => rfl, fun _ _ _ h => absurd h (hc _ _), fun _ _ h => absurd h (hc _ _),
      fun _ _ _ _ h => absurd h (hc _ _), fun _ _ h => absurd h (hc _ _), nofun, nofun,
      nofun⟩,
    ⟨nofun, nofun, nofun⟩⟩

/-- No resource has the number zero. -/
theorem opened_traced : (opened epoch limits).Traced := by
  refine ⟨nofun, ?_, nofun, fun _ _ => rfl, nofun⟩
  intro id hpos hle
  exact absurd hpos (UInt64.not_lt.mpr hle)

theorem passes_sound {log : List RouteEvent} :
    ∀ routes, Passes step log (opened epoch limits) routes →
      routes.Guarded ∧ routes.Phased ∧ routes.Recorded := by
  refine Replay.passes_induction opened_sound ?_
  rintro pre event after ⟨-, -, -, -, hs⟩ ⟨hg, hph, hr⟩
  have hc : Change False pre after := step_change nofun hs
  exact ⟨hg.change hph hc, hph.change hg hc, hr.change hg hph hc⟩

/-- The life of the resources of a route set. In every run a resource is closed only while
nobody borrows it and it has not been closed, and what has been released is not resolved
again. In a run in which no result forgets an export, every resource has been closed when
the cleanup is over. -/
theorem resource_lifetime (epoch : UInt64) (limits : Limits) (log : List RouteEvent) :
    (∀ routes, Passes step log (opened epoch limits) routes → routes.Lifetime) ∧
      ((∀ before event after, Occurs step log (opened epoch limits) before event after →
          before.KeepsExports event) →
        ∀ routes, Passes step log (opened epoch limits) routes → routes.state = .closed →
          routes.AllClosed) := by
  refine ⟨?_, ?_⟩
  · intro routes hpasses
    obtain ⟨hguarded, -, hrecorded⟩ := passes_sound routes hpasses
    exact hrecorded.lifetime hguarded
  · intro hkeeps
    have htraced : ∀ routes, Passes step log (opened epoch limits) routes → routes.Traced := by
      refine Replay.passes_induction opened_traced ?_
      intro before event after hoccurs hbefore
      obtain ⟨hguarded, hphased, -⟩ := passes_sound before hoccurs.passes
      have hkept := hkeeps before event after hoccurs
      obtain ⟨-, -, -, -, hstep⟩ := hoccurs
      exact hbefore.change hguarded hphased (step_change (fun _ => hkept) hstep)
    exact fun routes hpasses hclosed => (htraced routes hpasses).allClosed hclosed

/-- `Knows`, computed. -/
def knows (routes : RouteSet) (id : UInt64) (objects : List UInt64) : Bool :=
  !routes.state.acceptsResourceCalls ||
    ((routes.provisionalResources.lookup id).getD []).all fun object => decide (object ∈ objects)

/-- Whether an export is forgotten can be computed. -/
def keepsExports (routes : RouteSet) : RouteEvent → Bool
  | .reject id => (routes.calls.lookup id).all fun thread =>
    match thread.stage with
    | .kept objects => routes.knows id objects
    | _ => true
  | .provided id _ => (routes.calls.lookup id).all fun thread =>
    match thread.stage with
    | .deciding objects _ => routes.knows id objects
    | _ => true
  | _ => true

theorem KeepsExports.of_keepsExports {event : RouteEvent}
    (hk : routes.keepsExports event = true) : routes.KeepsExports event := by
  cases event with
  | reject id =>
    intro thread objs ht hs ha
    simpa [keepsExports, ht, hs, knows, ha] using hk
  | provided id failed =>
    intro thread objs accepted ht hs ha
    simpa [keepsExports, ht, hs, knows, ha] using hk
  | _ => trivial

/-- A handler that exports a resource; the result is accepted and the set is closed. -/
def acceptedLog : List RouteEvent :=
  [.call none [] [] true, .exported 1 (List.replicate 64 48), .returned 1, .inspect 1 false,
    .publish 1, .leave 1, .decide 1 true, .provided 1 false, .settle 1, .cleanup true,
    .continueCleanup, .continueCleanup, .advance 0, .advance 0, .closed 0 false, .advance 0,
    .advance 0, .continueCleanup]

theorem acceptedLog_allClosed :
    (∀ routes, Passes step acceptedLog (opened 1 (normalizeLimits {})) routes →
        routes.state = .closed → routes.AllClosed) ∧
      ((Replay.replay step acceptedLog (opened 1 (normalizeLimits {}))).map fun routes =>
        (routes.state, routes.nextResource, routes.closeCalls)) = some (.closed, 1, [1]) := by
  refine ⟨(resource_lifetime 1 (normalizeLimits {}) acceptedLog).2 ?_, by decide +kernel⟩
  intro before event after hoccurs
  have hchecked : ((Replay.transitions step acceptedLog (opened 1 (normalizeLimits {}))).all
      fun found => found.1.keepsExports found.2.1) = true := by decide +kernel
  exact .of_keepsExports (all_eq_true.mp hchecked _ hoccurs.mem_transitions)

/-- The same run, but the resource is exported when the handler has returned. -/
def lateLog : List RouteEvent :=
  [.call none [] [] true, .returned 1, .inspect 1 false, .exported 1 (List.replicate 64 48),
    .publish 1, .leave 1, .decide 1 true, .provided 1 false, .settle 1, .cleanup true,
    .continueCleanup, .continueCleanup, .advance 0, .continueCleanup]

/-- Nobody closes the resource. -/
theorem lateLog_not_allClosed :
    ((Replay.replay step lateLog (opened 1 (normalizeLimits {}))).map fun routes =>
        (routes.state, routes.nextResource, routes.closeCalls)) = some (.closed, 1, []) ∧
      ∃ routes, Replay.replay step lateLog (opened 1 (normalizeLimits {})) = some routes ∧
        ¬ routes.AllClosed := by
  have hend : ((Replay.replay step lateLog (opened 1 (normalizeLimits {}))).map fun routes =>
      (routes.state, routes.nextResource, routes.closeCalls)) = some (.closed, 1, []) := by
    decide +kernel
  refine ⟨hend, ?_⟩
  obtain ⟨routes, hroutes, hlast⟩ := map_eq_some_iff.mp hend
  simp only [Prod.mk.injEq] at hlast
  refine ⟨routes, hroutes, fun hclosed => ?_⟩
  have hmem := hclosed 1 (by decide) (by rw [hlast.2.1]; decide)
  rw [hlast.2.2] at hmem
  exact nomatch hmem

end Runs

end RouteSet

end MiniGo.Rpc
