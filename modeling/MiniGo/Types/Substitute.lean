/-
Substitution of type parameters (`semantic/generic_constraints.go`).

`substituteType` copies the nodes that are reachable from a type into the table, under
identifiers that begin with a scope of its own, and cuts cycles with a cache.
-/
import MiniGo.Types.Table

namespace MiniGo.Substitute

open Function List

inductive Fault where
  | unresolved | steps
deriving DecidableEq

/-- The nodes of the type table and the cache of the substitution. -/
structure State where
  nodes : List TypeNode
  cache : String → Option TypeRef

abbrev Action := EStateM Fault State

/-- A binding of type parameters to types. -/
structure Bindings where
  replacement : TypeRef → Option TypeRef
  typed : ∀ ref new, replacement ref = some new → ref.kind = .typeParameter ∧ new.valid

def lookup (nodes : List TypeNode) (id : String) : Option TypeNode := nodes.find? (·.id = id)

/-- The kinds of nodes that are copied. -/
def rewritten : TypeKind → Bool
  | .slice | .array | .map | .pointer | .waitable | .function | .tuple | .struct | .interface
  | .instanceOf => true
  | _ => false

def derive (scope id : String) : String := scope ++ "." ++ id

/-- The components of a node, resolved in the order of the source. -/
def rewrite (f : TypeRef → Action TypeRef) (node : TypeNode) : Action TypeNode := do
  let elem ← f node.elem
  let key ← f node.key
  let tuple ← node.tuple.mapM f
  let fields ← node.fields.mapM fun field => return { field with type := ← f field.type }
  let typeArgs ← node.typeArgs.mapM f
  let terms ← node.terms.mapM fun term => return { term with type := ← f term.type }
  let signature ← node.signature.mapM fun signature => return { signature with
    params := ← signature.params.mapM f
    results := ← signature.results.mapM f }
  return { node with elem, key, tuple, fields, typeArgs, terms, signature }

/-- `TypeTable.Replace` for a node that exists, `TypeTable.Add` for another. -/
def put (node : TypeNode) : Action Unit := do
  let s ← get
  match lookup s.nodes node.id with
  | some old =>
    if old.identity = node.identity then
      set { s with nodes := s.nodes.map fun x : TypeNode => if x.id = node.id then node else x }
  | none =>
    if !emptyTypeKey node.identity && s.nodes.any (·.identity = node.identity) then
      throw .unresolved
    else set { s with nodes := s.nodes ++ [node] }

def checked (ref : TypeRef) : Action TypeRef :=
  if ref.valid then pure ref else throw .unresolved

def substituteType (bindings : Bindings) (scope : String) : Nat → TypeRef → Action TypeRef
  | 0, _ => throw .steps
  | steps + 1, ref =>
    match bindings.replacement ref with
    | some new => return new
    | none =>
      if ref.node = "" ∨ ref.kind = .named then checked ref
      else do
        let s ← get
        match s.cache ref.node with
        | some new => return new
        | none =>
          match lookup s.nodes ref.node with
          | none => throw .unresolved
          | some node =>
            if rewritten node.kind then do
              let resolved := { kind := node.kind, node := derive scope node.id }
              set { s with cache := update s.cache ref.node (some resolved) }
              put (← rewrite (fun current =>
                if current.valid then substituteType bindings scope steps current
                else return current) { node with id := derive scope node.id })
              return resolved
            else checked ref

/-! ## Unfolding -/

/-- The copied kinds of nodes, behind references that are followed. -/
def target (nodes : List TypeNode) (ref : TypeRef) : Option TypeNode :=
  if ref.node = "" ∨ ref.kind = .named then none
  else (lookup nodes ref.node).filter (rewritten ·.kind)

/-- The element, key, tuple, field, type-argument, term and signature positions. -/
def parts (node : TypeNode) : List TypeRef :=
  node.elem :: node.key :: node.tuple ++ node.fields.map (·.type) ++ node.typeArgs ++
    node.terms.map (·.type) ++ node.signature.elim [] fun s => s.params ++ s.results

def mapParts (g : TypeRef → TypeRef) (node : TypeNode) : TypeNode :=
  { node with
    elem := g node.elem
    key := g node.key
    tuple := node.tuple.map g
    fields := node.fields.map fun field => { field with type := g field.type }
    typeArgs := node.typeArgs.map g
    terms := node.terms.map fun term => { term with type := g term.type }
    signature := node.signature.map fun s =>
      { s with params := s.params.map g, results := s.results.map g } }

/-- A type unfolded to some depth; a node is what it holds apart from its identifier and its
components, the methods of an interface included. -/
inductive Tree where
  | cut
  | leaf (ref : TypeRef)
  | node (shape : TypeNode) (children : List Tree)

def shape (node : TypeNode) : TypeNode := { mapParts (fun _ => {}) node with id := "" }

def unfolding (nodes : List TypeNode) : Nat → TypeRef → Tree
  | 0, _ => .cut
  | depth + 1, ref =>
    match target nodes ref with
    | none => .leaf ref
    | some node => .node (shape node) ((parts node).map fun part =>
        if part.valid then unfolding nodes depth part else .leaf part)

/-- The unfolding with every bound parameter replaced. -/
def substituted (bindings : Bindings) (nodes : List TypeNode) : Nat → TypeRef → Tree
  | 0, _ => .cut
  | depth + 1, ref =>
    match bindings.replacement ref with
    | some new => unfolding nodes (depth + 1) new
    | none =>
      match target nodes ref with
      | none => .leaf ref
      | some node => .node (shape node) ((parts node).map fun part =>
          if part.valid then substituted bindings nodes depth part else .leaf part)

/-- What is reached from a type without going into a replacement. -/
inductive Reaches (bindings : Bindings) (nodes : List TypeNode) : TypeRef → TypeRef → Prop
  | refl (ref : TypeRef) : Reaches bindings nodes ref ref
  | step {first ref part : TypeRef} {node : TypeNode} (hr : Reaches bindings nodes first ref)
      (hout : ∀ p, bindings.replacement p ≠ some ref) (hn : target nodes ref = some node)
      (hp : part ∈ parts node) (hv : part.valid) : Reaches bindings nodes first part

/-- What is reached from a type through unbound types. -/
inductive Within (bindings : Bindings) (nodes : List TypeNode) : TypeRef → TypeRef → Prop
  | refl (ref : TypeRef) : Within bindings nodes ref ref
  | step {first ref part : TypeRef} {node : TypeNode} (hr : Within bindings nodes first ref)
      (hout : bindings.replacement ref = none) (hn : target nodes ref = some node)
      (hp : part ∈ parts node) (hv : part.valid) : Within bindings nodes first part

def methodTypes (node : TypeNode) : List TypeRef :=
  node.methods.flatMap fun method => method.signature.params ++ method.signature.results

/-- A method of an interface mentions a bound parameter. -/
def MethodMentions (bindings : Bindings) (nodes : List TypeNode) (ref : TypeRef) : Prop :=
  ∃ node, target nodes ref = some node ∧ ∃ part ∈ methodTypes node, part.valid ∧
    ∃ bound, Within bindings nodes part bound ∧ bindings.replacement bound ≠ none

/-- The types of the input: they are closed under components and methods and hold the
replacements, their identifiers are not those of copies, and a copy that is there has the
identity of its node. -/
structure Input (bindings : Bindings) (scope : String) (nodes : List TypeNode)
    (S : TypeRef → Prop) : Prop where
  parts : ∀ ref node, S ref → target nodes ref = some node → ∀ part ∈ parts node,
    part.valid → S part
  methods : ∀ ref node, S ref → target nodes ref = some node → ∀ part ∈ methodTypes node,
    part.valid → S part
  replacement : ∀ ref new, bindings.replacement ref = some new → S new
  apart : ∀ ref, S ref → ∀ id, ref.node ≠ derive scope id
  identity : ∀ ref node old, S ref → target nodes ref = some node →
    lookup nodes (derive scope node.id) = some old → old.identity = node.identity

/-! ## The invariant -/

theorem derive_inj {scope a c : String} (h : derive scope a = derive scope c) : a = c := by
  unfold derive at h
  exact String.append_right_inj .. |>.mp h

variable {b : Bindings} {scope : String} {nodes : List TypeNode} {S : TypeRef → Prop}
  {s t u : State} {α β : Type}

/-- What a reference becomes. -/
def image (b : Bindings) (scope : String) (nodes : List TypeNode) (ref : TypeRef) : TypeRef :=
  (b.replacement ref).getD ((target nodes ref).elim ref fun node =>
    { kind := node.kind, node := derive scope ref.node })

def partImage (b : Bindings) (scope : String) (nodes : List TypeNode) (ref : TypeRef) : TypeRef :=
  if ref.valid then image b scope nodes ref else ref

/-- What has to be copied for a reference is in the cache. -/
def Covered (b : Bindings) (nodes : List TypeNode) (s : State) (ref : TypeRef) : Prop :=
  b.replacement ref = none → (target nodes ref).isSome → s.cache ref.node ≠ none

/-- The copy of a node is in the table, and its components are covered. -/
def Done (b : Bindings) (scope : String) (nodes : List TypeNode) (s : State) (id : String) : Prop :=
  ∃ node, lookup nodes id = some node ∧ lookup s.nodes (derive scope id) =
      some (mapParts (partImage b scope nodes) { node with id := derive scope id }) ∧
    ∀ part ∈ parts node, part.valid → Covered b nodes s part

structure Good (scope : String) (nodes : List TypeNode) (s : State) : Prop where
  unchanged : ∀ id, (∀ x, s.cache x ≠ none → id ≠ derive scope x) →
    lookup s.nodes id = lookup nodes id
  cached : ∀ id new, s.cache id = some new → ∃ node, lookup nodes id = some node ∧
    rewritten node.kind ∧ new = { kind := node.kind, node := derive scope id }

/-- The cache grows, and only copies of what is new in it are written. -/
structure Step (scope : String) (s t : State) : Prop where
  ext : ∀ id new, s.cache id = some new → t.cache id = some new
  frame : ∀ id, (∀ x, s.cache x = none → t.cache x ≠ none → id ≠ derive scope x) →
    lookup t.nodes id = lookup s.nodes id

theorem Step.refl (s : State) : Step scope s s := ⟨fun _ _ => id, fun _ _ => rfl⟩

theorem Step.mono (hst : Step scope s t) {id : String} (hc : s.cache id ≠ none) :
    t.cache id ≠ none := by
  obtain ⟨new, hn⟩ := Option.ne_none_iff_exists'.mp hc
  simp [hst.ext id new hn]

theorem Step.trans (hst : Step scope s t) (htu : Step scope t u) : Step scope s u where
  ext id new h := htu.ext id new (hst.ext id new h)
  frame id h := by
    refine (htu.frame id fun x hx hu => h x ?_ hu).trans
      (hst.frame id fun x hx ht => h x hx (htu.mono ht))
    by_contra hs
    exact hst.mono hs hx

theorem Step.covered (hst : Step scope s t) {ref : TypeRef} (hc : Covered b nodes s ref) :
    Covered b nodes t ref := fun hr ht => hst.mono (hc hr ht)

theorem Step.done (hst : Step scope s t) {id : String} (hc : s.cache id ≠ none)
    (hd : Done b scope nodes s id) : Done b scope nodes t id := by
  obtain ⟨node, hn, hl, hp⟩ := hd
  refine ⟨node, hn, (hst.frame _ fun x hx _ he => hc ?_).trans hl, fun part hm hv =>
    hst.covered (hp part hm hv)⟩
  rwa [derive_inj he]

/-- How many identifiers of the input are not in the cache. -/
def rest (nodes : List TypeNode) (s : State) : Nat :=
  ((nodes.map (·.id)).toFinset.filter fun id => s.cache id = none).card

theorem Step.rest_le (hst : Step scope s t) : rest nodes t ≤ rest nodes s := by
  refine Finset.card_le_card (Finset.monotone_filter_right _ fun id _ ht => ?_)
  by_contra hs
  exact hst.mono hs ht

/-- An action leads to a good state; if it succeeds, everything new in the cache is done. -/
def Outcome (b : Bindings) (scope : String) (nodes : List TypeNode) (s : State)
    (Q : α → State → Prop) : EStateM.Result Fault State α → Prop
  | .ok a t => Good scope nodes t ∧ Step scope s t ∧
      (∀ id, s.cache id = none → t.cache id ≠ none → Done b scope nodes t id) ∧ Q a t
  | .error fault t => Good scope nodes t ∧ Step scope s t ∧ fault ≠ .steps

/-- An action has this outcome from every good state in which less than the steps is left. -/
def Yields (b : Bindings) (scope : String) (nodes : List TypeNode) (steps : Nat)
    (action : Action α) (Q : α → State → Prop) : Prop :=
  ∀ s, Good scope nodes s → rest nodes s < steps → Outcome b scope nodes s Q (action.run s)

variable {steps : Nat} {x : Action α} {f : α → Action β} {Q Q' : α → State → Prop}

theorem Yields.pure {a : α} (hq : ∀ s, Good scope nodes s → Q a s) :
    Yields b scope nodes steps (pure a) Q :=
  fun s hg _ => ⟨hg, .refl s, fun _ hn h => absurd hn h, hq s hg⟩

theorem Yields.throw : Yields b scope nodes steps (throw .unresolved : Action α) Q :=
  fun s hg _ => ⟨hg, .refl s, by simp⟩

theorem Outcome.mono {r : EStateM.Result Fault State α} (h : Outcome b scope nodes s Q r)
    (hq : ∀ a t, Q a t → Q' a t) : Outcome b scope nodes s Q' r := by
  cases r with
  | ok a t => exact ⟨h.1, h.2.1, h.2.2.1, hq a t h.2.2.2⟩
  | error fault t => exact h

/-- One action after another, with the result of the first. -/
theorem Yields.andThen {v : α} {P : State → Prop} {Q : β → State → Prop}
    (hx : Yields b scope nodes steps x fun a t => a = v ∧ P t)
    (hst : ∀ s t, Step scope s t → P s → P t)
    (hf : Yields b scope nodes steps (f v) fun c t => P t → Q c t) :
    Yields b scope nodes steps (x >>= f) Q := by
  intro s hg hr
  have h := hx s hg hr
  rw [EStateM.run_bind]
  cases hs : x.run s with
  | error fault t =>
    rw [hs] at h
    exact h
  | ok a t =>
    rw [hs] at h
    obtain ⟨hgt, hst', hd, rfl, hp⟩ := h
    have h := hf t hgt (hst'.rest_le.trans_lt hr)
    dsimp only
    cases hu : (f a).run t with
    | error fault u =>
      rw [hu] at h
      exact ⟨h.1, hst'.trans h.2.1, h.2.2⟩
    | ok c u =>
      rw [hu] at h
      refine ⟨h.1, hst'.trans h.2.1, fun id hn hc => ?_, h.2.2.2 (hst t u h.2.1 hp)⟩
      by_cases ht : t.cache id = none
      · exact h.2.2.1 id ht hc
      · exact h.2.1.done ht (hd id hn ht)

theorem Yields.mapM {γ δ : Type} {f : γ → Action δ} {g : γ → δ} {C : γ → State → Prop}
    (hst : ∀ c s t, Step scope s t → C c s → C c t) {items : List γ}
    (hf : ∀ c ∈ items, Yields b scope nodes steps (f c) fun d t => d = g c ∧ C c t) :
    Yields b scope nodes steps (items.mapM f)
      fun ds t => ds = items.map g ∧ ∀ c ∈ items, C c t := by
  induction items with
  | nil => exact .pure fun _ _ => by simp
  | cons c items ih =>
    rw [List.mapM_cons]
    refine (hf c (by simp)).andThen (hst c) ((ih fun c hc => hf c (by simp [hc])).andThen
      (fun s t h hq c hc => hst c s t h (hq c hc)) (.pure fun s _ hcs hc => ⟨rfl, ?_⟩))
    simpa using ⟨hc, hcs⟩

theorem Yields.rewrite {f : TypeRef → Action TypeRef} {g : TypeRef → TypeRef}
    {C : TypeRef → State → Prop} (hst : ∀ c s t, Step scope s t → C c s → C c t) {node : TypeNode}
    (hf : ∀ c ∈ parts node, Yields b scope nodes steps (f c) fun d t => d = g c ∧ C c t) :
    Yields b scope nodes steps (rewrite f node)
      fun new t => new = mapParts g node ∧ ∀ c ∈ parts node, C c t := by
  have hall : ∀ {γ : Type} (p : γ → TypeRef) (cs : List γ) s t, Step scope s t →
      (∀ c ∈ cs, C (p c) s) → ∀ c ∈ cs, C (p c) t :=
    fun p _ s t h hq c hc => hst (p c) s t h (hq c hc)
  have hlist : ∀ cs : List TypeRef, (∀ c ∈ cs, c ∈ parts node) → Yields b scope nodes steps
      (cs.mapM f) fun ds t => ds = cs.map g ∧ ∀ c ∈ cs, C c t :=
    fun cs hcs => .mapM hst fun c hc => hf c (hcs c hc)
  have hrec : ∀ {γ : Type} (p : γ → TypeRef) (h : γ → TypeRef → γ) (cs : List γ),
      (∀ c ∈ cs, p c ∈ parts node) → Yields b scope nodes steps
        (cs.mapM fun c => do return h c (← f (p c)))
        fun ds t => ds = cs.map (fun c => h c (g (p c))) ∧ ∀ c ∈ cs, C (p c) t :=
    fun p h cs hcs => .mapM (fun c => hst (p c)) fun c hc =>
      (hf _ (hcs c hc)).andThen (hst _) (.pure fun _ _ hq => ⟨rfl, hq⟩)
  have hsig : Yields b scope nodes steps (node.signature.mapM fun s => do
      return { s with params := ← s.params.mapM f, results := ← s.results.mapM f })
      fun new t => new = (mapParts g node).signature ∧
        ∀ c ∈ node.signature.elim [] fun s => s.params ++ s.results, C c t := by
    cases hs : node.signature with
    | none => exact .pure fun _ _ => by simp [mapParts, hs]
    | some s =>
      simp only [Option.mapM_some, map_eq_pure_bind, bind_assoc, pure_bind]
      refine (hlist _ fun c hc => ?_).andThen (hall id _) ((hlist _ fun c hc => ?_).andThen
        (hall id _) (.pure fun t _ hr hp => ⟨by simp [mapParts, hs], fun c hc => ?_⟩))
      · simp [parts, hs, hc]
      · simp [parts, hs, hc]
      · exact (mem_append.mp hc).elim (hp c) (hr c)
  have hmem : ∀ c, c ∈ parts node ↔ c = node.elem ∨ c = node.key ∨ c ∈ node.tuple ∨
      (∃ x ∈ node.fields, x.type = c) ∨ c ∈ node.typeArgs ∨ (∃ x ∈ node.terms, x.type = c) ∨
      c ∈ node.signature.elim [] fun s => s.params ++ s.results := by simp [parts]
  refine (hf _ (by simp [hmem])).andThen (hst _) ((hf _ (by simp [hmem])).andThen (hst _)
    ((hlist _ fun c hc => by simp [hmem, hc]).andThen (hall id _) ?_))
  refine (hrec _ _ _ fun c hc => by grind).andThen (hall _ _) ?_
  refine (hlist _ fun c hc => by simp [hmem, hc]).andThen (hall id _) ?_
  refine (hrec _ _ _ fun c hc => by grind).andThen (hall _ _) ?_
  refine hsig.andThen (hall id _) (.pure fun t _ h7 h6 h5 h4 h3 h2 h1 => ⟨rfl, fun c hc => ?_⟩)
  rcases (hmem c).mp hc with rfl | rfl | h | ⟨x, h, rfl⟩ | h | ⟨x, h, rfl⟩ | h
  · exact h1
  · exact h2
  · exact h3 c h
  · exact h4 x h
  · exact h5 c h
  · exact h6 x h
  · exact h7 c h

theorem lookup_id {id : String} {node : TypeNode} (h : lookup nodes id = some node) :
    node.id = id := by simpa using find?_some h

theorem lookup_replace (node : TypeNode) (id : String) :
    lookup (nodes.map fun x => if x.id = node.id then node else x) id =
      if id = node.id then (lookup nodes id).map fun _ => node else lookup nodes id := by
  unfold lookup
  induction nodes with
  | nil => simp
  | cons x nodes ih => grind

theorem put_spec (node : TypeNode) (s : State) :
    match (put node).run s with
    | .ok _ t => t.cache = s.cache ∧ (∀ id, id ≠ node.id → lookup t.nodes id = lookup s.nodes id) ∧
        ((∀ old, lookup s.nodes node.id = some old → old.identity = node.identity) →
          lookup t.nodes node.id = some node)
    | .error fault t => t = s ∧ fault ≠ .steps := by
  unfold put
  cases hl : lookup s.nodes node.id with
  | some old =>
    simp only [EStateM.run_bind, EStateM.run_get, hl]
    split_ifs with hi
    · refine ⟨rfl, fun id hid => ?_, fun _ => ?_⟩
      · exact (lookup_replace node id).trans (if_neg hid)
      · exact (lookup_replace node node.id).trans (by simp [hl])
    · exact ⟨rfl, fun _ _ => rfl, fun h => absurd (h old rfl) hi⟩
  | none =>
    simp only [EStateM.run_bind, EStateM.run_get, hl]
    split_ifs with hi
    · exact ⟨rfl, by simp⟩
    · refine ⟨rfl, fun id hid => ?_, fun _ => ?_⟩
      · simp [lookup, find?_append, hid.symm]
      · unfold lookup at hl
        simp [lookup, find?_append, hl]

theorem checked_yields {ref : TypeRef} (hr : b.replacement ref = none)
    (ht : target nodes ref = none) : Yields b scope nodes steps (checked ref)
      fun a t => a = image b scope nodes ref ∧ Covered b nodes t ref := by
  unfold checked
  split_ifs
  · exact .pure fun _ _ => ⟨by simp [image, hr, ht], by simp [Covered, ht]⟩
  · exact .throw

/-- Entering a node takes it from the rest. -/
theorem Good.enter (hg : Good scope nodes s) {id : String} (hc : s.cache id = none)
    {node : TypeNode} (hn : lookup nodes id = some node) (hk : rewritten node.kind) :
    let t : State := { s with
      cache := update s.cache id (some { kind := node.kind, node := derive scope id }) }
    Good scope nodes t ∧ Step scope s t ∧ rest nodes t < rest nodes s := by
  intro t
  have hst : Step scope s t := by
    refine ⟨fun x new hx => ?_, fun _ _ => rfl⟩
    have : x ≠ id := by grind
    simpa [t, this] using hx
  refine ⟨⟨fun x hx => hg.unchanged x fun y hy => hx y (hst.mono hy), fun x new hx => ?_⟩, hst, ?_⟩
  · by_cases he : x = id
    · subst he
      exact ⟨node, hn, hk, by simpa [t] using hx.symm⟩
    · exact hg.cached x new (by simpa [t, he] using hx)
  · refine Finset.card_lt_card ⟨Finset.monotone_filter_right _ fun x _ hx => ?_, fun hsub => ?_⟩
    · by_contra hs
      exact hst.mono hs hx
    · have hm : id ∈ nodes.map (·.id) := lookup_id hn ▸ mem_map_of_mem (mem_of_find?_eq_some hn)
      have := hsub (Finset.mem_filter.mpr ⟨mem_toFinset.mpr hm, hc⟩)
      simp [t] at this

section

variable {id x : String} (hcache : u.cache = t.cache)
  (hother : ∀ x, x ≠ derive scope id → lookup u.nodes x = lookup t.nodes x)
include hcache hother

theorem Good.put (hg : Good scope nodes t) (hc : t.cache id ≠ none) : Good scope nodes u := by
  refine ⟨fun x hx => ?_, fun x new hx => hg.cached x new (hcache ▸ hx)⟩
  rw [hother x (hx id (hcache ▸ hc))]
  exact hg.unchanged x fun y hy => hx y (hcache ▸ hy)

theorem Step.put (hst : Step scope s t) (hs : s.cache id = none) (hc : t.cache id ≠ none) :
    Step scope s u := by
  refine ⟨fun x new hx => hcache ▸ hst.ext x new hx, fun x hx => ?_⟩
  rw [hother x (hx id hs (hcache ▸ hc))]
  exact hst.frame x fun y hy ht => hx y hy (hcache ▸ ht)

theorem Done.put (hd : Done b scope nodes t x) (hne : x ≠ id) : Done b scope nodes u x := by
  obtain ⟨node, hn, hl, hp⟩ := hd
  refine ⟨node, hn, (hother _ fun h => hne (derive_inj h)).trans hl, fun c hc hv => ?_⟩
  exact fun hr ht => hcache ▸ hp c hc hv hr ht

end

theorem copy_yields {action : Action TypeNode} {id : String} {node : TypeNode} {ref : TypeRef}
    (hw : Yields b scope nodes steps action fun new t =>
      new = mapParts (partImage b scope nodes) { node with id := derive scope id } ∧
        ∀ c ∈ parts node, c.valid → Covered b nodes t c)
    (hi : ∀ old, lookup nodes (derive scope id) = some old → old.identity = node.identity)
    (hg : Good scope nodes s) (hlt : rest nodes s < steps + 1) (hc : s.cache id = none)
    (hn : lookup nodes id = some node) (hk : rewritten node.kind)
    (href : ref = { kind := node.kind, node := derive scope id }) :
    Outcome b scope nodes s (fun a t => a = ref ∧ t.cache id ≠ none) ((do
      set { s with cache := update s.cache id (some ref) }
      put (← action)
      return ref : Action TypeRef).run s) := by
  subst href
  obtain ⟨hg', hst, hless⟩ := hg.enter hc hn hk
  have h := hw _ hg' (by omega)
  simp only [EStateM.run_bind, EStateM.run_set]
  cases ha : action.run { s with
      cache := update s.cache id (some { kind := node.kind, node := derive scope id }) } with
  | error fault t =>
    rw [ha] at h
    exact ⟨h.1, hst.trans h.2.1, h.2.2⟩
  | ok new t =>
    rw [ha] at h
    obtain ⟨hgt, hst', hd, rfl, hp⟩ := h
    have hput := put_spec (mapParts (partImage b scope nodes) { node with id := derive scope id }) t
    dsimp only
    cases hu : (put _).run t with
    | error fault u =>
      rw [hu] at hput
      obtain ⟨rfl, hf⟩ := hput
      exact ⟨hgt, hst.trans hst', hf⟩
    | ok _ u =>
      rw [hu] at hput
      obtain ⟨hcache, hother, hself⟩ := hput
      change ∀ x, x ≠ derive scope id → _ at hother
      -- nobody else writes under this identifier, as derived identifiers are injective
      have hold : lookup t.nodes (derive scope id) = lookup nodes (derive scope id) := by
        refine (hst'.frame _ fun x hx _ he => ?_).trans (hg.unchanged _ fun x hx he => hx ?_)
        · simp [← derive_inj he] at hx
        · rwa [← derive_inj he]
      have hct : t.cache id ≠ none := hst'.mono (by simp)
      refine ⟨hgt.put hcache hother hct, (hst.trans hst').put hcache hother hc hct,
        fun x hx hu => ?_, rfl, hcache ▸ hct⟩
      by_cases he : x = id
      · subst he
        refine ⟨node, hn, hself fun old ho => hi old (hold ▸ ho), fun c hcp hv => ?_⟩
        exact fun hr ht => hcache ▸ hp c hcp hv hr ht
      · exact (hd x (by simpa [he] using hx) (hcache ▸ hu)).put hcache hother he

theorem substituteType_yields (hin : Input b scope nodes S) {ref : TypeRef} (hS : S ref) :
    Yields b scope nodes steps (substituteType b scope steps ref)
      fun a t => a = image b scope nodes ref ∧ Covered b nodes t ref := by
  -- what is left to copy is less than the steps, so they are not used up
  induction steps generalizing ref with
  | zero => exact fun s _ h => absurd h (by simp)
  | succ steps ih =>
    unfold substituteType
    cases hr : b.replacement ref with
    | some new => exact .pure fun _ _ => ⟨by simp [image, hr], by simp [Covered, hr]⟩
    | none =>
      by_cases hout : ref.node = "" ∨ ref.kind = .named
      · simp only [if_pos hout]
        exact checked_yields hr (by simp [target, hout])
      have htarget : target nodes ref = (lookup nodes ref.node).filter (rewritten ·.kind) :=
        if_neg hout
      simp only [if_neg hout]
      intro s hg hlt
      simp only [EStateM.run_bind, EStateM.run_get]
      cases hc : s.cache ref.node with
      | some new =>
        obtain ⟨node, hn, hk, rfl⟩ := hg.cached _ _ hc
        have ht : target nodes ref = some node := by simp [htarget, hn, hk]
        exact ⟨hg, .refl s, fun _ hn h => absurd hn h, by simp [image, hr, ht],
          fun _ _ => by simp [hc]⟩
      | none =>
        simp only [hg.unchanged _ fun x _ => hin.apart ref hS x]
        cases hn : lookup nodes ref.node with
        | none => exact ⟨hg, .refl s, by simp⟩
        | some node =>
          by_cases hk : rewritten node.kind
          swap
          · simp only [if_neg hk]
            exact checked_yields hr (by simp [htarget, hn, hk]) s hg hlt
          have ht : target nodes ref = some node := by simp [htarget, hn, hk]
          have hid := lookup_id hn
          have hi := hin.identity ref node
          simp only [if_pos hk, hid] at hi ⊢
          refine (copy_yields (Yields.rewrite (fun c s t h hq hv => h.covered (hq hv))
            fun c hcp => ?_) (fun old => hi old hS ht) hg hlt hc hn hk rfl).mono ?_
          · by_cases hv : c.valid
            · simpa [hv, partImage] using ih (hin.parts ref node hS ht c hcp hv)
            · simpa [hv, partImage] using Yields.pure fun _ _ => rfl
          · rintro a t ⟨rfl, hct⟩
            exact ⟨by simp [image, hr, ht], fun _ _ => hct⟩

/-! ## The result -/

theorem parts_mapParts (g : TypeRef → TypeRef) (node : TypeNode) :
    parts (mapParts g node) = (parts node).map g := by
  cases hs : node.signature <;> simp [parts, mapParts, hs, Function.comp_def]

theorem shape_mapParts (g : TypeRef → TypeRef) (node : TypeNode) (id : String) :
    shape (mapParts g { node with id }) = shape node := by
  simp [shape, mapParts, Function.comp_def]

theorem target_spec {ref : TypeRef} {node : TypeNode} (h : target nodes ref = some node) :
    lookup nodes ref.node = some node ∧ rewritten node.kind := by
  unfold target at h
  split_ifs at h
  simpa using h

theorem rewritten_valid (scope id : String) {kind : TypeKind} (hk : rewritten kind) :
    let ref : TypeRef := { kind, node := derive scope id }
    ref.valid ∧ ref.kind ≠ .typeParameter ∧ ¬ (ref.node = "" ∨ ref.kind = .named) := by
  have : derive scope id ≠ "" := by simp [derive]
  cases kind <;> simp_all [rewritten, TypeRef.valid]

/-- The copy of a node, behind the reference to it. -/
theorem target_image {ref : TypeRef} {node : TypeNode}
    (hd : ∀ id, s.cache id ≠ none → Done b scope nodes s id)
    (hr : b.replacement ref = none)
    (ht : target nodes ref = some node) (hc : Covered b nodes s ref) :
    target s.nodes (image b scope nodes ref) =
        some (mapParts (partImage b scope nodes) { node with id := derive scope ref.node }) ∧
      ∀ part ∈ parts node, part.valid → Covered b nodes s part := by
  obtain ⟨hn, hk⟩ := target_spec ht
  obtain ⟨copied, hl, hcopy, hp⟩ := hd _ (hc hr (by simp [ht]))
  obtain rfl : node = copied := by simpa [hn] using hl
  refine ⟨?_, hp⟩
  have himage : image b scope nodes ref = { kind := node.kind, node := derive scope ref.node } := by
    simp [image, hr, ht]
  rw [himage, target, if_neg (rewritten_valid _ _ hk).2.2, hcopy]
  simpa [mapParts] using hk

theorem image_valid {ref : TypeRef} (hv : ref.valid) : (image b scope nodes ref).valid := by
  unfold image
  cases hr : b.replacement ref with
  | some new => exact (b.typed ref new hr).2
  | none =>
    cases ht : target nodes ref with
    | none => exact hv
    | some node => exact (rewritten_valid _ _ (target_spec ht).2).1

section Result

variable (hin : Input b scope nodes S) (hg : Good scope nodes s)
  (hd : ∀ id, s.cache id ≠ none → Done b scope nodes s id)

include hin hg

theorem target_eq {ref : TypeRef} (hS : S ref) : target s.nodes ref = target nodes ref := by
  unfold target
  rw [hg.unchanged _ fun x _ => hin.apart ref hS x]

theorem unfolding_eq {ref : TypeRef} (hS : S ref) (depth : Nat) :
    unfolding s.nodes depth ref = unfolding nodes depth ref := by
  induction depth generalizing ref with
  | zero => rfl
  | succ depth ih =>
    simp only [unfolding, target_eq hin hg hS]
    cases ht : target nodes ref with
    | none => rfl
    | some node =>
      refine congrArg (Tree.node _) (map_congr_left fun part hp => ?_)
      split_ifs with hv
      · exact ih (hin.parts ref node hS ht part hp hv)
      · rfl

include hd

theorem unfolding_image {ref : TypeRef} (hS : S ref) (hc : Covered b nodes s ref) (depth : Nat) :
    unfolding s.nodes depth (image b scope nodes ref) = substituted b nodes depth ref := by
  induction depth generalizing ref with
  | zero => rfl
  | succ depth ih =>
    unfold substituted
    cases hr : b.replacement ref with
    | some new =>
      have himage : image b scope nodes ref = new := by simp [image, hr]
      rw [himage, unfolding_eq hin hg (hin.replacement ref new hr)]
    | none =>
      cases ht : target nodes ref with
      | none =>
        have himage : image b scope nodes ref = ref := by simp [image, hr, ht]
        simp [himage, unfolding, target_eq hin hg hS, ht]
      | some node =>
        obtain ⟨htarget, hp⟩ := target_image hd hr ht hc
        simp only [unfolding, htarget, shape_mapParts, parts_mapParts, map_map]
        refine congrArg (Tree.node _) (map_congr_left fun part hm => ?_)
        by_cases hv : part.valid
        · simpa [partImage, hv, image_valid hv] using
            ih (hin.parts ref node hS ht part hm hv) (hp part hm hv)
        · simp [partImage, hv]

theorem reaches_image {ref r : TypeRef} (hS : S ref) (hc : Covered b nodes s ref)
    (hr : Reaches b s.nodes (image b scope nodes ref) r) :
    (∃ p, b.replacement p = some r) ∨
      ∃ c, Within b nodes ref c ∧ S c ∧ Covered b nodes s c ∧ b.replacement c = none ∧
        r = image b scope nodes c := by
  have himage : ∀ c, Within b nodes ref c → S c → Covered b nodes s c → (∃ p, b.replacement p =
      some (image b scope nodes c)) ∨ ∃ c', Within b nodes ref c' ∧ S c' ∧ Covered b nodes s c' ∧
        b.replacement c' = none ∧ image b scope nodes c = image b scope nodes c' := by
    intro c hwc hSc hcc
    cases h : b.replacement c with
    | none => exact .inr ⟨c, hwc, hSc, hcc, h, rfl⟩
    | some new => exact .inl ⟨c, by simp [image, h]⟩
  induction hr with
  | refl => exact himage ref (.refl ref) hS hc
  | step _ hout hn hp hv ih =>
    -- a path only goes on from the image of an unbound type of the input
    rcases ih with ⟨p, hp'⟩ | ⟨c, hwc, hSc, hcc, hrc, rfl⟩
    · exact absurd hp' (hout p)
    · cases ht : target nodes c with
      | none =>
        have : image b scope nodes c = c := by simp [image, hrc, ht]
        simp [this, target_eq hin hg hSc, ht] at hn
      | some node =>
        obtain ⟨htarget, hcov⟩ := target_image hd hrc ht hcc
        obtain rfl := Option.some.inj (htarget.symm.trans hn)
        rw [parts_mapParts] at hp
        obtain ⟨d, hdm, rfl⟩ := mem_map.mp hp
        by_cases hdv : d.valid
        · simp only [partImage, hdv, if_true]
          exact himage d (hwc.step hrc ht hdm hdv) (hin.parts c node hSc ht d hdm hdv)
            (hcov d hdm hdv)
        · simp [partImage, hdv] at hv

omit hg in
/-- What is reached in the input has its image in the result. -/
theorem reaches_of_within {ref c : TypeRef} (hS : S ref) (hc : Covered b nodes s ref)
    (hw : Within b nodes ref c) :
    S c ∧ Covered b nodes s c ∧
      Reaches b s.nodes (image b scope nodes ref) (image b scope nodes c) := by
  induction hw with
  | refl => exact ⟨hS, hc, .refl _⟩
  | @step c part node _ hout hn hp hv ih =>
    obtain ⟨hSc, hcc, hreach⟩ := ih
    obtain ⟨htarget, hcov⟩ := target_image hd hout hn hcc
    refine ⟨hin.parts c node hSc hn part hp hv, hcov part hp hv,
      hreach.step (fun p hrep => ?_) htarget ?_ (image_valid hv)⟩
    · -- a copy is no type of the input, and so no replacement
      refine hin.apart _ (hin.replacement p _ hrep) c.node ?_
      simp [image, hout, hn]
    · rw [parts_mapParts]
      exact mem_map.mpr ⟨part, hp, by simp [partImage, hv]⟩

omit hd in
theorem within_congr {part r : TypeRef} (hS : S part) :
    Within b s.nodes part r ↔ Within b nodes part r := by
  have hback : ∀ r, Within b nodes part r → S r ∧ Within b s.nodes part r := by
    intro r hw
    induction hw with
    | refl => exact ⟨hS, .refl part⟩
    | step _ hout hn hp hv ih =>
      exact ⟨hin.parts _ _ ih.1 hn _ hp hv,
        ih.2.step hout ((target_eq hin hg ih.1).trans hn) hp hv⟩
  have hforth : ∀ r, Within b s.nodes part r → S r ∧ Within b nodes part r := by
    intro r hw
    induction hw with
    | refl => exact ⟨hS, .refl part⟩
    | step _ hout hn hp hv ih =>
      rw [target_eq hin hg ih.1] at hn
      exact ⟨hin.parts _ _ ih.1 hn _ hp hv, ih.2.step hout hn hp hv⟩
  exact ⟨fun hw => (hforth r hw).2, fun hw => (hback r hw).2⟩

/-- The methods of a copy are those of its node. -/
theorem methodMentions_image {c : TypeRef} (hS : S c) (hc : Covered b nodes s c)
    (hr : b.replacement c = none) :
    MethodMentions b s.nodes (image b scope nodes c) ↔ MethodMentions b nodes c := by
  cases ht : target nodes c with
  | none =>
    have himage : image b scope nodes c = c := by simp [image, hr, ht]
    simp [MethodMentions, himage, target_eq hin hg hS, ht]
  | some node =>
    have htarget := (target_image hd hr ht hc).1
    have hmethods : methodTypes (mapParts (partImage b scope nodes)
        { node with id := derive scope c.node }) = methodTypes node := rfl
    simp only [MethodMentions, htarget, ht, Option.some.injEq, exists_eq_left', hmethods]
    refine exists_congr fun part => and_congr_right fun hpart => and_congr_right fun hv =>
      exists_congr fun bound => and_congr_left fun _ => ?_
    exact within_congr hin hg (hin.methods c node hS ht part hpart hv)

/-- A method that is reached in the result mentions a bound parameter exactly if one that is
reached in the input does. -/
theorem mentions_image {ref : TypeRef} (hS : S ref) (hc : Covered b nodes s ref) :
    (∃ r, Reaches b s.nodes (image b scope nodes ref) r ∧ (∀ p, b.replacement p ≠ some r) ∧
        MethodMentions b s.nodes r) ↔
      ∃ c, Within b nodes ref c ∧ b.replacement c = none ∧ MethodMentions b nodes c := by
  constructor
  · rintro ⟨r, hr, hout, hm⟩
    rcases reaches_image hin hg hd hS hc hr with ⟨p, hp⟩ | ⟨c, hw, hSc, hcc, hrc, rfl⟩
    · exact absurd hp (hout p)
    · exact ⟨c, hw, hrc, (methodMentions_image hin hg hd hSc hcc hrc).mp hm⟩
  · rintro ⟨c, hw, hrc, hm⟩
    obtain ⟨hSc, hcc, hreach⟩ := reaches_of_within hin hd hS hc hw
    refine ⟨_, hreach, fun p hrep => ?_, (methodMentions_image hin hg hd hSc hcc hrc).mpr hm⟩
    obtain ⟨node, hn, -⟩ := hm
    refine hin.apart _ (hin.replacement p _ hrep) c.node ?_
    simp [image, hrc, hn]

end Result

theorem image_unbound {c : TypeRef} (h : b.replacement c = none) :
    b.replacement (image b scope nodes c) = none := by
  cases ht : target nodes c with
  | none => simp [image, h, ht]
  | some node =>
    by_contra hne
    obtain ⟨new, hnew⟩ := Option.ne_none_iff_exists'.mp hne
    have hk := (rewritten_valid scope c.node (target_spec ht).2).2.1
    exact hk (by simpa [image, h, ht] using (b.typed _ new hnew).1)

/-- What a substitution gives for a type: it unfolds to the input with every bound parameter
replaced, no bound parameter is reached from it but in a replacement, and the methods that are
reached mention one exactly if those of the input do. -/
structure Substitution (bindings : Bindings) (nodes : List TypeNode) (after : State)
    (ref new : TypeRef) : Prop where
  unfolds : ∀ depth, unfolding after.nodes depth new = substituted bindings nodes depth ref
  unbound : ∀ r, Reaches bindings after.nodes new r →
    bindings.replacement r = none ∨ ∃ p, bindings.replacement p = some r
  methods : (∃ r, Reaches bindings after.nodes new r ∧ (∀ p, bindings.replacement p ≠ some r) ∧
      MethodMentions bindings after.nodes r) ↔
    ∃ c, Within bindings nodes ref c ∧ bindings.replacement c = none ∧
      MethodMentions bindings nodes c

def parameter : TypeRef := { kind := .typeParameter, node := "T" }

def toInt : Bindings where
  replacement ref := if ref = parameter then some (.builtin .int) else none
  typed ref new h := by
    split_ifs at h with hp
    rw [hp, ← Option.some.inj h]
    decide

def cyclic : List TypeNode :=
  [{ id := "p", kind := .pointer, elem := { kind := .struct, node := "s" } },
   { id := "s", kind := .struct, fields := [⟨"value", parameter, "", false⟩,
      ⟨"next", { kind := .pointer, node := "p" }, "", false⟩] }]

def withMethod : List TypeNode :=
  [{ id := "i", kind := .interface, methods := [{
      name := "M", signature := { results := [parameter] } }] }]

theorem ne_derive {x : String} (hx : x ∈ ["", "p", "s", "T"]) (id : String) :
    x ≠ derive "f" id := by
  intro h
  have h := congrArg String.toList h
  simp only [mem_cons, not_mem_nil, or_false] at hx
  rcases hx with rfl | rfl | rfl | rfl <;> simp [derive] at h

theorem cyclic_input : Input toInt "f" cyclic fun r => ∀ id, r.node ≠ derive "f" id := by
  refine ⟨fun ref node _ ht part hm _ => ne_derive ?_, fun ref node _ ht part hm _ => ?_,
    fun ref new h => ne_derive ?_,
    fun _ h => h, fun ref node old _ _ ho => absurd (lookup_id ho) (ne_derive ?_ _)⟩
  · have hn := mem_of_find?_eq_some (target_spec ht).1
    simp only [cyclic, mem_cons, not_mem_nil, or_false] at hn
    rcases hn with rfl | rfl <;> simp [parts] at hm <;> grind [parameter]
  · have hn := mem_of_find?_eq_some (target_spec ht).1
    simp only [cyclic, mem_cons, not_mem_nil, or_false] at hn
    rcases hn with rfl | rfl <;> simp [methodTypes] at hm
  · simp only [toInt] at h
    split_ifs at h
    rw [← Option.some.inj h]
    decide
  · have hm := mem_of_find?_eq_some ho
    simp only [cyclic, mem_cons, not_mem_nil, or_false] at hm
    rcases hm with rfl | rfl <;> simp

end MiniGo.Substitute
