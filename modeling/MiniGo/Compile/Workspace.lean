/-
Compilation of a workspace with a shared package cache.

Packages are compiled after their imports, depth first. A package is compiled from its
sources and from the export data of the packages that it reaches through requirements, but the
action that names it in the cache records the export hashes of its imports only. A cached
build is a clean build if nothing else is read.
-/
import MiniGo.Lib.Table

namespace MiniGo.Compile

open Table List

/-- The data that the driver hands on. The hashes of an action are injective, so what they
cover stands for them: `Source` for the candidates, resources and identity of a package,
`Options` for the target, the optimization level and the limits. -/
structure Kinds where
  Source : Type
  Options : Type
  Exported : Type
  Hidden : Type
  Code : Type
  Hash : Type
  [source : DecidableEq Source]
  [options : DecidableEq Options]
  [exported : DecidableEq Exported]

attribute [instance] Kinds.source Kinds.options Kinds.exported

variable (K : Kinds)

/-- The export data of a package. `Hash` covers the exported part. It drops the source files
and the constants that are not exported, which are hidden, the requirements and the hash of
the artifact. -/
structure PackageData where
  exported : K.Exported
  hidden : K.Hidden
  requirements : List String
  artifactHash : K.Hash

/-- A compiled package: the artifact with its symbols, and the export data. -/
structure Output where
  code : K.Code
  data : PackageData K

structure Action where
  options : K.Options
  path : String
  source : K.Source
  dependencies : List (String × K.Exported)
deriving DecidableEq

structure Compiler where
  imports : K.Source → List String
  /-- The passes of `compileParsedPackageWithLimits`, on the packages that it collects. -/
  passes : K.Options → K.Source → (String → Option (PackageData K)) → Except String (Output K)
  /-- The artifact with the hashes of its requirements, and its own hash. -/
  bindArtifact : K.Code → List K.Hash → K.Code × K.Hash

structure Request where
  packages : Table String K.Source
  root : String
  options : K.Options

structure Build where
  outputs : Table String (Output K) := ∅
  diagnostics : List String := []
  cache : Option (Table (Action K) (Output K))

variable {K}

def Build.report (build : Build K) (message : String) : Build K :=
  { build with diagnostics := build.diagnostics ++ [message] }

/-- The loop over imports or requirements stops at an error. -/
def Build.visitAll (compile : Build K → String → Build K) (build : Build K)
    (dependencies : List String) : Build K :=
  dependencies.foldl (fun build dependency =>
    if build.diagnostics = [] then compile build dependency else build) build

namespace Compiler

/-- The packages whose data is read: a pending one, and what it requires is pending too. The
number counts the packages that have not been met. -/
def packageDependencies : Nat → Table String (Output K) → List String → List String
  | 0, _, _ => []
  | count + 1, outputs, pending =>
    match pending.find? (· ∈ outputs) with
    | none => []
    | some path => path :: packageDependencies count (outputs.erase path)
        (pending ++ ((outputs.lookup path).map (·.data.requirements)).getD [])

variable (compiler : Compiler K)

def compileParsedPackage (options : K.Options) (source : K.Source)
    (outputs : Table String (Output K)) : Except String (Output K) :=
  compiler.passes options source fun path =>
    if path ∈ packageDependencies (Table.size outputs) outputs (compiler.imports source) then
      (outputs.lookup path).map Output.data
    else none

def cacheDependencies (source : K.Source) (outputs : Table String (Output K)) :
    List (String × K.Exported) :=
  (compiler.imports source).filterMap fun path =>
    (outputs.lookup path).map fun output => (path, output.data.exported)

def workspaceCacheAction (options : K.Options) (path : String) (source : K.Source)
    (outputs : Table String (Output K)) : Action K :=
  ⟨options, path, source, compiler.cacheDependencies source outputs⟩

def loadOrCompilePackage (options : K.Options) (path : String) (source : K.Source)
    (build : Build K) : Except String (Output K × Build K) :=
  let action := compiler.workspaceCacheAction options path source build.outputs
  match build.cache.bind (·.lookup action) with
  | some output => .ok (output, build)
  | none => do
      let output ← compiler.compileParsedPackage options source build.outputs
      return (output, { build with cache := build.cache.map (·.insert action output) })

/-- `finalizeDirectArtifactRequirements`, and the package is complete. -/
def complete (path : String) (output : Output K) (build : Build K) : Build K :=
  match output.data.requirements.filter (· ∉ build.outputs) with
  | [] =>
    let (code, artifactHash) := compiler.bindArtifact output.code
      (output.data.requirements.filterMap fun required =>
        (build.outputs.lookup required).map (·.data.artifactHash))
    { build with
      outputs := build.outputs.insert path ⟨code, { output.data with artifactHash }⟩ }
  | missing =>
    { build with
      diagnostics := build.diagnostics ++ missing.map fun required =>
        "missing module \"" ++ required ++ "\" required by \"" ++ path ++ "\"" }

/-- A package below those on the stack, innermost first. The number bounds how many packages
of the workspace are not on the stack; it never runs out, and if it did, the package would be
reported as missing. Artifacts are bound to their requirements, cached ones are used without
being compiled again to verify them, and no earlier analysis is handed in. -/
def compilePackage (request : Request K) : Nat → List String → Build K → String → Build K
  | depth, stack, build, path =>
    if path ∈ build.outputs then build
    else if path ∈ stack then
      build.report ("module dependency cycle: " ++ " -> ".intercalate
        (path :: (stack.takeWhile (· ≠ path)).reverse ++ [path]))
    else
      match request.packages.lookup path, depth with
      | some source, depth + 1 =>
        let build := build.visitAll (compilePackage request depth (path :: stack))
          (compiler.imports source)
        if build.diagnostics ≠ [] then build
        else
          match compiler.loadOrCompilePackage request.options path source build with
          | .error message => build.report message
          | .ok (output, build) =>
            let build := build.visitAll (compilePackage request depth (path :: stack))
              output.data.requirements
            if build.diagnostics ≠ [] then build
            else compiler.complete path output build
      | _, _ => build.report ("missing source module \"" ++ path ++ "\"")

def compileWorkspace (request : Request K) (cache : Option (Table (Action K) (Output K))) :
    Build K :=
  compiler.compilePackage request (Table.size request.packages) [] { cache } request.root

/-- Requests one after the other with one cache. -/
def session : Table (Action K) (Output K) → List (Request K) → List (Build K)
  | _, [] => []
  | cache, request :: requests =>
    let build := compiler.compileWorkspace request (some cache)
    { build with cache := none } :: session (build.cache.getD ∅) requests

/-- The passes read only what the export hashes of the imports cover. -/
def ReadsImports (options : K.Options) (source : K.Source) : Prop :=
  ∀ data other : String → Option (PackageData K), (∀ path ∈ compiler.imports source,
      (data path).map PackageData.exported = (other path).map PackageData.exported) →
    compiler.passes options source data = compiler.passes options source other

/-- An entry of the cache is what its action gives wherever it occurs. -/
def Genuine (action : Action K) (output : Output K) : Prop :=
  ∀ outputs, compiler.cacheDependencies action.source outputs = action.dependencies →
    compiler.compileParsedPackage action.options action.source outputs = .ok output

variable {compiler} {request : Request K} {outputs others : Table String (Output K)}
  {source : K.Source}

theorem mem_packageDependencies {count : Nat} {pending : List String} {path : String}
    (hc : size outputs ≤ count) (hp : path ∈ pending) (ho : path ∈ outputs) :
    path ∈ packageDependencies count outputs pending := by
  obtain ⟨output, hl⟩ := exists_of_mem ho
  induction count generalizing outputs pending with
  | zero =>
    exact absurd hl (lookup_ne_some_of_size_eq_zero (Nat.le_zero.mp hc))
  | succ count ih =>
    unfold packageDependencies
    cases hfi : pending.find? (· ∈ outputs) with
    | none => exact absurd ho (by simpa using find?_eq_none.mp hfi path hp)
    | some head =>
      by_cases hh : path = head
      · exact hh ▸ mem_cons_self
      obtain ⟨found, hf⟩ := exists_of_mem (by simpa using find?_some hfi)
      have hs : size (outputs.erase head) + 1 = size outputs := by
        simpa [tally, size] using @tally_erase _ _ _ (fun _ => true) _ _ _ hf
      exact mem_cons_of_mem _ (ih (by omega) (mem_append_left _ hp)
        (AList.mem_erase.mpr ⟨hh, ho⟩) ((AList.lookup_erase_ne hh).trans hl))

/-- A package that reads only imports is determined by its action. -/
theorem compileParsedPackage_congr {options : K.Options}
    (hrd : compiler.ReadsImports options source)
    (hs : compiler.cacheDependencies source outputs = compiler.cacheDependencies source others) :
    compiler.compileParsedPackage options source outputs =
      compiler.compileParsedPackage options source others := by
  have hr : ∀ {path}, path ∈ compiler.imports source → ∀ outputs exported,
      (if path ∈ packageDependencies (size outputs) outputs (compiler.imports source) then
        (outputs.lookup path).map Output.data else none).map PackageData.exported =
          some exported ↔ (path, exported) ∈ compiler.cacheDependencies source outputs := by
    intro path hi outputs exported
    have hmem : (path, exported) ∈ compiler.cacheDependencies source outputs ↔
        ∃ output, outputs.lookup path = some output ∧ output.data.exported = exported := by
      simp [cacheDependencies, and_left_comm, hi]
    rw [hmem]
    split_ifs with hp
    · simp
    · refine iff_of_false nofun fun ⟨output, ho, _⟩ => hp ?_
      exact mem_packageDependencies (Nat.le_refl _) hi (mem_of_lookup ho)
  refine hrd _ _ fun path hi => Option.ext fun exported => ?_
  rw [hr hi, hs, hr hi]

/-- A build with a cache and the same build without it. -/
structure Matches (compiler : Compiler K) (build clean : Build K) : Prop where
  clean_eq : clean = { build with cache := none }
  genuine : ∀ cache, build.cache = some cache → ∀ action output, cache.lookup action = some output →
    compiler.Genuine action output

section Run

variable {build clean : Build K}

theorem Matches.visitAll {first second : Build K → String → Build K}
    (hv : ∀ {build clean}, Matches compiler build clean → ∀ dep,
      Matches compiler (first build dep) (second clean dep))
    (hmatches : Matches compiler build clean) (dependencies : List String) :
    Matches compiler (build.visitAll first dependencies) (clean.visitAll second dependencies) := by
  refine foldl_rel hmatches fun dep _ build clean hmatches => ?_
  have hnext := hv hmatches dep
  cases hmatches.clean_eq
  split_ifs
  · exact hnext
  · exact hmatches

variable (hmatches : Matches compiler build clean)
include hmatches

theorem Matches.report (msg : String) : Matches compiler (build.report msg) (clean.report msg) := by
  obtain ⟨rfl, hg⟩ := hmatches
  exact ⟨rfl, hg⟩

theorem Matches.complete (path : String) (output : Output K) :
    Matches compiler (compiler.complete path output build)
      (compiler.complete path output clean) := by
  obtain ⟨rfl, hg⟩ := hmatches
  unfold Compiler.complete
  cases output.data.requirements.filter (· ∉ build.outputs) <;> exact ⟨rfl, hg⟩

/-- The cache gives what compilation would give. -/
theorem Matches.load {options : K.Options} (hrd : compiler.ReadsImports options source)
    (path : String) :
    (∃ msg, compiler.loadOrCompilePackage options path source build = .error msg ∧
      compiler.loadOrCompilePackage options path source clean = .error msg) ∨
    ∃ output next, compiler.loadOrCompilePackage options path source build = .ok (output, next) ∧
      compiler.loadOrCompilePackage options path source clean = .ok (output, clean) ∧
      Matches compiler next clean := by
  obtain ⟨rfl, hg⟩ := hmatches
  unfold loadOrCompilePackage
  dsimp only [Option.bind_none, Option.map_none]
  split
  · rename_i output hl
    obtain ⟨cache, hc, hl⟩ := Option.bind_eq_some_iff.mp hl
    refine .inr ⟨output, build, rfl, ?_, rfl, hg⟩
    rw [show compiler.compileParsedPackage options source build.outputs = _ from
      hg cache hc _ _ hl _ rfl]
    rfl
  · cases ho : compiler.compileParsedPackage options source build.outputs with
    | error msg => exact .inl ⟨msg, rfl, rfl⟩
    | ok output =>
      refine .inr ⟨output, _, rfl, rfl, rfl, ?_⟩
      intro _ hi
      obtain ⟨cache, hc, rfl⟩ := Option.map_eq_some_iff.mp hi
      exact forall_insert (hg cache hc) fun outputs hs =>
        (compileParsedPackage_congr hrd hs).trans ho

end Run

/-- A package compiled with the cache is the package compiled without. -/
theorem Matches.compilePackage (hrd : ∀ pkg ∈ request.packages.entries,
      compiler.ReadsImports request.options pkg.2) :
    ∀ {depth : Nat} {stack : List String} {build clean : Build K},
      Matches compiler build clean → ∀ path,
        Matches compiler (compiler.compilePackage request depth stack build path)
          (compiler.compilePackage request depth stack clean path)
  | depth, stack, build, clean, hmatches, path => by
    cases hmatches.clean_eq
    unfold Compiler.compilePackage
    split_ifs
    · exact hmatches
    · exact hmatches.report _
    cases hs : request.packages.lookup path with
    | none => exact hmatches.report _
    | some source =>
      cases depth with
      | zero => exact hmatches.report _
      | succ depth =>
        have hv := fun {build clean} => @Matches.visitAll K compiler build clean
          _ _ (@Matches.compilePackage hrd depth (path :: stack))
        have hi := hv hmatches (compiler.imports source)
        dsimp only
        generalize build.visitAll _ _ = mid at hi ⊢
        generalize Build.visitAll _ _ _ = cleaned at hi ⊢
        cases hi.clean_eq
        split_ifs
        · exact hi
        obtain ⟨msg, hload, hc⟩ | ⟨output, next, hload, hc, hnext⟩ :=
          hi.load (hrd ⟨path, source⟩ (AList.mem_lookup_iff.mp hs)) path
        · rw [hload, hc]
          exact hi.report msg
        · rw [hload, hc]
          have hf := hv hnext output.data.requirements
          dsimp only
          generalize next.visitAll _ _ = last at hf ⊢
          generalize Build.visitAll _ _ _ = cleaned at hf ⊢
          cases hf.clean_eq
          split_ifs
          · exact hf
          · exact hf.complete path output

/-- The depth never runs out: it counts the packages that are not on the stack. -/
theorem compilePackage_depth : ∀ {depth : Nat} {stack : List String},
    (request.packages.keys.toFinset \ stack.toFinset).card ≤ depth →
    compiler.compilePackage request (depth + 1) stack = compiler.compilePackage request depth stack
  | depth, stack, hd => by
    funext build path
    unfold compilePackage
    split_ifs with _ hs
    · rfl
    · rfl
    cases hsr : request.packages.lookup path with
    | none => rfl
    | some source =>
      have hmem : path ∈ request.packages.keys.toFinset \ stack.toFinset := by
        simpa [hs] using AList.mem_keys.mp (mem_of_lookup hsr)
      have hi := Finset.card_erase_add_one hmem
      rw [← Finset.sdiff_insert, ← toFinset_cons] at hi
      cases depth with
      | zero => omega
      | succ depth =>
        dsimp only
        rw [@compilePackage_depth depth (path :: stack) (by omega)]

/-- The recursion over imports and requirements ends, cycles included: it enters at most as
many levels as there are packages. -/
theorem compileWorkspace_depth (cache : Option (Table (Action K) (Output K))) (more : Nat) :
    compiler.compilePackage request (size request.packages + more) [] { cache } request.root =
      compiler.compileWorkspace request cache := by
  induction more with
  | zero => rfl
  | succ more ih =>
    have hcard : (request.packages.keys.toFinset \ [].toFinset).card ≤
        size request.packages + more := by
      simpa [size, AList.keys, List.keys] using
        (toFinset_card_le request.packages.keys).trans (by simp [AList.keys, List.keys])
    rw [← Nat.add_assoc, compilePackage_depth hcard]
    exact ih

/-- With a shared cache every request gives what it gives without, and a package whose
compilation changes has another action, if every package reads only its imports. -/
theorem session_eq_clean {requests : List (Request K)}
    (hreads : ∀ request ∈ requests, ∀ package ∈ request.packages.entries,
      compiler.ReadsImports request.options package.2) :
    compiler.session ∅ requests = requests.map (compiler.compileWorkspace · none) ∧
      ∀ request ∈ requests, ∀ package ∈ request.packages.entries, ∀ outputs others,
        compiler.compileParsedPackage request.options package.2 outputs ≠
          compiler.compileParsedPackage request.options package.2 others →
        compiler.workspaceCacheAction request.options package.1 package.2 outputs ≠
          compiler.workspaceCacheAction request.options package.1 package.2 others := by
  constructor
  · suffices hsession : ∀ cache, (∀ action output, cache.lookup action = some output →
        compiler.Genuine action output) →
        compiler.session cache requests = requests.map (compiler.compileWorkspace · none) from
      hsession ∅ (by simp)
    induction requests with
    | nil => exact fun _ _ => rfl
    | cons request requests ih =>
      intro cache hgenuine
      have hinitial : Matches compiler { cache := some cache } { cache := none } :=
        ⟨rfl, fun _ hcache => by cases hcache; exact hgenuine⟩
      have hmatches : Matches compiler (compiler.compileWorkspace request (some cache))
          (compiler.compileWorkspace request none) :=
        hinitial.compilePackage (hreads request mem_cons_self) request.root
      rw [session, map_cons, hmatches.clean_eq,
        ih fun other hother => hreads other (mem_cons_of_mem _ hother)]
      intro action output hlookup
      cases hcache : (compiler.compileWorkspace request (some cache)).cache with
      | none => simp [hcache] at hlookup
      | some found =>
        exact hmatches.genuine found hcache action output (by simpa [hcache] using hlookup)
  · intro request hrequest package hpackage outputs others hne hsame
    exact hne (compileParsedPackage_congr (hreads request hrequest package hpackage)
      (congrArg Action.dependencies hsame))

section Templates

/-- A package has a template, and its code is an instance of the templates that it uses. -/
structure TemplateSource where
  imports : List String
  template : String
  uses : List String
deriving DecidableEq

abbrev templateKinds : Kinds where
  Source := TemplateSource
  Options := Unit
  Exported := String
  Hidden := Unit
  Code := List String
  Hash := Unit

def templates : Compiler templateKinds where
  imports := TemplateSource.imports
  passes _ source data := .ok
    ⟨source.uses.filterMap fun path => (data path).map PackageData.exported,
      source.template, (), source.imports, ()⟩
  bindArtifact code _ := (code, ())

/-- The template of `base` changes. -/
def revisions (imports : List String) : List (Request templateKinds) :=
  ["1", "2"].map fun template =>
    { packages := [⟨"base", [], template, []⟩, ⟨"middle", ["base"], "F", []⟩,
        ⟨"main", imports, "", ["base"]⟩].toAList
      root := "main"
      options := () }

/-- The second build has the instance of the first template. -/
theorem session_ne_clean : templates.session ∅ (revisions ["middle"]) ≠
      (revisions ["middle"]).map (templates.compileWorkspace · none) := by
  intro hsame
  have hmain := congrArg (map fun build : Build templateKinds =>
    (build.outputs.lookup "main").map Output.code) hsame
  exact absurd hmain (by decide +kernel)

theorem session_of_direct : templates.session ∅ (revisions ["middle", "base"]) =
      (revisions ["middle", "base"]).map (templates.compileWorkspace · none) := by
  have huses : ∀ request ∈ revisions ["middle", "base"],
      ∀ package ∈ request.packages.entries, package.2.uses ⊆ package.2.imports := by
    decide
  refine (session_eq_clean fun request hrequest package hpackage data other hsame => ?_).1
  have hfound := filterMap_congr fun path hpath =>
    hsame path (huses request hrequest package hpackage hpath)
  simp [templates, hfound]

end Templates

end Compiler

end MiniGo.Compile
