/-
Method sets against Go's selector rule.

`offers` is what the levels of `methodSet` hold under a key, `found` what Go's
rule counts: every field and method of that name, on every path. The search is
shown to return the first lone offer; it is the selected method exactly when
nothing hides it.
-/
import MiniGo.Types.MethodSet

namespace MiniGo

open Lib Reached TypeTable List

namespace TypeTable

variable (upper : Char → Bool) (table : TypeTable)

/-- The signatures of the methods with a key. -/
def signaturesOf (key : String) (methods : List Method) : List FunctionSignature :=
  (methods.filter fun method => methodKey upper method = key).map (·.signature)

/-- The methods of a level that `methodSet` counts under a key. -/
def offers (source : TypeRef) (key : String) (depth : Nat) :
    List FunctionSignature :=
  (trails Reached.typ table.embeddedTypes (table.methodSetBase source) depth).flatMap
    fun trail => signaturesOf upper key (table.directMethodSet trail.item.typ trail.item.pointer)

section Search

variable {upper table} {available : String → Option FunctionSignature} {key : String}

theorem signaturesOf_cons (method : Method) (methods : List Method) :
    signaturesOf upper key (method :: methods) = if methodKey upper method = key then
        method.signature :: signaturesOf upper key methods
      else
        signaturesOf upper key methods := by
  by_cases hk : methodKey upper method = key <;> simp [signaturesOf, hk]

/-- A key that is available already is not counted. -/
theorem foldl_tallyMethod_available (ha : available key ≠ none)
    (methods : List Method) (tally : Tally) :
    (methods.foldl (tallyMethod upper available) tally).candidates key =
      tally.candidates key := by
  induction methods generalizing tally with
  | nil => rfl
  | cons method methods ih =>
    rw [foldl_cons, ih]
    unfold tallyMethod
    dsimp only
    split_ifs with hm
    · rfl
    · have hne : key ≠ methodKey upper method := by
        rintro rfl
        exact hm (Option.isSome_iff_ne_none.mpr ha)
      exact Function.update_of_ne hne _ _

theorem foldl_tallyMethod (ha : available key = none) (methods : List Method) (tally : Tally) :
    (methods.foldl (tallyMethod upper available) tally).counts key =
        tally.counts key + (signaturesOf upper key methods).length ∧
      (methods.foldl (tallyMethod upper available) tally).candidates key =
        ((signaturesOf upper key methods).getLast?).or (tally.candidates key) := by
  induction methods generalizing tally with
  | nil => exact ⟨rfl, rfl⟩
  | cons method methods ih =>
    rw [foldl_cons]
    obtain ⟨hco, hc⟩ := ih (tallyMethod upper available tally method)
    rw [hco, hc, signaturesOf_cons]
    by_cases hk : methodKey upper method = key
    · subst hk
      have hst : tallyMethod upper available tally method =
          tally.add (methodKey upper method) method.signature :=
        if_neg (by simp [ha])
      rw [hst, if_pos rfl, length_cons]
      simp only [Tally.add, Function.update_self]
      refine ⟨by omega, ?_⟩
      cases signaturesOf upper (methodKey upper method) methods with
      | nil => rfl
      | cons => simp [getLast?_cons]
    · have hs : (tallyMethod upper available tally method).counts key = tally.counts key ∧
          (tallyMethod upper available tally method).candidates key = tally.candidates key := by
        unfold tallyMethod
        dsimp only
        split_ifs with hm
        · exact ⟨rfl, rfl⟩
        · exact ⟨Function.update_of_ne (Ne.symm hk) _ _, Function.update_of_ne (Ne.symm hk) _ _⟩
      rw [hs.1, hs.2, if_neg hk]
      exact ⟨rfl, rfl⟩

/-- What a level makes of a key. -/
theorem settle_tallyLevel (depth : Nat) (frontier : List FrontierItem) :
    settle depth (table.tallyLevel upper available frontier) available key =
      (available key).or (lone (frontier.flatMap fun item =>
        signaturesOf upper key (table.directMethodSet item.item.typ item.item.pointer))) := by
  have hf : (frontier.flatMap fun item => signaturesOf upper key
      (table.directMethodSet item.item.typ item.item.pointer)) =
      signaturesOf upper key (frontier.flatMap fun item =>
        table.directMethodSet item.item.typ item.item.pointer) := by
    simp [signaturesOf, filter_flatMap, map_flatMap]
  rw [hf, settle, tallyLevel]
  generalize (frontier.flatMap fun item =>
    table.directMethodSet item.item.typ item.item.pointer) = methods
  cases ha : available key with
  | some signature =>
    rw [foldl_tallyMethod_available (by simp [ha])]
    rfl
  | none =>
    obtain ⟨hco, hc⟩ := foldl_tallyMethod ha methods .empty
    rw [hco, hc]
    match signaturesOf upper key methods with
    | [] => rfl
    | [signature] => simp [Tally.empty, lone]
    | first :: second :: rest => simp [Tally.empty, lone, getLast?_cons]

variable {source : TypeRef} {depth : Nat}

theorem firstLone_offers_of_trails_eq_nil
    (hnil : trails typ table.embeddedTypes (table.methodSetBase source) depth = []) (levels : Nat) :
    trails typ table.embeddedTypes (table.methodSetBase source) (depth + levels) = [] ∧
      firstLone (table.offers upper source key) (depth + levels) =
        firstLone (table.offers upper source key) depth := by
  induction levels with
  | zero => exact ⟨hnil, rfl⟩
  | succ levels ih =>
    obtain ⟨ht, hl⟩ := ih
    refine ⟨?_, ?_⟩
    · rw [← Nat.add_assoc, trails, ht]
      rfl
    · rw [← Nat.add_assoc, firstLone, hl, offers, ht]
      cases firstLone (table.offers upper source key) depth <;> rfl

/-- Level by level, the search holds the first lone offer of every key. -/
theorem methodSetLoop_eq (levels depth : Nat) : table.methodSetLoop upper levels depth
        (trails typ table.embeddedTypes (table.methodSetBase source) depth)
        (fun key => firstLone (table.offers upper source key) depth) =
      fun key => firstLone (table.offers upper source key) (depth + levels) := by
  induction levels generalizing depth with
  | zero => rfl
  | succ levels ih =>
    rw [methodSetLoop]
    split_ifs with hnil
    · funext key
      exact (firstLone_offers_of_trails_eq_nil hnil (levels + 1)).2.symm
    · have hs : settle depth (table.tallyLevel upper
          (fun key => firstLone (table.offers upper source key) depth)
          (trails typ table.embeddedTypes (table.methodSetBase source) depth))
          (fun key => firstLone (table.offers upper source key) depth) =
          fun key => firstLone (table.offers upper source key) (depth + 1) := by
        funext key
        rw [settle_tallyLevel, firstLone, offers]
      rw [hs, Nat.add_comm levels 1, ← Nat.add_assoc]
      exact ih (depth + 1)

/-- The places that the paths from a source can meet. -/
theorem levels_places (depth : Nat) :
    ∀ item ∈ levels table.embeddedTypes (table.methodSetBase source) depth,
      item.typ ∈ (table.methodSetBase source).typ :: (table.nodes.flatMap (·.fields)).map
          fun field => (table.methodSetBase field.type).typ := by
  intro item hi
  cases depth with
  | zero =>
    obtain rfl : item = table.methodSetBase source := by simpa [levels] using hi
    exact mem_cons_self
  | succ depth =>
    obtain ⟨parent, _, hc⟩ := mem_flatMap.mp hi
    obtain ⟨field, hf, rfl⟩ := mem_map.mp hc
    refine mem_cons_of_mem _ (mem_map.mpr ⟨field, ?_, rfl⟩)
    unfold embeddedMethodSetFields at hf
    split at hf
    · cases hf
    · rename_i fields hfl
      obtain ⟨node, hn, rfl⟩ := table.structFields_mem hfl
      exact mem_flatMap.mpr ⟨node, hn, mem_of_mem_filter hf⟩

theorem trails_eq_nil_of_levelBound_le (source : TypeRef) (hd : table.levelBound ≤ depth) :
    trails typ table.embeddedTypes (table.methodSetBase source) depth = [] := by
  refine trails_eq_nil (fun depth => levels_places depth) ?_
  rw [length_cons, length_map]
  exact hd

theorem methodSet_eq_some {signature : FunctionSignature} :
    table.methodSet upper source none key = some signature ↔
      ∃ depth, LoneAt (table.offers upper source key) depth signature := by
  have hs : table.methodSet upper source none key =
      firstLone (table.offers upper source key) (0 + table.levelBound) :=
    congrFun (methodSetLoop_eq table.levelBound 0) key
  rw [hs, Nat.zero_add, firstLone_eq_some]
  constructor
  · rintro ⟨depth, _, hl⟩
    exact ⟨depth, hl⟩
  · rintro ⟨depth, hl⟩
    refine ⟨depth, ?_, hl⟩
    by_contra hd
    have hnil := trails_eq_nil_of_levelBound_le source (Nat.le_of_not_lt hd)
    have ho := hl.1
    rw [offers, hnil] at ho
    cases ho

end Search

/-- A field or a method under a name; a method says whether its receiver lets it
into the set. -/
inductive Occurrence where
  | field
  | method (signature : FunctionSignature) (promoted : Bool)
deriving Repr, DecidableEq

/-- The methods of a type: those its node records, or those of its interface. -/
def typeMethods (ref : TypeRef) : List Method :=
  match table.recordedMethods ref, table.isInterface (table.aliasTarget ref) with
  | [], some node => node.methods
  | methods, _ => methods

/-- The module that declares a type and the fields of it. -/
def typeModule (ref : TypeRef) : String :=
  match table.nodeForRef (table.aliasTarget ref) with
  | some node => if node.kind = .named then node.identity.modulePath else ""
  | none => ""

def typeFields (ref : TypeRef) : List Field :=
  (table.structFields (table.aliasTarget ref)).getD []

/-- The fields and methods of a type under a name. -/
def occurrences (key : String) (item : Reached) : List Occurrence :=
  ((table.typeFields item.typ).filter fun field =>
      memberKey upper (table.typeModule item.typ) field.name = key).map
    (fun _ => .field) ++
  ((table.typeMethods item.typ).filter fun method =>
      methodKey upper method = key).map
    fun method => .method method.signature (table.promotes item.pointer method)

/-- The fields and methods under a name at an embedding depth, on every path. -/
def found (source : TypeRef) (key : String) (depth : Nat) : List Occurrence :=
  (levels table.embeddedTypes (table.methodSetBase source) depth).flatMap
    (table.occurrences upper key)

/-- The name is a method of the set, declared at this embedding depth. -/
def SelectsAt (source : TypeRef) (key : String) (depth : Nat)
    (signature : FunctionSignature) : Prop :=
  (∀ earlier < depth, table.found upper source key earlier = []) ∧
    table.found upper source key depth = [.method signature true]

/-- Go's rule: the shallowest depth with the name has it once, as a method that
the receiver lets into the set. -/
def Selects (source : TypeRef) (key : String) (signature : FunctionSignature) :
    Prop :=
  ∃ depth, table.SelectsAt upper source key depth signature

/-- The method set of a source follows Go's rule, and so does `Implements`. -/
structure FollowsSelectors (source : TypeRef) : Prop where
  methodSet_iff : ∀ key signature, table.methodSet upper source none key = some signature ↔
      table.Selects upper source key signature
  implements_iff : ∀ (identical : TypeRef → TypeRef → Bool) (target : TypeRef)
    (targetNode : TypeNode), target.valid → table.isInterface target = some targetNode →
    targetNode.typeSet = false →
    (table.implements upper identical source target = .ok () ↔
      ∀ method ∈ targetNode.methods, ∃ signature,
        table.Selects upper source (methodKey upper method) signature ∧
          signatureIdentical identical signature method.signature = .ok ())

/-- The first lone offers are what Go's rule selects. -/
def OffersSelected (source : TypeRef) : Prop :=
  ∀ key signature, (∃ depth, LoneAt (table.offers upper source key) depth signature) ↔
      table.Selects upper source key signature

/-- The interfaces that a source embeds record their methods on their own nodes. -/
def Recorded (source : TypeRef) : Prop :=
  ∀ depth, ∀ item ∈ levels table.embeddedTypes (table.methodSetBase source) depth,
    table.typeMethods item.typ = table.recordedMethods item.typ

/-- Nothing hides a first lone offer: no field and no other method of that name
stands at its depth or above. -/
def Unshadowed (source : TypeRef) : Prop :=
  ∀ key depth signature, LoneAt (table.offers upper source key) depth signature →
      table.SelectsAt upper source key depth signature

section Rule

variable {upper table} {source : TypeRef} {key : String} {signature : FunctionSignature}

theorem embeddedTypes_typ (x y : Reached) (ht : x.typ = y.typ) :
    (table.embeddedTypes x).map typ = (table.embeddedTypes y).map typ := by
  simp [embeddedTypes, ht]

theorem occurrences_typ (x y : Reached) (ht : x.typ = y.typ)
    (hx : table.occurrences upper key x = []) : table.occurrences upper key y = [] := by
  simp only [occurrences, append_eq_nil_iff, map_eq_nil_iff] at hx ⊢
  rwa [← ht]

/-- The occurrence as an entry of the method set. -/
def Occurrence.offer : Occurrence → Option FunctionSignature
  | .method signature true => some signature
  | _ => none

theorem occurrences_offer {item : Reached}
    (hr : table.typeMethods item.typ = table.recordedMethods item.typ) :
    (table.occurrences upper key item).filterMap Occurrence.offer =
      signaturesOf upper key (table.directMethodSet item.typ item.pointer) := by
  rw [occurrences, hr, directMethodSet, filterMap_append]
  have hf : ∀ fields : List Field,
      (fields.map fun _ => Occurrence.field).filterMap Occurrence.offer = [] := by
    intro fields
    simp [Occurrence.offer]
  rw [hf, nil_append]
  induction table.recordedMethods item.typ with
  | nil => rfl
  | cons method methods ih =>
    by_cases hk : methodKey upper method = key <;>
      cases hp : table.promotes item.pointer method <;>
      simp only [filter_cons, hk, hp, decide_true, decide_false,
        if_true, if_false, Bool.false_eq_true, map_cons,
        filterMap_cons, Occurrence.offer, signaturesOf_cons, ih]

/-- With recorded interfaces, a level offers what it holds of the set. -/
theorem offers_eq_found (hr : table.Recorded source) (depth : Nat)
    (hnone : ∀ earlier < depth, table.found upper source key earlier = []) :
    table.offers upper source key depth =
      (table.found upper source key depth).filterMap Occurrence.offer := by
  have hl : table.found upper source key depth = _ :=
    levels_flatMap_eq embeddedTypes_typ occurrences_typ hnone
  rw [hl, offers, filterMap_flatMap]
  refine flatMap_congr fun trail ht => ?_
  have hv := trails_valid depth trail ht
  exact (occurrences_offer (hr depth _ hv.reached)).symm

/-- What is selected is the first lone offer. -/
theorem SelectsAt.loneAt (hr : table.Recorded source) {depth : Nat}
    (hs : table.SelectsAt upper source key depth signature) :
    LoneAt (table.offers upper source key) depth signature := by
  obtain ⟨hnone, hf⟩ := hs
  refine ⟨?_, ?_⟩
  · rw [offers_eq_found hr depth hnone, hf]
    rfl
  · intro earlier hea
    rw [offers_eq_found hr earlier fun e he => hnone e (by omega), hnone earlier hea]
    simp

theorem offersSelected_iff_unshadowed (hr : table.Recorded source) :
    table.OffersSelected upper source ↔ table.Unshadowed upper source := by
  constructor
  · intro ho key depth signature hl
    obtain ⟨other, hs⟩ := (ho key signature).mp ⟨depth, hl⟩
    rwa [hl.unique (hs.loneAt hr)]
  · intro hu key signature
    constructor
    · rintro ⟨depth, hl⟩
      exact ⟨depth, hu key depth signature hl⟩
    · rintro ⟨depth, hs⟩
      exact ⟨depth, hs.loneAt hr⟩

theorem implementsMethods_eq_ok {identical : TypeRef → TypeRef → Bool}
    {available : String → Option FunctionSignature} {methods : List Method} :
    implementsMethods upper identical available methods = .ok () ↔
      ∀ method ∈ methods, ∃ signature, available (methodKey upper method) = some signature ∧
          signatureIdentical identical signature method.signature = .ok () := by
  induction methods with
  | nil => simp [implementsMethods]
  | cons method methods ih =>
    rw [implementsMethods, forall_mem_cons, ← ih]
    cases available (methodKey upper method) with
    | none => simp
    | some cand =>
      cases hi : signatureIdentical identical cand method.signature with
      | ok => simp [Except.toBool, hi]
      | error => simp [Except.toBool, hi]

theorem followsSelectors_iff (hv : source.valid) (hsr : table.isInterface source = none) :
    table.FollowsSelectors upper source ↔ table.OffersSelected upper source := by
  constructor
  · intro hf key signature
    rw [← methodSet_eq_some]
    exact hf.methodSet_iff key signature
  · intro ho
    have hs : ∀ key signature, table.methodSet upper source none key = some signature ↔
          table.Selects upper source key signature := by
      intro key signature
      rw [methodSet_eq_some]
      exact ho key signature
    refine ⟨hs, ?_⟩
    intro identical tgt targetNode ht hn hp
    have hk : tgt.kind ≠ .any := by
      intro ha
      rw [table.isInterface_of_kind_any ha] at hn
      cases hn
    have hi : table.implements upper identical source tgt =
        implementsMethods upper identical (table.methodSet upper source none)
          targetNode.methods := by
      simp [implements, hv, ht, hk, hn, hp, hsr]
    rw [hi, implementsMethods_eq_ok]
    simp only [hs]

end Rule

/-- The method set of a source that is not an interface follows Go's rule exactly
when the first lone offers are the selected methods. Where the embedded
interfaces record their methods, that is to say that nothing hides them. -/
theorem methodSet_follows_selectors (source : TypeRef) (hvalid : source.valid)
    (hsource : table.isInterface source = none) :
    (table.FollowsSelectors upper source ↔ table.OffersSelected upper source) ∧
      (table.Recorded source →
        (table.FollowsSelectors upper source ↔ table.Unshadowed upper source)) := by
  refine ⟨followsSelectors_iff hvalid hsource, fun hrecorded => ?_⟩
  rw [followsSelectors_iff hvalid hsource]
  exact offersSelected_iff_unshadowed hrecorded

end TypeTable

section Hiding

def stringSignature : FunctionSignature := { results := [.builtin .string] }

def baseType : TypeRef := { kind := .named, node := "node.base" }
def baseStruct : TypeRef := { kind := .struct, node := "node.base.struct" }
def wrapperType : TypeRef := { kind := .named, node := "node.wrapper" }
def wrapperStruct : TypeRef := { kind := .struct, node := "node.wrapper.struct" }
def stringerType : TypeRef := { kind := .interface, node := "node.stringer" }

def stringMethod : Method :=
  { name := "String", receiver := baseType, signature := stringSignature }

/-- `type Base struct` with a method `String`, and `Wrapper` that embeds it and
has a field of that name. -/
def hidingTable : TypeTable where
  nodes :=
    [{ id := "node.stringer", kind := .interface,
       methods := [{ name := "String", signature := stringSignature }] },
     { id := "node.base.struct", kind := .struct },
     { id := "node.base", kind := .named, identity := ⟨"example", "Base"⟩,
       underlying := baseStruct, methods := [stringMethod] },
     { id := "node.wrapper.struct", kind := .struct,
       fields := [{ name := "Base", type := baseType, embedded := true },
         { name := "String", type := .builtin .string }] },
     { id := "node.wrapper", kind := .named, identity := ⟨"example", "Wrapper"⟩,
       underlying := wrapperStruct }]
  indexed := by decide +kernel

/-- Letters beyond ASCII do not matter to these names. -/
def noUpper : Char → Bool := fun _ => false

theorem wrapper_field_hidden :
    hidingTable.validate false = .ok () ∧ hidingTable.isInterface wrapperType = none ∧
      hidingTable.methodSet noUpper wrapperType none "String" = some stringSignature ∧
      ¬ hidingTable.Selects noUpper wrapperType "String" stringSignature ∧
      hidingTable.implements noUpper (fun left right => left = right) wrapperType
        stringerType = .ok () := by
  refine ⟨by decide +kernel, by decide +kernel, by decide +kernel, ?_,
    by decide +kernel⟩
  rintro ⟨depth, hnone, hfound⟩
  have hfield : hidingTable.found noUpper wrapperType "String" 0 = [.field] := by
    decide +kernel
  cases depth with
  | zero =>
    rw [hfield] at hfound
    cases hfound
  | succ depth =>
    have hempty := hnone 0 (Nat.succ_pos depth)
    rw [hfield] at hempty
    cases hempty

theorem base_embeds_nothing (depth : Nat) :
    levels hidingTable.embeddedTypes (hidingTable.methodSetBase baseType) depth =
      if depth = 0 then [⟨baseType, false⟩] else [] := by
  induction depth with
  | zero => decide +kernel
  | succ depth ih =>
    have hnone : hidingTable.embeddedTypes ⟨baseType, false⟩ = [] := by decide +kernel
    rw [levels, ih]
    split_ifs <;> simp_all

theorem base_recorded : hidingTable.Recorded baseType := by
  intro depth item hi
  rw [base_embeds_nothing] at hi
  split_ifs at hi
  · obtain rfl := mem_singleton.mp hi
    decide +kernel
  · cases hi

theorem base_found (key : String) : hidingTable.found noUpper baseType key 0 =
      if key = "String" then [.method stringSignature true] else [] := by
  have hm : hidingTable.typeMethods baseType = [stringMethod] := by decide +kernel
  have hf : hidingTable.typeFields baseType = [] := by decide +kernel
  have hp : hidingTable.promotes false stringMethod = true := by decide +kernel
  have hk : methodKey noUpper stringMethod = "String" := by decide +kernel
  rw [found, base_embeds_nothing]
  by_cases hs : key = "String"
  · simp [occurrences, hm, hf, hp, hk, hs]
    rfl
  · simp [occurrences, hm, hf, hk, hs, Ne.symm hs]

theorem base_unshadowed : hidingTable.Unshadowed noUpper baseType := by
  intro key depth signature hl
  have hd : depth = 0 := by
    obtain ⟨trail, ht, -⟩ := mem_flatMap.mp (hl.1 ▸ mem_singleton_self signature)
    have hr := (trails_valid depth trail ht).reached
    rw [base_embeds_nothing] at hr
    split_ifs at hr with hz
    · exact hz
    · cases hr
  subst hd
  have ho := hl.1
  have hnone : ∀ earlier < 0, hidingTable.found noUpper baseType key earlier = [] :=
    fun earlier he => absurd he (Nat.not_lt_zero earlier)
  rw [offers_eq_found base_recorded 0 hnone, base_found] at ho
  refine ⟨hnone, ?_⟩
  rw [base_found]
  split_ifs at ho ⊢ with hs
  · obtain rfl : stringSignature = signature := by
      simpa [TypeTable.Occurrence.offer] using ho
    rfl
  · cases ho

theorem base_follows_selectors :
    hidingTable.FollowsSelectors noUpper baseType :=
  ((methodSet_follows_selectors noUpper hidingTable baseType
    (by decide +kernel) (by decide +kernel)).2 base_recorded).mpr base_unshadowed

end Hiding

end MiniGo
