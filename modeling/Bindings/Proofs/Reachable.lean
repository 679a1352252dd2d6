import Mathlib
import Bindings.ClassPath.Platform
import Bindings.Proofs.Orderly.Completion
import Bindings.Proofs.Orderly.Lookup

/-!
# Reachable worlds

A world is reachable if it comes about from a new one by operations and resets. Every operation takes a sound
world on a course (`Step.course`).
-/

open Relation

namespace Bindings

variable {α : Type}

inductive Operation where
  | getType (name : QName)
  | askForType (name : QName)
  | getPackage (name : QName)
  | createPackage (name : QName)
  | createClass (file : ClassFile)
  | objectType
  | boxed (base : BaseType)
  | resolved (id : TypeId)
  | resolvePlaceholder (id : TypeId)
  | arrayType (component : TypeId) (dimensions : UInt32)
  | parameterizedType (generic : TypeId) (arguments : List TypeId) (enclosing : Option TypeId)
  | rawType (generic : TypeId) (enclosing : Option TypeId)
  | wildcard (generic : Option TypeId) (rank : Nat) (bound : Option TypeId)
    (otherBounds : List TypeId) (kind : WildcardKind)
  | newMissing (name : QName) (reason : Reason) (closest : Option TypeId)
  | buildUnit (source : SourceUnit)
  | completeUnits
  | superclass (id : TypeId)
  | superInterfaces (id : TypeId)
  | memberTypes (id : TypeId)
  | methods (id : TypeId)
  | fields (id : TypeId)
  | methodsNamed (id : TypeId) (selector : String)
  | isSubclassOf (sub sup : TypeId)
  | hasNoMemberTypes (id : TypeId)
  | erasure (id : TypeId)
  | compatible (source target : TypeId)
  | asSuperType (id target : TypeId)
  | argumentContains (container argument : TypeId)
  | substitutionFor (receiver : TypeId)
  | substitute (s : Substitution) (id : TypeId)
  | methodView (receiver : TypeId) (method : MethodId)
  | fieldView (receiver : TypeId) (field : FieldId)
  | capture (id : TypeId) (position : Nat)
  | boundCheck (s : Substitution) (var argument : TypeId)
  | leastUpperBound (types : List TypeId)
  | greatestLowerBound (types : List TypeId)
  | combineArguments (first second : TypeId)
  | infer (method : MethodId) (arguments : List TypeId) (expected : Option TypeId) (phase : Phase)
  | instantiate (method : MethodId) (arguments : List TypeId) (inferred : Bool)
  | argumentCompatible (phase : Phase) (argument parameter : TypeId)
  | methodCompatible (phase : Phase) (method : MethodId) (arguments : List TypeId)
  | arrayComponent (id : TypeId)
  | arrayCloneMethod (array : TypeId)
  | arrayLengthField (array : TypeId)
  | canSeeType (id : TypeId) (scope : ScopeId)
  | canSeeMember (declaring : TypeId) (modifiers : Modifiers) (scope : ScopeId)
    (receiver : Option TypeId)
  | findMethod (scope : ScopeId) (receiver : TypeId) (selector : String) (arguments : List TypeId)
    (site : Site)
  | findConstructor (scope : ScopeId) (receiver : TypeId) (arguments : List TypeId) (site : Site)
  | findField (scope : ScopeId) (receiver : TypeId) (name : String) (site : Site)
  | findMemberType (scope : ScopeId) (receiver : TypeId) (name : String)
  | resolveType (scope : ScopeId) (name : String)
  | resolveQualifiedType (scope : ScopeId) (name : QName)
  | typeOfRef (scope : ScopeId) (reference : TypeRef)
  | resolveName (scope : ScopeId) (name : String) (meanings : Meanings) (site : Site)
  | resolveField (scope : ScopeId) (name : String) (site : Site)
  | resolveMethod (scope : ScopeId) (selector : String) (arguments : List TypeId) (site : Site)
  | newMethodScope (parent : ScopeId) (method : Option MethodId) (isStatic : Bool)
  | newBlockScope (parent : ScopeId)
  | declareLocal (scope : ScopeId) (name : String) (type : TypeId) (modifiers : Modifiers)
  | declareArgument (scope : ScopeId) (name : String) (type : TypeId)
  | markUsed (id : LocalId)
  | placeAllLocals (scope : ScopeId)
  | clearProblems

namespace Operation

def run : Operation → Query Unit
  | getType name => discard (Query.getType name)
  | askForType name => discard (Query.askForType name)
  | getPackage name => discard (liftM (Edit.getPackage name))
  | createPackage name => discard (liftM (Edit.createPackage name))
  | createClass file => discard (Query.createClass file)
  | objectType => discard Query.objectType
  | boxed base => discard (Query.boxed base)
  | resolved id => discard (Query.resolved id)
  | resolvePlaceholder id => discard (Query.resolvePlaceholder id)
  | arrayType component dimensions => discard (liftM (Edit.arrayType component dimensions))
  | parameterizedType generic arguments enclosing =>
    discard (liftM (Edit.parameterizedType generic arguments enclosing))
  | rawType generic enclosing => discard (liftM (Edit.rawType generic enclosing))
  | wildcard generic rank bound otherBounds kind =>
    discard (liftM (Edit.wildcard generic rank bound otherBounds kind))
  | newMissing name reason closest => discard (liftM (Edit.newMissing name reason closest))
  | buildUnit source => discard (liftM (Edit.buildUnit source))
  | completeUnits => discard Query.completeUnits
  | superclass id => discard (Query.superclass id)
  | superInterfaces id => discard (Query.superInterfaces id)
  | memberTypes id => discard (Query.memberTypes id)
  | methods id => discard (Query.methods id)
  | fields id => discard (Query.fields id)
  | methodsNamed id selector => discard (Query.methodsNamed id selector)
  | isSubclassOf sub sup => discard (Query.isSubclassOf sub sup)
  | hasNoMemberTypes id => discard (Query.hasNoMemberTypes id)
  | erasure id => discard (Query.erasure id)
  | compatible source target => discard (Query.compatible source target)
  | asSuperType id target => discard (Query.asSuperType id target)
  | argumentContains container argument => discard (Query.argumentContains container argument)
  | substitutionFor receiver => discard (Query.substitutionFor receiver)
  | substitute s id => discard (Query.substitute s id)
  | methodView receiver method => discard (Query.methodView receiver method)
  | fieldView receiver field => discard (Query.fieldView receiver field)
  | capture id position => discard (Query.capture id position)
  | boundCheck s var argument => discard (Query.boundCheck s var argument)
  | leastUpperBound types => discard (Query.leastUpperBound types)
  | greatestLowerBound types => discard (Query.greatestLowerBound types)
  | combineArguments first second => discard (Query.combineArguments first second)
  | infer method arguments expected phase => discard (Query.infer method arguments expected phase)
  | instantiate method arguments inferred => discard (Query.instantiate method arguments inferred)
  | argumentCompatible phase argument parameter =>
    discard (Query.argumentCompatible phase argument parameter)
  | methodCompatible phase method arguments => discard (Query.methodCompatible phase method arguments)
  | arrayComponent id => discard (liftM (Query.arrayComponent id))
  | arrayCloneMethod array => discard (liftM (Edit.arrayCloneMethod array))
  | arrayLengthField array => discard (liftM (Edit.arrayLengthField array))
  | canSeeType id scope => discard (Query.canSeeType id scope)
  | canSeeMember declaring modifiers scope receiver =>
    discard (Query.canSeeMember declaring modifiers scope receiver)
  | findMethod scope receiver selector arguments site =>
    discard (Query.findMethod scope receiver selector arguments site)
  | findConstructor scope receiver arguments site =>
    discard (Query.findConstructor scope receiver arguments site)
  | findField scope receiver name site => discard (Query.findField scope receiver name site)
  | findMemberType scope receiver name => discard (Query.findMemberType scope receiver name)
  | resolveType scope name => discard (Query.resolveType scope name)
  | resolveQualifiedType scope name => discard (Query.resolveQualifiedType scope name)
  | typeOfRef scope reference => discard (Query.typeOfRef scope reference)
  | resolveName scope name meanings site => discard (Query.resolveName scope name meanings site)
  | resolveField scope name site => discard (Query.resolveField scope name site)
  | resolveMethod scope selector arguments site =>
    discard (Query.resolveMethod scope selector arguments site)
  | newMethodScope parent method isStatic => discard (liftM (Edit.newMethodScope parent method isStatic))
  | newBlockScope parent => discard (liftM (Edit.newBlockScope parent))
  | declareLocal scope name type modifiers => discard (liftM (Edit.declareLocal scope name type modifiers))
  | declareArgument scope name type => discard (liftM (Edit.declareArgument scope name type))
  | markUsed id => liftM (Edit.markUsed id)
  | placeAllLocals scope => discard (liftM (Edit.placeAllLocals scope))
  | clearProblems => modify fun world => { world with log := world.log.clear }

instance {query : Query α} [hq : query.Orderly] : (discard query).Orderly :=
  inferInstanceAs ((fun _ => ()) <$> query).Orderly

@[simp] def task? : Operation → Option Task
  | completeUnits => some .complete
  | askForType _ => some .ask
  | hasNoMemberTypes _ | findMemberType .. => some .mark
  | _ => none

theorem runs {w : World} (hw : w.Sound) (hl : w.Ledger) (op : Operation) :
    op.run.RunsIn op.task? w fun _ _ => True := by
  have ho (h : op.run.Orderly) : op.run.RunsIn op.task? w fun _ _ => True := .of_runs (h.runs w hw)
  cases op with
  | completeUnits => exact .bind hw (Query.completeUnits_runs hw hl) fun _ _ _ _ _ => .pure trivial
  | askForType name => exact .bind hw (Query.askForType_asks hw name) fun _ _ _ _ _ => .pure trivial
  | hasNoMemberTypes id => exact .bind hw (Query.hasNoMemberTypes_runs hw id) fun _ _ _ _ _ => .pure trivial
  | findMemberType scope recv name =>
    exact .bind hw (Query.findMemberType_runs hw scope recv name) fun _ _ _ _ _ => .pure trivial
  | buildUnit src =>
    have hb : (liftM (Edit.buildUnit src) : Query UnitId).Runs w fun _ _ => True :=
      .lift (buildUnit_runs hw src).1 trivial
    exact .of_runs (.map _ hb)
  | clearProblems => exact ho (.apart fun w => { World.Apart.refl w with })
  | _ => exact ho (by unfold run; infer_instance)

end Operation

theorem Query.run_standard {query : Query α} {w : World} {res : Except Halt α} (h : (query .standard w).1 = res) :
    query (.upTo (fun _ => false) 1000000) w = (res, (query .standard w).2) :=
  Prod.ext h rfl

namespace World

variable {w w' : World}

/-- An operation leads from a world to another. It has some budget, and it may be cut short in a world
in which a demand comes up, so what becomes of a world in the middle of an operation counts too. -/
def Step (w w' : World) : Prop :=
  ∃ (operation : Operation) (isLast : World → Bool) (fuel : Nat), w' = (operation.run (.upTo isLast fuel) w).2

inductive Reachable : World → Prop
  | initial (options : Options) (classPath : ClassPath) (log : ProblemLog) :
    Reachable (.initial options classPath log)
  | step {w w' : World} : Reachable w → w.Step w' → Reachable w'
  | reset {w : World} : Reachable w → Reachable w.reset

theorem course_run (hw : w.Sound) (hl : w.Ledger) (op : Operation) (isLast : World → Bool)
    (fuel : Nat) : Course op.task? (Halt.of? (op.run (.upTo isLast fuel) w).1) w (op.run (.upTo isLast fuel) w).2 :=
  (op.runs hw hl (.upTo isLast fuel) (Demand.orderly_upTo isLast fuel)).1

theorem Step.course (hw : w.Sound) (hl : w.Ledger) (h : w.Step w') : ∃ stop, Course (some .operate) stop w w' := by
  obtain ⟨op, isLast, fuel, rfl⟩ := h
  have hc := course_run hw hl op isLast fuel
  cases op with
  | completeUnits => exact ⟨_, .operate (.inl rfl) hc⟩
  | askForType name => exact ⟨_, .operate (.inr (.inl rfl)) hc⟩
  | hasNoMemberTypes | findMemberType => exact ⟨_, .operate (.inr (.inr rfl)) hc⟩
  | _ => exact ⟨_, .inside hc⟩

theorem ledger_initial (options : Options) (classPath : ClassPath) (log : ProblemLog) :
    (initial options classPath log).Ledger where
  known _ hu := by cases hu
  pending _ hu := by cases hu
  released _ hu := absurd hu (Nat.not_lt_zero _)
  completed := rfl

theorem Reachable.inOrder (h : w.Reachable) : w.Sound ∧ w.Ledger := by
  induction h with
  | initial options classPath log => exact ⟨sound_initial .., ledger_initial ..⟩
  | step _ hs ih =>
    obtain ⟨_, hc⟩ := hs.course ih.1 ih.2
    exact ⟨hc.sound ih.1, hc.frame.ledger ih.2⟩
  | reset _ _ => exact ⟨sound_initial .., ledger_initial ..⟩

theorem Reachable.sound (h : w.Reachable) : w.Sound := h.inOrder.1

theorem Reachable.ledger (h : w.Reachable) : w.Ledger := h.inOrder.2

theorem Reachable.course (h : w.Reachable) (hs : w.Step w') :
    ∃ stop, Course (some .operate) stop w w' := hs.course h.sound h.ledger

theorem Reachable.fact {fact : World → Prop} (hn : ∀ options classPath log, fact (.initial options classPath log))
    (hc : ∀ {w w' stop}, w.Reachable → Course (some .operate) stop w w' → fact w → fact w')
    (h : w.Reachable) : fact w := by
  induction h with
  | initial options classPath log => exact hn options classPath log
  | step hr hs ih =>
    obtain ⟨_, h⟩ := hr.course hs
    exact hc hr h ih
  | reset _ _ => exact hn ..

theorem Sound.steps {fact : World → Prop}
    (hf : ∀ w1 w2 stop, w1.Sound → Course (some .operate) stop w1 w2 → fact w1 → fact w2)
    (hw : w.Sound) (hl : w.Ledger) (h : fact w) (hla : ReflTransGen Step w w') : fact w' := by
  have hk : w'.Sound ∧ w'.Ledger ∧ fact w' := by
    induction hla with
    | refl => exact ⟨hw, hl, h⟩
    | tail _ hs ih =>
      obtain ⟨hw, hl, h⟩ := ih
      obtain ⟨stop, hc⟩ := hs.course hw hl
      exact ⟨hc.sound hw, hc.frame.ledger hl, hf _ _ stop hw hc h⟩
  exact hk.2.2

theorem Reachable.later (h : w.Reachable) (hl : ReflTransGen Step w w') : w'.Reachable ∧ w.Grows w' := by
  induction hl with
  | refl => exact ⟨h, .refl w⟩
  | tail _ hs ih =>
    obtain ⟨_, hc⟩ := ih.1.course hs
    exact ⟨ih.1.step hs, ih.2.trans hc.grows⟩

def after (w : World) (operations : List Operation) : World :=
  operations.foldl (fun w operation => (operation.run .standard w).2) w

theorem later_after (w : World) (ops : List Operation) : ReflTransGen Step w (w.after ops) := by
  induction ops generalizing w with
  | nil => exact .refl
  | cons op rest ih => exact .head ⟨op, fun _ => false, 1000000, rfl⟩ (ih _)

theorem Reachable.after (h : w.Reachable) (ops : List Operation) : (w.after ops).Reachable :=
  (h.later (later_after w ops)).1

inductive Undisturbed : World → Prop
  | initial (options : Options) (classPath : ClassPath) (log : ProblemLog) :
    Undisturbed (.initial options classPath log)
  | step {w : World} (operation : Operation) (isLast : World → Bool) (fuel : Nat) : Undisturbed w →
    (operation.run (.upTo isLast fuel) w).1.isOk → Undisturbed (operation.run (.upTo isLast fuel) w).2
  | reset {w : World} : Undisturbed w → Undisturbed w.reset

theorem Undisturbed.reachable (h : w.Undisturbed) : w.Reachable := by
  induction h with
  | initial options classPath log => exact .initial ..
  | step op isLast fuel _ _ ih => exact ih.step ⟨op, isLast, fuel, rfl⟩
  | reset _ ih => exact ih.reset

def finishes (w : World) : List Operation → Bool
  | [] => true
  | operation :: rest =>
    (operation.run .standard w).1.isOk && finishes (operation.run .standard w).2 rest

theorem Undisturbed.after (h : w.Undisturbed) {ops : List Operation}
    (hf : w.finishes ops) : (w.after ops).Undisturbed := by
  induction ops generalizing w with
  | nil => exact h
  | cons op rest ih =>
    rw [finishes, Bool.and_eq_true] at hf
    exact ih (.step op (fun _ => false) 1000000 h hf.1) hf.2

theorem layered_initial (options : Options) (classPath : ClassPath) (log : ProblemLog) :
    (initial options classPath log).Layered := by
  have hn : ∀ sub super, ¬ (initial options classPath log).Above sub super := by
    rintro sub super ⟨info, hi, -⟩
    exact no_class_initial options classPath log sub info hi
  refine ⟨fun sub super h => absurd h (hn sub super), fun id h => ?_⟩
  obtain ⟨_, hs, -⟩ := TransGen.head'_iff.1 h
  exact hn _ _ hs

theorem Reachable.layered (h : w.Reachable) (hf : w.FoundationsCompiled) : w.Layered := by
  induction h with
  | initial options classPath log => exact layered_initial ..
  | step hr hs ih =>
    obtain ⟨_, hc⟩ := hr.course hs
    exact (hc.layered hr.sound (ih (hf.of_grows hc.grows)) hf (by simp)).1
  | reset _ _ => exact layered_initial ..

theorem Reachable.constructed_once (h : w.Reachable) : w.Interned := h.sound.wellBuilt.toInterned

def boxClassPath : ClassPath := .ofClasses
  [{ name := "p/Box", fields := [{ name := "items", descriptor := "[Lp/Item;" }] }, { name := "p/Item" }]

def boxWorld : World :=
  (initial {} boxClassPath {}).after [.getType ⟨["p", "Box"]⟩, .fields ⟨10⟩]

def itemWorld : World := boxWorld.after [.getType ⟨["p", "Item"]⟩, .arrayType ⟨13⟩ 1]

theorem reachable_boxWorld : boxWorld.Reachable := (Reachable.initial {} boxClassPath {}).after _

theorem reachable_itemWorld : itemWorld.Reachable := reachable_boxWorld.after _

theorem constructed_once_item :
    itemWorld.type ⟨12⟩ = .array ⟨13⟩ 1 ∧ itemWorld.stats.cacheHits = 1 ∧ itemWorld.Interned := by
  exact ⟨by decide +kernel, by decide +kernel, reachable_itemWorld.constructed_once⟩

theorem Reachable.resolved_once (h : w.Reachable) (hlater : ReflTransGen Step w w') :
    (∀ id name target, w.type id = .placeholder name target →
      ∃ target', w'.type id = .placeholder name target' ∧ (target.isSome → target' = target)) ∧
    (∀ id name target, w'.type id = .placeholder name (some target) →
      (w'.class? target).isSome ∨ (w'.type target).isMissing) ∧
    (∀ id target isLast fuel w₁, Query.resolved id (.upTo isLast fuel) w' = (.ok target, w₁) →
      ∀ d, Query.resolved target d w₁ = (.ok target, w₁)) ∧
    (∀ a b name name' target target', w'.type a = .placeholder name target →
      w'.type b = .placeholder name' target' →
      w'.packageNamed? name.parent = w'.packageNamed? name'.parent → name.simple = name'.simple →
      a = b) ∧
    w'.stats.placeholderResolutions = w'.countTypes TypeInfo.isResolved := by
  obtain ⟨hreach, hgrows⟩ := h.later hlater
  have hregistered := hreach.sound.registered
  refine ⟨?_, ?_, ?_, ?_, hregistered.resolutions⟩
  · intro id name target hid
    have hrole : w.role id = .placeholder name target := TypeInfo.role_eq_placeholder.2 hid
    cases target with
    | none =>
      obtain ⟨target', hid'⟩ := hgrows.pending id name hrole
      exact ⟨target', TypeInfo.role_eq_placeholder.1 hid', (by simp)⟩
    | some target =>
      have hid' := hgrows.resolved id name target hrole
      exact ⟨some target, TypeInfo.role_eq_placeholder.1 hid', fun _ => rfl⟩
  · intro id name target hid
    exact (hregistered.role_target (TypeInfo.role_eq_placeholder.2 hid)).imp
      TypeInfo.role_eq_declared.1 TypeInfo.role_eq_missing.1
  · intro id target isLast fuel w₁ hrun d
    have hruns := Query.resolved_runs hreach.sound id _ (Demand.orderly_upTo isLast fuel)
    rw [hrun] at hruns
    have hstands : w₁.Stands id target := hruns.2 target rfl
    exact Query.resolved_eq_self d (hstands.ne_placeholder (hruns.1.sound hreach.sound).registered)
  · intro a b name name' target target' ha hb hpackage hsimple
    exact hregistered.eq_of_package (TypeInfo.role_eq_placeholder.2 ha)
      (TypeInfo.role_eq_placeholder.2 hb) hpackage hsimple

theorem resolved_once_item :
    boxWorld.type ⟨11⟩ = .placeholder ⟨["p", "Item"]⟩ none ∧
      ∀ operations, (itemWorld.after operations).type ⟨11⟩ =
        .placeholder ⟨["p", "Item"]⟩ (some ⟨13⟩) := by
  have hresolved : itemWorld.type ⟨11⟩ = .placeholder ⟨["p", "Item"]⟩ (some ⟨13⟩) := by decide +kernel
  refine ⟨by decide +kernel, fun operations => ?_⟩
  obtain ⟨target, htype, hsame⟩ :=
    (reachable_itemWorld.resolved_once (later_after itemWorld operations)).1 _ _ _ hresolved
  rw [htype, hsame rfl]

/-- Stored supertypes lead no source class back to itself, also while classes are being connected. -/
theorem Reachable.not_above_self (h : w.Reachable) (hfound : w.FoundationsCompiled) (id : TypeId) :
    ¬ TransGen w.Above id id :=
  (h.layered hfound).acyclic id

def everyDenoted (w : World) (name : QName) (test : ClassInfo → Bool) : Bool :=
  (((w.packageNamed? name.parent).bind (w.known? · name.simple)).all fun id => (w.class? id).all test) &&
  (List.range w.types.size).all fun index =>
    (w.class? ⟨index⟩).all fun info => test info || !info.isNamed name.simple

theorem Denotes.passes {name : QName} {id : TypeId} (hid : w.Denotes name id) {test : ClassInfo → Bool}
    (h : w.everyDenoted name test) : ∃ info, w.class? id = some info ∧ test info := by
  rw [everyDenoted, Bool.and_eq_true] at h
  obtain ⟨hl, hn⟩ := h
  cases hid with
  | listed hp hk hr =>
    obtain ⟨info, hi⟩ := role_eq_declared.1 hr
    rw [hp, Option.bind_some, hk, Option.all_some, hi, Option.all_some] at hl
    exact ⟨info, hi, hl⟩
  | @member _ _ _ _ inner _ _ _ hin hs =>
    have hlt : id.index < w.types.size := lt_size_of_role_ne (by rw [role_of_class? hin]; simp)
    have hin' := List.all_eq_true.1 hn _ (List.mem_range.2 hlt)
    rw [hin, Option.all_some, hs, Bool.not_true, Bool.or_false] at hin'
    exact ⟨inner, hin, hin'⟩

def hasCompiledFoundations (w : World) : Bool :=
  WellKnown.foundations.all (w.everyDenoted · (·.isCompiled))

theorem foundationsCompiled_of_test (h : w.hasCompiledFoundations) : w.FoundationsCompiled :=
  fun name hn _ hid => hid.passes (List.all_eq_true.1 h name hn)

def circle : SourceUnit :=
  { file := "Circle", package := .root
    types := [("A", "B"), ("B", "C"), ("C", "A")].map fun (name, superclass) =>
      { name, modifiers := .empty, superclass := some (.ofSegments [superclass]) } }

def circleWorld : World := (initial {} .rootOnly {}).after [.buildUnit circle, .completeUnits]

def isAbove (w : World) (sub super : TypeId) : Bool :=
  (w.class? sub).any fun info => !info.isCompiled &&
    info.supertypes.any fun supertype => w.erasureClass? supertype = some super

theorem above_of_test {sub super : TypeId} (h : w.isAbove sub super) : w.Above sub super := by
  obtain ⟨info, hi, ht⟩ := (Option.any_eq_true ..).1 h
  rw [Bool.and_eq_true, Bool.not_eq_true', List.any_eq_true] at ht
  obtain ⟨hs, sup, hm, he⟩ := ht
  exact ⟨info, hi, hs, sup, hm, of_decide_eq_true he⟩

theorem not_above_self_circle :
    circleWorld.Reachable ∧ circleWorld.FoundationsCompiled ∧ circleWorld.Above ⟨10⟩ ⟨11⟩ ∧
      circleWorld.Above ⟨11⟩ ⟨12⟩ ∧ ∀ id, ¬ TransGen circleWorld.Above id id := by
  have hreach : circleWorld.Reachable := (Reachable.initial {} .rootOnly {}).after _
  have htest : circleWorld.hasCompiledFoundations = true ∧ circleWorld.isAbove ⟨10⟩ ⟨11⟩ = true ∧
      circleWorld.isAbove ⟨11⟩ ⟨12⟩ = true := by decide +kernel
  have hfound := foundationsCompiled_of_test htest.1
  exact ⟨hreach, hfound, above_of_test htest.2.1, above_of_test htest.2.2,
    fun id => hreach.not_above_self hfound id⟩

end World

end Bindings
