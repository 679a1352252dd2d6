import Bindings.Scope.Names
import Bindings.Proofs.Orderly.Members

/-! # Members and names -/

namespace Bindings.Query

open World

variable {arg param id recv array gen var : TypeId} {phase : Phase}
  {args params vars types ifaces waiting seen : List TypeId} {m cand first second : MethodId}
  {rel : Relation} {constraints : List Constraints} {fuel count depth : Nat} {site : Site}
  {cands others : List MethodId} {selector name : String} {scope : ScopeId} {search : MethodSearch}
  {chain : List ScopeId} {known : Option TypeId} {info : MethodInfo} {refused : Option (Reason × MethodId)}
  {found : Option FieldId} {unit : UnitId} {isStatic : Bool}

instance : (Edit.arrayCloneMethod array).Orderly where
  course w hw := by
    have hk := hw.knows_orVoid array
    rw [Edit.arrayCloneMethod, Edit.bind_apply, Edit.get_apply]
    dsimp only
    cases w.caches.arrayClones.find? (w.orVoid array) with
    | some id => exact .refl w
    | none =>
      refine .trans (.apart (aside_addMethod (fun slot hs => ?_) rfl)) (.apart { Apart.refl (w.addMethod _).2 with })
      obtain rfl := List.mem_singleton.1 hs
      exact ⟨hk, fun _ => .inr rfl⟩
  classPath w := by
    rw [Edit.arrayCloneMethod, Edit.bind_apply, Edit.get_apply]
    dsimp only
    cases w.caches.arrayClones.find? (w.orVoid array) <;> rfl

instance : (Edit.arrayLengthField array).Orderly where
  course w hw := by
    rw [Edit.arrayLengthField, Edit.bind_apply, Edit.get_apply]
    cases w.caches.arrayLengths.find? array with
    | some id => exact .refl w
    | none =>
      have hi := hw.linked.grounded_base .int
      exact .trans (.apart (aside_addField (hi.mayHold _))) (.apart { Apart.refl (w.addField _).2 with })
  classPath w := by
    rw [Edit.arrayLengthField, Edit.bind_apply, Edit.get_apply]
    cases w.caches.arrayLengths.find? array <;> rfl

instance : (boxingCompatible arg param).Orderly := by
  refine .get fun w => ?_
  split
  · infer_instance
  · refine .after fun wrapper => ?_
    split <;> infer_instance
  · infer_instance
  · infer_instance

instance : (argumentCompatible phase arg param).Orderly := by
  unfold argumentCompatible
  infer_instance

instance : (argumentsCompatible phase args params).Orderly := .allM (h := fun ⟨_, _⟩ => inferInstance)

instance : (arrayComponent id).Orderly := by
  refine .after fun w => ?_
  split <;> infer_instance

instance : (spreadParams params count).Orderly := by
  unfold spreadParams
  split
  · infer_instance
  dsimp only
  split
  · infer_instance
  · refine .after fun comp => ?_
    split <;> infer_instance

instance : (methodCompatible phase m args).Orderly := by
  refine .get fun w => ?_
  have hs : ∀ spread : Option (List TypeId), (match spread with
      | some spread => argumentsCompatible .loose args spread
      | none => pure false : Query Bool).Orderly := fun spread => by
    cases spread <;> infer_instance
  dsimp only
  infer_instance

section

variable {collect : Collector}
  [hcollect : ∀ rel param arg constraints, (collect rel param arg constraints).Orderly]

instance (formal actual : TypeId) : (collectArgument collect rel formal actual constraints).Orderly := by
  refine .get fun w => ?_
  dsimp only
  split <;> infer_instance

instance : (collectArray collect rel param arg constraints).Orderly := by
  refine .get fun w => ?_
  split
  · refine .after fun comp => ?_
    split <;> infer_instance
  · infer_instance

instance : (invocationOf rel arg gen).Orderly := by
  unfold invocationOf
  split <;> infer_instance

instance (formals : List TypeId) : (collectParameterized collect rel gen formals arg constraints).Orderly := by
  refine .after fun actual => ?_
  split
  · infer_instance
  refine .get fun w => ?_
  split
  · exact .foldlM (h := fun _ ⟨_, _⟩ => inferInstance)
  · infer_instance

end

instance : (collectFrom vars fuel rel param arg constraints).Orderly := by
  induction fuel generalizing rel param arg constraints with
  | zero => rw [collectFrom]; infer_instance
  | succ fuel ih =>
    rw [collectFrom]
    refine .after fun param => .after fun arg => .get fun w => ?_
    split
    · infer_instance
    split
    · infer_instance
    · split <;> infer_instance

instance : (collect vars rel param arg constraints).Orderly := by
  unfold collect
  infer_instance

instance : (inferenceArgument phase param arg).Orderly := by
  refine .get fun w => ?_
  split <;> infer_instance

instance : (collectArguments vars phase params args).Orderly := by
  refine .foldlM (h := fun constraints ⟨param, arg⟩ => ?_)
  refine .after fun arg => ?_
  split <;> infer_instance

instance : (fixFromBelow constraints).Orderly := by
  induction constraints with
  | nil => rw [fixFromBelow]; infer_instance
  | cons constraints rest ih =>
    rw [fixFromBelow]
    split
    · infer_instance
    split
    · infer_instance
    · refine .after fun join => ?_
      split <;> infer_instance

instance : (firstMeet types).Orderly := by
  unfold firstMeet
  infer_instance

instance (constraints : Constraints) : (fixFromConstraints known constraints).Orderly := by
  unfold fixFromConstraints
  split
  · infer_instance
  · split <;> infer_instance

instance (res exp : TypeId) (fixed : List (Option TypeId)) : (fixFromExpected vars res exp fixed).Orderly := by
  refine .get fun w => ?_
  dsimp only
  split
  · refine .after fun _ => .after fun _ => .after fun _ => ?_
    exact .mapM (h := fun ⟨_, _⟩ => inferInstance)
  · refine .after fun _ => .after fun _ => ?_
    exact .mapM (h := fun ⟨_, _⟩ => inferInstance)

instance : (defaultArgument vars var).Orderly := by
  refine .get fun w => ?_
  split <;> infer_instance

instance (constraints : Constraints) : (fixFromAbove vars var known constraints).Orderly := by
  unfold fixFromAbove
  split
  · infer_instance
  dsimp only
  split <;>
  · refine .after fun meet => ?_
    split <;> infer_instance

instance (inferred : Bool) : (instantiate m args inferred).Orderly where
  runs w hw := by
    refine .get ?_
    dsimp only
    split
    · exact .pure trivial
    have hs := Substitution.Known.ofPairs (w.method m).typeVariables
      (List.forall_mem_map.2 fun argument (_ : argument ∈ args) => hw.knows_orVoid argument)
    refine convert_bind hw _ hs (fun _ hw hs _ => substitute_knows hw hs) (hw.knows_method m) ?_
    intro params result thrown w1 hw1 _ hk
    generalize hi : ({ w.method m with
      params, result, thrown
      typeVariables := []
      origin := .instantiated m (args.map w.orVoid) inferred } : MethodInfo) = info
    have hsl : ∀ slot ∈ info.slots, w1.Knows slot := by
      rw [← hi]
      exact hk
    have hn := aside_addMethod_noted (fun caches => { caches with
      methodInstances := caches.methodInstances.insert (m, args.map w.orVoid)
        ⟨w1.methods.size⟩ }) (fun _ _ => rfl) hsl (by rw [← hi])
    have hr : ((w1.addMethod info).2.method ⟨w1.methods.size⟩).slots = info.slots := by
      rw [method_eq, method?_addMethod, if_pos rfl]
      rfl
    rw [← hr] at hn
    exact fun _ _ => ⟨.apart hn, fun _ _ => trivial⟩

instance : (withinBounds vars args).Orderly := .allM (h := fun ⟨_, _⟩ => inferInstance)

instance : (matchedParams phase info count).Orderly := by
  unfold matchedParams
  infer_instance

instance (exp : Option TypeId) : (infer m args exp phase).Orderly := by
  refine .get fun w => ?_
  dsimp only
  split
  · infer_instance
  refine .after fun params => ?_
  split
  · refine .after fun constraints => .after fun fixed => ?_
    split
    · split
      · split <;>
        · refine .after fun fixed => ?_
          exact .bind (.mapM (h := fun ⟨_, _, _⟩ => inferInstance)) fun _ => inferInstance
      · refine .after fun fixed => ?_
        exact .bind (.mapM (h := fun ⟨_, _, _⟩ => inferInstance)) fun _ => inferInstance
    · infer_instance
  · infer_instance

instance (written : List TypeId) : (applyWritten cand info written).Orderly := by
  unfold applyWritten
  infer_instance

instance : (applicableAs phase args m).Orderly := by
  unfold applicableAs
  infer_instance

instance : (applicability phase args site cand).Orderly := by
  refine .get fun w => ?_
  dsimp only
  split
  · infer_instance
  split
  · refine .after fun applied => ?_
    split <;> infer_instance
  split
  · infer_instance
  · refine .after fun inferred => ?_
    split <;> infer_instance

instance : (screen args site phase cands refused).Orderly := by
  refine .foldlM (h := fun screening cand => .after fun applicability => ?_)
  split <;> infer_instance

instance (phases : List Phase) : (screenPhases args site cands refused phases).Orderly := by
  induction phases generalizing refused with
  | nil => rw [screenPhases]; infer_instance
  | cons phase later ih => rw [screenPhases]; infer_instance

instance : (isMoreSpecific phase first second).Orderly := by
  unfold isMoreSpecific
  infer_instance

instance {related : MethodId → MethodId → Query Bool} [hr : ∀ first second, (related first second).Orderly]
    : (relatedToOthers related cands cand).Orderly := by
  unfold relatedToOthers
  infer_instance

instance : (resultCompatible first second).Orderly := by
  unfold resultCompatible
  infer_instance

instance : (breakTie selector first others).Orderly := by
  refine .after fun erased => .after fun agree => ?_
  split
  · infer_instance
  refine .get fun w => ?_
  dsimp only
  split
  · infer_instance
  · infer_instance
  · refine .after fun found => ?_
    split <;> infer_instance

instance : (mostSpecific selector phase first others).Orderly := by
  unfold mostSpecific
  split
  · infer_instance
  · refine .after fun maximal => ?_
    split <;> infer_instance

instance : (reportRawCall recv m).Orderly := by
  refine .after fun w => ?_
  dsimp only
  split
  · infer_instance
  · split <;> infer_instance

instance : (reportUncheckedArgument arg param).Orderly := .after fun ⟨_, _⟩ => inferInstance

instance : (reportUncheckedInvocation recv m args).Orderly :=
  .get fun _ => .after fun _ => .forM (h := fun ⟨_, _⟩ => inferInstance)

instance : (canSeeMethod scope recv m).Orderly := by
  unfold canSeeMethod
  infer_instance

instance : (selectMethod scope recv selector cands args site).Orderly := by
  unfold selectMethod
  split
  · infer_instance
  refine .get fun w => .after fun ⟨phase, screening⟩ => ?_
  dsimp only
  split
  · infer_instance
  refine .after fun visible => ?_
  split
  · infer_instance
  · refine .after fun res => ?_
    split <;> infer_instance

instance (pos : Nat) : (lookupReceiver recv pos).Orderly := by
  unfold lookupReceiver
  infer_instance

instance : (search.add m).Orderly := by
  unfold MethodSearch.add
  infer_instance

instance (methods : List MethodId) : (search.addAll methods).Orderly := by
  unfold MethodSearch.addAll
  infer_instance

instance (id : Option TypeId) : (searchSuperclasses selector fuel search ifaces id).Orderly := by
  induction fuel generalizing search ifaces id with
  | zero => cases id <;> rw [searchSuperclasses] <;> infer_instance
  | succ fuel ih =>
    cases id with
    | none => rw [searchSuperclasses]; infer_instance
    | some id =>
      rw [searchSuperclasses]
      refine .get fun w => ?_
      split <;> infer_instance

instance : (searchInterfaces selector fuel search waiting).Orderly := by
  induction fuel generalizing search waiting with
  | zero => cases waiting <;> rw [searchInterfaces] <;> infer_instance
  | succ fuel ih =>
    cases waiting with
    | nil => rw [searchInterfaces]; infer_instance
    | cons id waiting =>
      rw [searchInterfaces]
      refine .get fun w => ?_
      split <;> infer_instance

instance : (searchStart recv).Orderly := by
  refine .get fun w => ?_
  split <;> infer_instance

instance : (searchObject selector search).Orderly := by
  unfold searchObject
  infer_instance

instance : (collectMethods recv selector).Orderly := by
  refine .get fun w => .after fun ⟨_, _⟩ => .after fun _ => ?_
  refine .after fun ⟨_, _⟩ => .after fun _ => ?_
  refine .after fun search => ?_
  dsimp only
  infer_instance

instance : (findMethod scope recv selector args site).Orderly := by
  refine .after fun recv => .get fun w => ?_
  split <;> infer_instance

instance : (findConstructor scope recv args site).Orderly := by
  unfold findConstructor
  infer_instance

instance (id : Option TypeId) : (fieldInSuperclasses name fuel seen ifaces id).Orderly := by
  induction fuel generalizing seen ifaces id with
  | zero => cases id <;> rw [fieldInSuperclasses] <;> infer_instance
  | succ fuel ih =>
    cases id with
    | none => rw [fieldInSuperclasses]; infer_instance
    | some id =>
      rw [fieldInSuperclasses]
      refine .get fun w => ?_
      dsimp only
      split
      · infer_instance
      · refine .after fun field => ?_
        split <;> infer_instance

instance : (fieldInInterfaces name fuel seen found waiting).Orderly := by
  induction fuel generalizing seen found waiting with
  | zero => cases waiting <;> rw [fieldInInterfaces] <;> infer_instance
  | succ fuel ih =>
    cases waiting with
    | nil => rw [fieldInInterfaces]; infer_instance
    | cons id waiting =>
      rw [fieldInInterfaces]
      refine .get fun w => ?_
      dsimp only
      split
      · infer_instance
      refine .after fun field => ?_
      split
      · refine .get fun w => ?_
        split <;> infer_instance
      · infer_instance

instance : (fieldInHierarchy recv name).Orderly := by
  refine .after fun fuel => .get fun w => ?_
  split
  · infer_instance
  · refine .after fun ⟨_, _, _⟩ => .after fun hit => ?_
    split <;> infer_instance

instance : (findField scope recv name site).Orderly := by
  refine .after fun recv => .get fun w => ?_
  split
  · infer_instance
  · refine .after fun hit => ?_
    split <;> infer_instance

instance : (staticField scope name site id).Orderly := by
  refine .after fun res => ?_
  split <;> infer_instance

instance : (firstStaticField scope name site types).Orderly := by
  induction types with
  | nil => rw [firstStaticField]; infer_instance
  | cons id rest ih =>
    rw [firstStaticField]
    refine .after fun field => ?_
    split <;> infer_instance

instance : (onlyStaticField scope name site found types).Orderly := by
  induction types generalizing found with
  | nil => cases found <;> rw [onlyStaticField] <;> infer_instance
  | cons id rest ih =>
    rw [onlyStaticField]
    refine .after fun field => ?_
    split <;> infer_instance

instance : (importedField unit scope name site).Orderly := by
  refine .get fun w => .after fun field => ?_
  split <;> infer_instance

instance (hit : FieldId) : (confirmInherited name hit chain).Orderly := by
  induction chain with
  | nil => rw [confirmInherited]; infer_instance
  | cons id outer ih =>
    rw [confirmInherited]
    refine .get fun w => ?_
    split
    · infer_instance
    · infer_instance
    · infer_instance
    · refine .after fun direct => ?_
      split <;> infer_instance

instance : (fieldInChain scope name site depth isStatic chain).Orderly := by
  induction chain generalizing depth isStatic with
  | nil => rw [fieldInChain]; infer_instance
  | cons id outer ih =>
    rw [fieldInChain]
    refine .get fun w => ?_
    split
    · infer_instance
    · infer_instance
    · infer_instance
    · refine .after fun res => ?_
      split <;> infer_instance

instance : (resolveField scope name site).Orderly := by
  unfold resolveField
  infer_instance

instance (known : List MethodId) : (addStaticMethods selector known id).Orderly := by
  unfold addStaticMethods
  infer_instance

instance : (importedMethod unit scope selector args site).Orderly := by
  refine .get fun w => .after fun methods => ?_
  split <;> infer_instance

instance : (methodInChain scope selector args site depth isStatic chain).Orderly := by
  induction chain generalizing depth isStatic with
  | nil => rw [methodInChain]; infer_instance
  | cons id outer ih =>
    rw [methodInChain]
    refine .get fun w => ?_
    split <;> infer_instance

instance : (resolveMethod scope selector args site).Orderly := by
  unfold resolveMethod
  infer_instance

instance : (variableOfName scope name site).Orderly := by
  refine .get fun w => ?_
  split
  · infer_instance
  · exact .after fun ⟨_, _⟩ => inferInstance

instance : (typeOfName scope name).Orderly := by
  refine .after fun res => ?_
  split <;> infer_instance

instance : (packageOfName name).Orderly := by
  refine .after fun pkg => ?_
  split <;> infer_instance

instance (meanings : Meanings) : (resolveName scope name meanings site).Orderly := by
  unfold resolveName
  dsimp only
  split
  all_goals
    refine .after fun ⟨_, _⟩ => ?_
    dsimp only
    split
    · infer_instance
    split
    all_goals
      refine .after fun asType => ?_
      split
      · infer_instance
      split
      all_goals
        refine .after fun asPackage => ?_
        split
        · infer_instance
        · split <;> infer_instance

end Bindings.Query
