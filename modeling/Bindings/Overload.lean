import Bindings.Inference
import Bindings.SourceMembers

/-!
# Overload resolution

Of the candidates those stay that are applicable in the first phase that has any, then those that can be seen,
and of these the most specific one is taken.
-/

namespace Bindings

structure Site where
  position : Nat := 0
  expected : Option TypeId := none
  typeArguments : Option (List TypeId) := none
  deriving DecidableEq, Repr, Inhabited

inductive Applicability where
  | applicable (method : MethodId)
  | inapplicable
  | refused (reason : Reason)
  deriving DecidableEq, Repr

namespace Query

/-! ## Applicability -/

def arityFits (phase : Phase) (info : MethodInfo) (count : Nat) : Bool :=
  match phase with
  | .varargs => info.isVarargs && info.params.length ≤ count + 1
  | .strict | .loose => info.params.length == count

def applyWritten (candidate : MethodId) (info : MethodInfo) (written : List TypeId) :
    Query (Except Reason MethodId) := do
  let world ← get
  if info.isRaw && info.base?.any fun base => (world.method base).isGeneric then
    return .error .typeArgumentsForRawMethod
  if info.typeVariables.isEmpty then return .ok candidate
  if written.length ≠ info.typeVariables.length then return .error .typeArgumentCount
  if !(← withinBounds info.typeVariables written) then return .error .boundMismatch
  return .ok (← instantiate candidate written false)

def applicableAs (phase : Phase) (arguments : List TypeId) (method : MethodId) : Query Applicability := do
  if ← methodCompatible phase method arguments then return .applicable method
  else return .inapplicable

def applicability (phase : Phase) (arguments : List TypeId) (site : Site) (candidate : MethodId) :
    Query Applicability := do
  let info := (← get).method candidate
  if !arityFits phase info arguments.length then return .inapplicable
  match site.typeArguments with
  | some written =>
    match ← applyWritten candidate info written with
    | .ok method => applicableAs phase arguments method
    | .error reason => return .refused reason
  | none =>
    if !info.isGeneric then return ← applicableAs phase arguments candidate
    match ← infer candidate arguments site.expected phase with
    | some method => applicableAs phase arguments method
    | none => return .inapplicable

structure Screening where
  applicable : List MethodId := []
  refused : Option (Reason × MethodId) := none

def screen (arguments : List TypeId) (site : Site) (phase : Phase) (candidates : List MethodId)
    (refused : Option (Reason × MethodId)) : Query Screening :=
  candidates.foldlM
    (fun screening candidate => do
      match ← applicability phase arguments site candidate with
      | .applicable method => return { screening with applicable := screening.applicable ++ [method] }
      | .inapplicable => return screening
      | .refused reason => return { screening with refused := screening.refused <|> some (reason, candidate) })
    { refused }

def screenPhases (arguments : List TypeId) (site : Site) (candidates : List MethodId)
    (refused : Option (Reason × MethodId)) : List Phase → Query (Phase × Screening)
  | [] => return (.strict, { refused })
  | phase :: later => do
    let screening ← screen arguments site phase candidates refused
    if screening.applicable.isEmpty then screenPhases arguments site candidates screening.refused later
    else return (phase, screening)

/-! ## The most specific method -/

def isMoreSpecific (phase : Phase) (first second : MethodId) : Query Bool := do
  let world ← get
  let firstInfo := world.method first
  let secondInfo := world.method second
  if phase = .varargs ∧ firstInfo.isVarargs ∧ secondInfo.isVarargs ∧
      firstInfo.params.length = secondInfo.params.length then
    argumentsCompatible .loose firstInfo.params secondInfo.params
  else methodCompatible phase second firstInfo.params

def relatedToOthers (related : MethodId → MethodId → Query Bool) (candidates : List MethodId)
    (candidate : MethodId) : Query Bool :=
  candidates.allM fun other => do
    if other = candidate then return true
    related candidate other

def resultCompatible (first second : MethodId) : Query Bool := do
  let world ← get
  compatible (world.method first).result (world.method second).result

def breakTie (selector : String) (first : MethodId) (others : List MethodId) : Query (Resolution MethodId) := do
  let erased ← erasedParams first
  let agree ← others.allM fun other => do return (← erasedParams other) == erased
  if !agree then return .failNear selector .ambiguous first
  let world ← get
  let maximal := first :: others
  match maximal.filter fun id => !(world.method id).isAbstract with
  | [concrete] => return .found concrete
  | concrete :: _ => return .failNear selector .ambiguous concrete
  | [] =>
    match ← maximal.findM? (relatedToOthers resultCompatible maximal) with
    | some id => return .found id
    | none => return .failNear selector .ambiguous first

def mostSpecific (selector : String) (phase : Phase) (first : MethodId) (others : List MethodId) :
    Query (Resolution MethodId) := do
  if others.isEmpty then return .found first
  let visible := first :: others
  match ← visible.filterM (relatedToOthers (isMoreSpecific phase) visible) with
  | [] => return .failNear selector .ambiguous first
  | [id] => return .found id
  | id :: rest => breakTie selector id rest

/-! ## Unchecked invocations -/

def reportRawCall (receiver : TypeId) (method : MethodId) : Edit Unit := do
  let world ← get
  let info := world.method method
  if !info.isRaw then return
  let some base := info.base? | return
  let declared := world.method base
  let vars := ((world.class? declared.declaring).map (·.typeVariables)).getD []
  if declared.params.any (world.mentions vars) then
    Edit.report .uncheckedRawCall [world.methodName method, world.typeName receiver]

def reportUncheckedArgument (argument parameter : TypeId) : Query Unit := do
  let (fits, unchecked) ← checkCompatible argument parameter
  if fits && unchecked then
    let world ← get
    Edit.report .uncheckedConversion [world.typeName argument, world.typeName parameter]

def reportUncheckedInvocation (receiver : TypeId) (method : MethodId) (arguments : List TypeId) : Query Unit := do
  let params := ((← get).method method).params
  reportRawCall receiver method
  (arguments.zip params).forM fun (argument, parameter) => reportUncheckedArgument argument parameter

/-! ## Selection -/

def absenceReason (world : World) (receiver : TypeId) : Reason :=
  if ((world.erasureClass? receiver).bind world.class?).any (·.state.hierarchyBroken) then .brokenHierarchy
  else .notFound

def noneApplicable (world : World) (selector : String) (candidates : List MethodId) (first : MethodId)
    (count : Nat) : Option (Reason × MethodId) → Resolution MethodId
  | some (reason, candidate) => .failNear selector reason candidate
  | none =>
    let closest := candidates.find? fun id => (world.method id).params.length == count
    .failNear selector .notFound (closest.getD first)

def canSeeMethod (scope : ScopeId) (receiver : TypeId) (method : MethodId) : Query Bool := do
  let info := (← get).method method
  canSeeMember info.declaring info.modifiers scope (some receiver)

def selectMethod (scope : ScopeId) (receiver : TypeId) (selector : String)
    (candidates : List MethodId) (arguments : List TypeId) (site : Site) :
    Query (Resolution MethodId) := do
  match candidates with
  | [] => return .fail selector (absenceReason (← get) receiver)
  | firstCandidate :: _ =>
    let (phase, screening) ← screenPhases arguments site candidates none (← get).options.phases
    match screening.applicable with
    | [] =>
      return noneApplicable (← get) selector candidates firstCandidate arguments.length
        screening.refused
    | firstApplicable :: _ =>
      match ← screening.applicable.filterM (canSeeMethod scope receiver) with
      | [] => return .failNear selector .notVisible firstApplicable
      | firstVisible :: others =>
        let resolution ← mostSpecific selector phase firstVisible others
        if let .found method := resolution then
          if (← get).options.reportUnchecked then reportUncheckedInvocation receiver method arguments
        return resolution

end Query

end Bindings
