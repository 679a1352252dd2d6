import Bindings.Invocation
import Bindings.Joins
import Bindings.MemberViews

/-!
# Inference of type arguments

A variable is fixed by what it must equal, else by the join of what lies below it, else by the expected type
of the invocation, else by what lies above it, and else by its own bound.
-/

namespace Bindings

inductive Relation where
  | equal
  | lower
  | upper
  deriving DecidableEq, Repr

structure Constraints where
  equal : List TypeId := []
  lower : List TypeId := []
  upper : List TypeId := []
  deriving DecidableEq, Repr, Inhabited

namespace Constraints

def addNew (id : TypeId) (types : List TypeId) : List TypeId := if types.contains id then types else types ++ [id]

def add (constraints : Constraints) (id : TypeId) : Relation → Constraints
  | .equal => { constraints with equal := addNew id constraints.equal }
  | .lower => { constraints with lower := addNew id constraints.lower }
  | .upper => { constraints with upper := addNew id constraints.upper }

end Constraints

namespace Query

/-! ## Collecting constraints -/

abbrev Collector := Relation → TypeId → TypeId → List Constraints → Query (List Constraints)

def collectArgument (collect : Collector) (relation : Relation) (formal actual : TypeId)
    (constraints : List Constraints) : Query (List Constraints) := do
  let world ← get
  let bounds (id : TypeId) : Option (WildcardKind × Option TypeId) :=
    (world.type id).wildcard?.map fun info => (info.kind, info.bound)
  match bounds formal, bounds actual with
  | some (.upper, some bound), some (.upper, some actualBound) => collect relation bound actualBound constraints
  | some (.upper, some bound), none => collect .lower bound actual constraints
  | some (.lower, some bound), some (.lower, some actualBound) => collect .upper bound actualBound constraints
  | some (.lower, some bound), none => collect .upper bound actual constraints
  | none, none => collect .equal formal actual constraints
  | _, _ => return constraints

def collectArray (collect : Collector) (relation : Relation) (parameter argument : TypeId)
    (constraints : List Constraints) : Query (List Constraints) := do
  match (← get).type argument with
  | .array leaf dimensions =>
    let some component ← arrayComponent parameter | return constraints
    let argumentComponent ← Edit.arrayType leaf (dimensions - 1)
    if ((← get).base? argumentComponent).isSome then return constraints
    collect relation component argumentComponent constraints
  | _ => return constraints

def invocationOf (relation : Relation) (argument generic : TypeId) : Query (Option TypeId) := do
  match relation with
  | .lower => asSuperType argument generic
  | .equal | .upper => return if (← get).erasureClass? argument = some generic then some argument else none

def collectParameterized (collect : Collector) (relation : Relation) (generic : TypeId)
    (formals : List TypeId) (argument : TypeId) (constraints : List Constraints) :
    Query (List Constraints) := do
  match ← invocationOf relation argument generic with
  | none => return constraints
  | some actual =>
    match (← get).type actual with
    | .parameterized _ actuals _ =>
      (formals.zip actuals).foldlM
        (fun constraints (formal, actual) => collectArgument collect relation formal actual constraints)
        constraints
    | _ => return constraints

def collectFrom (vars : List TypeId) : Nat → Collector
  | 0, _, _, _, _ => giveUp
  | fuel + 1, relation, parameter, argument, constraints => do
    let parameter ← resolved parameter
    let argument ← resolved argument
    let world ← get
    match vars.idxOf? parameter with
    | some index =>
      if (world.base? argument).isSome || (world.type argument).isMissing then return constraints
      return constraints.modify index (·.add argument relation)
    | none =>
      if !world.mentions vars parameter then return constraints
      match world.type parameter with
      | .array .. => collectArray (collectFrom vars fuel) relation parameter argument constraints
      | .parameterized generic formals _ =>
        collectParameterized (collectFrom vars fuel) relation generic formals argument constraints
      | _ => return constraints

def collect (vars : List TypeId) : Collector := fun relation parameter argument constraints => do
  collectFrom vars (← fuel) relation parameter argument constraints

def unconstrained (vars : List TypeId) : List Constraints := vars.map fun _ => {}

def inferenceArgument (phase : Phase) (parameter argument : TypeId) : Query (Option TypeId) := do
  let world ← get
  match world.base? argument with
  | some .null => return none
  | some base =>
    if (world.base? parameter).isSome then return some argument
    if phase = .strict ∨ !world.options.boxing then return none
    boxed base
  | none => return some argument

def collectArguments (vars : List TypeId) (phase : Phase) (params arguments : List TypeId) :
    Query (List Constraints) :=
  (params.zip arguments).foldlM
    (fun constraints (parameter, argument) => do
      match ← inferenceArgument phase parameter argument with
      | some argument => collect vars .lower parameter argument constraints
      | none => return constraints)
    (unconstrained vars)

/-! ## Fixing variables -/

def fixFromBelow : List Constraints → Query (Option (List (Option TypeId)))
  | [] => return some []
  | constraints :: rest => do
    match constraints.equal with
    | first :: others =>
      if others.any (· != first) then return none
      return (← fixFromBelow rest).map (some first :: ·)
    | [] =>
      if constraints.lower.isEmpty then return (← fixFromBelow rest).map (none :: ·)
      match ← leastUpperBound constraints.lower with
      | some join => return (← fixFromBelow rest).map (some join :: ·)
      | none => return none

def firstMeet (types : List TypeId) : Query (Option TypeId) := do return (← greatestLowerBound types).bind (·.head?)

def fixFromConstraints (known : Option TypeId) (constraints : Constraints) : Query (Option TypeId) := do
  if known.isSome || constraints == {} then return known
  match constraints.equal with
  | first :: _ => return some first
  | [] => firstMeet constraints.upper

def fixFromExpected (vars : List TypeId) (result expected : TypeId)
    (fixed : List (Option TypeId)) : Query (List (Option TypeId)) := do
  let world ← get
  let expected ← match world.base? expected, world.base? result with
    | some base, none => do pure ((← boxed base).getD expected)
    | _, _ => pure expected
  let constraints ← collect vars .upper result expected (unconstrained vars)
  (fixed.zip constraints).mapM fun (known, constraints) => fixFromConstraints known constraints

def defaultArgument (vars : List TypeId) (var : TypeId) : Query TypeId := do
  let world ← get
  match (world.type var).typeVariable?.bind (·.firstBound) with
  | some bound => if world.mentions vars bound then erasure bound else return bound
  | none => objectType

def fixFromAbove (vars : List TypeId) (var : TypeId) (known : Option TypeId)
    (constraints : Constraints) : Query TypeId := do
  match known with
  | some id => return id
  | none =>
    let meet ← if constraints.upper.isEmpty then pure none else firstMeet constraints.upper
    match meet with
    | some id => return id
    | none => defaultArgument vars var

/-! ## Instances of generic methods -/

def instantiate (method : MethodId) (arguments : List TypeId) (inferred : Bool) : Query MethodId := do
  let world ← get
  let arguments := arguments.map world.orVoid
  match world.caches.methodInstances.find? (method, arguments) with
  | some id => return id
  | none =>
    let source := world.method method
    let s := Substitution.ofPairs source.typeVariables arguments
    let params ← source.params.mapM (substitute s)
    let result ← substitute s source.result
    let thrown ← source.thrown.mapM (substitute s)
    let id ← Edit.newMethod
      { source with
        params, result, thrown
        typeVariables := []
        origin := .instantiated method arguments inferred }
    modify (·.modifyCaches fun caches =>
      { caches with methodInstances := caches.methodInstances.insert (method, arguments) id })
    noteMethod id
    return id

def withinBounds (vars arguments : List TypeId) : Query Bool :=
  (vars.zip arguments).allM fun (var, argument) => do
    return (← boundCheck (.ofPairs vars arguments) var argument) != .mismatch

def matchedParams (phase : Phase) (info : MethodInfo) (count : Nat) : Edit (Option (List TypeId)) := do
  if phase = .varargs ∧ info.isVarargs then spreadParams info.params count
  else return if info.params.length = count then some info.params else none

def infer (method : MethodId) (arguments : List TypeId) (expected : Option TypeId)
    (phase : Phase) : Query (Option MethodId) := do
  let info := (← get).method method
  let vars := info.typeVariables
  if vars.isEmpty then return some method
  let some params ← matchedParams phase info arguments.length | return none
  let constraints ← collectArguments vars phase params arguments
  let some fixed ← fixFromBelow constraints | return none
  let fixed ← match expected with
    | some expected => if fixed.any (·.isNone) then fixFromExpected vars info.result expected fixed else pure fixed
    | none => pure fixed
  let typeArguments ← (vars.zip (fixed.zip constraints)).mapM fun (var, known, constraints) =>
    fixFromAbove vars var known constraints
  let id ← instantiate method typeArguments true
  return if ← withinBounds vars typeArguments then some id else none

end Query

end Bindings
