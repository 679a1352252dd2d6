import Bindings.Subtyping
import Bindings.World.Names

/-! # Bounds of type variables -/

namespace Bindings

inductive BoundCheck where
  | ok
  | unchecked
  | mismatch
  deriving DecidableEq, Repr

def BoundCheck.label : BoundCheck → String
  | ok => "ok"
  | unchecked => "unchecked"
  | mismatch => "mismatch"

namespace Query

def isInterfaceType (world : World) (id : TypeId) : Bool :=
  ((world.erasureClass? id).bind world.class?).any (·.isInterface)

def substitutedBounds (s : Substitution) (info : VariableInfo) : Query (List TypeId) := do
  let superclass ← match info.superclass with
    | some superclass => do
      if (← get).isObject superclass then pure []
      else pure [← substitute s superclass]
    | none => pure []
  let interfaces ← info.interfaces.mapM (substitute s)
  return superclass ++ interfaces

def mayMeet (bound variableBound : TypeId) : Query Bool := do
  if ← compatible bound variableBound then return true
  if ← compatible variableBound bound then return true
  let world ← get
  return isInterfaceType world bound || isInterfaceType world variableBound

def checkAgainst (argument : TypeId) (worst : BoundCheck) : List TypeId → Query BoundCheck
  | [] => return worst
  | bound :: bounds => do
    let (fits, unchecked) ← checkCompatible argument bound
    if fits then checkAgainst argument (if unchecked then .unchecked else worst) bounds
    else
      let erasedArgument ← erasure argument
      let erasedBound ← erasure bound
      if ← compatible erasedArgument erasedBound then checkAgainst argument .unchecked bounds
      else return .mismatch

def checkWildcard (info : WildcardInfo) (bounds : List TypeId) : Query BoundCheck := do
  let answer (fits : Bool) : BoundCheck := if fits then .ok else .mismatch
  match info.kind, info.bound with
  | .upper, some bound => answer <$> bounds.allM (mayMeet bound)
  | .lower, some bound => answer <$> bounds.allM (compatible bound)
  | _, _ => return .ok

def boundCheck (s : Substitution) (var argument : TypeId) : Query BoundCheck := do
  let argument ← resolved argument
  let some info := ((← get).type var).typeVariable? | return .ok
  let bounds ← substitutedBounds s info
  if bounds.isEmpty then return .ok
  match ((← get).type argument).wildcard? with
  | some wildcard => checkWildcard wildcard bounds
  | none => checkAgainst argument .ok bounds

def reportArgument (s : Substitution) (generic var argument : TypeId) : Query Unit := do
  let outcome ← boundCheck s var argument
  let world ← get
  let name := ((world.type var).typeVariable?.map (·.name)).getD ""
  let names := [world.typeName argument, name, world.typeName generic]
  match outcome with
  | .ok => return
  | .unchecked => if world.options.reportUnchecked then Edit.report .uncheckedTypeArgument names
  | .mismatch => Edit.report .typeArgumentMismatch names

def checkArguments (id : TypeId) : Query Unit := do
  let world ← get
  match world.type id with
  | .parameterized generic arguments _ =>
    let vars := ((world.class? generic).map (·.typeVariables)).getD []
    let s := Substitution.ofPairs vars arguments
    (vars.zip arguments).forM fun (var, argument) => reportArgument s generic var argument
  | _ => return

def runDeferredChecks : Query Unit := do
  let deferred := (← get).deferredChecks.getD []
  modify fun world => { world with deferredChecks := none }
  deferred.forM checkArguments

end Query

end Bindings
