import Bindings.Constructed
import Bindings.Signature.Parser
import Bindings.TypeByName

/-! # Types of signatures -/

namespace Bindings

abbrev SignatureContext := List (String × TypeId)

def SignatureContext.lookup (context : SignatureContext) (name : String) : Option TypeId :=
  (context.reverse.find? (·.1 == name)).map (·.2)

namespace Edit

mutual

def typeOfSig (context : SignatureContext) : TypeSig → Edit TypeId
  | .base base => pure (World.baseType base)
  | .array component => do
    let component ← typeOfSig context component
    arrayType component 1
  | .variable name =>
    match context.lookup name with
    | some var => pure var
    | none => newMissing (.ofDotted name) .notFound
  | .classType name arguments inner => do
    let outer ← typeOrPlaceholder (.ofInternal name)
    if (← get).options.generics && !arguments.isEmpty then
      let arguments ← argumentsOfSig context outer 0 arguments
      let outer ← parameterizedType outer arguments none
      innerOfSig context name outer inner
    else innerOfSig context name outer inner

def argumentsOfSig (context : SignatureContext) (generic : TypeId) (rank : Nat) : List ArgSig → Edit (List TypeId)
  | [] => pure []
  | argument :: rest => do
    let first ← argumentOfSig context generic rank argument
    let rest ← argumentsOfSig context generic (rank + 1) rest
    return first :: rest

def argumentOfSig (context : SignatureContext) (generic : TypeId) (rank : Nat) : ArgSig → Edit TypeId
  | .unbounded => wildcard (some generic) rank none [] .unbounded
  | .upper bound => do
    let bound ← typeOfSig context bound
    wildcard (some generic) rank (some bound) [] .upper
  | .lower bound => do
    let bound ← typeOfSig context bound
    wildcard (some generic) rank (some bound) [] .lower
  | .exactly type => typeOfSig context type

/-- The member that a class signature names after its class `current`, whose internal name is
`name`. A member of a parameterized type is parameterized even without arguments. -/
def innerOfSig (context : SignatureContext) (name : String) (current : TypeId) : List InnerSig → Edit TypeId
  | [] => pure current
  | .member simple arguments :: rest => do
    let name := name ++ "$" ++ simple
    let member ← typeOrPlaceholder (.ofInternal name)
    let world ← get
    let enclosing := match world.type current with
      | .parameterized .. => some current
      | _ => none
    if world.options.generics && (!arguments.isEmpty || enclosing.isSome) then
      let arguments ← argumentsOfSig context member 0 arguments
      let member ← parameterizedType member arguments enclosing
      innerOfSig context name member rest
    else innerOfSig context name member rest

end

def newVariables (owner : VariableOwner) (rank : Nat) : List String → Edit (List TypeId)
  | [] => pure []
  | name :: names => do
    let first ← newType (.variable { name, rank, owner })
    let rest ← newVariables owner (rank + 1) names
    return first :: rest

end Edit

namespace Query

/-- Give a type variable its bounds. Without a class bound its superclass is the root of the
hierarchy and its first bound the first interface. -/
def setBounds (var : TypeId) (classBound : Option TypeId) (interfaces : List TypeId) : Query Unit := do
  let object ← objectType
  let superclass := classBound.getD object
  modify (·.modifyType var <| .mapVariable fun info =>
    { info with
      firstBound := classBound <|> interfaces.head?
      superclass := some superclass
      interfaces })
  modify (·.noteReferrers (.type var) (interfaces ++ [superclass]))

def enclosingChain : Nat → List TypeId → TypeId → Query (List TypeId)
  | 0, _, _ => giveUp
  | fuel + 1, seen, id => do
    let id ← resolved id
    let some info := (← get).class? id | return []
    if seen.contains id then return []
    match info.enclosing with
    | some outer => return id :: (← enclosingChain fuel (id :: seen) outer)
    | none => return [id]

def variablesOf (world : World) (id : TypeId) : SignatureContext :=
  (((world.class? id).map (·.typeVariables)).getD []).filterMap fun var =>
    (world.type var).typeVariable?.map fun info => (info.name, var)

def signatureContext (id : TypeId) : Query SignatureContext := do
  let chain ← enclosingChain (← fuel) [] id
  let world ← get
  return chain.reverse.flatMap (variablesOf world)

def bindBounds (context : SignatureContext) (param : ParamSig) (var : TypeId) : Query Unit := do
  let classBound ← param.classBound.mapM fun bound => Edit.typeOfSig context bound
  let interfaces ← param.interfaceBounds.mapM fun bound => Edit.typeOfSig context bound
  setBounds var classBound interfaces

def bindAllBounds (context : SignatureContext) (params : List ParamSig) (vars : List TypeId) : Query Unit :=
  (params.zip vars).forM fun (param, var) => bindBounds context param var

end Query

end Bindings
