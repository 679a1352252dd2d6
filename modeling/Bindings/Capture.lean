import Bindings.Joins

/-! # Capture -/

namespace Bindings.Query

def newCapture (source : TypeId) (position : Nat) (wildcard : TypeId) : Edit TypeId := do
  let sequence := (← get).captureCount + 1
  modify fun world => { world with captureCount := sequence }
  Edit.newType (.capture
    { wildcard, source, position, upperBounds := [], lowerBound := none, sequence })

def captureArgument (source : TypeId) (position : Nat) (argument : TypeId) : Edit TypeId := do
  match ((← get).type argument).wildcard? with
  | some _ => newCapture source position argument
  | none => return argument

def declaredBounds (s : Substitution) (object : TypeId) (var : Option TypeId) : Query (List TypeId) := do
  let world ← get
  match var.bind fun var => (world.type var).typeVariable? with
  | none => return []
  | some info =>
    let superclass ← (info.superclass.filter (· != object)).mapM (substitute s)
    let interfaces ← info.interfaces.mapM (substitute s)
    return superclass.toList ++ interfaces

def boundCapture (s : Substitution) (object : TypeId) (var : Option TypeId)
    (argument captured : TypeId) : Query Unit := do
  let declared ← declaredBounds s object var
  let some wildcard := ((← get).type argument).wildcard? | return
  let (upper, lower) ← match wildcard.kind, wildcard.bound with
    | .upper, some bound => do
      let own := bound :: wildcard.otherBounds
      let meet ← greatestLowerBound (own ++ declared)
      pure (meet.getD own, none)
    | .lower, some bound => pure (declared, some bound)
    | _, _ => pure (declared, none)
  let upper := if upper.isEmpty then [object] else upper
  modify (·.modifyType captured <| .mapCapture fun info => { info with upperBounds := upper, lowerBound := lower })

def boundCaptures (generic : TypeId) (arguments newArguments : List TypeId) : Query Unit := do
  let vars := (((← get).class? generic).map (·.typeVariables)).getD []
  let s := Substitution.ofPairs vars newArguments
  let object ← objectType
  (arguments.zip newArguments).zipIdx.forM fun ((argument, captured), rank) => do
    if argument ≠ captured then boundCapture s object vars[rank]? argument captured

def captureAnew (id : TypeId) (position : Nat) (generic : TypeId) (arguments : List TypeId)
    (enclosing : Option TypeId) : Query TypeId := do
  -- All fresh types come first, because the bounds of one may mention another.
  let newArguments ← arguments.mapM fun argument => captureArgument generic position argument
  let result ← Edit.parameterizedType generic newArguments enclosing
  modify fun world => { world with captures := world.captures.insert (id, position) result }
  boundCaptures generic arguments newArguments
  return result

def capture (id : TypeId) (position : Nat) : Query TypeId := do
  let id ← resolved id
  let world ← get
  match world.type id with
  | .parameterized generic arguments enclosing =>
    if !arguments.any fun argument => (world.type argument).wildcard?.isSome then return id
    match world.captures.find? (id, position) with
    | some captured => return captured
    | none => captureAnew id position generic arguments enclosing
  | _ => return id

end Bindings.Query
