import Bindings.Supertypes

/-!
# Subtyping

While a pair is being decided, meeting it again is taken to hold if a type variable is involved (`T extends
Comparable<T>`), and not to hold otherwise.
-/

namespace Bindings.Query

def asSuperType (id target : TypeId) : Query (Option TypeId) := do
  let id ← resolved id
  walk .breadthFirst (fun current => return (← get).erasureClass? current == some target)
    supertypes id

def kindCompatible? : TypeInfo → TypeInfo → Option Bool
  | .base a, .base b => some (a.widensTo b)
  | .base .null, _ => some true
  | .base _, _ | _, .base _ => some false
  | .missing .., _ | _, .missing .. => some true
  | _, _ => none

def isArrayInterface (world : World) (id : TypeId) : Bool :=
  ((world.erasureClass? id).bind world.class?).any fun info =>
    info.name.dotted == WellKnown.cloneable.dotted || info.name.dotted == WellKnown.serializable.dotted

def containsBy (compatible : TypeId → TypeId → Query Bool) (container argument : TypeId) : Query Bool := do
  let container ← resolved container
  let argument ← resolved argument
  if container = argument then return true
  let world ← get
  let some wildcard := (world.type container).wildcard? | return false
  match wildcard.kind, wildcard.bound, (world.type argument).wildcard? with
  | .unbounded, _, _ | _, none, _ => return true
  | .upper, some bound, none => compatible argument bound
  | .upper, some bound, some inner =>
    match inner.kind, inner.bound with
    | .upper, some innerBound => compatible innerBound bound
    | _, _ => return world.isObject bound
  | .lower, some bound, none => compatible bound argument
  | .lower, some bound, some inner =>
    match inner.kind, inner.bound with
    | .lower, some innerBound => compatible bound innerBound
    | _, _ => return false

def boundCompatible (compatible : TypeId → TypeId → Query Bool) (source target : TypeId) : Query Bool := do
  match (← get).type source with
  | .declared _ | .parameterized .. | .raw .. | .array .. => return false
  | _ =>
    let bounds ← supertypes source
    bounds.anyM fun bound => do
      if bound = source then return false
      compatible bound target

def arrayCompatible (compatible : TypeId → TypeId → Query Bool) (leaf : TypeId)
    (dimensions : UInt32) (target : TypeId) : Query Bool := do
  match (← get).type target with
  | .array targetLeaf targetDimensions =>
    let component ← Edit.arrayType leaf (dimensions - 1)
    let targetComponent ← Edit.arrayType targetLeaf (targetDimensions - 1)
    let world ← get
    if (world.base? component).isSome || (world.base? targetComponent).isSome then return component == targetComponent
    compatible component targetComponent
  | _ => return isArrayInterface (← get) target

def classCompatible (compatible : TypeId → TypeId → Query Bool) (source target : TypeId) : Query Bool := do
  let some targetClass := (← get).erasureClass? target | return false
  let some supertype ← asSuperType source targetClass | return false
  let world ← get
  match world.type target, world.type supertype with
  | .parameterized _ targetArguments _, .parameterized _ sourceArguments _ =>
    if sourceArguments.length ≠ targetArguments.length then return false
    (targetArguments.zip sourceArguments).allM fun (container, argument) => containsBy compatible container argument
  | .parameterized .., _ =>
    modify fun world => { world with uncheckedCount := world.uncheckedCount + 1 }
    return true
  | _, _ => return true

def referenceCompatible (compatible : TypeId → TypeId → Query Bool) (source target : TypeId) : Query Bool := do
  let fromSource : Query Bool := do
    match (← get).type source with
    | .variable _ | .capture _ | .wildcard _ => boundCompatible compatible source target
    | .array leaf dimensions => arrayCompatible compatible leaf dimensions target
    | .declared _ | .parameterized .. | .raw .. => classCompatible compatible source target
    | _ => return false
  match (← get).type target with
  | .capture info =>
    if let some lower := info.lowerBound then if ← compatible source lower then return true
    boundCompatible compatible source target
  | .variable _ => boundCompatible compatible source target
  | .wildcard info =>
    if info.generic.isNone then (info.bound.toList ++ info.otherBounds).allM fun bound => compatible source bound
    else fromSource
  | _ => fromSource

def guarded (source target : TypeId) (decide : Query Bool) : Query Bool := do
  let world ← get
  if world.comparing.contains (source, target) then
    return (world.type source).isVariableLike || (world.type target).isVariableLike
  modify fun world => { world with comparing := (source, target) :: world.comparing }
  thenAlways decide <| modify fun world => { world with comparing := world.comparing.erase (source, target) }

def compatibleFrom : Nat → TypeId → TypeId → Query Bool
  | 0, _, _ => giveUp
  | fuel + 1, source, target => do
    let source ← resolved source
    let target ← resolved target
    if source = target then return true
    let world ← get
    match kindCompatible? (world.type source) (world.type target) with
    | some answer => return answer
    | none =>
      if world.isObject target then return true
      guarded source target (referenceCompatible (compatibleFrom fuel) source target)

def compatible (source target : TypeId) : Query Bool := do compatibleFrom (← fuel) source target

def argumentContains (container argument : TypeId) : Query Bool := containsBy compatible container argument

def checkCompatible (source target : TypeId) : Query (Bool × Bool) := do
  let before := (← get).uncheckedCount
  let answer ← compatible source target
  return (answer, answer && before < (← get).uncheckedCount)

end Bindings.Query
