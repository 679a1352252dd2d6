import Bindings.Bounds

/-!
# Least upper and greatest lower bounds

The join of types is built from the minimal classes above all of them; several classes make an intersection.
The meet of types keeps those that lie above no other.
-/

namespace Bindings

structure CombinedBounds where
  upper : List TypeId := []
  lower : Option TypeId := none
  deriving DecidableEq, Repr

namespace Query

def maxJoinDepth : Nat := 4

def resolvedUnique : List TypeId → List TypeId → Query (List TypeId)
  | [], unique => return unique
  | id :: rest, unique => do
    let id ← resolved id
    resolvedUnique rest (if unique.contains id then unique else unique ++ [id])

def addErasures : List TypeId → List TypeId → Query (List TypeId)
  | [], found => return found
  | supertype :: rest, found => do
    let erased ← erasure supertype
    addErasures rest (if found.contains erased then found else found ++ [erased])

def erasedSupertypesFrom : Nat → Nat → List TypeId → Query (List TypeId)
  | 0, _, _ => giveUp
  | fuel + 1, index, found => do
    match found[index]? with
    | none => return found
    | some current =>
      let found ← addErasures (← supertypes current) found
      erasedSupertypesFrom fuel (index + 1) found

def erasedSupertypes (id : TypeId) : Query (List TypeId) := do
  let start ← erasure id
  erasedSupertypesFrom (← fuel) 0 [start]

def commonSupertypes : List TypeId → Query (List TypeId)
  | [] => return []
  | first :: rest => do
    let common ← erasedSupertypes first
    rest.foldlM (fun common id => do
      let above ← erasedSupertypes id
      return common.filter above.contains) common

def isMinimal (candidates : List TypeId) (candidate : TypeId) : Query Bool := do
  let below ← candidates.anyM fun other => do
    if other = candidate then return false
    isSubclassOf other candidate
  return !below

def argumentUpperBound (argument : TypeId) : Query TypeId := do
  match ((← get).type argument).wildcard? with
  | some wildcard =>
    match wildcard.kind, wildcard.bound with
    | .upper, some bound => return bound
    | _, _ => objectType
  | none => return argument

def invocations (candidate : TypeId) : List TypeId → Query (Option (List (List TypeId)))
  | [] => return some []
  | id :: rest => do
    match ← asSuperType id candidate with
    | none => return none
    | some supertype =>
      match (← get).type supertype with
      | .parameterized _ arguments _ => return (← invocations candidate rest).map (arguments :: ·)
      | _ => return none

def joinArgument (join : List TypeId → Query (Option TypeId)) (candidate : TypeId) (rank : Nat)
    (column : List TypeId) : Query TypeId := do
  match column with
  | [] => Edit.wildcard (some candidate) rank none [] .unbounded
  | first :: others =>
    if others.all (· == first) then return first
    let uppers ← column.mapM argumentUpperBound
    match ← join uppers with
    | some bound =>
      if (← get).isObject bound then Edit.wildcard (some candidate) rank none [] .unbounded
      else Edit.wildcard (some candidate) rank (some bound) [] .upper
    | none => Edit.wildcard (some candidate) rank none [] .unbounded

def joinCandidate (join : List TypeId → Query (Option TypeId)) (types : List TypeId)
    (candidate : TypeId) : Query TypeId := do
  let world ← get
  if !(world.class? candidate).any (·.isGeneric) || !world.options.generics then return candidate
  match ← invocations candidate types with
  | none => Edit.rawType candidate none
  | some rows =>
    let arity := (rows.head?.map (·.length)).getD 0
    if rows.any (·.length != arity) then Edit.rawType candidate none
    else
      let arguments ← (List.range arity).mapM fun rank => joinArgument join candidate rank (rows.filterMap (·[rank]?))
      Edit.parameterizedType candidate arguments none

def intersection (bounds : List TypeId) : Query (Option TypeId) := do
  let world ← get
  let classes := bounds.filter (!isInterfaceType world ·)
  let interfaces := bounds.filter (isInterfaceType world)
  match classes ++ interfaces with
  | [] => return none
  | [bound] => return some bound
  | bound :: others => some <$> Edit.wildcard none 0 (some bound) others .upper

def joinDistinct (join : List TypeId → Query (Option TypeId)) (types : List TypeId) : Query (Option TypeId) := do
  let common ← commonSupertypes types
  let minimal ← common.filterM (isMinimal common)
  let world ← get
  let minimal := if 1 < minimal.length then minimal.filter (!world.isObject ·) else minimal
  intersection (← minimal.mapM (joinCandidate join types))

def joinFrom : Nat → List TypeId → Query (Option TypeId)
  | 0, _ => giveUp
  | fuel + 1, types => do
    let unique ← resolvedUnique types []
    let world ← get
    let unique := unique.filter fun id => world.base? id != some .null
    if unique.any fun id => (world.base? id).isSome then return none
    match unique with
    | [] => return none
    | [id] => return some id
    | _ =>
      if maxJoinDepth < world.joinDepth then some <$> objectType
      else
        modify fun world => { world with joinDepth := world.joinDepth + 1 }
        thenAlways (joinDistinct (joinFrom fuel) unique) <|
          modify fun world => { world with joinDepth := world.joinDepth - 1 }

def leastUpperBound (types : List TypeId) : Query (Option TypeId) := do joinFrom (← fuel) types

def isRedundant (types : List TypeId) (id : TypeId) (index : Nat) : Query Bool :=
  types.zipIdx.anyM fun (other, otherIndex) => do
    if otherIndex = index then return false
    if !(← compatible other id) then return false
    if !(← compatible id other) then return true
    return otherIndex < index

def greatestLowerBound (types : List TypeId) : Query (Option (List TypeId)) := do
  let unique ← resolvedUnique types []
  let kept ← unique.zipIdx.filterM fun (id, index) => do
    return !(← isRedundant unique id index)
  let result := kept.map (·.1)
  let world ← get
  let classes := result.filter fun id => (world.type id).isClassLike && !isInterfaceType world id
  return if 1 < classes.length then none else some result

def argumentBounds (argument : TypeId) : Query CombinedBounds := do
  let argument ← resolved argument
  match ((← get).type argument).wildcard? with
  | some wildcard =>
    match wildcard.kind, wildcard.bound with
    | .upper, some bound => return { upper := bound :: wildcard.otherBounds }
    | .lower, some bound => return { lower := some bound }
    | _, _ => return {}
  | none => return { upper := [argument], lower := some argument }

def combineLower (first second : TypeId) : Option TypeId → Option TypeId → Query (Option (Option TypeId))
  | some a, some b => do
    if a = b then return some (some a)
    let world ← get
    if (world.type first).wildcard?.isNone || (world.type second).wildcard?.isNone then return none
    return (← leastUpperBound [a, b]).map some
  | lower, none => return some lower
  | none, lower => return some lower

def combineArguments (first second : TypeId) : Query (Option CombinedBounds) := do
  let a ← argumentBounds first
  let b ← argumentBounds second
  let both := a.upper ++ b.upper
  let some upper ← (if 1 < both.length then greatestLowerBound both else return some both)
    | return none
  let some lower ← combineLower first second a.lower b.lower | return none
  if ← lower.toList.allM fun low => upper.allM (compatible low) then return some { upper, lower }
  return none

end Query

end Bindings
