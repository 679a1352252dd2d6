import Bindings.Erasure

/-!
# Substitution

A raw substitution erases the variables it does not replace. Types that a substitution does not touch keep
their handle.
-/

namespace Bindings

structure Substitution where
  map : Table TypeId TypeId := .empty
  /-- Variables without a replacement are erased. -/
  raw : Bool := false
  deriving Repr, Inhabited

namespace Substitution

def isEmpty (s : Substitution) : Bool := s.map.entries.isEmpty && !s.raw

def get? (s : Substitution) (var : TypeId) : Option TypeId := s.map.find? var

def insert (s : Substitution) (var type : TypeId) : Substitution := { s with map := s.map.insert var type }

def ofPairs (vars types : List TypeId) : Substitution :=
  (vars.zip types).foldl (fun s (var, type) => s.insert var type) {}

def orElse (s outer : Substitution) : Substitution :=
  { map := outer.map.entries.foldl
      (fun map (var, type) => if (map.find? var).isSome then map else map.insert var type) s.map
    raw := s.raw || outer.raw }

def domain (s : Substitution) : List TypeId := s.map.entries.map (·.1)

end Substitution

namespace World

def mentionsFrom (world : World) (vars : List TypeId) : Nat → TypeId → Bool
  | 0, id => vars.contains id
  | fuel + 1, id =>
    vars.contains id || match world.type id with
      | .parameterized _ arguments enclosing =>
        arguments.any (mentionsFrom world vars fuel) || enclosing.any (mentionsFrom world vars fuel)
      | .array leaf _ => mentionsFrom world vars fuel leaf
      | .wildcard info =>
        info.bound.any (mentionsFrom world vars fuel) || info.otherBounds.any (mentionsFrom world vars fuel)
      | .placeholder _ (some target) => mentionsFrom world vars fuel target
      | _ => false

def mentions (world : World) (vars : List TypeId) (id : TypeId) : Bool :=
  world.mentionsFrom vars (world.types.size + 1) id

end World

namespace Query

def substitutionForFrom : Nat → TypeId → Query Substitution
  | 0, _ => giveUp
  | fuel + 1, receiver => do
    let receiver ← resolved receiver
    let world ← get
    match world.type receiver with
    | .parameterized generic arguments enclosing =>
      let vars := ((world.class? generic).map (·.typeVariables)).getD []
      let own := Substitution.ofPairs vars arguments
      match enclosing with
      | some outer => return own.orElse (← substitutionForFrom fuel outer)
      | none => return own
    | .raw .. => return { raw := true }
    | _ => return {}

/-- The substitution that a receiver implies: its arguments for the variables of its generic type,
then those of its enclosing type. A raw receiver erases. -/
def substitutionFor (receiver : TypeId) : Query Substitution := do substitutionForFrom (← fuel) receiver

def substituteFrom (s : Substitution) : Nat → TypeId → Query TypeId
  | 0, _ => giveUp
  | fuel + 1, id => do
    let id ← resolved id
    match (← get).type id with
    | .variable _ =>
      match s.get? id with
      | some replacement => return replacement
      | none => if s.raw then rawErasure id else return id
    | .parameterized generic arguments enclosing =>
      if s.raw then Edit.rawType generic none
      else
        let newArguments ← arguments.mapM (substituteFrom s fuel)
        let newEnclosing ← enclosing.mapM (substituteFrom s fuel)
        if newArguments = arguments ∧ newEnclosing = enclosing then return id
        else Edit.parameterizedType generic newArguments newEnclosing
    | .array leaf dimensions =>
      let newLeaf ← substituteFrom s fuel leaf
      if newLeaf = leaf then return id else Edit.arrayType newLeaf dimensions
    | .wildcard info =>
      let bound ← info.bound.mapM (substituteFrom s fuel)
      let otherBounds ← info.otherBounds.mapM (substituteFrom s fuel)
      if bound = info.bound ∧ otherBounds = info.otherBounds then return id
      else Edit.wildcard info.generic info.rank bound otherBounds info.kind
    | _ => return id

def substitute (s : Substitution) (id : TypeId) : Query TypeId := do
  if s.isEmpty then return id
  substituteFrom s (← fuel) id

end Query

end Bindings
