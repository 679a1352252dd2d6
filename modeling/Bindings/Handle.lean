/-! # Handles -/

namespace Bindings

@[ext] structure TypeId where
  index : Nat
  deriving DecidableEq, Repr, Inhabited

structure MethodId where
  index : Nat
  deriving DecidableEq, Repr, Inhabited

structure FieldId where
  index : Nat
  deriving DecidableEq, Repr, Inhabited

structure PackageId where
  index : Nat
  deriving DecidableEq, Repr, Inhabited

structure LocalId where
  index : Nat
  deriving DecidableEq, Repr, Inhabited

structure ScopeId where
  index : Nat
  deriving DecidableEq, Repr, Inhabited

structure UnitId where
  index : Nat
  deriving DecidableEq, Repr, Inhabited

def TypeId.display (id : TypeId) : String := s!"TypeId({id.index})"

def MethodId.display (id : MethodId) : String := s!"MethodId({id.index})"

def FieldId.display (id : FieldId) : String := s!"FieldId({id.index})"

def PackageId.display (id : PackageId) : String := s!"PackageId({id.index})"

def LocalId.display (id : LocalId) : String := s!"LocalId({id.index})"

def ScopeId.display (id : ScopeId) : String := s!"ScopeId({id.index})"

def UnitId.display (id : UnitId) : String := s!"UnitId({id.index})"

inductive Entity where
  | package (id : PackageId)
  | type (id : TypeId)
  | method (id : MethodId)
  | field (id : FieldId)
  | localVar (id : LocalId)
  | typeVariable (id : TypeId)
  deriving DecidableEq, Repr

namespace Entity

def kindLabel : Entity → String
  | package _ => "Package"
  | type _ => "Type"
  | method _ => "Method"
  | field _ => "Field"
  | localVar _ => "Local"
  | typeVariable _ => "TypeVariable"

def type? : Entity → Option TypeId
  | type id | typeVariable id => some id
  | _ => none

def field? : Entity → Option FieldId
  | field id => some id
  | _ => none

def local? : Entity → Option LocalId
  | localVar id => some id
  | _ => none

def package? : Entity → Option PackageId
  | package id => some id
  | _ => none

end Entity

end Bindings
