import Bindings.Modifiers
import Bindings.QName
import Bindings.Source.TypeRef

/-! # Source declarations -/

namespace Bindings

/-- `<T extends A & B>` -/
structure TypeParam where
  name : String
  bounds : List TypeRef
  deriving Repr, Inhabited

structure FieldDecl where
  name : String
  modifiers : Modifiers
  type : TypeRef
  deriving Repr, Inhabited

structure ParamDecl where
  name : String
  type : TypeRef
  deriving Repr, Inhabited

structure MethodDecl where
  selector : String
  modifiers : Modifiers := .publicFlag
  typeParams : List TypeParam := []
  result : Option TypeRef
  params : List ParamDecl := []
  thrown : List TypeRef := []
  deriving Repr, Inhabited

def MethodDecl.isConstructor (decl : MethodDecl) : Bool := decl.selector == WellKnown.constructor

structure TypeDecl where
  name : String
  kind : ClassKind := .ordinary
  modifiers : Modifiers := .publicFlag
  typeParams : List TypeParam := []
  superclass : Option TypeRef := none
  interfaces : List TypeRef := []
  fields : List FieldDecl := []
  methods : List MethodDecl := []
  members : List TypeDecl := []
  deriving Repr, Inhabited

namespace TypeDecl

def withModifiers (decl : TypeDecl) (modifiers : Modifiers) : TypeDecl :=
  { decl with modifiers := modifiers ∪ decl.kind.flags }

def declaresConstructor (decl : TypeDecl) : Bool := decl.methods.any (·.isConstructor)

def memberAt? (decl : TypeDecl) : List Nat → Option TypeDecl
  | [] => some decl
  | index :: path => do (← decl.members[index]?).memberAt? path

end TypeDecl

/-- `import a.B;`, `import a.*;`, `import static a.B.m;` or `import static a.B.*;` -/
structure Import where
  name : QName
  isStatic : Bool := false
  onDemand : Bool := false
  deriving Repr, Inhabited

structure SourceUnit where
  file : String
  package : QName
  imports : List Import := []
  types : List TypeDecl
  deriving Repr, Inhabited

def SourceUnit.typeAt? (source : SourceUnit) : List Nat → Option TypeDecl
  | [] => none
  | index :: path => do (← source.types[index]?).memberAt? path

end Bindings
