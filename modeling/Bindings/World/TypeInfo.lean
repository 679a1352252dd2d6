import Bindings.ClassFile
import Bindings.Handle
import Bindings.Resolution
import Bindings.Source.TypeRef

/-! # Types of a world -/

namespace Bindings

inductive ClassOrigin where
  | source (unit : UnitId) (path : List Nat)
  | compiled
  deriving DecidableEq, Repr, Inhabited

/-- How far the facts about a class have been worked out. A `pending` flag is set when a compiled
class is made and cleared when the step it names is taken. -/
structure ClassState where
  hierarchyBegun : Bool := false
  hierarchyEnded : Bool := false
  hierarchyBroken : Bool := false
  superclassPending : Bool := false
  interfacesPending : Bool := false
  membersPending : Bool := false
  memberTypesPending : Bool := false
  noMemberTypes : Bool := false
  membersBuilt : Bool := false
  variablesConnected : Bool := false
  interfacesChecked : Bool := false
  deriving DecidableEq, Repr, Inhabited

namespace ClassState

def flags (state : ClassState) : List Bool :=
  [state.hierarchyBegun, state.hierarchyEnded, state.hierarchyBroken, state.superclassPending,
    state.interfacesPending, state.membersPending, state.memberTypesPending, state.noMemberTypes,
    state.membersBuilt, state.variablesConnected, state.interfacesChecked]

def bits (state : ClassState) : Nat := state.flags.foldr (fun flag rest => flag.toNat + 2 * rest) 0

def compiled (declaresMembers : Bool) : ClassState :=
  { superclassPending := true
    interfacesPending := true
    membersPending := true
    memberTypesPending := declaresMembers
    hierarchyBegun := true
    hierarchyEnded := true
    membersBuilt := true
    variablesConnected := true }

end ClassState

structure ClassInfo where
  name : QName
  sourceName : String
  package : PackageId
  modifiers : Modifiers
  kind : ClassKind
  origin : ClassOrigin
  enclosing : Option TypeId := none
  typeVariables : List TypeId := []
  state : ClassState := {}
  superclass : Option TypeId := none
  interfaces : List TypeId := []
  members : List TypeId := []
  fields : List FieldId := []
  methods : List MethodId := []
  scope : Option ScopeId := none
  file : Option ClassFile := none
  deriving DecidableEq, Repr, Inhabited

namespace ClassInfo

def isInterface (info : ClassInfo) : Bool := info.kind.isInterface

def isCompiled (info : ClassInfo) : Bool := info.origin == .compiled

def isGeneric (info : ClassInfo) : Bool := !info.typeVariables.isEmpty

def isMember (info : ClassInfo) : Bool := info.enclosing.isSome

def isNamed (info : ClassInfo) (simple : String) : Bool := info.sourceName == simple || info.name.last? == some simple

def isConnecting (info : ClassInfo) : Bool := info.state.hierarchyBegun && !info.state.hierarchyEnded

end ClassInfo

structure WildcardInfo where
  generic : Option TypeId
  rank : Nat
  bound : Option TypeId
  otherBounds : List TypeId
  kind : WildcardKind
  deriving DecidableEq, Repr, Inhabited

inductive VariableOwner where
  | type (id : TypeId)
  | method (id : MethodId)
  deriving DecidableEq, Repr, Inhabited

structure VariableInfo where
  name : String
  rank : Nat
  owner : VariableOwner
  firstBound : Option TypeId := none
  superclass : Option TypeId := none
  interfaces : List TypeId := []
  deriving DecidableEq, Repr, Inhabited

structure CaptureInfo where
  wildcard : TypeId
  source : TypeId
  position : Nat
  upperBounds : List TypeId
  lowerBound : Option TypeId
  sequence : Nat
  deriving DecidableEq, Repr, Inhabited

inductive TypeInfo where
  | base (base : BaseType)
  | declared (info : ClassInfo)
  | array (leaf : TypeId) (dimensions : UInt32)
  | parameterized (generic : TypeId) (arguments : List TypeId) (enclosing : Option TypeId)
  | raw (generic : TypeId) (enclosing : Option TypeId)
  | wildcard (info : WildcardInfo)
  | variable (info : VariableInfo)
  | capture (info : CaptureInfo)
  | placeholder (name : QName) (target : Option TypeId)
  | missing (name : QName) (reason : Reason) (closest : Option TypeId)
  deriving DecidableEq, Repr

instance : Inhabited TypeInfo := ⟨.base .void⟩

namespace TypeInfo

@[simp] def class? : TypeInfo → Option ClassInfo
  | declared info => some info
  | _ => none

def base? : TypeInfo → Option BaseType
  | base kind => some kind
  | _ => none

def wildcard? : TypeInfo → Option WildcardInfo
  | wildcard info => some info
  | _ => none

@[simp] def typeVariable? : TypeInfo → Option VariableInfo
  | .variable info => some info
  | _ => none

def isReference : TypeInfo → Bool
  | base _ => false
  | _ => true

def isClassLike : TypeInfo → Bool
  | declared _ | parameterized .. | raw .. => true
  | _ => false

@[simp] def isVariableLike : TypeInfo → Bool
  | .variable _ | .capture _ => true
  | _ => false

@[simp] def isMissing : TypeInfo → Bool
  | missing .. => true
  | _ => false

@[simp] def isPending : TypeInfo → Bool
  | placeholder _ none => true
  | _ => false

def mapClass (change : ClassInfo → ClassInfo) : TypeInfo → TypeInfo
  | declared info => declared (change info)
  | other => other

def mapVariable (change : VariableInfo → VariableInfo) : TypeInfo → TypeInfo
  | .variable info => .variable (change info)
  | other => other

def mapCapture (change : CaptureInfo → CaptureInfo) : TypeInfo → TypeInfo
  | capture info => capture (change info)
  | other => other

def setTarget (target : TypeId) : TypeInfo → TypeInfo
  | placeholder name _ => placeholder name (some target)
  | other => other

end TypeInfo

end Bindings
