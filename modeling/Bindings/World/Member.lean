import Bindings.Handle
import Bindings.Modifiers
import Bindings.QName

/-!
# Methods, fields and local variables of a world
-/

namespace Bindings

inductive MethodOrigin where
  | declared
  | defaultConstructor
  | arrayClone
  | view (method : MethodId) (receiver : TypeId)
  | instantiated (method : MethodId) (arguments : List TypeId) (inferred : Bool)
  deriving DecidableEq, Repr, Inhabited

structure MethodInfo where
  selector : String
  modifiers : Modifiers
  declaring : TypeId
  result : TypeId
  params : List TypeId
  thrown : List TypeId
  typeVariables : List TypeId
  origin : MethodOrigin
  isRaw : Bool
  deriving DecidableEq, Repr, Inhabited

namespace MethodInfo

def isConstructor (info : MethodInfo) : Bool := info.selector == WellKnown.constructor

def isStatic (info : MethodInfo) : Bool := info.modifiers.isStatic

def isAbstract (info : MethodInfo) : Bool := info.modifiers.isAbstract

def isVarargs (info : MethodInfo) : Bool := info.modifiers.isVarargs

def isGeneric (info : MethodInfo) : Bool := !info.typeVariables.isEmpty

def base? (info : MethodInfo) : Option MethodId :=
  match info.origin with
  | .view method _ | .instantiated method _ _ => some method
  | _ => none

def typeArguments (info : MethodInfo) : List TypeId :=
  match info.origin with
  | .instantiated _ arguments _ => arguments
  | _ => []

end MethodInfo

structure FieldInfo where
  name : String
  modifiers : Modifiers
  type : TypeId
  declaring : TypeId
  base? : Option FieldId := none
  deriving DecidableEq, Repr, Inhabited

def FieldInfo.isStatic (info : FieldInfo) : Bool := info.modifiers.isStatic

structure LocalInfo where
  name : String
  type : TypeId
  modifiers : Modifiers
  scope : ScopeId
  isArgument : Bool
  used : Bool
  slot : Option Nat := none
  deriving DecidableEq, Repr, Inhabited

end Bindings
