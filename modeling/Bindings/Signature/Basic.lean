import Bindings.BaseType
import Bindings.QName

/-! # Class-file signatures -/

namespace Bindings

mutual

inductive TypeSig where
  | base (base : BaseType)
  /-- `Lpkg/Name<...>.Inner<...>;` -/
  | classType (name : String) (arguments : List ArgSig) (inner : List InnerSig)
  /-- `TName;` -/
  | variable (name : String)
  /-- `[component` -/
  | array (component : TypeSig)

inductive ArgSig where
  /-- `*` -/
  | unbounded
  /-- `+Bound` -/
  | upper (bound : TypeSig)
  /-- `-Bound` -/
  | lower (bound : TypeSig)
  | exactly (type : TypeSig)

/-- `.Inner<...>`, a member of the class named before it. -/
inductive InnerSig where
  | member (name : String) (arguments : List ArgSig)

end

deriving instance Repr, Inhabited, BEq for TypeSig, ArgSig, InnerSig

def InnerSig.name : InnerSig → String
  | .member name _ => name

def InnerSig.arguments : InnerSig → List ArgSig
  | .member _ arguments => arguments

def binaryName (name : String) (inner : List InnerSig) : String :=
  inner.foldl (fun text member => text ++ "$" ++ member.name) name

/-- `Name:ClassBound:InterfaceBound...` -/
structure ParamSig where
  name : String
  classBound : Option TypeSig
  interfaceBounds : List TypeSig
  deriving Repr, Inhabited, BEq

@[simp] def ParamSig.bounds (param : ParamSig) : List TypeSig := param.classBound.toList ++ param.interfaceBounds

structure MethodSig where
  typeParams : List ParamSig
  params : List TypeSig
  result : TypeSig
  thrown : List TypeSig
  deriving Repr, Inhabited, BEq

structure ClassSig where
  typeParams : List ParamSig
  superclass : TypeSig
  interfaces : List TypeSig
  deriving Repr, Inhabited, BEq

end Bindings
