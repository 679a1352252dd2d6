/-! # Modifiers and kinds of classes -/

namespace Bindings

structure Modifiers where
  bits : UInt32
  deriving DecidableEq, Repr, Inhabited

namespace Modifiers

def empty : Modifiers := ⟨0⟩
def publicFlag : Modifiers := ⟨0x0001⟩
def privateFlag : Modifiers := ⟨0x0002⟩
def protectedFlag : Modifiers := ⟨0x0004⟩
def staticFlag : Modifiers := ⟨0x0008⟩
def finalFlag : Modifiers := ⟨0x0010⟩
def varargsFlag : Modifiers := ⟨0x0080⟩
def interfaceFlag : Modifiers := ⟨0x0200⟩
def abstractFlag : Modifiers := ⟨0x0400⟩
def syntheticFlag : Modifiers := ⟨0x1000⟩
def annotationFlag : Modifiers := ⟨0x2000⟩
def enumFlag : Modifiers := ⟨0x4000⟩

instance : Union Modifiers := ⟨fun a b => ⟨a.bits ||| b.bits⟩⟩

instance : Inter Modifiers := ⟨fun a b => ⟨a.bits &&& b.bits⟩⟩

def has (a flags : Modifiers) : Bool := a ∩ flags == flags

def without (a flags : Modifiers) : Modifiers := ⟨a.bits &&& ~~~flags.bits⟩

def access : Modifiers := publicFlag ∪ privateFlag ∪ protectedFlag

def isPackagePrivate (a : Modifiers) : Bool := a ∩ access == empty

def isPublic (a : Modifiers) : Bool := a.has publicFlag

def isPrivate (a : Modifiers) : Bool := a.has privateFlag

def isProtected (a : Modifiers) : Bool := a.has protectedFlag

def isStatic (a : Modifiers) : Bool := a.has staticFlag

def isFinal (a : Modifiers) : Bool := a.has finalFlag

def isVarargs (a : Modifiers) : Bool := a.has varargsFlag

def isAbstract (a : Modifiers) : Bool := a.has abstractFlag

def isSynthetic (a : Modifiers) : Bool := a.has syntheticFlag

end Modifiers

inductive ClassKind where
  | ordinary | interface | enumeration | annotationType
  deriving DecidableEq, Repr, Inhabited

namespace ClassKind

def isInterface : ClassKind → Bool
  | interface | annotationType => true
  | ordinary | enumeration => false

def ofModifiers (modifiers : Modifiers) : ClassKind :=
  if modifiers.has .annotationFlag then annotationType
  else if modifiers.has .interfaceFlag then interface
  else if modifiers.has .enumFlag then enumeration
  else ordinary

def flags : ClassKind → Modifiers
  | ordinary => .empty
  | interface => .interfaceFlag
  | enumeration => .enumFlag
  | annotationType => .interfaceFlag ∪ .annotationFlag

def defaultModifiers : ClassKind → Modifiers
  | ordinary => .publicFlag
  | interface => .publicFlag ∪ .interfaceFlag ∪ .abstractFlag
  | enumeration => .publicFlag ∪ .enumFlag
  | annotationType => .publicFlag ∪ .interfaceFlag ∪ .annotationFlag ∪ .abstractFlag

def label : ClassKind → String
  | ordinary => "class"
  | interface => "interface"
  | enumeration => "enum"
  | annotationType => "annotation"

def ofLabel? (text : String) : Option ClassKind :=
  [ordinary, interface, enumeration, annotationType].find? (·.label == text)

end ClassKind

end Bindings
