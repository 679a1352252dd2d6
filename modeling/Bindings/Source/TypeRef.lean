import Bindings.BaseType

/-! # Type references -/

namespace Bindings

/-- `?`, `? extends B` or `? super B`. -/
inductive WildcardKind where
  | unbounded | upper | lower
  deriving DecidableEq, Repr, Inhabited

mutual

inductive TypeRef where
  | base (base : BaseType)
  | named (segments : List RefSegment)
  | array (component : TypeRef) (dimensions : UInt32)

inductive RefSegment where
  | segment (name : String) (arguments : Option (List TypeArg))

inductive TypeArg where
  | type (type : TypeRef)
  | wildcard (kind : WildcardKind) (bound : Option TypeRef)

end

deriving instance Repr, BEq for TypeRef, RefSegment, TypeArg

instance : Inhabited TypeRef := ⟨.base .void⟩

instance : Inhabited TypeArg := ⟨.type default⟩

namespace RefSegment

def name : RefSegment → String
  | .segment name _ => name

def arguments? : RefSegment → Option (List TypeArg)
  | .segment _ arguments => arguments

def plain (name : String) : RefSegment := .segment name none

end RefSegment

namespace TypeRef

def ofSegments (names : List String) : TypeRef := .named (names.map .plain)

def withArguments (arguments : List TypeArg) : TypeRef → TypeRef
  | .named segments =>
    .named (segments.dropLast ++ segments.getLast?.toList.map fun last => .segment last.name (some arguments))
  | reference => reference

def arrayOf (dimensions : UInt32) : TypeRef → TypeRef
  | .array component inner => .array component (inner + dimensions)
  | reference => .array reference dimensions

def brackets (dimensions : UInt32) : String := String.join (List.replicate dimensions.toNat "[]")

def segmentText : List RefSegment → String
  | [] => ""
  | [segment] => segment.name
  | segment :: next :: rest => segment.name ++ "." ++ segmentText (next :: rest)

def display : TypeRef → String
  | .base kind => kind.keyword
  | .named segments => segmentText segments
  | .array component dimensions => component.display ++ brackets dimensions

end TypeRef

end Bindings
