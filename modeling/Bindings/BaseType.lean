/-! # Base types -/

namespace Bindings

inductive BaseType where
  | boolean | byte | char | short | int | long | float | double | void | null
  deriving DecidableEq, Repr, Inhabited

namespace BaseType

def all : List BaseType := [boolean, byte, char, short, int, long, float, double, void, null]

def keyword : BaseType → String
  | boolean => "boolean"
  | byte => "byte"
  | char => "char"
  | short => "short"
  | int => "int"
  | long => "long"
  | float => "float"
  | double => "double"
  | void => "void"
  | null => "null"

/-- The base type with the given keyword; `null` is one of them. -/
def named? (name : String) : Option BaseType := all.find? (·.keyword == name)

/-- The base type a declaration can name; `null` is not one of them. -/
def ofKeyword? (name : String) : Option BaseType := all.find? fun base => base.keyword == name && base != null

def ofDescriptor? : Char → Option BaseType
  | 'Z' => some boolean
  | 'B' => some byte
  | 'C' => some char
  | 'S' => some short
  | 'I' => some int
  | 'J' => some long
  | 'F' => some float
  | 'D' => some double
  | 'V' => some void
  | _ => none

def descriptor? : BaseType → Option Char
  | boolean => some 'Z'
  | byte => some 'B'
  | char => some 'C'
  | short => some 'S'
  | int => some 'I'
  | long => some 'J'
  | float => some 'F'
  | double => some 'D'
  | void => some 'V'
  | null => none

def index : BaseType → Nat
  | boolean => 0
  | byte => 1
  | char => 2
  | short => 3
  | int => 4
  | long => 5
  | float => 6
  | double => 7
  | void => 8
  | null => 9

def isNumeric : BaseType → Bool
  | boolean | void | null => false
  | _ => true

def isWide : BaseType → Bool
  | long | double => true
  | _ => false

def widenings : BaseType → List BaseType
  | byte => [short, int, long, float, double]
  | short => [int, long, float, double]
  | char => [int, long, float, double]
  | int => [long, float, double]
  | long => [float, double]
  | float => [double]
  | double | boolean | void | null => []

def widensTo (source target : BaseType) : Bool := source == target || source.widenings.contains target

def boxName? : BaseType → Option String
  | boolean => some "java.lang.Boolean"
  | byte => some "java.lang.Byte"
  | char => some "java.lang.Character"
  | short => some "java.lang.Short"
  | int => some "java.lang.Integer"
  | long => some "java.lang.Long"
  | float => some "java.lang.Float"
  | double => some "java.lang.Double"
  | void | null => none

def ofBoxName? (name : String) : Option BaseType := all.find? (·.boxName? == some name)

end BaseType

end Bindings
