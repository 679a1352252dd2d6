/-!
# Qualified names

A name is read by splitting at every separator, so empty segments are kept. The empty text names the default
package.
-/

namespace Bindings

structure QName where
  segments : List String
  deriving DecidableEq, Repr, Inhabited

def splitChars (sep : Char) : List Char → List (List Char)
  | [] => [[]]
  | c :: cs =>
    if c = sep then [] :: splitChars sep cs
    else match splitChars sep cs with
      | [] => [[c]]
      | piece :: pieces => (c :: piece) :: pieces

def joinSegments (sep : String) : List String → String
  | [] => ""
  | [segment] => segment
  | segment :: next :: rest => segment ++ sep ++ joinSegments sep (next :: rest)

namespace QName

def root : QName := ⟨[]⟩

def ofText (sep : Char) (text : String) : QName :=
  if text = "" then root else ⟨(splitChars sep text.toList).map String.ofList⟩

def ofDotted (text : String) : QName := ofText '.' text

def ofInternal (text : String) : QName := ofText '/' text

def dotted (name : QName) : String := joinSegments "." name.segments

def internal (name : QName) : String := joinSegments "/" name.segments

def isRoot (name : QName) : Bool := name.segments.isEmpty

def last? (name : QName) : Option String := name.segments.getLast?

def simple (name : QName) : String := name.last?.getD ""

def parent (name : QName) : QName := ⟨name.segments.dropLast⟩

def child (name : QName) (segment : String) : QName := ⟨name.segments ++ [segment]⟩

def compareSegments : List String → List String → Ordering
  | [], [] => .eq
  | [], _ :: _ => .lt
  | _ :: _, [] => .gt
  | a :: as, b :: bs => (compare a b).then (compareSegments as bs)

def compare (a b : QName) : Ordering := compareSegments a.segments b.segments

end QName

/-! ## Names the language fixes -/

namespace WellKnown

def object : QName := ⟨["java", "lang", "Object"]⟩
def string : QName := ⟨["java", "lang", "String"]⟩
def enumClass : QName := ⟨["java", "lang", "Enum"]⟩
def annotationInterface : QName := ⟨["java", "lang", "annotation", "Annotation"]⟩
def cloneable : QName := ⟨["java", "lang", "Cloneable"]⟩
def serializable : QName := ⟨["java", "io", "Serializable"]⟩
def implicitImport : QName := ⟨["java", "lang"]⟩

def constructor : String := "<init>"
def arrayLength : String := "length"
def arrayClone : String := "clone"

end WellKnown

end Bindings
