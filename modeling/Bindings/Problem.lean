/-!
# Problems

The message of a problem is the template of its kind with `{0}`, `{1}`, ... replaced by the arguments, one
argument after the other.
-/

namespace Bindings

inductive ProblemKind where
  | duplicateType
  | importNotFound
  | conflictingImport
  | importNotVisible
  | hierarchyCycle
  | superclassMustBeClass
  | superinterfaceMustBeInterface
  | extendsFinalClass
  | supertypeIsTypeVariable
  | supertypeNotFound
  | duplicateSuperinterface
  | superinterfacesCollide
  | typeArgumentMismatch
  | typeArgumentCount
  | notGeneric
  | primitiveTypeArgument
  | uncheckedTypeArgument
  | uncheckedConversion
  | uncheckedRawCall
  | undefinedType
  | ambiguousType
  | notVisibleType
  | duplicateField
  | duplicateMethod
  | duplicateLocal
  | incompleteClassPath
  | corruptedSignature
  deriving DecidableEq, Repr, Inhabited

namespace ProblemKind

def all : List ProblemKind :=
  [duplicateType, importNotFound, conflictingImport, importNotVisible, hierarchyCycle,
    superclassMustBeClass, superinterfaceMustBeInterface, extendsFinalClass,
    supertypeIsTypeVariable, supertypeNotFound, duplicateSuperinterface, superinterfacesCollide,
    typeArgumentMismatch, typeArgumentCount, notGeneric, primitiveTypeArgument,
    uncheckedTypeArgument, uncheckedConversion, uncheckedRawCall, undefinedType, ambiguousType,
    notVisibleType, duplicateField, duplicateMethod, duplicateLocal, incompleteClassPath,
    corruptedSignature]

/-- The code and the template. -/
def description : ProblemKind → String × String
  | duplicateType => ("E1001", "The type \x7b0\x7d is already defined")
  | importNotFound => ("E1002", "The import \x7b0\x7d cannot be resolved")
  | conflictingImport => ("E1003", "The import \x7b0\x7d conflicts with a type already visible in this unit")
  | importNotVisible => ("E1004", "The type \x7b0\x7d is not visible")
  | hierarchyCycle => ("E1101", "Cycle detected: the type \x7b0\x7d cannot extend/implement \x7b1\x7d")
  | superclassMustBeClass => ("E1102",
    "The type \x7b0\x7d cannot be the superclass of \x7b1\x7d; a superclass must be a class")
  | superinterfaceMustBeInterface => ("E1103",
    "The type \x7b0\x7d cannot be a superinterface of \x7b1\x7d; a superinterface must be an interface")
  | extendsFinalClass => ("E1104", "The type \x7b1\x7d cannot subclass the final class \x7b0\x7d")
  | supertypeIsTypeVariable => ("E1105", "Cannot refer to the type parameter \x7b0\x7d as a supertype of \x7b1\x7d")
  | supertypeNotFound => ("E1106", "The supertype \x7b0\x7d of \x7b1\x7d cannot be resolved")
  | duplicateSuperinterface => ("E1107", "Duplicate interface \x7b0\x7d for the type \x7b1\x7d")
  | superinterfacesCollide => ("E1108", "The type \x7b2\x7d cannot implement both \x7b0\x7d and \x7b1\x7d")
  | typeArgumentMismatch => ("E1201",
    "Bound mismatch: the type \x7b0\x7d is not a valid substitute for the bounded parameter " ++
      "\x7b1\x7d of \x7b2\x7d")
  | typeArgumentCount => ("E1202", "Incorrect number of arguments for type \x7b0\x7d")
  | notGeneric => ("E1203", "The type \x7b0\x7d is not generic; it cannot be parameterized with arguments")
  | primitiveTypeArgument => ("E1204", "Syntax error, insert a reference type instead of \x7b0\x7d")
  | uncheckedTypeArgument => ("E1205",
    "Type safety: the type \x7b0\x7d satisfies the bound of \x7b1\x7d in \x7b2\x7d only through a raw type")
  | uncheckedConversion => ("E1206",
    "Type safety: the expression of type \x7b0\x7d needs unchecked conversion to conform to \x7b1\x7d")
  | uncheckedRawCall => ("E1207",
    "Type safety: the method \x7b0\x7d belongs to the raw type \x7b1\x7d; references to generic type " ++
      "\x7b1\x7d should be parameterized")
  | undefinedType => ("E1301", "\x7b0\x7d cannot be resolved to a type")
  | ambiguousType => ("E1302", "The type \x7b0\x7d is ambiguous")
  | notVisibleType => ("E1303", "The type \x7b0\x7d is not visible")
  | duplicateField => ("E1401", "Duplicate field \x7b1\x7d.\x7b0\x7d")
  | duplicateMethod => ("E1402", "Duplicate method \x7b0\x7d in type \x7b1\x7d")
  | duplicateLocal => ("E1403", "Duplicate local variable \x7b0\x7d")
  | incompleteClassPath => ("E1501",
    "The type \x7b0\x7d cannot be resolved. It is indirectly referenced from required class files")
  | corruptedSignature => ("E1502", "The class file \x7b0\x7d contains a corrupted signature: \x7b1\x7d")

def code (kind : ProblemKind) : String := kind.description.1

def template (kind : ProblemKind) : String := kind.description.2

def ofCode? (text : String) : Option ProblemKind := all.find? (·.code == text)

end ProblemKind

def replaceFrom (pattern replacement : List Char) : Nat → List Char → List Char
  | _, [] => []
  | skip + 1, _ :: rest => replaceFrom pattern replacement skip rest
  | 0, c :: rest =>
    if pattern.isPrefixOf (c :: rest) then replacement ++ replaceFrom pattern replacement (pattern.length - 1) rest
    else c :: replaceFrom pattern replacement 0 rest

structure Problem where
  kind : ProblemKind
  arguments : List String
  deriving DecidableEq, Repr, Inhabited

namespace Problem

def fill (i : Nat) (text : List Char) : List String → List Char
  | [] => text
  | argument :: rest =>
    let hole := '\x7b' :: (Nat.toDigits 10 i ++ ['\x7d'])
    fill (i + 1) (replaceFrom hole argument.toList 0 text) rest

def message (problem : Problem) : String := String.ofList (fill 0 problem.kind.template.toList problem.arguments)

def display (problem : Problem) : String := "[" ++ problem.kind.code ++ "] " ++ problem.message

end Problem

structure ProblemLog where
  silent : Bool := false
  problems : Array Problem := #[]
  deriving Repr, Inhabited

namespace ProblemLog

def add (log : ProblemLog) (problem : Problem) : ProblemLog :=
  if log.silent then log else { log with problems := log.problems.push problem }

def clear (log : ProblemLog) : ProblemLog := { log with problems := #[] }

def ofKind (log : ProblemLog) (kind : ProblemKind) : List Problem := log.problems.toList.filter (·.kind == kind)

end ProblemLog

end Bindings
