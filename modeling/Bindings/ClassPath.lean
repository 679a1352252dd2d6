import Bindings.ClassFile
import Bindings.Source.Declaration
import Bindings.Table

/-!
# Class paths

Where types come from that nobody has registered yet. A compiled class can be asked for again and again; a
source unit and a group of loose declarations is handed out once.
-/

namespace Bindings

inductive Supply where
  | compiled (file : ClassFile)
  | unit (source : SourceUnit)
  | loose (package : QName) (types : List TypeDecl)
  deriving Inhabited

structure ClassPath where
  compiled : Table String ClassFile := .empty
  sources : Table String SourceUnit := .empty
  packages : List String := []
  loose : List (QName × List TypeDecl) := []
  asked : Array QName := #[]
  deriving Inhabited

namespace ClassPath

def packageNames : List String → List String
  | [] => []
  | segment :: outer => QName.dotted ⟨(segment :: outer).reverse⟩ :: packageNames outer

def addPackage (path : ClassPath) (package : QName) : ClassPath :=
  { path with packages := packageNames package.segments.reverse ++ path.packages }

def addClass (path : ClassPath) (file : ClassFile) : ClassPath :=
  let path := path.addPackage file.qname.parent
  { path with compiled := path.compiled.insert file.qname.dotted file }

def addUnit (path : ClassPath) (source : SourceUnit) : ClassPath :=
  let path := path.addPackage source.package
  { path with
    sources := source.types.foldl
      (fun table decl => table.insert (source.package.child decl.name).dotted source) path.sources }

def takeLoose (name : QName) :
    List (QName × List TypeDecl) → Option ((QName × List TypeDecl) × List (QName × List TypeDecl))
  | [] => none
  | group :: rest =>
    if group.1 = name.parent ∧ group.2.any (fun decl => some decl.name == name.last?) then some (group, rest)
    else (takeLoose name rest).map fun (found, others) => (found, group :: others)

def find (path : ClassPath) (name : QName) : Option Supply × ClassPath :=
  let path := { path with asked := path.asked.push name }
  match path.compiled.find? name.dotted with
  | some file => (some (.compiled file), path)
  | none =>
    match path.sources.find? name.dotted with
    | some source =>
      let left := (path.sources.erase name.dotted).filterValues (·.file != source.file)
      (some (.unit source), { path with sources := left })
    | none =>
      match takeLoose name path.loose with
      | some ((package, types), left) => (some (.loose package types), { path with loose := left })
      | none => (none, path)

def isPackage (path : ClassPath) (name : QName) : Bool := path.packages.contains name.dotted

def requests (path : ClassPath) : Array String := path.asked.map (·.dotted)

def requestCount (path : ClassPath) (name : String) : Nat := path.requests.toList.count name

end ClassPath

end Bindings
