import Bindings.Placeholder

/-! # The registry -/

namespace Bindings

namespace World

def addPackage (world : World) (outer : PackageId) (segment : String) : PackageId × World :=
  let id : PackageId := ⟨world.packages.size⟩
  let info : PackageInfo :=
    { name := (world.package outer).name.child segment
      parent := if outer = defaultPackage then none else some outer }
  let world := { world with packages := world.packages.push info }
  (id, world.modifyPackage outer fun p => { p with packages := p.packages.insert segment id })

def enterPackage (mayAdd : QName → Bool) : List String → PackageId → World → Option PackageId × World
  | [], current, world => (some current, world)
  | segment :: rest, current, world =>
    match (world.package current).packages.find? segment with
    | some inner => enterPackage mayAdd rest inner world
    | none =>
      if mayAdd ((world.package current).name.child segment) then
        let (inner, world) := world.addPackage current segment
        enterPackage mayAdd rest inner world
      else (none, world)

/-- What a placeholder stands for; any other type stands for itself, and so does a placeholder that
stands for nothing yet. -/
def follow (world : World) (id : TypeId) : TypeId :=
  match world.type id with
  | .placeholder _ (some target) => target
  | _ => id

def known? (world : World) (package : PackageId) (simple : String) : Option TypeId :=
  (world.package package).types.find? simple

end World

namespace Edit

def createPackage (name : QName) : Edit PackageId := modifyGet fun world =>
  let (found, world) := world.enterPackage (fun _ => true) name.segments World.defaultPackage
  (found.getD World.defaultPackage, world)

def getPackage (name : QName) : Edit (Option PackageId) := modifyGet fun world =>
  world.enterPackage world.classPath.isPackage name.segments World.defaultPackage

def listType (package : PackageId) (simple : String) (id : TypeId) : Edit Unit :=
  modifyPackage package fun p => { p with types := p.types.insert simple id }

def typeOrPlaceholder (name : QName) : Edit TypeId := do
  let package ← createPackage name.parent
  let world ← get
  match world.known? package name.simple with
  | some known => return world.follow known
  | none =>
    let id ← newType (.placeholder name none)
    listType package name.simple id
    return id

def registerType (package : PackageId) (simple : String) (id : TypeId) : Edit Unit := do
  let world ← get
  match world.known? package simple with
  | none =>
    listType package simple id
    modifyPackage package (·.removeAbsent simple)
  | some existing =>
    match world.type existing with
    | .placeholder _ target =>
      listType package simple id
      if target.isNone then modify (·.swapPlaceholder existing id)
    | _ => return ()

end Edit

namespace Query

/-- What a placeholder stands for once its name has been loaded. A name without a class is reported and
stands for a missing type from then on. -/
def settlePlaceholder (id : TypeId) (name : QName) : Query TypeId := do
  match (← get).type id with
  | .placeholder _ (some target) => return target
  | _ =>
    if name.dotted = WellKnown.object.dotted then throw (.missingFoundation name.dotted)
    Edit.report .incompleteClassPath [name.dotted]
    let missing ← Edit.newMissing name .notFound
    modify (·.swapPlaceholder id missing)
    return missing

def resolvePlaceholder (id : TypeId) : Query TypeId := do
  match (← get).type id with
  | .placeholder _ (some target) => return target
  | .placeholder name none =>
    load name
    settlePlaceholder id name
  | _ => return id

def resolved (id : TypeId) : Query TypeId := do
  match (← get).type id with
  | .placeholder _ (some target) => return target
  | .placeholder _ none => resolvePlaceholder id
  | _ => return id

def resolvedReal (id : TypeId) : Query (Option TypeId) := do
  let target ← resolved id
  if ((← get).type target).isMissing then return none else return some target

end Query

end Bindings
