import Bindings.Visibility

/-! # Imports -/

namespace Bindings.Query

def declaresStaticMember (id : TypeId) (name : String) : Query Bool := do
  completeMembers id
  let world ← get
  let some info := world.class? id | return false
  let hasField := info.fields.any fun field => (world.field field).name == name && (world.field field).isStatic
  let hasMethod := info.methods.any fun method =>
    (world.method method).selector == name && (world.method method).isStatic
  if hasField || hasMethod then return true
  let members ← memberTypes id
  let world ← get
  return members.any fun member => (world.class? member).any (·.sourceName == name)

def importSingle (unit : UnitId) (name : QName) (table : ImportTable) : Query ImportTable := do
  match ← getType name with
  | none =>
    Edit.report .importNotFound [name.dotted]
    return table
  | some id =>
    let world ← get
    let info := world.unit unit
    if !world.isVisibleInPackage id info.package then
      Edit.report .importNotVisible [name.dotted]
      return table
    let clashesWithOwn := info.types.any fun own => own != id && (world.class? own).any (·.sourceName == name.simple)
    let clashesWithImport := (table.single.find? name.simple).any (· != id)
    if clashesWithOwn || clashesWithImport then
      Edit.report .conflictingImport [name.dotted]
      return table
    return { table with single := table.single.insert name.simple id }

def importOnDemand (name : QName) (table : ImportTable) : Query ImportTable := do
  match ← Edit.getPackage name with
  | some package => return { table with onDemand := table.onDemand ++ [.package package] }
  | none =>
    match ← getType name with
    | some id => return { table with onDemand := table.onDemand ++ [.type id] }
    | none =>
      Edit.report .importNotFound [name.dotted]
      return table

def importStaticSingle (name : QName) (table : ImportTable) : Query ImportTable := do
  match ← getType name.parent with
  | none =>
    Edit.report .importNotFound [name.dotted]
    return table
  | some id =>
    if ((← get).class? id).any (·.isCompiled) then
      if !(← declaresStaticMember id name.simple) then
        Edit.report .importNotFound [name.dotted]
        return table
    return { table with staticSingle := table.staticSingle ++ [(id, name.simple)] }

def importStaticOnDemand (name : QName) (table : ImportTable) : Query ImportTable := do
  match ← getType name with
  | some id => return { table with staticOnDemand := table.staticOnDemand ++ [id] }
  | none =>
    Edit.report .importNotFound [name.dotted]
    return table

def importOne (unit : UnitId) (table : ImportTable) (declared : Import) : Query ImportTable :=
  match declared.isStatic, declared.onDemand with
  | false, false => importSingle unit declared.name table
  | false, true => importOnDemand declared.name table
  | true, false => importStaticSingle declared.name table
  | true, true => importStaticOnDemand declared.name table

def importImplicit (unit : UnitId) (table : ImportTable) : Edit ImportTable := do
  match ← Edit.getPackage WellKnown.implicitImport with
  | none => return table
  | some package =>
    if table.onDemand.contains (.package package) || package == ((← get).unit unit).package then return table
    return { table with onDemand := table.onDemand ++ [.package package] }

/-- Resolve the imports of a unit, once. While they are being resolved the unit has none. -/
def resolveImports (unit : UnitId) : Query Unit := do
  let world ← get
  if (world.unit unit).imports.begun then return
  modify (·.modifyUnit unit fun info => { info with imports := { info.imports with begun := true } })
  let some source := world.sources.find? unit | return
  let table ← source.imports.foldlM (importOne unit) { begun := true }
  let table ← importImplicit unit table
  modify (·.modifyUnit unit fun info => { info with imports := table })

end Bindings.Query
