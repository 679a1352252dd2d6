import Bindings.World.Basic

/-!
# Steps on a world

An `Edit` changes a world and cannot fail. A `Query` may also load classes, connect hierarchies and stop; what
it demands of the rest of the library is given as a `Demand`.
-/

namespace Bindings

inductive Halt where
  | missingFoundation (name : String)
  | outOfFuel
  deriving DecidableEq, Repr

def Halt.message : Halt → String
  | missingFoundation name => "The type " ++ name ++ " cannot be resolved. The class path is incorrect or incomplete"
  | outOfFuel => "The search was too large"

abbrev Edit := StateM World

/-- A change of a world that may stop; the changes made before it stopped stay. -/
abbrev Step := ExceptT Halt Edit

/-- What a query may ask for: to load the class of a name, and to connect the hierarchy of a
class. -/
structure Demand where
  load : QName → Step Unit
  connect : TypeId → Step Unit
  fuel : Nat

abbrev Query := ReaderT Demand Step

namespace Query

def load (name : QName) : Query Unit := fun demand => demand.load name

def connect (id : TypeId) : Query Unit := fun demand => demand.connect id

def fuel : Query Nat := fun demand => pure demand.fuel

def thenAlways {α : Type} (query : Query α) (after : Edit Unit) : Query α := fun demand world =>
  let (result, world) := query demand world
  let ((), world) := after world
  (result, world)

def giveUp {α : Type} : Query α := throw .outOfFuel

end Query

namespace Edit

def report (kind : ProblemKind) (arguments : List String) : Edit Unit := modify (·.report kind arguments)

def newType (info : TypeInfo) : Edit TypeId := modifyGet (·.addType info)

def newMethod (info : MethodInfo) : Edit MethodId := modifyGet (·.addMethod info)

def newField (info : FieldInfo) : Edit FieldId := modifyGet (·.addField info)

def newScope (scope : Scope) : Edit ScopeId := modifyGet (·.addScope scope)

def modifyClass (id : TypeId) (change : ClassInfo → ClassInfo) : Edit Unit := modify (·.modifyClass id change)

def modifyState (id : TypeId) (change : ClassState → ClassState) : Edit Unit :=
  modifyClass id fun info => { info with state := change info.state }

def modifyPackage (id : PackageId) (change : PackageInfo → PackageInfo) : Edit Unit :=
  modify (·.modifyPackage id change)

def modifyStats (change : Stats → Stats) : Edit Unit := modify (·.modifyStats change)

def newMissing (name : QName) (reason : Reason) (closest : Option TypeId := none) : Edit TypeId :=
  newType (.missing name reason closest)

end Edit

end Bindings
