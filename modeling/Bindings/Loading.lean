import Bindings.Members

/-!
# Loading and completing

All registered units go through a stage together. A unit that the class path supplies in the meantime catches
up with the current stage; supplied at any other time it is completed at once.
-/

namespace Bindings

def Stage.next? : Stage → Option Stage
  | typesBuilt => some importsResolved
  | importsResolved => some hierarchyConnected
  | hierarchyConnected => some membersBuilt
  | membersBuilt => none

namespace Query

def runStage (unit : UnitId) : Stage → Query Unit
  | .typesBuilt => return
  | .importsResolved => resolveImports unit
  | .hierarchyConnected => do ((← get).unitTypes unit).forM connectHierarchy
  | .membersBuilt => do ((← get).unitTypes unit).forM buildSourceMembers

def advanceUnit (unit : UnitId) (target : Stage) : Nat → Query Unit
  | 0 => return
  | steps + 1 => do
    let stage := ((← get).unit unit).stage
    if target.rank ≤ stage.rank then return
    match stage.next? with
    | none => return
    | some next =>
      runStage unit next
      modify (·.modifyUnit unit fun info => { info with stage := next })
      advanceUnit unit target steps

def bringUnitTo (unit : UnitId) (target : Stage) : Query Unit := advanceUnit unit target 3

def acceptUnit (source : SourceUnit) : Query Unit := do
  let unit ← Edit.buildUnit source
  match (← get).stage with
  | some stage => bringUnitTo unit stage
  | none =>
    bringUnitTo unit .membersBuilt
    modify fun world => { world with pendingUnits := world.pendingUnits.filter (· != unit) }
    Edit.releaseUnit unit

def looseFileName (package : QName) : String := package.dotted ++ ".declarations"

def acceptSupply : Supply → Query Unit
  | .compiled file => do
    let _ ← createClass file
  | .unit source => acceptUnit source
  | .loose package types => acceptUnit { file := looseFileName package, package, types }

def noteAbsent (name : QName) : Edit Unit := do
  if let some package ← Edit.getPackage name.parent then Edit.modifyPackage package (·.addAbsent name.simple)

def loadName (name : QName) : Query Unit := do
  Edit.modifyStats fun stats => { stats with requests := stats.requests + 1 }
  let supply ← modifyGet fun world =>
    let (supply, classPath) := world.classPath.find name
    (supply, { world with classPath })
  match supply with
  | none => noteAbsent name
  | some supply => acceptSupply supply

end Query

def Demand.meet (isLast : World → Bool) (step : Step Unit) : Step Unit := fun world =>
  if isLast world then (.error .outOfFuel, world) else step world

/-- Demands met by loading and connecting, with a budget for the searches and for how deeply demands
nest, until one comes up in a world that is to be the last. -/
def Demand.upTo (isLast : World → Bool) : Nat → Demand
  | 0 =>
    { load := fun _ => throw .outOfFuel
      connect := fun _ => throw .outOfFuel
      fuel := 0 }
  | fuel + 1 =>
    { load := fun name => meet isLast (Query.loadName name (upTo isLast fuel))
      connect := fun id => meet isLast (Query.connectHierarchy id (upTo isLast fuel))
      fuel }

def Demand.ofFuel (fuel : Nat) : Demand := .upTo (fun _ => false) fuel

def Demand.standard : Demand := .ofFuel 1000000

namespace Query

structure CompletedUnit where
  unit : UnitId
  file : String
  scope : ScopeId
  types : List TypeId

def advancePending (each : UnitId → Query Unit) : Nat → Nat → Query Unit
  | 0, _ => giveUp
  | fuel + 1, index => do
    match (← get).pendingUnits[index]? with
    | none => return
    | some unit =>
      each unit
      advancePending each fuel (index + 1)

def completeStage (stage : Stage) : Query Unit := do
  modify fun world => { world with stage := some stage }
  if stage = .hierarchyConnected then modify fun world => { world with deferredChecks := some [] }
  advancePending (bringUnitTo · stage) (← fuel) 0
  if stage = .hierarchyConnected then
    runDeferredChecks
    advancePending (fun unit => do ((← get).unitTypes unit).forM checkCollisions) (← fuel) 0

def finishUnit (unit : UnitId) : Edit CompletedUnit := do
  Edit.releaseUnit unit
  let info := (← get).unit unit
  return { unit, file := info.file, scope := info.scope, types := info.types }

def completeUnits : Query (List CompletedUnit) := do
  thenAlways ([Stage.importsResolved, .hierarchyConnected, .membersBuilt].forM completeStage) <|
    modify fun world => { world with stage := none, deferredChecks := none }
  let pending := (← get).pendingUnits
  modify fun world => { world with pendingUnits := [] }
  pending.mapM fun unit => finishUnit unit

end Query

end Bindings
