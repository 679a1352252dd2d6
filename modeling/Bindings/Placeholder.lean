import Bindings.Query

/-!
# Placeholders

A name of a class that has not been loaded gets a placeholder, and what holds it is noted as a referrer. When
the class arrives, all referrers are made to hold it.
-/

namespace Bindings

def TypeId.swap (source target id : TypeId) : TypeId := if id = source then target else id

def TypeInfo.swap (source target : TypeId) : TypeInfo → TypeInfo
  | .declared info =>
    .declared
      { info with
        superclass := info.superclass.map (.swap source target)
        interfaces := info.interfaces.map (.swap source target)
        enclosing := info.enclosing.map (.swap source target) }
  | .array leaf dimensions => .array (.swap source target leaf) dimensions
  | .parameterized generic arguments enclosing =>
    .parameterized (.swap source target generic) (arguments.map (.swap source target))
      (enclosing.map (.swap source target))
  | .raw generic enclosing => .raw (.swap source target generic) (enclosing.map (.swap source target))
  | .wildcard info =>
    .wildcard
      { info with
        generic := info.generic.map (.swap source target)
        bound := info.bound.map (.swap source target)
        otherBounds := info.otherBounds.map (.swap source target) }
  | .variable info =>
    .variable
      { info with
        firstBound := info.firstBound.map (.swap source target)
        superclass := info.superclass.map (.swap source target)
        interfaces := info.interfaces.map (.swap source target) }
  | .capture info =>
    .capture
      { info with
        upperBounds := info.upperBounds.map (.swap source target)
        lowerBound := info.lowerBound.map (.swap source target) }
  | .base kind => .base kind
  | .placeholder name resolved => .placeholder name resolved
  | .missing name reason closest => .missing name reason closest

def FieldInfo.swap (source target : TypeId) (info : FieldInfo) : FieldInfo :=
  { info with
    type := .swap source target info.type
    declaring := .swap source target info.declaring }

def MethodInfo.swap (source target : TypeId) (info : MethodInfo) : MethodInfo :=
  { info with
    params := info.params.map (.swap source target)
    result := .swap source target info.result
    thrown := info.thrown.map (.swap source target)
    declaring := .swap source target info.declaring }

def Table.moveList {κ α : Type} [DecidableEq κ] (source target : κ) (table : Table κ (List α)) : Table κ (List α) :=
  match table.find? source with
  | none => table
  | some moved =>
    let rest := table.erase source
    rest.insert target ((rest.find? target).getD [] ++ moved)

def Caches.moveLists (source target : TypeId) (caches : Caches) : Caches :=
  { caches with
    arrays := caches.arrays.moveList source target
    parameterized := caches.parameterized.moveList source target
    raw := caches.raw.moveList source target
    wildcards := caches.wildcards.moveList (some source) (some target) }

namespace World

def noted (world : World) (placeholder : TypeId) : List Referrer := (world.referrers.find? placeholder).getD []

def noteReferrer (referrer : Referrer) (world : World) (component : TypeId) : World :=
  if world.isPending component && !(world.noted component).contains referrer then
    { world with
      referrers := world.referrers.insert component (world.noted component ++ [referrer]) }
  else world

def noteReferrers (world : World) (referrer : Referrer) (components : List TypeId) : World :=
  components.foldl (noteReferrer referrer) world

def patch (placeholder target : TypeId) (world : World) : Referrer → World
  | .type id => world.modifyType id (.swap placeholder target)
  | .field id => world.modifyField id (.swap placeholder target)
  | .method id => world.modifyMethod id (.swap placeholder target)

/-- Record what a placeholder stands for. The types built on it are listed under the target, and
nothing is noted for it any more. -/
def settle (world : World) (placeholder target : TypeId) : World :=
  { world.modifyType placeholder (.setTarget target) with
    caches := world.caches.moveLists placeholder target
    referrers := world.referrers.erase placeholder
    stats := { world.stats with
      placeholderResolutions := world.stats.placeholderResolutions + 1 } }

/-- A placeholder turns out to be `target`. Only the first time has an effect. -/
def swapPlaceholder (world : World) (placeholder target : TypeId) : World :=
  match world.type placeholder with
  | .placeholder _ (some _) => world
  | _ => (world.noted placeholder).foldl (patch placeholder target) (world.settle placeholder target)

end World

end Bindings
