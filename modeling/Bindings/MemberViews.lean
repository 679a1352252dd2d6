import Bindings.Compiled.Signature
import Bindings.Substitution

/-!
# Members seen through a receiver

A member of a generic class is seen through a parameterized receiver with its arguments put in, and through a
raw receiver erased. Static members are not viewed.
-/

namespace Bindings.Query

def boundsMention (world : World) (vars : List TypeId) (var : TypeId) : Bool :=
  (world.type var).typeVariable?.any fun info =>
    info.superclass.any (world.mentions vars) || info.interfaces.any (world.mentions vars)

def renewBounds (s : Substitution) (old new : TypeId) : Query Unit := do
  let some info := ((← get).type old).typeVariable? | return
  let classBound ←
    match info.firstBound, info.superclass with
    | some first, some superclass => if first = superclass then some <$> substitute s superclass else pure none
    | _, _ => pure none
  let interfaces ← info.interfaces.mapM (substitute s)
  setBounds new classBound interfaces

def renewVariables (view : MethodId) (s : Substitution) (vars : List TypeId) :
    Query (Substitution × Option (List TypeId)) := do
  let world ← get
  if !vars.any (boundsMention world s.domain) then return (s, none)
  let names := vars.filterMap fun var => (world.type var).typeVariable?.map (·.name)
  let fresh ← Edit.newVariables (.method view) 0 names
  let s := (vars.zip fresh).foldl (fun s (old, new) => s.insert old new) s
  (vars.zip fresh).forM fun (old, new) => renewBounds s old new
  return (s, some fresh)

def eraseView (view : MethodId) (source : MethodInfo) : Query Unit := do
  let params ← source.params.mapM rawErasure
  let result ← rawErasure source.result
  let thrown ← source.thrown.mapM rawErasure
  modify (·.modifyMethod view fun info => { info with params, result, thrown, typeVariables := [], isRaw := true })

def substituteView (view : MethodId) (source : MethodInfo) (s : Substitution) : Query Unit := do
  let (s, renewed) ← renewVariables view s source.typeVariables
  let params ← source.params.mapM (substitute s)
  let result ← substitute s source.result
  let thrown ← source.thrown.mapM (substitute s)
  modify (·.modifyMethod view fun info =>
    { info with params, result, thrown, typeVariables := renewed.getD info.typeVariables })

def noteMethod (id : MethodId) : Edit Unit := modify fun world =>
  let info := world.method id
  world.noteReferrers (.method id) (info.params ++ info.result :: info.thrown)

def methodView (receiver : TypeId) (method : MethodId) : Query MethodId := do
  let world ← get
  let source := world.method method
  if source.isStatic then return method
  match world.caches.methodViews.find? (receiver, method) with
  | some view => return view
  | none =>
    let view ← Edit.newMethod
      { source with declaring := receiver, origin := .view method receiver }
    modify (·.modifyCaches fun caches =>
      { caches with methodViews := caches.methodViews.insert (receiver, method) view })
    let s ← substitutionFor receiver
    if s.raw then eraseView view source else substituteView view source s
    noteMethod view
    return view

def fieldView (receiver : TypeId) (field : FieldId) : Query FieldId := do
  let world ← get
  let source := world.field field
  if source.isStatic then return field
  match world.caches.fieldViews.find? (receiver, field) with
  | some view => return view
  | none =>
    let s ← substitutionFor receiver
    let type ← if s.raw then rawErasure source.type else substitute s source.type
    let view ← Edit.newField
      { source with type, declaring := receiver, base? := some field }
    modify (·.modifyCaches fun caches =>
      { caches with fieldViews := caches.fieldViews.insert (receiver, field) view })
    modify (·.noteReferrers (.field view) [type])
    return view

end Bindings.Query
