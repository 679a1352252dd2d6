import Bindings.Query

/-! # Members of arrays -/

namespace Bindings.Edit

def arrayCloneMethod (array : TypeId) : Edit MethodId := do
  let world ← get
  let array := world.orVoid array
  match world.caches.arrayClones.find? array with
  | some id => return id
  | none =>
    let id ← newMethod
      { selector := WellKnown.arrayClone
        modifiers := .publicFlag
        declaring := array
        result := array
        params := []
        thrown := []
        typeVariables := []
        origin := .arrayClone
        isRaw := false }
    modify (·.modifyCaches fun caches => { caches with arrayClones := caches.arrayClones.insert array id })
    return id

def arrayLengthField (array : TypeId) : Edit FieldId := do
  match (← get).caches.arrayLengths.find? array with
  | some id => return id
  | none =>
    let id ← newField
      { name := WellKnown.arrayLength
        modifiers := .publicFlag ∪ .finalFlag
        type := World.baseType .int
        declaring := array }
    modify (·.modifyCaches fun caches => { caches with arrayLengths := caches.arrayLengths.insert array id })
    return id

end Bindings.Edit
