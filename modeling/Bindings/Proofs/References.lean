import Bindings.Proofs.Reachable

/-!
# Types of references

Whatever a reference names, the answer is a type all of whose parts are in order (`World.Proper`): wrong counts,
base types as arguments and names without a type end in raw and missing types.
-/

namespace Bindings.World

variable {w w' : World} {scope : ScopeId} {reference : TypeRef} {isLast : World → Bool} {fuel : Nat} {id : TypeId}

theorem Reachable.typeOfRef_proper (h : w.Reachable) (hgenerics : w.options.generics)
    (hrun : Query.typeOfRef scope reference (.upTo isLast fuel) w = (.ok id, w')) :
    w'.options.generics ∧ w'.Proper id := by
  obtain ⟨hcourse, hproper⟩ :=
    Query.typeOfRefIn_runs scope .undefinedType reference h.sound _ (Demand.orderly_upTo isLast fuel)
  rw [← Query.typeOfRef, hrun] at hcourse hproper
  exact ⟨hcourse.level.options ▸ hgenerics, hproper id rfl⟩

def chestWorld : World :=
  (initial {} .rootOnly {}).after
    [.buildUnit { file := "Chest.java", package := ⟨["p"]⟩
                  types := [{ name := "Chest"
                              typeParams := [{ name := "T", bounds := [] }] }] }]

/-- `Chest<? extends Chest>[]` -/
def chestRef : TypeRef :=
  .array (.named [.segment "Chest" (some [.wildcard .upper (some (.ofSegments ["Chest"]))])]) 1

theorem typeOfRef_proper_chest : ∃ v, Query.typeOfRef ⟨1⟩ chestRef .standard chestWorld = (.ok ⟨15⟩, v) ∧
    v.options.generics ∧ v.Proper ⟨15⟩ := by
  have hread : (Query.typeOfRef ⟨1⟩ chestRef .standard chestWorld).1.toOption = some ⟨15⟩ ∧
      chestWorld.options.generics := by decide +kernel
  obtain ⟨hfound, hgenerics⟩ := hread
  generalize hrun : Query.typeOfRef ⟨1⟩ chestRef .standard chestWorld = result at hfound ⊢
  obtain ⟨_ | id, v⟩ := result
  · cases hfound
  obtain rfl : id = ⟨15⟩ := Option.some.inj hfound
  have hreach : chestWorld.Reachable := (Reachable.initial {} .rootOnly {}).after _
  exact ⟨v, rfl, hreach.typeOfRef_proper hgenerics hrun⟩

end Bindings.World
