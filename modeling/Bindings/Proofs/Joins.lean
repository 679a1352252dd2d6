import Bindings.Proofs.Reachable
import Bindings.Proofs.Replay.Joins

/-!
# Joins

A join that needs nothing to be loaded is the same whenever it is asked for
(`Reachable.leastUpperBound_final`). One that loads a class may change (`leastUpperBound_changes_its_answer`).
-/

namespace Bindings.World

open Query

variable {w : World}

theorem Reachable.leastUpperBound_final (h : w.Reachable) (hequipped : w.Equipped) {types : List TypeId}
    (htypes : w.KnowsAll types) (d : Demand) {answer : Option TypeId}
    (hfirst : (leastUpperBound types (.idle d.fuel) w).1 = .ok answer) :
    (leastUpperBound types).Repeats d w answer :=
  (leastUpperBound_replays w h.sound hequipped types htypes).repeats hfirst

def siblingClassPath : ClassPath := .ofClasses
  [{ name := "java/lang/Cloneable" }, { name := "java/io/Serializable" }, .generic "p/Box",
   { name := "p/A", superclass := "p/Box", signature := "Lp/Box<Lp/A;>;" },
   { name := "p/B", superclass := "p/Box", signature := "Lp/Box<Lp/B;>;" }]

def siblingOperations : List Operation := [.getType ⟨["p", "A"]⟩, .getType ⟨["p", "B"]⟩]

def siblingWorld : World := (initial {} siblingClassPath {}).after siblingOperations

def joinedWorld : World :=
  siblingWorld.after
    [.leastUpperBound [⟨10⟩, ⟨11⟩], .getType WellKnown.cloneable, .getType WellKnown.serializable]

theorem leastUpperBound_final_joined :
    (leastUpperBound [⟨10⟩, ⟨11⟩] (.idle 1000) joinedWorld).1 = .ok (some ⟨30⟩) ∧
      (leastUpperBound [⟨10⟩, ⟨11⟩]).Repeats (.ofFuel 1001) joinedWorld (some ⟨30⟩) := by
  have hread : joinedWorld.isEquipped = true ∧ joinedWorld.types.size = 21 ∧
      (leastUpperBound [⟨10⟩, ⟨11⟩] (.idle 1000) joinedWorld).1 = .ok (some ⟨30⟩) := by decide +kernel
  obtain ⟨hequipped, hsize, hfirst⟩ := hread
  have hreachable : joinedWorld.Reachable := ((Reachable.initial {} siblingClassPath {}).after _).after _
  have hknows : joinedWorld.KnowsAll [⟨10⟩, ⟨11⟩] := by
    simp [KnowsAll, Knows, hsize]
  exact ⟨hfirst, hreachable.leastUpperBound_final (equipped_of_test hequipped) hknows (.ofFuel 1001) hfirst⟩

/-- The generic class is a placeholder above the one class and loaded above the other, so the first join is the
root of the hierarchy. The second one is the generic class with arguments. -/
theorem leastUpperBound_changes_its_answer :
    siblingWorld.Undisturbed ∧
      let made := leastUpperBound [⟨10⟩, ⟨11⟩] .standard siblingWorld
      made.1 = .ok (some ⟨17⟩) ∧ made.2.isObject ⟨17⟩ ∧
        let again := leastUpperBound [⟨10⟩, ⟨11⟩] .standard made.2
        again.1 = .ok (some ⟨28⟩) ∧ again.2.type ⟨28⟩ = .parameterized ⟨14⟩ [⟨27⟩] none ∧
          (again.2.class? ⟨14⟩).map (·.name.dotted) = some "p.Box" :=
  ⟨(Undisturbed.initial {} siblingClassPath {}).after (by decide +kernel), by decide +kernel⟩

end Bindings.World
