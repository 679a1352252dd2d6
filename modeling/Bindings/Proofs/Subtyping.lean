import Bindings.Proofs.Reachable
import Bindings.Proofs.Replay.Subtyping

/-!
# Comparing two types twice

A comparison for which nothing had to be loaded is answered the same way from then on
(`Reachable.compatible_final`). What has to be loaded may change the answer.
-/

namespace Bindings.World

open Query

variable {w : World}

theorem Reachable.compatible_final (h : w.Reachable) (hequipped : w.Equipped) {source target : TypeId}
    (hsource : w.Knows source) (htarget : w.Knows target) (d : Demand) {answer : Bool}
    (hfirst : (compatible source target (.idle d.fuel) w).1 = .ok answer) :
    (compatible source target).Repeats d w answer :=
  (compatible_replays w h.sound hequipped source target hsource htarget).repeats hfirst

def subClassPath : ClassPath := .ofClasses
  [{ name := "java/lang/Cloneable" }, { name := "java/io/Serializable" }, .generic "p/Box",
   { name := "p/Sub", superclass := "p/Box" },
   { name := "p/Holder", fields := [{ name := "box", descriptor := "Lp/Box;", signature := "Lp/Box<Lp/Holder;>;" }] }]

def subOperations : List Operation :=
  [.getType ⟨["p", "Sub"]⟩, .getType ⟨["p", "Holder"]⟩, .fields ⟨11⟩]

def subWorld : World := (initial {} subClassPath {}).after subOperations

def comparedWorld : World :=
  subWorld.after [.compatible ⟨10⟩ ⟨13⟩, .getType WellKnown.cloneable, .getType WellKnown.serializable]

theorem compatible_final_compared :
    (compatible ⟨10⟩ ⟨13⟩ (.idle 1000) comparedWorld).1 = .ok true ∧
      (compatible ⟨10⟩ ⟨13⟩).Repeats (.ofFuel 1001) comparedWorld true := by
  have hread : comparedWorld.isEquipped = true ∧ comparedWorld.types.size = 20 ∧
      (compatible ⟨10⟩ ⟨13⟩ (.idle 1000) comparedWorld).1 = .ok true := by decide +kernel
  obtain ⟨hequipped, hsize, hfirst⟩ := hread
  have hreachable : comparedWorld.Reachable := ((Reachable.initial {} subClassPath {}).after _).after _
  have hknows : ∀ index, index < 20 → comparedWorld.Knows ⟨index⟩ := fun index hlt =>
    Nat.lt_of_lt_of_eq hlt hsize.symm
  exact ⟨hfirst, hreachable.compatible_final (equipped_of_test hequipped) (hknows 10 (by decide))
    (hknows 13 (by decide)) (.ofFuel 1001) hfirst⟩

/-- The first comparison loads the class that the target is waiting for, too late to see it. -/
theorem compatible_changes_its_answer :
    subWorld.Undisturbed ∧ (compatible ⟨10⟩ ⟨13⟩ .standard subWorld).1 = .ok false ∧
      (compatible ⟨10⟩ ⟨13⟩ .standard (compatible ⟨10⟩ ⟨13⟩ .standard subWorld).2).1 = .ok true :=
  ⟨(Undisturbed.initial {} subClassPath {}).after (by decide +kernel), by decide +kernel⟩

end Bindings.World
