import Bindings.Proofs.Reachable
import Bindings.Proofs.Replay.Supertypes

/-!
# Asking for supertypes twice

Supertypes for which nothing had to be loaded are the same handles from then on, and no type is made for
them on a placeholder that stands for something (`Reachable.supertypes_final`).
-/

namespace Bindings.World

open Query

variable {w : World}

theorem Reachable.supertypes_final (h : w.Reachable) (hequipped : w.Equipped) {id : TypeId}
    (hid : w.Knows id) (d : Demand) :
    (∀ superclass, (Query.superclass id (.idle d.fuel) w).1 = .ok superclass →
      (Query.superclass id).Repeats d w superclass ∧
        ∀ generic, (Query.superclass id d w).2.Stale generic → w.Stale generic) ∧
    (∀ interfaces, (Query.superInterfaces id (.idle d.fuel) w).1 = .ok interfaces →
      (superInterfaces id).Repeats d w interfaces ∧
        ∀ generic, (superInterfaces id d w).2.Stale generic → w.Stale generic) := by
  have hsuperclass := superclass_replays h.sound hequipped hid
  have hinterfaces := Query.superInterfaces_replays h.sound hequipped hid
  exact ⟨fun _ hfirst => ⟨hsuperclass.repeats hfirst, (hsuperclass.furthers hfirst).stale⟩,
    fun _ hfirst => ⟨hinterfaces.repeats hfirst, (hinterfaces.furthers hfirst).stale⟩⟩

def indexClassPath : ClassPath := .ofClasses
  [{ name := "java/lang/Cloneable" }, { name := "java/io/Serializable" },
   { name := "p/Map", members := ["p/Map$Entry"]
     signature := "<K:Ljava/lang/Object;V:Ljava/lang/Object;>Ljava/lang/Object;" },
   { name := "p/Map$Entry", enclosing := "p/Map"
     signature := "<K:Ljava/lang/Object;V:Ljava/lang/Object;>Ljava/lang/Object;" },
   { name := "p/Index", superclass := "p/Map", signature := "<V:Ljava/lang/Object;>Lp/Map<Lp/Map$Entry;TV;>;" }]

def indexOperations : List Operation :=
  [.getType ⟨["p", "Index"]⟩, .parameterizedType ⟨10⟩ [⟨10⟩] none]

def indexWorld : World := (initial {} indexClassPath {}).after indexOperations

def readWorld : World :=
  indexWorld.after [.superclass ⟨10⟩, .getType ⟨["p", "Map"]⟩, .getType ⟨["p", "Map$Entry"]⟩,
    .getType WellKnown.cloneable, .getType WellKnown.serializable]

theorem supertypes_final_index :
    (superclass ⟨14⟩ (.idle 1000) readWorld).1 = .ok (some ⟨26⟩) ∧
      (superclass ⟨14⟩).Repeats (.ofFuel 1001) readWorld (some ⟨26⟩) ∧
        ∀ generic, ¬ (superclass ⟨14⟩ (.ofFuel 1001) readWorld).2.Stale generic := by
  have hread : readWorld.isEquipped = true ∧ readWorld.types.size = 26 ∧ readWorld.hasNoStale = true ∧
      (superclass ⟨14⟩ (.idle 1000) readWorld).1 = .ok (some ⟨26⟩) := by decide +kernel
  obtain ⟨hequipped, hsize, hfresh, hfirst⟩ := hread
  have hreachable : readWorld.Reachable := ((Reachable.initial {} indexClassPath {}).after _).after _
  have hknows : readWorld.Knows ⟨14⟩ := Nat.lt_of_lt_of_eq (by decide : 14 < 26) hsize.symm
  obtain ⟨hrepeats, hstale⟩ :=
    (hreachable.supertypes_final (equipped_of_test hequipped) hknows (.ofFuel 1001)).1 _ hfirst
  exact ⟨hfirst, hrepeats, fun generic hs => not_stale_of_test hfresh generic (hstale generic hs)⟩

/-- The first superclass is built on a placeholder that was resolved while it was made, and the second
is another type. -/
theorem superclass_on_resolved_placeholder :
    indexWorld.Undisturbed ∧ indexWorld.type ⟨14⟩ = .parameterized ⟨10⟩ [⟨10⟩] none ∧
      (indexWorld.class? ⟨10⟩).isSome ∧
      let first := superclass ⟨14⟩ .standard indexWorld
      first.1 = .ok (some ⟨24⟩) ∧ first.2.type ⟨24⟩ = .parameterized ⟨15⟩ [⟨18⟩, ⟨10⟩] none ∧
        first.2.type ⟨15⟩ = .placeholder ⟨["p", "Map"]⟩ (some ⟨21⟩) ∧
        (superclass ⟨14⟩ .standard first.2).1 = .ok (some ⟨25⟩) :=
  ⟨(Undisturbed.initial {} indexClassPath {}).after (by decide +kernel), by decide +kernel⟩

end Bindings.World
