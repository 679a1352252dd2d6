import Bindings.Proofs.Reachable

/-!
# Connected hierarchies

A source class that has been connected holds supertypes that it may have (`Reachable.lawful`). Whatever else
was written is reported and left out.
-/

namespace Bindings.World

variable {w : World}

theorem upheld_initial (options : Options) (classPath : ClassPath) (log : ProblemLog) :
    (initial options classPath log).Upheld := by
  intro id info hi
  exact absurd hi (no_class_initial options classPath log id info)

theorem Reachable.upheld (h : w.Reachable) : w.Upheld :=
  h.fact upheld_initial fun hr hc hu => hc.upheld hr.sound hu (by simp)

theorem Reachable.lawful (h : w.Reachable) (hfit : w.FoundationsFit) {id : TypeId} {info : ClassInfo}
    (hinfo : w.class? id = some info) (hsource : info.isCompiled = false)
    (hended : info.state.hierarchyEnded) : w.Lawful id info.superclass info.interfaces := by
  obtain ⟨info', hinfo', -, hlawful⟩ := h.upheld id info hinfo hsource hended
  cases hinfo.symm.trans hinfo'
  exact hlawful hfit

def hasFitFoundations (w : World) : Bool :=
  w.everyDenoted WellKnown.object (!·.isInterface) &&
  w.everyDenoted WellKnown.enumClass (!·.isInterface) &&
  w.everyDenoted WellKnown.annotationInterface fun info => info.isInterface && !info.isGeneric

theorem foundationsFit_of_test (h : w.hasFitFoundations) : w.FoundationsFit := by
  rw [hasFitFoundations, Bool.and_eq_true, Bool.and_eq_true] at h
  obtain ⟨⟨ho, he⟩, ha⟩ := h
  refine ⟨fun name hn id info hid hi => ?_, fun id info hid hi => ?_⟩
  · have hp : ∃ info, w.class? id = some info ∧ !info.isInterface := by
      obtain rfl | rfl := hn
      · exact hid.passes ho
      · exact hid.passes he
    obtain ⟨_, hi', ht⟩ := hp
    cases hi.symm.trans hi'
    simpa using ht
  · obtain ⟨_, hi', ht⟩ := hid.passes ha
    cases hi.symm.trans hi'
    simpa using ht

def sealedUnit : SourceUnit :=
  { file := "Sealed", package := .root
    types :=
      [{ name := "Shape", kind := .interface, modifiers := .empty },
       { name := "Sealed", modifiers := .finalFlag },
       { name := "Broken", modifiers := .empty
         superclass := some (.ofSegments ["Sealed"])
         interfaces := [.ofSegments ["Shape"], .ofSegments ["Shape"], .ofSegments ["Sealed"]] }] }

def sealedWorld : World := (initial {} .rootOnly {}).after [.buildUnit sealedUnit, .completeUnits]

theorem lawful_sealed :
    sealedWorld.FoundationsFit ∧ ∃ info, sealedWorld.class? ⟨12⟩ = some info ∧
      info.superclass = some ⟨13⟩ ∧ info.interfaces = [⟨10⟩] ∧
        sealedWorld.Lawful ⟨12⟩ info.superclass info.interfaces := by
  have hreach : sealedWorld.Reachable := (Reachable.initial {} .rootOnly {}).after _
  have hread : sealedWorld.hasFitFoundations = true ∧
      ((sealedWorld.class? ⟨12⟩).map fun info =>
        (info.superclass, info.interfaces, info.isCompiled, info.state.hierarchyEnded)) =
        some (some ⟨13⟩, [⟨10⟩], false, true) := by
    decide +kernel
  obtain ⟨htest, hread⟩ := hread
  obtain ⟨info, hinfo, hstored⟩ := Option.map_eq_some_iff.1 hread
  simp only [Prod.mk.injEq] at hstored
  obtain ⟨hsuperclass, hinterfaces, hsource, hended⟩ := hstored
  have hfit := foundationsFit_of_test htest
  exact ⟨hfit, info, hinfo, hsuperclass, hinterfaces, hreach.lawful hfit hinfo hsource hended⟩

end Bindings.World
