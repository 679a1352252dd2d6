import Bindings.Proofs.QNames
import Bindings.Proofs.Reachable

/-! # Stopped operations -/

open Relation

namespace Bindings

open Query

structure World.AtRest (w : World) : Prop where
  comparing : w.comparing = []
  joinDepth : w.joinDepth = 0
  stage : w.stage = none
  deferredChecks : w.deferredChecks = none

namespace Query

theorem discard_world {α : Type} (query : Query α) (d : Demand) (w : World) :
    (discard query d w).2 = (query d w).2 := by
  change ((query >>= fun _ => pure ()) d w).2 = _
  refine bind_elim d w (fun _ _ hr => ?_) fun _ _ hr => ?_ <;> rw [hr]
  rfl

theorem completeUnits_turns (d : Demand) (w : World) :
    (completeUnits d w).2.stage = none ∧ (completeUnits d w).2.deferredChecks = none := by
  rw [completeUnits]
  generalize hs : ([Stage.importsResolved, .hierarchyConnected, .membersBuilt].forM completeStage).thenAlways
    (modify fun world => { world with stage := none, deferredChecks := none }) = stages
  have ht : (stages d w).2.stage = none ∧ (stages d w).2.deferredChecks = none := by
    rw [← hs, thenAlways_apply]
    exact ⟨rfl, rfl⟩
  refine bind_elim d w (fun _ w1 hr => ?_) fun _ w1 hr => ?_ <;> rw [hr] at ht
  · exact ht
  rw [get_bind_apply]
  obtain ⟨finished, hf⟩ := mapM_finishUnit_apply d { w1 with pendingUnits := [] } w1.pendingUnits
  have hm : (modify fun world => { world with pendingUnits := [] } : Query Unit) d w1 =
      (.ok (), { w1 with pendingUnits := [] }) := rfl
  obtain ⟨_, _, hre⟩ := World.releaseAll_eq { w1 with pendingUnits := [] } w1.pendingUnits
  rw [bind_ok d w1 hm, hf, hre]
  exact ht

end Query

namespace World

variable {w w' : World} {id : TypeId} {name : QName} {stop : Option Halt} {task : Option Task} {w1 : World}

theorem AtRest.course (h : w.AtRest) (ht : ¬ IsWhole task) (hc : Course task stop w w') : w'.AtRest where
  comparing := hc.level.comparing.trans h.comparing
  joinDepth := hc.level.joinDepth.trans h.joinDepth
  stage := (hc.frame.stage ht).trans h.stage
  deferredChecks := by
    have hs := hc.frame.deferred ht
    rw [h.deferredChecks] at hs
    exact Option.not_isSome_iff_eq_none.1 (by simp [hs])

theorem AtRest.step (h : w.AtRest) (hw : w.Sound) (hl : w.Ledger) (hs : w.Step w') : w'.AtRest := by
  obtain ⟨op, isLast, fuel, rfl⟩ := hs
  have hc := course_run hw hl op isLast fuel
  cases op with
  | completeUnits =>
    have hwo : (Operation.completeUnits.run (.upTo isLast fuel) w).2 =
        (completeUnits (.upTo isLast fuel) w).2 := discard_world ..
    obtain ⟨hst, hd⟩ := completeUnits_turns (.upTo isLast fuel) w
    exact ⟨hc.level.comparing.trans h.comparing, hc.level.joinDepth.trans h.joinDepth, hwo ▸ hst, hwo ▸ hd⟩
  | _ => exact h.course (by simp) hc

theorem Reachable.at_rest (h : w.Reachable) : w.AtRest := by
  induction h with
  | initial options classPath log => exact ⟨rfl, rfl, rfl, rfl⟩
  | step hreach hstep ih => exact ih.step hreach.sound hreach.ledger hstep
  | reset _ _ => exact ⟨rfl, rfl, rfl, rfl⟩

def pairUnit : SourceUnit :=
  { file := "Pair", package := .root
    types := [{ name := "Left", modifiers := .empty },
              { name := "Right", modifiers := .empty }] }

def rootlessWorld : World :=
  (initial {} {} {}).after [.buildUnit pairUnit, .completeUnits, .wildcard none 0 (some ⟨10⟩) [] .lower]

theorem reachable_rootlessWorld : rootlessWorld.Reachable := (Reachable.initial {} {} {}).after _

theorem at_rest_rootless :
    ((Operation.completeUnits.run .standard rootlessWorld).1 = .error (.missingFoundation "java.lang.Object") ∧
      (Operation.completeUnits.run .standard rootlessWorld).2.AtRest) ∧
    (((Operation.compatible ⟨12⟩ ⟨11⟩).run .standard rootlessWorld).1 =
        .error (.missingFoundation "java.lang.Object") ∧
      ((Operation.compatible ⟨12⟩ ⟨11⟩).run .standard rootlessWorld).2.AtRest) ∧
    ((Operation.leastUpperBound [⟨10⟩, ⟨11⟩]).run .standard rootlessWorld).1 =
        .error (.missingFoundation "java.lang.Object") ∧
      ((Operation.leastUpperBound [⟨10⟩, ⟨11⟩]).run .standard rootlessWorld).2.AtRest := by
  have hrest : ∀ operation : Operation, (operation.run .standard rootlessWorld).2.AtRest := fun operation =>
    (reachable_rootlessWorld.step ⟨operation, fun _ => false, 1000000, rfl⟩).at_rest
  exact ⟨⟨by decide +kernel, hrest _⟩, ⟨by decide +kernel, hrest _⟩, by decide +kernel, hrest _⟩

theorem Excuses.back {stop : Halt} (h : w1.Excuses w' stop)
    (hr : w.object.isSome → w1.object.isSome) : w.Excuses w' stop := by
  refine fun name hna => (h name hna).imp_right (.imp_left fun hn => ?_)
  rw [hn] at hr
  exact Option.not_isSome_iff_eq_none.1 fun hs => by cases hr hs

theorem Excuses.ahead {stop : Halt} (h : w.Excuses w1 stop) (ht : w'.types = w1.types) :
    w.Excuses w' stop := by
  refine fun name hn => (h name hn).imp_right (.imp_right fun ⟨id, other, hp, hd⟩ => ?_)
  exact ⟨id, other, by rwa [World.type, ht], hd⟩

theorem Course.excused (h : Course task stop w w') {halt : Halt} (hs : stop = some halt) : w.Excuses w' halt := by
  induction h with
  | halt _ h _ =>
    cases hs
    exact h
  | abandon _ _ _ ih => exact (ih hs).ahead rfl
  | trans h1 _ _ ih2 | advance h1 _ _ _ ih2 => exact (ih2 hs).back h1.level.rooted
  | inside _ ih | serve _ ih | operate _ _ ih => exact ih hs
  | bracket h _ ih =>
    cases h with
    | guard => exact ((ih hs).back id).ahead rfl
    | request => cases hs
  | broken _ _ ih => exact (ih hs).back id
  | nest h _ ih | unfilled h _ ih => exact (ih hs).back h.level.rooted
  | _ => cases hs

theorem Grows.listed? (hg : w.Grows w') (h : w.listed? name = some id)
    (hr : w.role id = .declared) : w'.listed? name = some id := by
  obtain ⟨pkg, hp, hk⟩ := listed?_eq_some.1 h
  exact listed?_eq_some.2 ⟨pkg, hg.named _ _ hp, hg.entry _ _ _ hk hr⟩

theorem Registered.ne_of_pending (hw : w.Registered) {object : TypeId} {other : QName}
    (hl : w.listed? name = some object) (hr : w.role object = .declared)
    (hp : w.type id = .placeholder other none) : other ≠ name := by
  rintro rfl
  obtain rfl := Option.some.inj (hl.symm.trans (hw.listed?_of_pending hp))
  rw [World.role, hp] at hr
  cases hr

end World

theorem exists_dot_of_dotted_eq {name other : QName} (hna : ∀ seg ∈ name.segments, '.' ∉ seg.toList)
    (hr : name.dotted ≠ "") (h : other.dotted = name.dotted) (hne : other ≠ name) :
    ∃ seg ∈ other.segments, '.' ∈ seg.toList := by
  by_contra hn
  have ho : ∀ seg ∈ other.segments, '.' ∉ seg.toList := fun seg hse hd => hn ⟨seg, hse, hd⟩
  have hs : ∀ name : QName, name.dotted ≠ "" → name ≠ ⟨[""]⟩ := by
    rintro _ hd rfl
    exact hd rfl
  rw [← QName.ofText_joinSegments hna (hs name hr), ← QName.ofText_joinSegments ho (hs other (h ▸ hr))] at hne
  exact hne (congrArg (QName.ofText '.') h)

namespace World

variable {w w' : World}

section

variable {object : TypeId} {isLast : World → Bool} {fuel : Nat} {w1 : World}

theorem Reachable.objectType (h : w.Reachable)
    (ho : objectType (.upTo isLast fuel) w = (.ok object, w1)) : w1.Reachable := by
  refine h.step ⟨.objectType, isLast, fuel, ?_⟩
  rw [Operation.run, discard_world, ho]

theorem Sound.objectType_ok (hw : w.Sound) (ho : objectType (.upTo isLast fuel) w = (.ok object, w1)) :
    w1.object.isSome ∧ w1.role object = .declared := by
  have hf := (objectType_finds hw _ (Demand.orderly_upTo isLast fuel)).2
  rw [ho] at hf
  obtain ⟨hd, hs⟩ := hf object rfl
  exact ⟨by rw [hs]; rfl, hd.role⟩

end

/-- Once the root of the hierarchy has been found, an operation that misses it leaves a placeholder behind
that reads as the root. If the root is listed in its package, that is another name, with a dot in one of its
segments. -/
theorem Reachable.stopped_by_alias (h : w.Reachable) {object : TypeId} {isLast : World → Bool} {fuel : Nat}
    {w₁ : World} (hobject : Query.objectType (.upTo isLast fuel) w = (.ok object, w₁))
    (hlater : ReflTransGen Step w₁ w') (operation : Operation) (isLast' : World → Bool) (fuel' : Nat)
    {name : String} {w₂ : World}
    (hstop : operation.run (.upTo isLast' fuel') w' = (.error (.missingFoundation name), w₂)) :
    name = WellKnown.object.dotted ∧ ∃ id other, w₂.type id = .placeholder other none ∧
      other.dotted = WellKnown.object.dotted ∧
      (w₁.listed? WellKnown.object = some object → ∃ segment ∈ other.segments, '.' ∈ segment.toList) := by
  have hreach₁ := h.objectType hobject
  obtain ⟨hrooted, hrole⟩ := h.sound.objectType_ok hobject
  obtain ⟨hreach', hgrows'⟩ := hreach₁.later hlater
  have hrooted' : w'.object.isSome :=
    hreach₁.sound.steps (fun _ _ _ _ hcourse => hcourse.level.rooted) hreach₁.ledger hrooted hlater
  have hcourse := course_run hreach'.sound hreach'.ledger operation isLast' fuel'
  rw [hstop] at hcourse
  obtain ⟨hname, hnone | ⟨id, other, hpending, hdotted⟩⟩ := hcourse.excused rfl name rfl
  · rw [hnone] at hrooted'
    cases hrooted'
  refine ⟨hname, id, other, hpending, hdotted, fun hlisted => ?_⟩
  have hgrows := hgrows'.trans hcourse.grows
  have hne := (hcourse.sound hreach'.sound).registered.ne_of_pending (hgrows.listed? hlisted hrole)
    (hgrows.role_declared hrole) hpending
  exact exists_dot_of_dotted_eq (by decide) (by decide) hdotted hne

def oddClassPath : ClassPath := .ofClasses
  [{ name := "p/Odd", superclass := "java.lang.Object" }]

def oddRootWorld : World := (objectType .standard (initial {} oddClassPath {})).2

def oddWorld : World := oddRootWorld.after [.getType ⟨["p", "Odd"]⟩]

/-- The superclass of the class is a name of one segment, and so it is missed although the root is known. -/
theorem known_root_missed :
    (objectType .standard (initial {} oddClassPath {})).1 = .ok ⟨10⟩ ∧ oddWorld.object = some ⟨10⟩ ∧
      (superclass ⟨11⟩ .standard oddWorld).1 = .error (.missingFoundation "java.lang.Object") ∧
      (superclass ⟨11⟩ .standard oddWorld).2.type ⟨12⟩ = .placeholder ⟨["java.lang.Object"]⟩ none := by
  decide +kernel

theorem stopped_by_alias_odd :
    ((Operation.superclass ⟨11⟩).run .standard oddWorld).1 = .error (.missingFoundation "java.lang.Object") ∧
      ∃ id other, ((Operation.superclass ⟨11⟩).run .standard oddWorld).2.type id = .placeholder other none ∧
        other.dotted = "java.lang.Object" ∧ ∃ segment ∈ other.segments, '.' ∈ segment.toList := by
  have hread : (objectType .standard (initial {} oddClassPath {})).1 = .ok ⟨10⟩ ∧
      oddRootWorld.listed? WellKnown.object = some ⟨10⟩ ∧
      ((Operation.superclass ⟨11⟩).run .standard oddWorld).1 =
        .error (.missingFoundation "java.lang.Object") := by
    decide +kernel
  obtain ⟨hobject, hlisted, hstop⟩ := hread
  obtain ⟨-, id, other, hpending, hdotted, hdot⟩ :=
    (Reachable.initial {} oddClassPath {}).stopped_by_alias (Query.run_standard hobject)
      (later_after oddRootWorld _) (.superclass ⟨11⟩) (fun _ => false) 1000000 (Prod.ext hstop rfl)
  exact ⟨hstop, id, other, hpending, hdotted, hdot hlisted⟩

end World

end Bindings
