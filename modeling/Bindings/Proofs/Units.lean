import Bindings.Proofs.Hierarchies
import Bindings.Proofs.World.Placed

/-!
# Completed units

When the pending units have been completed, every type of every unit is connected and has its members
(`Undisturbed.units_completed`).
-/

namespace Bindings

open Query

theorem Table.eq_empty {κ α : Type} [DecidableEq κ] {table : Table κ α}
    (h : ∀ key, table.find? key = none) : table = .empty := by
  cases table with
  | mk entries =>
    cases entries with
    | nil => rfl
    | cons entry rest => simpa [Table.find?, Table.findIn] using h entry.1

namespace Query

variable {w : World} {d : Demand}

theorem advancePending_of_nil (each : UnitId → Query Unit) (h : w.pendingUnits = []) {fuel : Nat}
    (hf : fuel ≠ 0) : advancePending each fuel 0 d w = (.ok (), w) := by
  obtain ⟨fuel, rfl⟩ := Nat.exists_eq_succ_of_ne_zero hf
  rw [advancePending, get_bind_apply, h]
  rfl

theorem completeStage_of_nil (h : w.pendingUnits = []) (hf : d.fuel ≠ 0) (stage : Stage) :
    ∃ deferred, completeStage stage d w = (.ok (), { w with stage := some stage, deferredChecks := deferred }) := by
  have ha : ∀ each deferred, advancePending each d.fuel 0 d
      { w with stage := some stage, deferredChecks := deferred } =
        (.ok (), { w with stage := some stage, deferredChecks := deferred }) :=
    fun each deferred => by apply advancePending_of_nil each _ hf; exact h
  unfold completeStage
  by_cases heq : stage = .hierarchyConnected
  · subst heq
    refine ⟨none, ?_⟩
    change (advancePending _ d.fuel 0 >>= _) d
      { w with stage := some .hierarchyConnected, deferredChecks := some [] } = _
    rw [bind_ok d _ (ha _ _), if_pos rfl]
    change advancePending _ d.fuel 0 d { w with stage := some .hierarchyConnected, deferredChecks := none } = _
    exact ha _ _
  refine ⟨w.deferredChecks, ?_⟩
  rw [bind_ok d w (modify_apply d w _), if_neg heq]
  change (advancePending _ d.fuel 0 >>= _) d { w with stage := some stage } = _
  rw [bind_ok d _ (ha _ _), if_neg heq]
  rfl

theorem completeStages_of_nil (h : w.pendingUnits = []) (hf : d.fuel ≠ 0) (stages : List Stage) :
    ∃ stage deferred, stages.forM completeStage d w = (.ok (), { w with stage, deferredChecks := deferred }) := by
  induction stages generalizing w with
  | nil => exact ⟨w.stage, w.deferredChecks, rfl⟩
  | cons first rest ih =>
    obtain ⟨deferred, hfi⟩ := completeStage_of_nil h hf first
    rw [List.forM, bind_ok d w hfi]
    apply ih
    exact h

theorem completeUnits_of_nil (h : w.pendingUnits = []) (hf : d.fuel ≠ 0) : (completeUnits d w).1 = .ok [] := by
  obtain ⟨stage, deferred, hs⟩ := completeStages_of_nil h hf [.importsResolved, .hierarchyConnected, .membersBuilt]
  have ht : (([Stage.importsResolved, .hierarchyConnected, .membersBuilt].forM completeStage).thenAlways
      (modify fun world => { world with stage := none, deferredChecks := none })) d w =
        (.ok (), { w with stage := none, deferredChecks := none }) := by
    rw [thenAlways_apply, hs]
    rfl
  rw [completeUnits, bind_ok d w ht, get_bind_apply]
  change ((modify _ >>= fun _ => w.pendingUnits.mapM _ : Query (List CompletedUnit)) d _).1 = _
  rw [h]
  rfl

end Query

namespace World

variable {w w' : World} {id : TypeId}

theorem staged_initial (options : Options) (classPath : ClassPath) (log : ProblemLog) :
    (initial options classPath log).Staged := by
  have hn := no_class_initial options classPath log
  have hu : ∀ unit, (initial options classPath log).unit unit = default := fun _ => rfl
  refine ⟨⟨fun unit => ?_, fun id info _ _ hi => absurd hi (hn id info), ?_⟩, ?_, ?_⟩
  · rw [hu]
    exact ⟨fun _ hid => (by cases hid), .nil⟩
  · exact fun id info _ _ _ hi => absurd hi (hn id info)
  · intro unit hr
    rw [hu] at hr
    cases hr
  · intro unit hl
    rw [hu] at hl
    cases hl

theorem Reachable.staged (h : w.Reachable) : w.Staged :=
  h.fact staged_initial fun hr hc => hc.staged hr.sound hr.ledger

theorem Undisturbed.ended (h : w.Undisturbed) (hb : w.Begun id) : w.Ended id := by
  have hin : ∀ options classPath log, ¬ (World.initial options classPath log).Begun id := by
    rintro options classPath log ⟨info, hi, -⟩
    exact no_class_initial options classPath log id info hi
  induction h with
  | initial options classPath log => exact absurd hb (hin _ _ _)
  | @step w op isLast fuel hw hok ih =>
    have hc := course_run hw.reachable.sound hw.reachable.ledger op isLast fuel
    rw [Halt.of?_eq_none hok] at hc
    by_cases hbe : w.Begun id
    · exact (ih hbe).grows hc.grows
    · exact hc.ended_of_begun hw.reachable.sound hb hbe
  | reset _ _ => exact absurd hb (hin _ _ _)

def Completed (w : World) (id : TypeId) : Prop :=
  ∃ info, w.class? id = some info ∧ info.state.hierarchyBegun ∧ info.state.hierarchyEnded ∧
    info.state.variablesConnected ∧ info.state.membersBuilt

theorem Undisturbed.completed (h : w.Undisturbed) {unit : UnitId}
    (hs : (w.unit unit).stage = .membersBuilt) (hid : id ∈ w.unitTypes unit) : w.Completed id := by
  have hst := h.reachable.staged
  have hw := hst.toPlaced.mem_unitTypes.1 hid
  have hb := hst.begun unit (by rw [hs]; decide) id hw
  obtain ⟨path, info, hi, ho⟩ := hw.declaredAt hst.toPlaced
  obtain ⟨_, hi1, he⟩ := h.ended hb
  obtain ⟨_, hi2, hbu⟩ := hst.built unit hs id hw
  obtain ⟨_, hi3, hb⟩ := hb
  cases hi.symm.trans hi1
  cases hi.symm.trans hi2
  cases hi.symm.trans hi3
  obtain ⟨_, hi4, hv, -⟩ := h.reachable.upheld id info hi (ClassInfo.isCompiled_of_source ho) he
  cases hi.symm.trans hi4
  exact ⟨info, hi, hb, he, hv, hbu⟩

theorem Undisturbed.units_completed (h : w.Undisturbed) {isLast : World → Bool} {fuel : Nat}
    {finished : List Query.CompletedUnit}
    (hrun : completeUnits (.upTo isLast fuel) w = (.ok finished, w')) :
    w'.pendingUnits = [] ∧ w'.sources = .empty ∧
    (∀ unit : UnitId, unit.index < w'.units.size → (w'.unit unit).stage = .membersBuilt ∧
      ∀ id ∈ w'.unitTypes unit, w'.Completed id) ∧
    w'.stats.unitsCompleted = w'.units.size ∧
    ∀ d : Demand, d.fuel ≠ 0 → (completeUnits d w').1 = .ok [] := by
  have hw' : w'.Undisturbed := by
    have hoperation : Operation.completeUnits.run (.upTo isLast fuel) w = (.ok (), w') := by
      change (completeUnits >>= fun _ => pure ()) (.upTo isLast fuel) w = _
      rw [bind_ok _ w hrun]
      rfl
    have hstep := h.step .completeUnits isLast fuel (by rw [hoperation]; rfl)
    rwa [hoperation] at hstep
  have hpending : w'.pendingUnits = [] := by
    have hruns := completeUnits_runs h.reachable.sound h.reachable.ledger (.upTo isLast fuel)
      (Demand.orderly_upTo isLast fuel)
    rw [hrun] at hruns
    exact hruns.2 finished rfl
  have hledger := hw'.reachable.ledger
  have hreleased : ∀ unit, w'.sources.find? unit = none := by
    intro unit
    by_contra hsome
    have hmem := hledger.pending unit (Option.isSome_iff_ne_none.2 hsome)
    simp [hpending] at hmem
  refine ⟨hpending, Table.eq_empty hreleased, fun unit hunit => ?_, ?_, fun d hd =>
    completeUnits_of_nil hpending hd⟩
  · have hstage := hledger.released unit hunit (hreleased unit)
    exact ⟨hstage, fun id hid => hw'.completed hstage hid⟩
  · rw [hledger.completed, releasedUnits]
    simp [hreleased]

def shelfUnit : SourceUnit :=
  { file := "Shelf", package := ⟨["q"]⟩
    types := [{ name := "Shelf"
                members := [{ name := "Board", modifiers := .empty }] }] }

def libraryUnit : SourceUnit :=
  { file := "Library", package := .root
    types := [{ name := "Library", modifiers := .empty
                superclass := some (.ofSegments ["q", "Shelf"]) }] }

def libraryWorld : World :=
  (initial {} (ClassPath.rootOnly.addUnit shelfUnit) {}).after [.buildUnit libraryUnit]

theorem units_completed_library :
    libraryWorld.Undisturbed ∧ libraryWorld.units.size = 1 ∧
      let w := (completeUnits .standard libraryWorld).2
      w.units.size = 2 ∧ w.unitTypes ⟨1⟩ = [⟨12⟩, ⟨13⟩] ∧ w.Completed ⟨13⟩ ∧
        w.stats.unitsCompleted = 2 ∧ (completeUnits .standard w).1 = .ok [] := by
  have hread :
      (initial {} (ClassPath.rootOnly.addUnit shelfUnit) {}).finishes [.buildUnit libraryUnit] = true ∧
      (completeUnits .standard libraryWorld).1.isOk = true ∧
      (completeUnits .standard libraryWorld).2.units.size = 2 ∧
      (completeUnits .standard libraryWorld).2.unitTypes ⟨1⟩ = [⟨12⟩, ⟨13⟩] := by decide +kernel
  obtain ⟨hfinishes, hok, hunits, htypes⟩ := hread
  have hundisturbed : libraryWorld.Undisturbed := (Undisturbed.initial ..).after hfinishes
  obtain ⟨finished, hfinished⟩ : ∃ finished, (completeUnits .standard libraryWorld).1 = .ok finished := by
    cases hresult : (completeUnits .standard libraryWorld).1 with
    | ok finished => exact ⟨finished, rfl⟩
    | error halt => rw [hresult] at hok; cases hok
  obtain ⟨-, -, hcompleted, hcount, hagain⟩ := hundisturbed.units_completed (run_standard hfinished)
  rw [hunits] at hcompleted hcount
  have hboard := (hcompleted ⟨1⟩ (by decide)).2 ⟨13⟩ (by rw [htypes]; decide)
  exact ⟨hundisturbed, by decide +kernel, hunits, htypes, hboard, hcount, hagain .standard (by decide)⟩

end World

end Bindings
