import Bindings.Proofs.Orderly.Units

/-! # Completing units -/

namespace Bindings

open Edit

open World (Course Frame)

namespace Query

variable {α β : Type} {w : World} {query : Query α} {stage : Stage} {post : α → World → Prop}

theorem RunsIn.serve {unit : UnitId}
    (h : query.RunsIn (some (.advance unit)) w post) : query.RunsIn (some .complete) w post := fun d hd =>
  ⟨(h d hd).1.serve, (h d hd).2⟩

theorem RunsIn.turn_bind {change : World → World} {next : Unit → Query β} {post : β → World → Prop}
    (hw : w.Sound) (hl : w.Ledger)
    (hch : ∃ stage deferred, change w = { w with stage, deferredChecks := deferred })
    (h : (change w).Sound → (change w).Ledger → (next ()).RunsIn (some .complete) (change w) post) :
    (modify change >>= next).RunsIn (some .complete) w post := by
  intro d hd
  obtain ⟨stage, deferred, hch⟩ := hch
  have ht : Course (some .complete) none w (change w) := hch ▸ .tend (.turn stage deferred)
  obtain ⟨hc, hp⟩ := h (ht.sound hw) (ht.frame.ledger hl) d hd
  exact ⟨ht.trans hc, hp⟩

theorem advancePending_runs {each : UnitId → Query Unit} {done : UnitId → World → Prop}
    (hea : ∀ unit w, w.Sound → unit.index < w.units.size → (each unit).RunsIn (some .complete) w fun _ w' =>
        done unit w' ∧ ∃ task, ¬ World.IsWhole task ∧ Frame task w w')
    (hla : ∀ unit task w w', unit.index < w.units.size → Frame task w w' → done unit w → done unit w')
    (hw : w.Sound) (hl : w.Ledger) (hs : w.stage = some stage) (fuel i : Nat)
    (hd : ∀ unit ∈ w.pendingUnits.take i, done unit w) :
    (advancePending each fuel i).RunsIn (some .complete) w fun _ w' =>
      (w'.Ledger ∧ w'.stage = some stage) ∧ ∀ unit ∈ w'.pendingUnits, done unit w' := by
  induction fuel generalizing w i with
  | zero => exact .inside .giveUp
  | succ fuel ih =>
    rw [advancePending]
    refine .get ?_
    split
    · next he =>
      rw [List.take_of_length_le (List.getElem?_eq_none_iff.1 he)] at hd
      exact .pure ⟨⟨hl, hs⟩, hd⟩
    rename_i unit hu
    have hk : ∀ other ∈ w.pendingUnits, other.index < w.units.size := hl.known
    refine .bind hw (hea unit w hw (hk unit (List.mem_of_getElem? hu))) ?_
    rintro - w1 hw1 - ⟨hu1, task, hn, hf⟩
    refine ih hw1 (hf.ledger hl) ((hf.stage hn).trans hs) (i + 1) ?_
    obtain ⟨more, hm⟩ := hf.pending hn stage hs
    have hlt : i + 1 ≤ w.pendingUnits.length := (List.getElem?_eq_some_iff.1 hu).1
    rw [← hm, List.take_append_of_le_length hlt, List.take_add_one, hu]
    intro other ho
    obtain ho | ho := List.mem_append.1 ho
    · exact hla other task w w1 (hk other (List.mem_of_mem_take ho)) hf (hd other ho)
    · rw [Option.mem_toList.1 ho |> Option.some.inj] at hu1
      exact hu1

section

variable (hw : w.Sound) (hl : w.Ledger)

include hw hl

theorem bringAllTo_runs (hs : w.stage = some stage) (fuel : Nat) (tgt : Stage) :
    (advancePending (bringUnitTo · tgt) fuel 0).RunsIn (some .complete) w fun _ w' =>
      (w'.Ledger ∧ w'.stage = some stage) ∧ ∀ unit ∈ w'.pendingUnits, tgt.rank ≤ (w'.unit unit).stage.rank := by
  refine advancePending_runs (fun unit w hw hu => ?_) (fun unit _ w w' hu hf h => ?_) hw hl hs fuel 0 (by simp)
  · refine ((bringUnitTo_runs hw hu tgt).framed.mono ?_).serve
    exact fun _ w' h => ⟨h.1, _, by simp, h.2⟩
  · exact h.trans (hf.rank unit hu)

theorem checkPending_runs (hs : w.stage = some stage) (fuel : Nat) :
    (advancePending (fun unit => do ((← get).unitTypes unit).forM checkCollisions) fuel 0).RunsIn
      (some .complete) w fun _ w' => w'.Ledger := by
  have he : ∀ (unit : UnitId) (w : World), w.Sound →
      (do ((← get).unitTypes unit).forM checkCollisions : Query Unit).Runs w fun _ _ => True :=
    fun unit w hw => .get (.of_orderly hw)
  have hr : (advancePending (fun unit => do ((← get).unitTypes unit).forM checkCollisions) fuel 0).RunsIn
      (some .complete) w fun _ w' => (w'.Ledger ∧ w'.stage = some stage) ∧ ∀ unit ∈ w'.pendingUnits, True := by
    refine advancePending_runs (fun unit w hw _ => ?_) (fun _ _ _ _ _ _ h => h) hw hl hs fuel 0 (by simp)
    exact .inside ((he unit w hw).framed.mono fun _ w' h => ⟨h.1, none, by simp, h.2⟩)
  exact hr.mono fun _ _ h => h.1.1

theorem runDeferredChecks_runs (hs : w.stage = some stage) :
    runDeferredChecks.RunsIn (some .complete) w fun _ w' => w'.Ledger ∧ w'.stage = some stage := by
  refine .get (.turn_bind hw hl ⟨_, _, rfl⟩ fun hw1 hl1 => ?_)
  have hc : ((w.deferredChecks.getD []).forM checkArguments).Orderly := inferInstance
  exact .inside ((hc.runs _ hw1).framed.mono fun _ _ h => ⟨h.2.ledger hl1, (h.2.stage (by simp)).trans hs⟩)

theorem completeStage_runs (stage : Stage) :
    (completeStage stage).RunsIn (some .complete) w fun _ w' => w'.Ledger ∧
      (stage = .membersBuilt → ∀ unit ∈ w'.pendingUnits, (w'.unit unit).stage = .membersBuilt) := by
  unfold completeStage
  refine .turn_bind hw hl ⟨_, _, rfl⟩ fun hw1 hl1 => ?_
  dsimp only
  by_cases heq : stage = .hierarchyConnected
  · rw [if_pos heq]
    refine .turn_bind hw1 hl1 ⟨_, _, rfl⟩ fun hw2 hl2 => .fuel fun budget => ?_
    refine .bind hw2 (bringAllTo_runs hw2 hl2 rfl budget stage) ?_
    rintro - w3 hw3 - ⟨⟨hl3, hs3⟩, -⟩
    rw [if_pos heq]
    refine .bind hw3 (runDeferredChecks_runs hw3 hl3 hs3) ?_
    rintro - w4 hw4 - ⟨hl4, hs4⟩
    exact .fuel fun budget => (checkPending_runs hw4 hl4 hs4 budget).mono fun _ _ h => ⟨h, by simp [heq]⟩
  rw [if_neg heq]
  refine .fuel fun budget => .bind hw1 (bringAllTo_runs hw1 hl1 rfl budget stage) ?_
  rintro - w2 - - ⟨⟨hl2, -⟩, hr⟩
  rw [if_neg heq]
  refine .pure ⟨hl2, ?_⟩
  rintro rfl unit hu
  exact Stage.eq_membersBuilt (hr unit hu)

theorem completeStages_runs :
    ([Stage.importsResolved, .hierarchyConnected, .membersBuilt].forM completeStage).RunsIn
      (some .complete) w fun _ w' => w'.Ledger ∧ ∀ unit ∈ w'.pendingUnits, (w'.unit unit).stage = .membersBuilt := by
  simp only [List.forM]
  refine .bind hw (completeStage_runs hw hl _) fun _ w1 hw1 _ h1 => ?_
  refine .bind hw1 (completeStage_runs hw1 h1.1 _) fun _ w2 hw2 _ h2 => ?_
  exact .bind hw2 (completeStage_runs hw2 h2.1 _) fun _ w3 _ _ h3 => .pure ⟨h3.1, h3.2 rfl⟩

end

theorem RunsIn.thenTurn (h : query.RunsIn (some .complete) w post)
    (stage : Option Stage) (deferred : Option (List TypeId)) : (query.thenAlways (modify fun world =>
      { world with stage, deferredChecks := deferred })).RunsIn (some .complete) w fun a w' =>
        ∃ w1, post a w1 ∧ w' = { w1 with stage, deferredChecks := deferred } := by
  intro d hd
  obtain ⟨hc, hp⟩ := h d hd
  rw [thenAlways_apply]
  refine ⟨?_, fun a ha => ⟨_, hp a ha, rfl⟩⟩
  cases hr : (query d w).1 with
  | ok a =>
    rw [hr] at hc
    exact hc.trans (.tend (.turn stage deferred))
  | error stop =>
    rw [hr] at hc
    exact .abandon stage deferred hc

end Query

namespace World

variable {w : World} {unit : UnitId} {units : List UnitId}

def releaseAll (w : World) (units : List UnitId) : World :=
  units.foldl (fun w unit => (releaseUnit unit w).2) w

theorem releaseAll_eq (w : World) (units : List UnitId) :
    ∃ sources stats, w.releaseAll units = { w with sources, stats } := by
  induction units generalizing w with
  | nil => exact ⟨_, _, rfl⟩
  | cons unit rest ih =>
    obtain ⟨sources, stats, heq⟩ := ih (releaseUnit unit w).2
    rw [releaseAll, List.foldl_cons, ← releaseAll, heq, releaseUnit_eq]
    split <;> exact ⟨sources, stats, rfl⟩

theorem releaseAll_pendingUnits (w : World) (units pendingUnits : List UnitId) :
    { w with pendingUnits }.releaseAll units = { w.releaseAll units with pendingUnits } := by
  induction units generalizing w with
  | nil => rfl
  | cons unit rest ih =>
    rw [releaseAll, List.foldl_cons, releaseUnit_pendingUnits]
    exact ih _

theorem source_releaseUnit_of_none {other : UnitId} (h : w.sources.find? other = none) :
    (releaseUnit unit w).2.sources.find? other = none := by
  rw [releaseUnit_eq]
  split
  · rw [Table.find?_erase, h, ite_self]
  · exact h

theorem source_releaseAll (h : unit ∈ units ∨ w.sources.find? unit = none) :
    (w.releaseAll units).sources.find? unit = none := by
  induction units generalizing w with
  | nil => exact h.resolve_left (by simp)
  | cons first rest ih =>
    refine ih ?_
    obtain h | h := h
    · obtain rfl | h := List.mem_cons.1 h
      · exact .inr (source_releaseUnit w unit)
      · exact .inl h
    · exact .inr (source_releaseUnit_of_none h)

theorem releaseAll_course (h : ∀ unit ∈ units, (w.unit unit).stage = .membersBuilt) :
    Course (some .complete) none w (w.releaseAll units) := by
  induction units generalizing w with
  | nil => exact .inside (.refl w)
  | cons first rest ih =>
    obtain ⟨hf, hr⟩ := List.forall_mem_cons.1 h
    refine .trans (.tend (.release (.inr rfl) hf)) (ih fun unit hu => ?_)
    have hs : (releaseUnit first w).2.units = w.units := by
      rw [releaseUnit_eq]
      split <;> rfl
    rw [World.unit, hs]
    exact hr unit hu

theorem releaseAll_retire_course (hun : w.pendingUnits = units)
    (h : ∀ unit ∈ units, (w.unit unit).stage = .membersBuilt) :
    Course (some .complete) none w ({ w with pendingUnits := [] }.releaseAll units) := by
  obtain ⟨sources, stats, heq⟩ := releaseAll_eq w units
  have hp : (w.releaseAll units).pendingUnits = units := by rw [heq]; exact hun
  have hr : Tends .complete (w.releaseAll units) { w.releaseAll units with
      pendingUnits := (w.releaseAll units).pendingUnits.filter fun _ => false } :=
    .retire _ (.inl rfl) fun unit hu _ => source_releaseAll (.inl (hp ▸ hu))
  rw [List.filter_eq_nil_iff.2 (by simp)] at hr
  rw [releaseAll_pendingUnits]
  exact (releaseAll_course h).trans (.tend hr)

end World

namespace Query

variable {w : World}

theorem mapM_finishUnit_apply (d : Demand) (w : World) (units : List UnitId) :
    ∃ finished, (units.mapM fun unit => (liftM (finishUnit unit) : Query CompletedUnit)) d w =
      (.ok finished, w.releaseAll units) := by
  induction units generalizing w with
  | nil => exact ⟨[], rfl⟩
  | cons unit rest ih =>
    obtain ⟨finished, hr⟩ := ih (releaseUnit unit w).2
    have hf : (liftM (finishUnit unit) : Query CompletedUnit) d w =
        (.ok (finishUnit unit w).1, (releaseUnit unit w).2) := rfl
    refine ⟨(finishUnit unit w).1 :: finished, ?_⟩
    rw [List.mapM_cons, bind_ok d w hf, bind_ok d _ hr]
    rfl

theorem completeUnits_runs (hw : w.Sound) (hl : w.Ledger) :
    completeUnits.RunsIn (some .complete) w fun _ w' => w'.pendingUnits = [] := by
  refine .bind hw ((completeStages_runs hw hl).thenTurn none none) ?_
  rintro - w1 - - ⟨w0, ⟨-, hs⟩, hw1⟩
  refine .get ?_
  intro d _
  obtain ⟨finished, hr⟩ := mapM_finishUnit_apply d { w1 with pendingUnits := [] } w1.pendingUnits
  have hm : (modify fun world => { world with pendingUnits := [] } : Query Unit) d w1 =
      (.ok (), { w1 with pendingUnits := [] }) := rfl
  rw [bind_ok d w1 hm, hr]
  refine ⟨World.releaseAll_retire_course rfl (by rw [hw1]; exact hs), fun _ _ => ?_⟩
  rw [World.releaseAll_pendingUnits]

end Query

end Bindings
