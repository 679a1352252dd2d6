import Bindings.Proofs.Orderly.Declarations
import Bindings.Proofs.Orderly.Members

/-! # Units and demands -/

namespace Bindings

open World Query Edit

variable {stage : Stage} {name : QName} {d : Demand}

theorem Stage.rank_le (stage : Stage) : stage.rank ≤ Stage.membersBuilt.rank := by cases stage <;> decide

theorem Stage.eq_membersBuilt (h : Stage.membersBuilt.rank ≤ stage.rank) : stage = .membersBuilt := by
  cases stage <;> simp_all [rank]

theorem Stage.rank_le_of_next? (h : stage.next? = none) (tgt : Stage) : tgt.rank ≤ stage.rank := by
  cases stage <;> cases h
  exact tgt.rank_le

namespace Query

variable {α β : Type} {w : World} {query : Query α}

variable {unit : UnitId}

theorem RunsIn.framed {task : Option Task} {post : α → World → Prop} (h : query.RunsIn task w post) :
    query.RunsIn task w fun a w' => post a w' ∧ Frame task w w' := fun d hd =>
  ⟨(h d hd).1, fun a ha => ⟨(h d hd).2 a ha, (h d hd).1.frame⟩⟩

theorem RunsIn.forM {f : α → Query PUnit} {fact : α → World → Prop} (hw : w.Sound) (list : List α)
    (hf : ∀ a w1, w1.Sound → w.Grows w1 → (f a).Runs w1 fun _ w2 => fact a w2)
    (hl : ∀ a w1 w2, w1.Sound → w.Grows w1 → w1.Follows w2 → fact a w1 → fact a w2) :
    (list.forM f).Runs w fun _ w' => ∀ a ∈ list, fact a w' := by
  induction list generalizing w with
  | nil => exact .pure (by simp)
  | cons a rest ih =>
    rw [List.forM]
    refine .bind hw (hf a w hw (.refl w)) fun _ w1 hw1 hg1 ha => ?_
    have hr := ih hw1 (fun a w2 hw2 hg2 => hf a w2 hw2 (hg1.trans hg2))
      fun a w2 w3 hw2 hg2 => hl a w2 w3 hw2 (hg1.trans hg2)
    refine (hr.follows hw1).mono ?_
    rintro _ w2 ⟨hr, hfo⟩
    exact List.forall_mem_cons.2 ⟨hl a w1 w2 hw1 hg1 hfo ha, hr⟩

theorem runStage_runs (hw : w.Sound) (hu : unit.index < w.units.size) {next : Stage}
    (hn : (w.unit unit).stage.next? = some next) : (runStage unit next).Runs w fun _ w1 =>
      w.Promotes unit w1 (w1.modifyUnit unit fun info => { info with stage := next }) := by
  cases next with
  | typesBuilt => exact .pure ⟨_, hu, hn, fun _ _ _ => ⟨by simp, by simp⟩, rfl⟩
  | importsResolved =>
    exact (resolveImports_runs hw unit).mono fun _ _ _ => ⟨_, hu, hn, fun _ _ _ => ⟨by simp, by simp⟩, rfl⟩
  | hierarchyConnected =>
    have hj : ((w.unitTypes unit).forM connectHierarchy).Runs w fun _ w1 =>
        ∀ id ∈ w.unitTypes unit, w.role id = .declared → w1.Joined id := by
      refine .forM hw _ (fun id w1 hw1 _ => (connectHierarchy_runs hw1 id).mono fun _ _ h _ => h) ?_
      intro id w1 w2 hw1 hg hf h hr
      exact (h hr).grows hw1.linked hf.grows (hg.role_declared hr)
    exact .get (hj.mono fun _ w1 h => ⟨_, hu, hn, fun id hid hr => ⟨fun _ => h id hid hr, by simp⟩, rfl⟩)
  | membersBuilt =>
    have hb : ((w.unitTypes unit).forM buildSourceMembers).Runs w fun _ w1 =>
        ∀ id ∈ w.unitTypes unit, w.role id = .declared → w1.Built id ∨ w1.declaration? id = none := by
      refine .forM hw _ (fun id w1 hw1 _ => (buildSourceMembers_runs hw1 id).mono fun _ _ h _ => h) ?_
      intro id w1 w2 hw1 hg hf h hr
      exact (h hr).imp (·.lasts hf.lasts) (declaration?_grows hw1.linked hf.grows (hg.role_declared hr))
    exact .get (hb.mono fun _ w1 h => ⟨_, hu, hn, fun id hid hr => ⟨by simp, fun _ => h id hid hr⟩, rfl⟩)

theorem RunsIn.promote_bind {change : World → World} {next : Unit → Query β}
    {post : β → World → Prop} (hq : query.Runs w fun _ w1 => w.Promotes unit w1 (change w1))
    (h : ∀ w1 : World, Course (some (.advance unit)) none w (change w1) → w.Promotes unit w1 (change w1) →
      (next ()).RunsIn (some (.advance unit)) (change w1) post) :
    (query >>= fun _ => modify change >>= next).RunsIn (some (.advance unit)) w post := by
  intro d hd
  obtain ⟨hc, hpr⟩ := hq d hd
  refine bind_elim d w (fun _ w1 hr => ?_) fun a w1 hr => ?_ <;> rw [hr] at hc hpr
  · exact ⟨hc.inside, fun _ ha => by cases ha⟩
  · have hpro : Course (some (.advance unit)) none w (change w1) := .promote hc (hpr a rfl)
    obtain ⟨hc', hp⟩ := h w1 hpro (hpr a rfl) d hd
    exact ⟨hpro.trans hc', hp⟩

theorem advanceUnit_runs (hw : w.Sound) (hu : unit.index < w.units.size)
    (tgt : Stage) (steps : Nat) (hs : tgt.rank ≤ (w.unit unit).stage.rank + steps) :
    (advanceUnit unit tgt steps).RunsIn (some (.advance unit)) w fun _ w' =>
      tgt.rank ≤ (w'.unit unit).stage.rank := by
  induction steps generalizing w with
  | zero =>
    rw [advanceUnit]
    exact .pure hs
  | succ steps ih =>
    rw [advanceUnit]
    refine .get ?_
    dsimp only
    split
    · next hd => exact .pure hd
    split
    · next hl => exact .pure (Stage.rank_le_of_next? hl tgt)
    rename_i next hn
    refine .promote_bind (runStage_runs hw hu hn) fun w1 hc hp => ?_
    obtain ⟨_, -, hn', -, hw2⟩ := hp
    have hu2 := hu.trans_le hc.frame.units
    refine ih (hc.sound hw) hu2 ?_
    rw [size_modifyUnit] at hu2
    rw [unit_modifyUnit_self _ hu2]
    have hr := Stage.rank_next? hn
    change tgt.rank ≤ next.rank + steps
    omega

theorem bringUnitTo_runs (hw : w.Sound) (hu : unit.index < w.units.size)
    (tgt : Stage) : (bringUnitTo unit tgt).RunsIn (some (.advance unit)) w fun _ w' =>
      tgt.rank ≤ (w'.unit unit).stage.rank :=
  advanceUnit_runs hw hu tgt 3 (Nat.le_add_left_of_le tgt.rank_le)

theorem Registers.advance_bind {edit : Edit UnitId} {next : UnitId → Query β} {listed : World → Prop}
    (hw : w.Sound) (he : edit.RunsIn none w fun unit w' =>
      (w.units.size ≤ unit.index ∧ unit.index < w'.units.size) ∧ listed w')
    (h : ∀ unit w', w'.Sound → unit.index < w'.units.size →
      (next unit).RunsIn (some (.advance unit)) w' fun _ _ => True) :
    ((liftM edit : Query UnitId) >>= next).Registers w listed := by
  obtain ⟨hc, hp, ⟨hn, hk⟩, hl⟩ := he
  refine ⟨_, hc, hp, hl, fun d hd => ?_⟩
  obtain ⟨hne, -⟩ := h _ _ (hc.sound hw) hk d hd
  exact ⟨hne.grows, fun w0 hu hc0 => .advance hc0 (Nat.le_trans hu hn) hne⟩

end Query

theorem World.releaseUnit_pendingUnits (w : World) (unit : UnitId) (pendingUnits : List UnitId) :
    (releaseUnit unit { w with pendingUnits }).2 = { (releaseUnit unit w).2 with pendingUnits } := by
  rw [releaseUnit_eq, releaseUnit_eq]
  dsimp only
  split <;> rfl

theorem World.source_releaseUnit (w : World) (unit : UnitId) : (releaseUnit unit w).2.sources.find? unit = none := by
  rw [releaseUnit_eq]
  split
  · rw [Table.find?_erase, if_pos rfl]
  · next h => simpa using h

namespace Query

variable {w : World}

theorem acceptUnit_registers (hw : w.Sound) (src : SourceUnit) : (acceptUnit src).Registers w fun w' =>
      ∀ name, declares src.package src.types name → ∃ id, w'.Lists name id := by
  refine .advance_bind hw ((buildUnit_runs hw src).mono fun _ _ _ h => ⟨h.1, h.2.1⟩) fun unit w1 hw1 hk => .get ?_
  split
  · exact (bringUnitTo_runs hw1 hk _).mono fun _ _ _ => trivial
  rename_i hst
  refine .bind hw1 (bringUnitTo_runs hw1 hk .membersBuilt).framed ?_
  rintro - w2 - - ⟨hr, hf⟩
  intro d hd
  refine ⟨?_, fun _ _ => trivial⟩
  change Course _ none w2 (releaseUnit unit { w2 with pendingUnits := w2.pendingUnits.filter (· != unit) }).2
  have hs : (releaseUnit unit w2).2.pendingUnits = w2.pendingUnits ∧
      (releaseUnit unit w2).2.stage = w2.stage := by
    rw [releaseUnit_eq]
    split <;> exact ⟨rfl, rfl⟩
  rw [releaseUnit_pendingUnits, ← hs.1]
  refine .trans (.tend (.release (.inl rfl) (Stage.eq_membersBuilt hr)))
    (.tend (.retire _ (.inr ⟨⟨unit, rfl⟩, ?_⟩) fun other _ hdr => ?_))
  · rw [hs.2, hf.stage (by simp), hst]
  · rw [show other = unit by simpa using hdr]
    exact source_releaseUnit w2 unit

theorem acceptSupply_registers (hw : w.Sound) (name : QName) (supply : Supply) :
    (acceptSupply supply).Registers w fun w' => supply.Declares name → ∃ id, w'.Lists name id := by
  cases supply with
  | compiled file =>
    refine ((createClass_registers hw file).map fun _ => ()).mono ?_
    rintro w' hl rfl
    exact hl
  | unit src => exact (acceptUnit_registers hw src).mono fun _ h => h name
  | loose pkg types => exact (acceptUnit_registers hw _).mono fun _ h => h name

instance : (noteAbsent name).Orderly := by
  refine .after fun pkg => ?_
  split <;> infer_instance

theorem noteAbsent_types (name : QName) : (noteAbsent name w).2.types = w.types := by
  have hs := (enterPackage_grows (w := w) w.classPath.isPackage name.parent.segments defaultPackage).same
  have ht : (Edit.getPackage name.parent w).2.types = w.types := by rw [Edit.getPackage, Edit.modifyGet_apply, hs]
  rw [noteAbsent, Edit.bind_apply]
  cases (Edit.getPackage name.parent w).1 <;> exact ht

theorem noteAbsent_known? (name : QName) (pkg : PackageId) (simple : String) :
    (noteAbsent name w).2.known? pkg simple = w.known? pkg simple := by
  have hk : (Edit.getPackage name.parent w).2.known? pkg simple = w.known? pkg simple :=
    (enterPackage_grows (w := w) w.classPath.isPackage name.parent.segments defaultPackage).known pkg simple
  rw [noteAbsent, Edit.bind_apply]
  cases (Edit.getPackage name.parent w).1 with
  | none => exact hk
  | some found => exact (known?_addAbsent ..).trans hk

theorem noteAbsent_isAbsent (hw : w.Sound) {pkg : PackageId}
    (hp : w.packageNamed? name.parent = some pkg) : (noteAbsent name w).2.isAbsent name := by
  have he : Edit.getPackage name.parent w = (some pkg, w) := enterPackage_of_subpackage? hp
  have hwo : (noteAbsent name w).2 = w.modifyPackage pkg (·.addAbsent name.simple) := by
    rw [noteAbsent, Edit.bind_apply, he]
    rfl
  have hn : (noteAbsent name).Orderly := inferInstance
  have hg := (hn.course w hw).grows
  refine isAbsent_iff.2 ⟨pkg, hg.named _ _ hp, ?_⟩
  rw [hwo, package_modifyPackage, if_pos ⟨rfl, hw.registered.tree.lt_of_named hp⟩, PackageInfo.addAbsent]
  split
  · next hm => exact List.contains_iff_mem.1 hm
  · exact List.mem_cons_self

theorem loadName_apply (name : QName) (d : Demand) : loadName name d w = (match (w.classPath.find name).1 with
    | none => liftM (noteAbsent name)
    | some supply => acceptSupply supply : Query Unit) d (w.asking name) := rfl

theorem loadName_loads (hw : w.Sound) (name : QName) (hd : d.Orderly) :
    w.Loads name (Halt.of? (loadName name d w).1) (loadName name d w).2 := by
  have hw1 : (w.asking name).Sound := hw.move (.aside (neutral_asking w name).toAside)
  cases hf : (w.classPath.find name).1 with
  | none =>
    have hn : (noteAbsent name).Orderly := inferInstance
    have hr : loadName name d w = (.ok (), (noteAbsent name (w.asking name)).2) := by
      rw [loadName_apply, hf]
      rfl
    rw [hr]
    refine .missed hf (hn.course _ hw1) (hn.classPath _) (noteAbsent_types name) (noteAbsent_known? name) fun hs => ?_
    obtain ⟨pkg, hpa⟩ := Option.isSome_iff_exists.1 hs
    exact noteAbsent_isAbsent hw1 ((Grows.spares (neutral_asking w name).toSpares).named _ _ hpa)
  | some supply =>
    obtain ⟨w1, hc, hp, hl, hre⟩ := acceptSupply_registers hw1 name supply
    have hr : loadName name d w = acceptSupply supply d (w.asking name) := by rw [loadName_apply, hf]
    rw [hr]
    exact .found hf hc hp hl (hre d hd).1 (hre d hd).2

end Query

theorem Demand.meet_course {isLast : World → Bool} {query : Query Unit} (hd : d.Orderly)
    {w : World} {post : Unit → World → Prop} (h : query.Runs w post) :
    Course none (Halt.of? (meet isLast (query d) w).1) w (meet isLast (query d) w).2 ∧
      ((meet isLast (query d) w).1.isOk → post () (meet isLast (query d) w).2) := by
  rw [meet]
  split
  · exact ⟨(Course.refl w).halt (fun _ h => by cases h), fun h => by cases h⟩
  obtain ⟨hc, hp⟩ := h d hd
  refine ⟨hc, fun hok => ?_⟩
  cases hr : (query d w).1 with
  | error halt => rw [hr] at hok; cases hok
  | ok a => exact hp a hr

theorem Demand.orderly_upTo (isLast : World → Bool) (fuel : Nat) : (upTo isLast fuel).Orderly := by
  induction fuel with
  | zero =>
    refine ⟨fun _ _ _ => .refused, fun _ w _ => (Course.refl w).halt (fun _ h => by cases h), ?_⟩
    intro id w _ hok
    cases hok
  | succ fuel ih =>
    refine ⟨fun name w hw => ?_, fun id w hw => ?_, fun id w hw => ?_⟩
    · change w.Loads name (Halt.of? (meet isLast (loadName name (upTo isLast fuel)) w).1)
        (meet isLast (loadName name (upTo isLast fuel)) w).2
      rw [meet]
      split
      · exact .refused
      · exact loadName_loads hw name ih
    · exact (meet_course ih (connectHierarchy_runs hw id)).1
    · exact (meet_course ih (connectHierarchy_runs hw id)).2

theorem Demand.orderly_standard : standard.Orderly := orderly_upTo _ _

end Bindings
