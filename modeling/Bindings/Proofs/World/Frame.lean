import Mathlib.Data.Finset.Card
import Bindings.Proofs.World.Course

/-! # Units along a course -/

namespace Bindings

open ClassInfo

variable {info : ClassInfo} {src : SourceUnit} {stop : Option Halt}

theorem Stage.rank_next? {stage next : Stage} (h : stage.next? = some next) : next.rank = stage.rank + 1 := by
  cases stage <;> cases h <;> rfl

theorem ClassInfo.isCompiled_of_source {unit : UnitId} {path : List Nat}
    (h : info.origin = .source unit path) : info.isCompiled = false := by
  rw [isCompiled, h]
  rfl

theorem ClassInfo.source_of_isCompiled (h : info.isCompiled = false) :
    ∃ unit path, info.origin = .source unit path := by
  cases ho : info.origin with
  | compiled => simp [isCompiled, ho] at h
  | source unit path => exact ⟨unit, path, rfl⟩

namespace World

variable {w w' : World} {task : Option Task}

namespace DeclaredAt

variable {id : TypeId} {unit : UnitId} {path : List Nat}

theorem grows (hg : w.Grows w') (h : w.DeclaredAt id unit path) : w'.DeclaredAt id unit path := by
  obtain ⟨info, hi, ho⟩ := h
  obtain ⟨info', hi', hk⟩ := hg.declared id info hi
  exact ⟨info', hi', hk.origin.trans ho⟩

theorem role (h : w.DeclaredAt id unit path) : w.role id = .declared := by
  obtain ⟨info, hi, -⟩ := h
  exact role_of_class? hi

theorem unique {unit' : UnitId} {path' : List Nat} (h : w.DeclaredAt id unit path)
    (h' : w.DeclaredAt id unit' path') : unit' = unit ∧ path' = path := by
  obtain ⟨info, hi, ho⟩ := h
  obtain ⟨_, hi', ho'⟩ := h'
  cases hi.symm.trans hi'
  cases ho.symm.trans ho'
  exact ⟨rfl, rfl⟩

theorem of_spares (hs : w.Spares w') (h : w'.DeclaredAt id unit path) : w.DeclaredAt id unit path := by
  obtain ⟨info, hi, ho⟩ := h
  exact ⟨info, by rwa [class?, hs.type] at hi, ho⟩

end DeclaredAt

def releasedUnits (w : World) : Finset Nat :=
  (Finset.range w.units.size).filter fun index => (w.sources.find? ⟨index⟩).isNone

/-- A unit is pending as long as it has its declarations, which are dropped when it has been through all
stages, and those are counted. -/
structure Ledger (w : World) : Prop where
  known : ∀ unit ∈ w.pendingUnits, unit.index < w.units.size
  pending : ∀ unit, (w.sources.find? unit).isSome → unit ∈ w.pendingUnits
  released : ∀ unit : UnitId, unit.index < w.units.size → w.sources.find? unit = none →
    (w.unit unit).stage = .membersBuilt
  completed : w.stats.unitsCompleted = w.releasedUnits.card

namespace Ledger

variable {unit : UnitId} (hw : w.Ledger)

include hw

theorem sameUnits (h : w.SameUnits w') : w'.Ledger where
  known unit hu := by
    rw [h.pendingUnits] at hu
    exact h.unitCount ▸ hw.known unit hu
  pending unit hu := by
    rw [h.declarations] at hu
    exact h.pendingUnits ▸ hw.pending unit hu
  released unit hu hn := by
    rw [h.unitCount] at hu
    rw [h.declarations] at hn
    exact (h.unit unit).1.trans (hw.released unit hu hn)
  completed := by
    rw [h.unitsCompleted, hw.completed, releasedUnits, releasedUnits, h.unitCount]
    simp only [h.declarations]

theorem index_lt (h : (w.sources.find? unit).isSome) : unit.index < w.units.size :=
  hw.known unit (hw.pending unit h)

theorem opensUnit (h : w.OpensUnit unit src w') : w'.Ledger := by
  obtain ⟨info, -, hst, -, rfl, rfl⟩ := h
  have hsi : (w.units.push info).size = w.units.size + 1 := Array.size_push ..
  refine ⟨fun unit hu => ?_, fun unit hu => ?_, fun unit hu hn => ?_, ?_⟩
  · rw [List.mem_append, List.mem_singleton] at hu
    change unit.index < (w.units.push info).size
    rw [hsi]
    obtain hu | rfl := hu
    · exact Nat.lt_succ_of_lt (hw.known unit hu)
    · exact Nat.lt_succ_self _
  · rw [List.mem_append, List.mem_singleton]
    rw [Table.find?_insert] at hu
    split at hu
    · exact .inr ‹_›
    · exact .inl (hw.pending unit hu)
  · rw [Table.find?_insert] at hn
    split at hn
    · cases hn
    rename_i hne
    have hne' : unit.index ≠ w.units.size := fun heq => hne (by cases unit; simp_all)
    rw [unit_push (w := w) rfl, if_neg hne']
    exact hw.released unit (by change unit.index < (w.units.push info).size at hu; omega) hn
  · have hs : ∀ i ∈ Finset.range w.units.size, ((w.sources.insert ⟨w.units.size⟩ src).find? ⟨i⟩).isNone =
          (w.sources.find? ⟨i⟩).isNone := by
      intro i hi
      rw [Table.find?_insert, if_neg]
      rintro ⟨⟩
      exact Nat.lt_irrefl _ (Finset.mem_range.1 hi)
    refine hw.completed.trans ?_
    unfold releasedUnits
    dsimp only
    rw [hsi, Finset.range_add_one, Finset.filter_insert, if_neg]
    · exact congrArg Finset.card (Finset.filter_congr fun i hi => by rw [hs i hi]).symm
    · rw [Table.find?_insert, if_pos rfl]
      simp

theorem modifyUnit (change : UnitInfo → UnitInfo)
    (h : w.sources.find? unit = none → ∀ info, info.stage = .membersBuilt →
      (change info).stage = .membersBuilt) : (w.modifyUnit unit change).Ledger where
  known other ho := by
    rw [size_modifyUnit]
    exact hw.known other ho
  pending other ho := hw.pending other ho
  released other ho hn := by
    rw [size_modifyUnit] at ho
    have hr := hw.released other ho hn
    by_cases heq : other = unit
    · subst heq
      rw [unit_modifyUnit_self change ho]
      exact h hn _ hr
    · rwa [unit_modifyUnit_ne change heq]
  completed := by
    rw [releasedUnits, size_modifyUnit]
    exact hw.completed

theorem release (hst : (w.unit unit).stage = .membersBuilt) : (Edit.releaseUnit unit w).2.Ledger := by
  rw [releaseUnit_eq]
  split
  · next hs =>
    have hf : ∀ other, (w.sources.erase unit).find? other =
        if other = unit then none else w.sources.find? other := fun other => Table.find?_erase ..
    refine ⟨hw.known, fun other ho => ?_, fun other ho hn => ?_, ?_⟩
    · rw [hf] at ho
      split at ho
      · cases ho
      · exact hw.pending other ho
    · rw [hf] at hn
      split at hn
      · next heq => exact heq ▸ hst
      · exact hw.released other ho hn
    · have hm : (Finset.range w.units.size).filter (fun i => ((w.sources.erase unit).find? ⟨i⟩).isNone) =
          insert unit.index w.releasedUnits := by
        ext i
        have hi : (⟨i⟩ : UnitId) = unit ↔ i = unit.index := by cases unit; simp
        simp only [hf, hi, Finset.mem_filter, Finset.mem_insert, releasedUnits, Finset.mem_range]
        by_cases heq : i = unit.index
        · simp [heq, hw.index_lt hs]
        · simp [heq]
      have hno : unit.index ∉ w.releasedUnits := by
        simpa [releasedUnits] using fun _ => Option.isSome_iff_ne_none.1 hs
      refine Eq.trans ?_ (congrArg Finset.card hm).symm
      rw [Finset.card_insert_of_notMem hno, ← hw.completed]
  · exact hw

theorem retire (keep : UnitId → Bool)
    (h : ∀ unit ∈ w.pendingUnits, keep unit = false → w.sources.find? unit = none) :
    { w with pendingUnits := w.pendingUnits.filter keep }.Ledger where
  known unit hu := hw.known unit (List.mem_filter.1 hu).1
  pending unit hu := by
    have hm := hw.pending unit hu
    refine List.mem_filter.2 ⟨hm, ?_⟩
    by_contra hd
    rw [h unit hm (by simpa using hd)] at hu
    cases hu
  released := hw.released
  completed := hw.completed

end Ledger

def SameMembers (w w' : World) (id : TypeId) : Prop :=
  ∀ info, w.class? id = some info → info.isCompiled = false →
    ∃ info', w'.class? id = some info' ∧ info'.origin = info.origin ∧ info'.members = info.members

namespace SameMembers

variable {id : TypeId}

theorem trans {w1 w2 : World} (h1 : w.SameMembers w1 id) (h2 : w1.SameMembers w2 id) : w.SameMembers w2 id := by
  intro info hi hs
  obtain ⟨info1, hi1, ho1, hm1⟩ := h1 info hi hs
  have hs1 : info1.isCompiled = false := by rwa [isCompiled, ho1]
  obtain ⟨info2, hi2, ho2, hm2⟩ := h2 info1 hi1 hs1
  exact ⟨info2, hi2, ho2.trans ho1, hm2.trans hm1⟩

theorem spares (h : w.Spares w') : w.SameMembers w' id := fun info hi _ => ⟨info, by rwa [class?, h.type], rfl, rfl⟩

theorem quiet (hg : w.Grows w') (h : w.Quiet w') : w.SameMembers w' id := by
  intro info hi _
  obtain ⟨new, _, hn, -, hq⟩ := h.kept id info hi
  obtain ⟨_, hn', hk⟩ := hg.declared id info hi
  cases hn.symm.trans hn'
  exact ⟨new, hn, hk.origin, hq.members⟩

theorem modifyClass (other : TypeId) {change : ClassInfo → ClassInfo}
    (h : ∀ info, w.class? other = some info → id = other → info.isCompiled = false →
      (change info).origin = info.origin ∧ (change info).members = info.members) :
    w.SameMembers (w.modifyClass other change) id := by
  intro info hi hs
  rw [class?_modifyClass]
  split
  · next heq =>
    obtain ⟨ho, hm⟩ := h info (heq ▸ hi) heq hs
    exact ⟨change info, by rw [hi]; rfl, ho, hm⟩
  · exact ⟨info, hi, rfl, rfl⟩

theorem addType (w : World) (info : TypeInfo) (id : TypeId) : w.SameMembers (w.addType info).2 id :=
  fun old ho _ => ⟨old, by
    rwa [class?, type_addType_of_lt info (lt_size_of_class? ho)], rfl, rfl⟩

end SameMembers

@[simp] def IsWhole (task : Option Task) : Prop := task = some .complete ∨ task = some .operate

structure Frame (task : Option Task) (w w' : World) : Prop where
  units : w.units.size ≤ w'.units.size
  rank : ∀ unit : UnitId, unit.index < w.units.size →
    (w.unit unit).stage.rank ≤ (w'.unit unit).stage.rank
  unit : ∀ unit : UnitId, unit.index < w.units.size → task ≠ some (.advance unit) →
    ¬ IsWhole task →
    (w'.unit unit).stage = (w.unit unit).stage ∧ w'.sources.find? unit = w.sources.find? unit
  types : ∀ unit : UnitId, unit.index < w.units.size → task ≠ some (.form unit) →
    (w'.unit unit).types = (w.unit unit).types
  members : ∀ id (unit : UnitId) path, w.DeclaredAt id unit path → unit.index < w.units.size →
    task ≠ some (.form unit) → w.SameMembers w' id
  stage : ¬ IsWhole task → w'.stage = w.stage
  deferred : ¬ IsWhole task → w'.deferredChecks.isSome = w.deferredChecks.isSome
  pending : ¬ IsWhole task → ∀ stage, w.stage = some stage → w.pendingUnits <+: w'.pendingUnits
  ledger : w.Ledger → w'.Ledger
  isPackage : ∀ name, w'.classPath.isPackage name = w.classPath.isPackage name

namespace Frame

variable {w1 w2 : World} {unit : UnitId}

theorem of_sameUnits (h : w.SameUnits w') (hm : ∀ id, w.SameMembers w' id) : Frame task w w' where
  units := h.unitCount.ge
  rank unit _ := by rw [(h.unit unit).1]
  unit unit _ _ _ := ⟨(h.unit unit).1, h.declarations unit⟩
  types unit _ _ := (h.unit unit).2
  members id _ _ _ _ _ := hm id
  stage _ := h.stage
  deferred _ := h.deferred
  pending _ _ _ := h.pendingUnits ▸ List.prefix_refl _
  ledger hw := hw.sameUnits h
  isPackage := h.isPackage

theorem append {task' : Option Task} (h1 : Frame task w w1) (h2 : Frame task' w1 w2)
    (hwh : IsWhole task' → IsWhole task)
    (ha : ∀ unit : UnitId, unit.index < w.units.size → task' = some (.advance unit) →
      task = some (.advance unit) ∨ IsWhole task)
    (hf : ∀ unit : UnitId, unit.index < w.units.size → task' = some (.form unit) →
      task = some (.form unit)) : Frame task w w2 where
  units := h1.units.trans h2.units
  rank unit hu := (h1.rank unit hu).trans (h2.rank unit (hu.trans_le h1.units))
  unit unit hu hn hn' := by
    obtain ⟨hst1, hso1⟩ := h1.unit unit hu hn hn'
    obtain ⟨hst2, hso2⟩ := h2.unit unit (hu.trans_le h1.units)
      (fun heq => (ha unit hu heq).elim hn hn') fun heq => hn' (hwh heq)
    exact ⟨hst2.trans hst1, hso2.trans hso1⟩
  types unit hu hn := (h2.types unit (hu.trans_le h1.units) fun heq => hn (hf unit hu heq)).trans (h1.types unit hu hn)
  members id unit path hid hu hn := by
    have hs := h1.members id unit path hid hu hn
    obtain ⟨info, hi, ho⟩ := hid
    obtain ⟨info1, hi1, ho1, -⟩ := hs info hi (isCompiled_of_source ho)
    exact hs.trans <| h2.members id unit path ⟨info1, hi1, ho1.trans ho⟩
      (hu.trans_le h1.units) fun heq => hn (hf unit hu heq)
  stage hn := (h2.stage fun heq => hn (hwh heq)).trans (h1.stage hn)
  deferred hn := (h2.deferred fun heq => hn (hwh heq)).trans (h1.deferred hn)
  pending hn stage hst := (h1.pending hn stage hst).trans
    (h2.pending (fun heq => hn (hwh heq)) stage ((h1.stage hn).trans hst))
  ledger hw := h2.ledger (h1.ledger hw)
  isPackage name := (h2.isPackage name).trans (h1.isPackage name)

theorem trans (h1 : Frame task w w1) (h2 : Frame task w1 w2) : Frame task w w2 :=
  h1.append h2 id (fun _ _ => .inl) fun _ _ => id

theorem opensUnit (h : w.OpensUnit unit src w') : Frame none w w' := by
  have hl := fun hw : w.Ledger => hw.opensUnit h
  have hsp := h.aside.toSpares
  obtain ⟨info, -, -, -, rfl, hw'⟩ := h
  have hu : ∀ unit : UnitId, unit.index < w.units.size → w'.unit unit = w.unit unit :=
    fun unit hlt => by rw [unit_push (w := w) (by rw [hw']), if_neg (Nat.ne_of_lt hlt)]
  have hs : ∀ unit : UnitId, unit.index < w.units.size →
      w'.sources.find? unit = w.sources.find? unit := by
    intro unit hlt
    rw [hw', Table.find?_insert, if_neg]
    rintro rfl
    exact Nat.lt_irrefl _ hlt
  exact
    { units := by rw [hw']; simp
      rank := fun unit hlt => by rw [hu unit hlt]
      unit := fun unit hlt _ _ => ⟨by rw [hu unit hlt], hs unit hlt⟩
      types := fun unit hlt _ => by rw [hu unit hlt]
      members := fun _ _ _ _ _ _ => .spares hsp
      stage := fun _ => by rw [hw']
      deferred := fun _ => by rw [hw']
      pending := fun _ _ _ => by rw [hw']; exact List.prefix_append ..
      ledger := hl
      isPackage := fun _ => by rw [hw'] }

theorem modifyUnit (unit : UnitId) {change : UnitInfo → UnitInfo} (h : ∀ info, (change info).stage = info.stage) :
    Frame (some (.form unit)) w (w.modifyUnit unit change) := by
  have hs : ∀ other, ((w.modifyUnit unit change).unit other).stage = (w.unit other).stage := by
    intro other
    obtain heq | heq := unit_modifyUnit w unit change other <;> rw [heq]
    exact h _
  exact
    { units := (size_modifyUnit ..).ge
      rank := fun other _ => (congrArg Stage.rank (hs other)).ge
      unit := fun other _ _ _ => ⟨hs other, rfl⟩
      types := fun other _ hne => by
        rw [unit_modifyUnit_ne change fun heq => hne (by rw [heq])]
      members := fun _ _ _ _ _ _ info hi _ => ⟨info, hi, rfl, rfl⟩
      stage := fun _ => rfl
      deferred := fun _ => rfl
      pending := fun _ _ _ => List.prefix_refl _
      ledger := fun hw => hw.modifyUnit change fun _ info hi => (h info).trans hi
      isPackage := fun _ => rfl }

theorem promotes (h1 : Frame none w w1) (h : w.Promotes unit w1 w') : Frame (some (.advance unit)) w w' := by
  obtain ⟨next, hu, hnex, -, rfl⟩ := h
  have ho : ∀ other : UnitId, other ≠ unit →
      (w1.modifyUnit unit fun info => { info with stage := next }).unit other = w1.unit other :=
    fun other hne => unit_modifyUnit_ne _ hne
  have hse := unit_modifyUnit_self (fun info => { info with stage := next }) (hu.trans_le h1.units)
  have hn : ¬ IsWhole none := by simp
  exact
    { units := h1.units.trans (size_modifyUnit ..).ge
      rank := fun other hlt => by
        by_cases heq : other = unit
        · subst heq
          rw [hse, Stage.rank_next? hnex]
          exact Nat.le_succ _
        · rw [ho other heq]
          exact h1.rank other hlt
      unit := fun other hlt hne _ => by
        rw [ho other fun heq => hne (by rw [heq])]
        exact h1.unit other hlt (by simp) hn
      types := fun other hlt _ => by
        refine Eq.trans ?_ (h1.types other hlt (by simp))
        by_cases heq : other = unit
        · rw [heq, hse]
        · rw [ho other heq]
      members := fun id unit path hid hlt _ => h1.members id unit path hid hlt (by simp)
      stage := fun _ => h1.stage hn
      deferred := fun _ => h1.deferred hn
      pending := fun _ => h1.pending hn
      ledger := fun hw => by
        refine (h1.ledger hw).modifyUnit _ fun hs => ?_
        -- A unit without declarations is at the last stage, after which none comes.
        rw [(h1.unit unit hu (by simp) hn).2] at hs
        rw [hw.released unit hu hs] at hnex
        cases hnex
      isPackage := h1.isPackage }

end Frame

theorem sameUnits_beginReading (w : World) (id : TypeId) (part : ClassPart) : w.SameUnits (w.beginReading id part) := by
  cases part <;> exact { Apart.refl w with }

theorem Opens.frame {task : Task} (h : Opens task w w') : Frame none w w' := by
  cases h with
  | @read w id part _ =>
    refine .of_sameUnits (sameUnits_beginReading ..) ?_
    exact fun _ => SameMembers.modifyClass id fun _ _ _ _ => ⟨rfl, rfl⟩
  | imports =>
    exact .of_sameUnits (sameUnits_modifyUnit _ _ (fun _ => rfl) fun _ => rfl) fun _ info hi _ => ⟨info, hi, rfl, rfl⟩
  | form h => exact .opensUnit h
  | found => exact .of_sameUnits { Apart.refl w with } fun _ info hi _ => ⟨info, hi, rfl, rfl⟩

theorem Tends.frame {task : Task} (h : Tends task w w') : Frame (some task) w w' := by
  cases h with
  | @fill w id reading hc _ _ =>
    refine .of_sameUnits { Apart.refl w with } fun _ => .modifyClass id fun info hi _ hso => ?_
    obtain ⟨_, hi', hc⟩ := hc
    cases hi.symm.trans hi'
    simp [hso] at hc
  | @declare w info =>
    obtain ⟨hq, hg⟩ := quiet_newListedClass w info
    exact .of_sameUnits ((Steady.types w _).toSameUnits.trans hq.toSameUnits) fun id =>
      (SameMembers.addType w _ id).trans (.quiet hg hq)
  | @enclose w unit outer member path i _ hou _ _ =>
    have hs : w.SameUnits (w.modifyClass outer fun info => { info with members := info.members ++ [member] }) :=
      { Apart.refl w with }
    refine ⟨hs.unitCount.ge, fun _ _ => le_rfl, fun _ _ _ _ => ⟨rfl, rfl⟩, fun _ _ _ => rfl, ?_,
      fun _ => rfl, fun _ => rfl, fun _ _ _ => List.prefix_refl _, fun hw => hw.sameUnits hs, fun _ => rfl⟩
    rintro id other path' ⟨info, hi, ho⟩ _ hf
    refine .modifyClass outer fun _ _ heq _ => absurd ?_ hf
    obtain ⟨_, hi', ho'⟩ := hou
    cases hi.symm.trans (heq ▸ hi')
    cases ho.symm.trans ho'
    rfl
  | store =>
    exact .of_sameUnits (sameUnits_modifyUnit _ _ (fun _ => rfl) fun _ => rfl) fun _ info hi _ => ⟨info, hi, rfl, rfl⟩
  | endow => exact .of_sameUnits { Apart.refl w with } fun _ => .modifyClass _ fun _ _ _ _ => ⟨rfl, rfl⟩
  | list => exact .modifyUnit _ fun _ => rfl
  | @release w task released ht hst =>
    have hl : w.Ledger → _ := fun hw => hw.release hst
    rw [releaseUnit_eq] at hl ⊢
    revert hl
    split <;> intro hl
    · refine ⟨le_rfl, fun _ _ => le_rfl, fun unit _ ha hwh => ⟨rfl, ?_⟩, fun _ _ _ => rfl,
        fun _ _ _ _ _ _ info hi _ => ⟨info, hi, rfl, rfl⟩, fun _ => rfl, fun _ => rfl,
        fun _ _ _ => List.prefix_refl _, hl, fun _ => rfl⟩
      rw [Table.find?_erase, if_neg]
      rintro rfl
      exact ht.elim (fun heq => ha (by rw [heq])) fun heq => hwh (.inl (by rw [heq]))
    · exact .of_sameUnits { Apart.refl w with } fun _ => .spares { Apart.refl w with }
  | @retire w task keep ht hd =>
    refine ⟨le_rfl, fun _ _ => le_rfl, fun _ _ _ _ => ⟨rfl, rfl⟩, fun _ _ _ => rfl,
      fun _ _ _ _ _ _ => .spares { Apart.refl w with }, fun _ => rfl, fun _ => rfl,
      fun hwh stage hst => ?_, fun hw => hw.retire keep hd, fun _ => rfl⟩
    obtain rfl | ⟨-, hn⟩ := ht
    · exact absurd (.inl rfl) hwh
    · cases hn.symm.trans hst
  | turn stage deferred =>
    have hwh : IsWhole (some .complete) := .inl rfl
    exact ⟨le_rfl, fun _ _ => le_rfl, fun _ _ _ hno => absurd hwh hno, fun _ _ _ => rfl,
      fun _ _ _ _ _ _ => .spares { Apart.refl w with }, fun hno => absurd hwh hno,
      fun hno => absurd hwh hno, fun hno => absurd hwh hno,
      fun hw => ⟨hw.known, hw.pending, hw.released, hw.completed⟩,
      fun _ => rfl⟩
  | ask name => exact .of_sameUnits (neutral_asking ..).toSameUnits fun _ => .spares (neutral_asking ..).toSpares
  | mark id => exact .of_sameUnits { Apart.refl w with } fun _ => .modifyClass id fun _ _ _ _ => ⟨rfl, rfl⟩

theorem frame_beginHierarchy (w : World) (id : TypeId) : Frame none w (w.beginHierarchy id) :=
  .of_sameUnits { Apart.refl w with } fun _ => .modifyClass id fun _ _ _ _ => ⟨rfl, rfl⟩

theorem Course.frame (h : Course task stop w w') : Frame task w w' := by
  have hr : ∀ (task : Option Task) (w : World), Frame task w w := fun _ w =>
    .of_sameUnits (Apart.refl w).toSameUnits fun _ => .spares (Apart.refl w).toSpares
  induction h with
  | halt _ _ ih => exact ih
  | inside _ ih | serve _ ih => exact (hr _ _).append ih (by simp) (by simp) (by simp)
  | operate ht _ ih =>
    exact (hr _ _).append ih (by simp) (by rcases ht with rfl | rfl | rfl <;> simp)
      (by rcases ht with rfl | rfl | rfl <;> simp)
  | bracket h _ ih =>
    have hne : ∀ {w w' : World}, w.Neutral w' → Frame none w w' := fun h =>
      .of_sameUnits h.toSameUnits fun _ => .spares h.toSpares
    exact ((hne h.before).trans ih).trans (hne h.after)
  | abandon stage deferred _ ih => exact ih.trans (Tends.turn stage deferred).frame
  | trans _ _ ih1 ih2 => exact ih1.trans ih2
  | move h hq => exact .of_sameUnits hq.toSameUnits fun _ => .quiet h.grows hq
  | tend h => exact h.frame
  | store id change h =>
    refine .of_sameUnits { Apart.refl _ with } fun _ => .modifyClass id fun info hi _ _ => ?_
    exact ⟨(h info hi).toKeptAs.origin, (h info hi).sameMembers⟩
  | @connect id w w' _ _ _ ih =>
    have he : Frame none w' (w'.endHierarchy id) :=
      .of_sameUnits { Apart.refl w' with } fun _ => .modifyClass id fun _ _ _ _ => ⟨rfl, rfl⟩
    exact ((frame_beginHierarchy w id).append ih (by simp) (by simp) (by simp)).trans he
  | broken _ _ ih => exact (frame_beginHierarchy ..).append ih (by simp) (by simp) (by simp)
  | nest h _ ih =>
    have ho := h.frame
    cases h with
    | read | imports | found => exact ho.append ih (by simp) (by simp) (by simp)
    | form h =>
      -- The unit that is formed was not there.
      obtain ⟨_, -, -, -, rfl, -⟩ := h
      refine ho.append ih (by simp) (by simp) fun unit hu heq => ?_
      cases heq
      exact absurd hu (Nat.lt_irrefl _)
  | advance _ hn _ ih1 ih2 =>
    refine ih1.append ih2 (by simp) (fun unit hu heq => ?_) (by simp)
    cases heq
    exact absurd hu (Nat.not_lt.2 hn)
  | promote _ h ih => exact ih.promotes h
  | view h _ _ ih | unfilled h _ ih =>
    obtain ⟨_, _, _, -, -, -, -, rfl⟩ := h
    exact Frame.trans (.of_sameUnits {} fun _ => .spares {}) ih

theorem Course.sameMembers (h : Course none stop w w') (hw : w.Sound) (id : TypeId) : w.SameMembers w' id := by
  intro info hi hs
  obtain ⟨unit, path, ho⟩ := source_of_isCompiled hs
  have hu := (hw.linked.source id info unit path hi ho).1
  exact h.frame.members id unit path ⟨info, hi, ho⟩ hu (by simp) info hi hs

end World

end Bindings
