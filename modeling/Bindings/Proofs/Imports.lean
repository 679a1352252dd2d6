import Bindings.Proofs.Reachable

/-! # Imports of a unit -/

open Relation

namespace Bindings

open Query

variable {w w' w1 : World} {task : Option Task} {stop : Option Halt} {unit : UnitId}

namespace World

theorem imports_modifyUnit (w : World) (id : UnitId) {change : UnitInfo → UnitInfo}
    (h : ∀ info, (change info).imports = info.imports) (unit : UnitId) :
    ((w.modifyUnit id change).unit unit).imports = (w.unit unit).imports := by
  obtain heq | heq := unit_modifyUnit w id change unit <;> rw [heq]
  exact h _

theorem Tends.imports {task : Task} (h : Tends task w w') (ht : task ≠ .imports unit) :
    (w'.unit unit).imports = (w.unit unit).imports := by
  cases h with
  | @store _ other _ _ _ => rw [unit_modifyUnit_ne _ fun heq => ht (by rw [heq])]
  | list => exact imports_modifyUnit _ _ (by exact fun _ => rfl) unit
  | declare => exact (quiet_newListedClass w _).1.sameImports unit
  | release =>
    rw [releaseUnit_eq]
    split <;> rfl
  | fill | enclose | endow | retire | turn | ask | mark => rfl

theorem Opens.imports_eq {task : Task} (h : Opens task w w') (ht : task ≠ .imports unit) :
    (w'.unit unit).imports = (w.unit unit).imports := by
  cases h with
  | read | found => rfl
  | imports => rw [beginImports, unit_modifyUnit_ne _ fun heq => ht (by rw [heq])]
  | form h =>
    obtain ⟨info, -, -, him, -, hw'⟩ := h
    have hu : w'.units = w.units.push info := by rw [hw']
    rw [unit_push hu]
    split
    · next hi =>
      rw [him, World.unit, hi, Array.getD_eq_getD_getElem?, Array.getElem?_size]
      rfl
    · rfl

theorem Promotes.imports {other : UnitId} (h : w.Promotes other w1 w') :
    (w'.unit unit).imports = (w1.unit unit).imports := by
  obtain ⟨_, -, -, -, rfl⟩ := h
  exact imports_modifyUnit _ _ (by exact fun _ => rfl) unit

theorem OpensView.imports {view : MethodId} (h : w.OpensView view w') (unit : UnitId) :
    (w'.unit unit).imports = (w.unit unit).imports := by
  obtain ⟨_, _, _, -, -, -, -, rfl⟩ := h
  rfl

/-- Only the task that resolves the imports of a unit writes them, and it is not opened a second time. -/
theorem Course.imports_of_begun (course : Course task stop w w') (other : task ≠ some (.imports unit))
    (begun : (w.unit unit).imports.begun) : (w'.unit unit).imports = (w.unit unit).imports := by
  induction course with
  | halt _ _ ih | abandon _ _ _ ih => exact ih other begun
  | trans _ _ ih1 ih2 =>
    have first := ih1 other begun
    exact (ih2 other (first ▸ begun)).trans first
  | move _ quiet => exact quiet.sameImports unit
  | bracket brackets _ ih =>
    have before := brackets.before.sameImports unit
    exact (brackets.after.sameImports unit).trans ((ih (by simp) (before ▸ begun)).trans before)
  | inside _ ih | connect _ _ _ ih | broken _ _ ih | serve _ ih => exact ih (by simp) begun
  | tend tends => exact tends.imports (by simpa using other)
  | store => rfl
  | @nest inner stop w w1 w2 opens _ ih =>
    have fresh : inner ≠ .imports unit := by
      rintro rfl
      cases opens with
      | imports unbegun => simp [unbegun] at begun
    have same := opens.imports_eq fresh
    exact (ih (by simpa using fresh) (same ▸ begun)).trans same
  | advance _ _ _ ih1 ih2 =>
    have first := ih1 (by simp) begun
    exact (ih2 (by simp) (first ▸ begun)).trans first
  | promote _ promotes ih => exact promotes.imports.trans (ih (by simp) begun)
  | operate inner _ ih => exact ih (by rcases inner with rfl | rfl | rfl <;> simp) begun
  | view opens _ _ ih | unfilled opens _ ih =>
    have same := opens.imports unit
    exact (ih (by simp) (same ▸ begun)).trans same

end World

namespace Query

def typeInUnitBy (table : ImportTable) (unit : UnitId) (scope : ScopeId) (name : String)
    (hidden : Option TypeId) : Query (Resolution TypeId) := do
  let world ← get
  let info := world.unit unit
  match info.types.find? fun own => (world.class? own).any (·.sourceName == name) with
  | some own => return .found own
  | none =>
    match table.single.find? name with
    | some imported => return .found imported
    | none =>
      match ← getType ((world.package info.package).name.child name) with
      | some id => return .found id
      | none => searchOnDemand scope name none hidden table.onDemand

theorem resolveTypeInUnit_by {d : Demand} (hd : d.Orderly) (hw1 : w1.Sound)
    (hr : resolveImports unit d w = (.ok (), w1)) (hb : (w1.unit unit).imports.begun) (scope : ScopeId)
    (name : String) (hidden : Option TypeId) : resolveTypeInUnit unit scope name hidden d w =
      typeInUnitBy (w1.unit unit).imports unit scope name hidden d w1 := by
  rw [resolveTypeInUnit, bind_ok d w hr, typeInUnitBy]
  dsimp only [get_bind_apply]
  cases (w1.unit unit).types.find? fun own => (w1.class? own).any (·.sourceName == name) with
  | some own => rfl
  | none =>
    cases (w1.unit unit).imports.single.find? name with
    | some imported => rfl
    | none =>
      dsimp only
      generalize ((w1.package (w1.unit unit).package).name.child name) = asked
      have hc := (getType_runs hw1 asked d hd).1
      cases hf : getType asked d w1 with
      | mk res w2 =>
        rw [hf] at hc
        cases res with
        | error halt => rw [bind_error d w1 _ hf, bind_error d w1 _ hf]
        | ok found =>
          rw [bind_ok d w1 hf, bind_ok d w1 hf]
          cases found with
          | some id => rfl
          | none =>
            have hk := hc.imports_of_begun (by simp) hb
            dsimp only [get_bind_apply]
            rw [hk]

end Query

namespace World

/-- One world comes after another: by operations, or in the middle of one, by what goes on outside of resolving
the imports of the unit. -/
def Ensues (unit : UnitId) : World → World → Prop :=
  ReflTransGen fun u v => u.Step v ∨ ∃ task stop, task ≠ some (.imports unit) ∧ Course task stop u v

theorem Ensues.imports (sound : w.Sound) (ledger : w.Ledger) (begun : (w.unit unit).imports.begun)
    (ensues : Ensues unit w w') : w'.Sound ∧ (w'.unit unit).imports = (w.unit unit).imports := by
  suffices kept : w'.Sound ∧ w'.Ledger ∧ (w'.unit unit).imports = (w.unit unit).imports from ⟨kept.1, kept.2.2⟩
  induction ensues with
  | refl => exact ⟨sound, ledger, rfl⟩
  | tail _ next ih =>
    obtain ⟨sound, ledger, same⟩ := ih
    obtain ⟨task, stop, other, course⟩ : ∃ task stop, task ≠ some (.imports unit) ∧ Course task stop _ _ := by
      obtain step | inner := next
      · obtain ⟨stop, course⟩ := step.course sound ledger
        exact ⟨_, stop, by simp, course⟩
      · exact inner
    exact ⟨course.sound sound, course.frame.ledger ledger, (course.imports_of_begun other (same ▸ begun)).trans same⟩

/-- Where the imports of a unit have not been asked for and resolving them comes to its end, the table has been
made from every import the unit declares. A lookup that resolves them first, and each later one, reads this
table. -/
theorem lookup_sees_stored_imports {isLast : World → Bool} {fuel : Nat} {w₁ : World} (hw : w.Sound)
    (hledger : w.Ledger) (hunit : unit.index < w.units.size) (hnew : (w.unit unit).imports.begun = false)
    (hrun : resolveImports unit (.upTo isLast fuel) w = (.ok (), w₁)) :
    (∀ source, w.sources.find? unit = some source → ∃ declared u,
      source.imports.foldlM (importOne unit) { begun := true } (.upTo isLast fuel) (w.beginImports unit) =
        (.ok declared, u) ∧ (w₁.unit unit).imports = (importImplicit unit declared u).1) ∧
    (∀ scope name hidden, resolveTypeInUnit unit scope name hidden (.upTo isLast fuel) w =
      typeInUnitBy (w₁.unit unit).imports unit scope name hidden (.upTo isLast fuel) w₁) ∧
    ∀ later, Ensues unit w₁ later → (later.unit unit).imports = (w₁.unit unit).imports ∧
      ∀ scope name hidden isLast fuel, resolveTypeInUnit unit scope name hidden (.upTo isLast fuel) later =
        typeInUnitBy (w₁.unit unit).imports unit scope name hidden (.upTo isLast fuel) later := by
  obtain ⟨hcourse, hbegun⟩ := resolveImports_runs hw unit _ (Demand.orderly_upTo isLast fuel)
  rw [hrun] at hcourse hbegun
  have hsound := hcourse.sound hw
  have hbegun : (w₁.unit unit).imports.begun := hbegun () rfl (hunit.trans_le hcourse.grows.units)
  refine ⟨fun source hsource => ?_, fun scope name hidden => ?_, fun later hlater => ?_⟩
  · rw [resolveImports_of_not_begun _ hnew, hsource] at hrun
    obtain ⟨declared, u, hdeclared, hrun⟩ := of_bind_ok _ _ hrun
    obtain ⟨table, v, himplicit, hstore⟩ := of_bind_ok _ _ hrun
    have htable : (importImplicit unit declared u).1 = table := Except.ok.inj (congrArg Prod.fst himplicit)
    have hstored : v.modifyUnit unit (fun info => { info with imports := table }) = w₁ := congrArg Prod.snd hstore
    have hunits := hunit.trans_le hcourse.grows.units
    rw [← hstored, size_modifyUnit] at hunits
    exact ⟨declared, u, hdeclared, by rw [← hstored, unit_modifyUnit_self _ hunits, htable]⟩
  · exact resolveTypeInUnit_by (Demand.orderly_upTo isLast fuel) hsound hrun hbegun scope name hidden
  · obtain ⟨hlaterSound, hsame⟩ := hlater.imports hsound (hcourse.frame.ledger hledger) hbegun
    have hlaterBegun : (later.unit unit).imports.begun := hsame ▸ hbegun
    refine ⟨hsame, fun scope name hidden isLast fuel => ?_⟩
    rw [← hsame]
    exact resolveTypeInUnit_by (Demand.orderly_upTo isLast fuel) hlaterSound
      (resolveImports_of_begun _ hlaterBegun) hlaterBegun scope name hidden

def leftUnit : SourceUnit :=
  { file := "Left.java", package := ⟨["p"]⟩
    imports := [{ name := ⟨["q", "Right"]⟩ },
      { name := ⟨["r", "Base"]⟩ }]
    types := [{ name := "Left"
                superclass := some (.ofSegments ["Base"]) }] }

def rightUnit : SourceUnit :=
  { file := "Right.java", package := ⟨["q"]⟩
    imports := [{ name := ⟨["p", "Left"]⟩ }]
    types := [{ name := "Right"
                superclass := some (.ofSegments ["Left"]) }] }

def mutualPath : ClassPath :=
  ((ClassPath.rootOnly.addClass { name := "r/Base" }).addUnit leftUnit).addUnit
    rightUnit

def leftFirst : World := (initial {} mutualPath {}).after [.getType ⟨["p", "Left"]⟩]

def leftHalfway : World :=
  ((Operation.getType ⟨["p", "Left"]⟩).run (.upTo (fun w => (w.unit ⟨0⟩).imports.begun) 1000000)
    (initial {} mutualPath {})).2

def rightFirst : World := (initial {} mutualPath {}).after [.getType ⟨["q", "Right"]⟩]

def leftBuilt : World := (initial {} mutualPath {}).after [.buildUnit leftUnit]

def leftResolved : World := (resolveImports ⟨0⟩ .standard leftBuilt).2

theorem lookup_sees_stored_imports_left :
    (leftBuilt.unit ⟨0⟩).imports.begun = false ∧
    (resolveTypeInUnit ⟨0⟩ ⟨0⟩ "Base" none .standard leftBuilt).1 = .ok (.found ⟨14⟩) ∧
    (typeInUnitBy (leftResolved.unit ⟨0⟩).imports ⟨0⟩ ⟨0⟩ "Base" none .standard leftResolved).1 = .ok (.found ⟨14⟩) ∧
    ∀ ops, ((leftResolved.after ops).unit ⟨0⟩).imports = (leftResolved.unit ⟨0⟩).imports := by
  have hread : leftBuilt.units.size = 1 ∧ (leftBuilt.unit ⟨0⟩).imports.begun = false ∧
      (resolveImports ⟨0⟩ .standard leftBuilt).1 = .ok () ∧
      (resolveTypeInUnit ⟨0⟩ ⟨0⟩ "Base" none .standard leftBuilt).1 = .ok (.found ⟨14⟩) := by
    decide +kernel
  obtain ⟨hunits, hnew, himports, hfound⟩ := hread
  have hreach : leftBuilt.Reachable := (Reachable.initial {} mutualPath {}).after _
  obtain ⟨-, hfirst, hlater⟩ := lookup_sees_stored_imports hreach.sound hreach.ledger
    (show (⟨0⟩ : UnitId).index < leftBuilt.units.size by rw [hunits]; decide) hnew (run_standard himports)
  refine ⟨hnew, hfound, ?_, fun ops => ?_⟩
  · exact (congrArg Prod.fst (hfirst ⟨0⟩ "Base" none)).symm.trans hfound
  · have ensues : Ensues ⟨0⟩ leftResolved (leftResolved.after ops) :=
      (later_after leftResolved ops).lift id fun _ _ step => .inl step
    exact (hlater _ ensues).1

theorem reachable_leftHalfway : leftHalfway.Reachable := (Reachable.initial {} mutualPath {}).step ⟨_, _, _, rfl⟩

/-- While the imports of a unit are resolved the unit has none: what it imports is not found, and its class
goes without its superclass, which it has if the other class is asked for first. -/
theorem lookup_sees_no_imports_yet :
    leftHalfway.Reachable ∧ (leftHalfway.unit ⟨0⟩).imports.begun ∧
    (resolveTypeInUnit ⟨0⟩ ⟨0⟩ "Base" none .standard leftHalfway).1 = .ok (.fail "Base" .notFound) ∧
    (resolveTypeInUnit ⟨0⟩ ⟨0⟩ "Base" none .standard leftFirst).1 = .ok (.found ⟨14⟩) ∧
    leftFirst.log.problems = #[{ kind := .supertypeNotFound, arguments := ["Base", "p.Left"] }] ∧
    (leftFirst.class? ⟨10⟩).map (fun info => (info.sourceName, info.superclass)) = some ("Left", leftFirst.object) ∧
    rightFirst.log.problems = #[] ∧
    (rightFirst.class? ⟨11⟩).map (fun info => (info.sourceName, info.superclass)) = some ("Left", some ⟨12⟩) :=
  ⟨reachable_leftHalfway, by decide +kernel⟩

end World

end Bindings
