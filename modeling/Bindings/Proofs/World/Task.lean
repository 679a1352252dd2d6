import Bindings.Loading
import Bindings.Proofs.World.Requests

/-! # Tasks -/

namespace Bindings

open Edit ClassInfo

def ClassState.clear (state : ClassState) : ClassPart → ClassState
  | .superclass => { state with superclassPending := false }
  | .interfaces => { state with interfacesPending := false }
  | .members => { state with membersPending := false }
  | .memberTypes => { state with memberTypesPending := false }

def Stats.count (stats : Stats) : ClassPart → Stats
  | .superclass | .interfaces => { stats with supertypeCompletions := stats.supertypeCompletions + 1 }
  | .members => { stats with memberCompletions := stats.memberCompletions + 1 }
  | .memberTypes => { stats with memberTypeCompletions := stats.memberTypeCompletions + 1 }

inductive Reading where
  | superclass (superclass : Option TypeId)
  | interfaces (interfaces : List TypeId)
  | members (fields : List FieldId) (methods : List MethodId)
  | memberTypes (members : List TypeId)

namespace Reading

def part : Reading → ClassPart
  | superclass _ => .superclass
  | interfaces _ => .interfaces
  | members .. => .members
  | memberTypes _ => .memberTypes

def store : Reading → ClassInfo → ClassInfo
  | superclass type, info => { info with superclass := type }
  | interfaces types, info => { info with interfaces := types }
  | members fields methods, info => { info with fields, methods }
  | memberTypes types, info => { info with members := info.members ++ types }

def supertypes : Reading → List TypeId
  | superclass type => type.toList
  | interfaces types => types
  | _ => []

end Reading

theorem ClassState.isPending_clear (state : ClassState) (part other : ClassPart) :
    (state.clear part).isPending other = (decide (other ≠ part) && state.isPending other) := by
  cases part <;> cases other <;> rfl

inductive Task where
  | connect (id : TypeId)
  | read (id : TypeId) (part : ClassPart)
  | imports (unit : UnitId)
  | form (unit : UnitId)
  | found (id : TypeId)
  | advance (unit : UnitId)
  | complete
  | ask
  | mark
  | operate
  deriving DecidableEq, Repr

/-- At the path stands a declaration with the name and the kind of the class. -/
def SourceUnit.Declares (source : SourceUnit) (path : List Nat) (info : ClassInfo) : Prop :=
  ∃ decl, source.typeAt? path = some decl ∧ decl.name = info.sourceName ∧ decl.kind = info.kind

namespace World

variable {w w' : World} {task : Task} {id : TypeId} {part : ClassPart} {unit : UnitId} {w1 : World}

def Unread (w : World) (id : TypeId) (part : ClassPart) : Prop :=
  ∃ info, w.class? id = some info ∧ info.isCompiled ∧ info.state.isPending part

def IsRead (w : World) (id : TypeId) (part : ClassPart) : Prop :=
  ∃ info, w.class? id = some info ∧ info.isCompiled ∧ info.state.isPending part = false

def IsCompiled (w : World) (id : TypeId) : Prop :=
  ∃ info, w.class? id = some info ∧ info.isCompiled

def Built (w : World) (id : TypeId) : Prop :=
  ∃ info, w.class? id = some info ∧ info.state.membersBuilt

def DeclaredAt (w : World) (id : TypeId) (unit : UnitId) (path : List Nat) : Prop :=
  ∃ info, w.class? id = some info ∧ info.origin = .source unit path

def Bare (w : World) (id : TypeId) : Prop :=
  ∃ info, w.class? id = some info ∧ info.typeVariables = []

/-- The task in which a class gets its type variables: the one that makes it, or its unit. -/
def Founds (w : World) (task : Task) (id : TypeId) : Prop :=
  task = .found id ∨ ∃ unit path, task = .form unit ∧ w.DeclaredAt id unit path

def beginReading (w : World) (id : TypeId) (part : ClassPart) : World :=
  (w.modifyClass id fun info => { info with state := info.state.clear part }).modifyStats (·.count part)

def beginImports (w : World) (unit : UnitId) : World :=
  w.modifyUnit unit fun info => { info with imports := { info.imports with begun := true } }

def markMemberless (w : World) (id : TypeId) : World :=
  w.modifyClass id fun info => { info with state := { info.state with noMemberTypes := true } }

def OpensUnit (w : World) (unit : UnitId) (source : SourceUnit) (w' : World) : Prop :=
  ∃ info, info.types = [] ∧ info.stage = .typesBuilt ∧ info.imports = {} ∧
    unit = ⟨w.units.size⟩ ∧ w' = { w with
      units := w.units.push info
      sources := w.sources.insert unit source
      pendingUnits := w.pendingUnits ++ [unit] }

inductive Opens : Task → World → World → Prop
  | read {w : World} {id : TypeId} {part : ClassPart} : w.Unread id part →
    Opens (.read id part) w (w.beginReading id part)
  | imports {w : World} {unit : UnitId} : (w.unit unit).imports.begun = false →
    Opens (.imports unit) w (w.beginImports unit)
  | form {w w' : World} {unit : UnitId} {source : SourceUnit} : w.OpensUnit unit source w' →
    Opens (.form unit) w w'
  | found {w : World} {id : TypeId} : w.types.size ≤ id.index → Opens (.found id) w w

inductive Tends : Task → World → World → Prop
  | fill {w : World} {id : TypeId} (reading : Reading) : w.IsCompiled id →
    (∀ slot ∈ reading.supertypes, w.MayHold (.type id) slot) →
    (∀ members, reading = .memberTypes members → ∀ member ∈ members, w.role member = .declared) →
    Tends (.read id reading.part) w (w.modifyClass id reading.store)
  | store {w : World} {unit : UnitId} {table : ImportTable} : table.begun →
    (∀ simple id, table.single.find? simple = some id → w.role id = .declared) →
    Tends (.imports unit) w (w.modifyUnit unit fun info => { info with imports := table })
  | declare {w : World} {info : ClassInfo} {unit : UnitId} {path : List Nat} {source : SourceUnit} :
    info.origin = .source unit path → unit.index < w.units.size → info.scope.isSome →
    info.state = {} → info.supertypes = [] → info.members = [] →
    w.sources.find? unit = some source → source.Declares path info →
    (∀ outer ∈ info.enclosing, w.SourceIn outer info.package) → (info.isListed → info.Fits w) →
    info.typeVariables = [] → Tends (.form unit) w (newListedClass info w).2
  | enclose {w : World} {unit : UnitId} {outer member : TypeId} {path : List Nat} {index : Nat} :
    (w.unit unit).stage = .typesBuilt → w.DeclaredAt outer unit path →
    w.DeclaredAt member unit (path ++ [index]) →
    (∀ info, w.class? outer = some info → ∀ other ∈ info.members, ¬ w.DeclaredAt other unit (path ++ [index])) →
    Tends (.form unit) w (w.modifyClass outer fun info => { info with members := info.members ++ [member] })
  | endow {w : World} {task : Task} {id : TypeId} {typeVariables : List TypeId} : w.Founds task id →
    w.Bare id → (∀ var ∈ typeVariables, w.IsVariable var) →
    Tends task w (w.modifyClass id fun info => { info with typeVariables })
  | list {w : World} {unit : UnitId} {types : List TypeId} : (w.unit unit).stage = .typesBuilt →
    (∀ id ∈ types, ∃ index, w.DeclaredAt id unit [index]) →
    types.Pairwise (fun a b => ∀ path, w.DeclaredAt a unit path → ¬ w.DeclaredAt b unit path) →
    Tends (.form unit) w (w.modifyUnit unit fun info => { info with types })
  | release {w : World} {task : Task} {unit : UnitId} : task = .advance unit ∨ task = .complete →
    (w.unit unit).stage = .membersBuilt → Tends task w (releaseUnit unit w).2
  | retire {w : World} {task : Task} (keep : UnitId → Bool) :
    (task = .complete ∨ (∃ unit, task = .advance unit) ∧ w.stage = none) →
    (∀ unit ∈ w.pendingUnits, keep unit = false → w.sources.find? unit = none) →
    Tends task w { w with pendingUnits := w.pendingUnits.filter keep }
  | turn {w : World} (stage : Option Stage) (deferred : Option (List TypeId)) :
    Tends .complete w { w with stage, deferredChecks := deferred }
  | ask {w : World} (name : QName) : Tends .ask w (w.asking name)
  | mark {w : World} (id : TypeId) : Tends .mark w (w.markMemberless id)

def Promotes (w : World) (unit : UnitId) (w1 w' : World) : Prop :=
  ∃ next, unit.index < w.units.size ∧ (w.unit unit).stage.next? = some next ∧
    (∀ id ∈ w.unitTypes unit, w.role id = .declared →
      (next = .hierarchyConnected → w1.Joined id) ∧
      (next = .membersBuilt → w1.Built id ∨ w1.declaration? id = none)) ∧
    w' = w1.modifyUnit unit fun info => { info with stage := next }

theorem Unread.isCompiled (h : w.Unread id part) : w.IsCompiled id := by
  obtain ⟨info, hi, hc, -⟩ := h
  exact ⟨info, hi, hc⟩

theorem IsCompiled.grows (hg : w.Grows w') (h : w.IsCompiled id) : w'.IsCompiled id := by
  obtain ⟨info, hi, hc⟩ := h
  obtain ⟨info', hi', hk⟩ := hg.declared id info hi
  exact ⟨info', hi', hk.isCompiled.trans hc⟩

theorem Unread.isRead_beginReading {other : TypeId} {part' : ClassPart} (h : w.Unread id part) :
    (w.beginReading id part).IsRead other part' ↔ w.IsRead other part' ∨ other = id ∧ part' = part := by
  obtain ⟨info, hi, hc, hp⟩ := h
  change (∃ new, (w.modifyClass id _).class? other = some new ∧ _) ↔ _
  rw [class?_modifyClass, IsRead]
  split
  · next heq =>
    subst heq
    simp only [hi, Option.map_some, Option.some.injEq, exists_eq_left', ClassState.isPending_clear]
    have hs : ClassInfo.isCompiled { info with state := info.state.clear part } = info.isCompiled := rfl
    by_cases hpa : part' = part
    · simp [hs, hc, hpa]
    · simp [hs, hc, hpa]
  · next hne => simp [hne]

theorem unit_push {info : UnitInfo} (h : w'.units = w.units.push info) (id : UnitId) :
    w'.unit id = if id.index = w.units.size then info else w.unit id := by
  rw [World.unit, h, getD_push, ← World.unit]

theorem OpensUnit.aside {src : SourceUnit} (h : w.OpensUnit unit src w') : w.Aside w' := by
  obtain ⟨info, -, -, hi, rfl, rfl⟩ := h
  refine
    { Apart.refl w with
      units := by simp, sources := fun unit hu => ?_, imports := fun unit simple id hid => ?_ }
  · rw [Table.find?_insert, if_neg]
    · exact .inl rfl
    · rintro rfl
      exact Nat.lt_irrefl _ hu
  · rw [unit_push (w := w) rfl] at hid
    split at hid
    · rw [hi] at hid
      cases hid
    · exact .inl hid

theorem move_clear (w : World) (id : TypeId) (part : ClassPart) :
    Move w (w.modifyClass id fun info => { info with state := info.state.clear part }) := by
  refine .amend id _ (fun info _ => ?_) (fun _ _ _ hsl => .inl hsl) fun _ _ _ hv => .inl hv
  have hp : ∀ other, (info.state.clear part).isPending other → info.state.isPending other := by
    intro other ho
    rw [ClassState.isPending_clear, Bool.and_eq_true] at ho
    exact ho.2
  have hs : (info.state.clear part).hierarchyBegun = info.state.hierarchyBegun ∧
      (info.state.clear part).hierarchyEnded = info.state.hierarchyEnded ∧
      (info.state.clear part).membersBuilt = info.state.membersBuilt ∧
      (info.state.clear part).variablesConnected = info.state.variablesConnected := by
    cases part <;> exact ⟨rfl, rfl, rfl, rfl⟩
  obtain ⟨hb, he, hbu, hva⟩ := hs
  exact
    { ClassInfo.EditedTo.refl _ with
      pending := hp
      superclassPending := hp .superclass
      interfacesPending := hp .interfaces
      begun := fun h => hb.trans h
      ended := fun h => he.trans h
      membersBuilt := fun h => hbu.trans h
      variablesConnected := fun h => hva.trans h
      sameBegun := hb
      sameEnded := he }

theorem aside_count (w : World) (part : ClassPart) : w.Aside (w.modifyStats (·.count part)) := by
  cases part <;> exact { Apart.refl w with }

theorem aside_beginImports (w : World) (unit : UnitId) : w.Aside (w.beginImports unit) :=
  aside_modifyUnit _ fun _ _ _ h => .inl h

theorem aside_turn (w : World) (stage : Option Stage) (deferred : Option (List TypeId)) :
    w.Aside { w with stage, deferredChecks := deferred } := { Apart.refl w with }

theorem Opens.moves (h : Opens task w w') : ∃ w0, Move w w0 ∧ Move w0 w' := by
  cases h with
  | read => exact ⟨_, move_clear .., .aside (aside_count ..)⟩
  | imports => exact ⟨w, .aside (Apart.refl w).toAside, .aside (aside_beginImports ..)⟩
  | form h => exact ⟨w, .aside (Apart.refl w).toAside, .aside h.aside⟩
  | found => exact ⟨w, .aside (Apart.refl w).toAside, .aside (Apart.refl w).toAside⟩

theorem Opens.ne_connect (h : Opens task w w') (id : TypeId) : task ≠ .connect id := by cases h <;> simp

theorem releaseUnit_eq (w : World) (unit : UnitId) : (releaseUnit unit w).2 = if (w.sources.find? unit).isSome then
        { w with
          sources := w.sources.erase unit
          stats := { w.stats with unitsCompleted := w.stats.unitsCompleted + 1 } }
      else w := by
  rw [releaseUnit, bind_apply, get_apply]
  dsimp only
  split <;> rfl

theorem releaseUnit_aside (w : World) (unit : UnitId) : w.Aside (releaseUnit unit w).2 := by
  rw [releaseUnit_eq]
  split
  · refine { Apart.refl w with sources := fun other _ => ?_ }
    rw [Table.find?_erase]
    split
    · exact .inr rfl
    · exact .inl rfl
  · exact (Apart.refl w).toAside

theorem newListedClass_eq (w : World) {info : ClassInfo} (hs : info.isCompiled = false) :
    (newListedClass info w).2 = if info.isListed then w.arrival info else (w.addType (.declared info)).2 := by
  simp only [newListedClass, bind_apply, arrival, isListed, key, hs,
    Bool.false_or, Bool.false_eq_true, if_false]
  split <;> rfl

theorem quiet_newListedClass (w : World) (info : ClassInfo) :
    (w.addType (.declared info)).2.Quiet (newListedClass info w).2 ∧
      (w.addType (.declared info)).2.Grows (newListedClass info w).2 := by
  rw [newListedClass, bind_apply]
  dsimp only
  split
  · exact ⟨.registerType _ _ (role_addClass w info), .registerType _ _ _⟩
  · exact ⟨.apart (.refl _), .refl _⟩

theorem Tends.move (h : Tends task w w') : Move w w' := by
  cases h with
  | @fill _ id reading hc hslo _ =>
    refine .amend id _ (fun info hi => ?_) (fun info hi slot hsl => ?_) fun info hi var hv => ?_
    · obtain ⟨_, hi', hc⟩ := hc
      cases hi.symm.trans hi'
      cases reading with
      | superclass => exact { ClassInfo.EditedTo.refl _ with superclass := fun hs => absurd hc (by simp [hs]) }
      | interfaces => exact { ClassInfo.EditedTo.refl _ with interfaces := fun hs => absurd hc (by simp [hs]) }
      | members => exact { ClassInfo.EditedTo.refl _ with }
      | memberTypes => exact { ClassInfo.EditedTo.refl _ with members := List.subset_append_left .. }
    · cases reading with
      | superclass | interfaces =>
        simp only [Reading.store, slots, supertypes, List.mem_append] at hsl ⊢
        grind [Reading.supertypes]
      | members | memberTypes => exact .inl hsl
    · cases reading <;> exact .inl hv
  | @declare _ info _ _ _ ho hu hsc hst hno _ _ _ hen hf hb =>
    have hn := ClassInfo.IsNew.source _ _ ho hu hsc hst hno hb hen
    have hslo : ∀ slot ∈ info.slots, w.MayHold (.type ⟨w.types.size⟩) slot := by
      intro slot hsl
      rw [slots, hno, List.nil_append, Option.mem_toList] at hsl
      obtain ⟨_, ho, -⟩ := hen slot hsl
      exact Grounded.mayHold (.inl (.of_role (role_of_class? ho))) _
    rw [newListedClass_eq _ (by rw [isCompiled, ho]; rfl)]
    split
    · next hl => exact .arrive _ hn (hf hl) hslo
    · next hl => exact .add _ (.declared rfl hn (by simpa using hl)) hslo
  | enclose =>
    exact .amend _ _ (fun _ _ => { ClassInfo.EditedTo.refl _ with members := List.subset_append_left .. })
      (fun _ _ _ hsl => .inl hsl)
      fun _ _ _ hv => .inl hv
  | endow _ hb hv =>
    refine .amend _ _ (fun info hi => { ClassInfo.AmendedTo.refl _ with isGeneric := fun hg => ?_ })
      (fun _ _ _ hsl => .inl hsl) fun _ _ var hm => .inr (hv var hm)
    obtain ⟨_, hi', hb⟩ := hb
    cases hi.symm.trans hi'
    simp [isGeneric, hb] at hg
  | store _ hsi => exact .aside (aside_modifyUnit _ fun _ simple id hid => .inr (hsi simple id hid))
  | list => exact .aside (aside_modifyUnit _ fun _ _ _ h => .inl h)
  | release => exact .aside (releaseUnit_aside ..)
  | turn stage deferred => exact .aside (aside_turn ..)
  | retire => exact .aside { Apart.refl w with }
  | ask name => exact .aside (neutral_asking ..).toAside
  | mark id =>
    exact .amend id _ (fun _ _ => { ClassInfo.EditedTo.refl _ with }) (fun _ _ _ hsl => .inl hsl)
      fun _ _ _ hv => .inl hv

theorem Tends.level (h : Tends task w w') : w.Level w' := by
  cases h with
  | release =>
    rw [releaseUnit_eq]
    split <;> exact {}
  | ask name => exact level_asking ..
  | declare =>
    obtain ⟨hq, hg⟩ := quiet_newListedClass w _
    exact Level.trans (.types ..) hq.toLevel hg
  | _ => exact {}

theorem Opens.level (h : Opens task w w') : w.Level w' := by
  cases h with
  | read | imports | found => exact {}
  | form h =>
    obtain ⟨_, -, -, -, -, rfl⟩ := h
    exact {}

theorem Promotes.level (h : w.Promotes unit w1 w') : w1.Level w' := by
  obtain ⟨_, -, -, -, rfl⟩ := h
  exact {}

theorem Promotes.aside (h : w.Promotes unit w1 w') : w1.Aside w' := by
  obtain ⟨_, -, -, -, rfl⟩ := h
  exact aside_modifyUnit _ fun _ _ _ h => .inl h

theorem Tends.ne_connect (h : Tends task w w') (id : TypeId) : task ≠ .connect id := by
  cases h with
  | release ht => rcases ht with rfl | rfl <;> simp
  | retire _ ht => rcases ht with rfl | ⟨⟨_, rfl⟩, -⟩ <;> simp
  | endow ht => rcases ht with rfl | ⟨_, _, rfl, -⟩ <;> simp
  | _ => simp

end World

end Bindings
