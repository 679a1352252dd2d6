import Bindings.Proofs.World.Holders
import Bindings.Proofs.World.Level

/-!
# Moves

Apart from connecting source classes, a world is changed by moves. Each keeps types interned
(`Move.wellBuilt`) and the registry in order (`Move.registered`), and loses nothing (`Move.grows`).
-/

namespace Bindings

open Edit TypeInfo

/-! ## Classes -/

variable {new : ClassInfo} {tgt hole placeholder : TypeId}

inductive ClassPart where
  | superclass
  | interfaces
  | members
  | memberTypes
  deriving DecidableEq, Repr

def ClassState.isPending (state : ClassState) : ClassPart → Bool
  | .superclass => state.superclassPending
  | .interfaces => state.interfacesPending
  | .members => state.membersPending
  | .memberTypes => state.memberTypesPending

structure ClassInfo.LastsAs (old new : ClassInfo) : Prop where
  kind : new.kind = old.kind := by rfl
  modifiers : new.modifiers = old.modifiers := by rfl
  isGeneric : old.isGeneric → new.isGeneric := by exact fun h => h
  pending : ∀ part, new.state.isPending part → old.state.isPending part := by
    exact fun part h => by cases part <;> exact h
  membersBuilt : old.state.membersBuilt → new.state.membersBuilt := by exact fun h => h
  variablesConnected : old.state.variablesConnected → new.state.variablesConnected := by exact fun h => h

theorem ClassInfo.LastsAs.refl (info : ClassInfo) : info.LastsAs info := {}

theorem ClassInfo.LastsAs.trans {a b c : ClassInfo} (h1 : a.LastsAs b) (h2 : b.LastsAs c) : a.LastsAs c where
  kind := h2.kind.trans h1.kind
  modifiers := h2.modifiers.trans h1.modifiers
  isGeneric h := h2.isGeneric (h1.isGeneric h)
  pending part h := h1.pending part (h2.pending part h)
  membersBuilt h := h2.membersBuilt (h1.membersBuilt h)
  variablesConnected h := h2.variablesConnected (h1.variablesConnected h)

theorem ClassInfo.LastsAs.isInterface {a b : ClassInfo} (h : a.LastsAs b) : b.isInterface = a.isInterface := by
  rw [ClassInfo.isInterface, h.kind, ClassInfo.isInterface]

/-- What a class keeps in a move: what it keeps for good, how far its hierarchy is connected and, if
it comes from source, its supertypes. -/
structure ClassInfo.AmendedTo (old new : ClassInfo) : Prop extends old.KeptAs new, old.LastsAs new where
  sameBegun : new.state.hierarchyBegun = old.state.hierarchyBegun := by rfl
  sameEnded : new.state.hierarchyEnded = old.state.hierarchyEnded := by rfl
  superclass : old.isCompiled = false → new.superclass = old.superclass := by exact fun _ => rfl
  interfaces : old.isCompiled = false → new.interfaces = old.interfaces := by exact fun _ => rfl
  enclosing : old.isCompiled = false → new.enclosing = old.enclosing := by exact fun _ => rfl

theorem ClassInfo.AmendedTo.refl (info : ClassInfo) : info.AmendedTo info := {}

theorem ClassInfo.AmendedTo.supertypes {old : ClassInfo} (h : old.AmendedTo new)
    (hs : old.isCompiled = false) : new.supertypes = old.supertypes := by
  rw [ClassInfo.supertypes, h.superclass hs, h.interfaces hs, ClassInfo.supertypes]

structure ClassInfo.EditedTo (old new : ClassInfo) : Prop extends old.AmendedTo new where
  sameSuperclass : new.superclass = old.superclass := by rfl
  sameInterfaces : new.interfaces = old.interfaces := by rfl
  sameMembers : new.members = old.members := by rfl
  sameVariables : new.typeVariables = old.typeVariables := by rfl
  sameFields : old.isCompiled → new.fields = old.fields := by exact fun _ => rfl
  sameMethods : old.isCompiled → new.methods = old.methods := by exact fun _ => rfl
  sameMark : new.state.noMemberTypes = old.state.noMemberTypes := by rfl
  samePending : ∀ part, new.state.isPending part = old.state.isPending part := by
    exact fun part => by cases part <;> rfl

theorem ClassInfo.EditedTo.refl (info : ClassInfo) : info.EditedTo info := {}

inductive ClassInfo.IsNew (info : ClassInfo) (w : World) : Prop
  | compiled : info.isCompiled → info.state.hierarchyBegun → info.state.hierarchyEnded →
    info.typeVariables = [] → IsNew info w
  | source (unit : UnitId) (path : List Nat) : info.origin = .source unit path →
    unit.index < w.units.size → info.scope.isSome → info.state = {} → info.supertypes = [] →
    info.typeVariables = [] → (∀ outer ∈ info.enclosing, w.SourceIn outer info.package) → IsNew info w

theorem ClassInfo.IsNew.typeVariables {info : ClassInfo} {w : World} (h : info.IsNew w) : info.typeVariables = [] := by
  cases h with
  | compiled _ _ _ h => exact h
  | source _ _ _ _ _ _ _ h _ => exact h

theorem ClassInfo.IsNew.amended {info : ClassInfo} {w : World} (h : info.IsNew w) (ha : info.AmendedTo new)
    (hst : new.state = info.state) (hv : new.typeVariables = info.typeVariables) : new.IsNew w := by
  cases h with
  | compiled hc hb he hba => exact .compiled (ha.isCompiled.trans hc) (hst ▸ hb) (hst ▸ he) (hv.trans hba)
  | source unit path ho hu hsc hn hno hba hen =>
    have hs : info.isCompiled = false := by rw [ClassInfo.isCompiled, ho]; rfl
    exact .source unit path (ha.origin.trans ho) hu (ha.scope ▸ hsc) (hst.trans hn) ((ha.supertypes hs).trans hno)
      (hv.trans hba) (by rwa [ha.enclosing hs, ha.package])

theorem ClassInfo.IsNew.later {info : ClassInfo} {w w' : World} (h : info.IsNew w) (hg : w.Grows w') :
    info.IsNew w' := by
  cases h with
  | compiled hc hb he hba => exact .compiled hc hb he hba
  | source unit path ho hu hsc hs hn hba hen =>
    exact .source unit path ho (Nat.lt_of_lt_of_le hu hg.units) hsc hs hn hba fun outer h => (hen outer h).grows hg

def ClassInfo.isListed (info : ClassInfo) : Bool := info.isCompiled || info.enclosing.isNone

def ClassInfo.key (info : ClassInfo) : String :=
  if info.isCompiled then info.name.simple else info.sourceName

structure ClassInfo.Fits (info : ClassInfo) (w : World) : Prop where
  isListed : info.isListed
  package : info.package.index < w.packages.size
  name : info.name ≠ .root → info.name = (w.package info.package).name.child info.key
  room : ¬ w.ListsClass info.package info.key

def World.Unmarked (w : World) (sequence : Nat) : Prop :=
  sequence ≤ w.captureCount ∧
    ∀ id position earlier, (w.type id).sort = .capture position earlier → earlier < sequence

inductive TypeInfo.IsNew (info : TypeInfo) (w : World) : Prop
  | declared {new : ClassInfo} : info = .declared new → new.IsNew w → new.isListed = false →
    IsNew info w
  | missing : info.isMissing → IsNew info w
  | variableLike : info.isVariableLike → info.IsNormal →
    (∀ position sequence, info.sort = .capture position sequence → w.Unmarked sequence) → IsNew info w

namespace TypeInfo.IsNew

variable {info : TypeInfo} {w : World} (h : info.IsNew w)

include h

theorem isConstructed : info.isConstructed = false := by
  cases h with
  | declared h _ _ => rw [h]; rfl
  | missing h | variableLike h _ _ => cases info <;> simp_all [isConstructed, cacheKey?]

theorem role_ne_placeholder (name : QName) (tgt : Option TypeId) :
    info.role ≠ .placeholder name tgt := by
  cases h with
  | declared h _ _ => simp [h, role]
  | missing h => rw [role_eq_missing.2 h]; simp
  | variableLike h _ _ => cases info <;> simp_all [role]

theorem isResolved : info.isResolved = false := by
  cases info with
  | placeholder name tgt => exact absurd rfl (h.role_ne_placeholder name tgt)
  | _ => rfl

theorem class? (hn : info.class? = some new) : new.IsNew w := by
  cases h with
  | declared h hc _ =>
    rw [h] at hn
    exact Option.some.inj hn ▸ hc
  | missing h => cases info <;> simp_all
  | variableLike h _ _ => cases info <;> simp_all

theorem isNormal : info.IsNormal := by
  cases h with
  | declared h _ _ => rw [h]; trivial
  | missing h => cases info <;> simp_all [IsNormal]
  | variableLike _ h _ => exact h

end TypeInfo.IsNew

/-! ## Bounds -/

def TypeInfo.Rebound (a b : TypeInfo) : Prop :=
  b = a ∨ a.isVariableLike ∧ b.isVariableLike ∧ b.sort = a.sort ∧ b.IsNormal

namespace TypeInfo.Rebound

variable {a b : TypeInfo}

section

variable (h : a.Rebound b)

include h

@[elab_as_elim]
theorem cases {motive : TypeInfo → TypeInfo → Prop} (hr : ∀ info, motive info info)
    (hv : ∀ old new, motive (.variable old) (.variable new))
    (hc : ∀ old new, motive (.capture old) (.capture new)) : motive a b := by
  obtain rfl | ⟨ha, hb, hs, -⟩ := h
  · exact hr b
  · cases a <;> cases ha <;> cases b <;> cases hb
    exacts [hv .., (by cases hs), (by cases hs), hc ..]

theorem role : b.role = a.role := h.cases (fun _ => rfl) (fun _ _ => rfl) fun _ _ => rfl

theorem sameBuild : a.SameBuild b :=
  h.cases (fun _ => .inl rfl) (fun _ _ => .inr ⟨rfl, rfl⟩) fun _ _ => .inr ⟨rfl, rfl⟩

theorem class? : b.class? = a.class? := h.cases (fun _ => rfl) (fun _ _ => rfl) fun _ _ => rfl

theorem sort : b.sort = a.sort := by
  obtain rfl | ⟨ha, hb, hs, -⟩ := h
  · rfl
  · exact hs

theorem upkeep : b.upkeep = a.upkeep := h.cases (fun _ => rfl) (fun _ _ => rfl) fun _ _ => rfl

theorem isNormal (ha : a.IsNormal) : b.IsNormal := by
  obtain rfl | ⟨-, -, -, hb⟩ := h
  · exact ha
  · exact hb

end

theorem void {change : TypeInfo → TypeInfo} (h : ∀ info : TypeInfo, info.Rebound (change info)) :
    change (.base .void) = .base .void :=
  (h _).resolve_right fun h => by cases h.1

end TypeInfo.Rebound

theorem TypeInfo.sort_swap {src : TypeId} {info : TypeInfo} : (info.swap src tgt).sort = info.sort := by
  cases info <;> rfl

theorem TypeInfo.isPending_of_role {a b : TypeInfo} (h : b.role = a.role) : b.isPending = a.isPending := by
  cases a <;> cases b <;> simp_all [role]

theorem TypeInfo.isResolved_of_role {a b : TypeInfo} (h : b.role = a.role) : b.isResolved = a.isResolved := by
  cases a <;> cases b <;> simp_all [role]

namespace World

variable {w w' : World} {change : MethodInfo → MethodInfo} {comps : List TypeId} {id : TypeId} {name : QName}
  {package : PackageId} {simple : String} {w1 w2 : World} {info : TypeInfo}

def CapturesArgument (w : World) (position : Nat) (argument captured : TypeId) : Prop :=
  (w.type argument).sort = .wildcard ∧ (∃ sequence, (w.type captured).sort = .capture position sequence) ∨
    w.Knows argument ∧ (w.type argument).sort ≠ .wildcard ∧ captured = argument

def CapturedAs (w : World) (position : Nat) (id captured : TypeId) : Prop :=
  ∃ generic arguments newArguments enclosing, w.type id = .parameterized generic arguments enclosing ∧
    w.type captured = .parameterized generic newArguments enclosing ∧
    List.Forall₂ (w.CapturesArgument position) arguments newArguments

def CapturesApart (w : World) (pairs : List (TypeId × TypeId)) : Prop :=
  (∀ pair ∈ pairs, pair.1 ≠ pair.2 → ¬ w.Knows pair.2) ∧
    pairs.Pairwise fun pair other => other.1 ≠ other.2 → pair.2 ≠ other.2

structure Extends (w w' : World) : Prop where
  type : ∀ id, w.Knows id → w'.type id = w.type id
  added : ∀ id, ¬ w.Knows id → w'.class? id = none
  object : w'.object = w.object

structure Prolongs (w w' : World) : Prop extends w.Extends w' where
  captures : w'.captures = w.captures

theorem class?_of_not_knows (h : ¬ w.Knows id) : w.class? id = none := by
  by_contra hs
  obtain ⟨_, hi⟩ := Option.ne_none_iff_exists'.1 hs
  exact h (lt_size_of_class? hi)

theorem Prolongs.refl (w : World) : w.Prolongs w := ⟨⟨fun _ _ => rfl, fun _ => class?_of_not_knows, rfl⟩, rfl⟩

theorem Prolongs.push (ht : w'.types = w.types.push info) (hc : info.class? = none)
    (ho : w'.object = w.object) (hca : w'.captures = w.captures) : w.Prolongs w' where
  type id hid := by rw [type_of_push ht, if_neg (Nat.ne_of_lt hid)]
  added id hid := by
    rw [World.class?, type_of_push ht]
    split
    · exact hc
    · exact class?_of_not_knows hid
  object := ho
  captures := hca

theorem Prolongs.trans (h1 : w.Prolongs w1) (hs : w.types.size ≤ w1.types.size)
    (h2 : w1.Prolongs w2) : w.Prolongs w2 where
  type id hid := (h2.type id (Nat.lt_of_lt_of_le hid hs)).trans (h1.type id hid)
  added id hid := by
    by_cases hid1 : w1.Knows id
    · rw [World.class?, h2.type id hid1]
      exact h1.added id hid
    · exact h2.added id hid1
  object := h2.object.trans h1.object
  captures := h2.captures.trans h1.captures

theorem knows_of_sort (h : (w.type id).sort ≠ .other) : w.Knows id := lt_size_of_type_ne fun ht => h (by rw [ht]; rfl)

theorem CapturesArgument.grows {pos : Nat} {arg cap : TypeId} (h : w.CapturesArgument pos arg cap) (hg : w.Grows w') :
    w'.CapturesArgument pos arg cap := by
  obtain ⟨hw, sequence, hc⟩ | ⟨hk, hn, heq⟩ := h
  · refine .inl ⟨?_, sequence, ?_⟩
    · rwa [hg.sort arg (knows_of_sort (by simp [hw]))]
    · rwa [hg.sort cap (knows_of_sort (by simp [hc]))]
  · exact .inr ⟨hk.grows hg, by rwa [hg.sort arg hk], heq⟩

structure Spares (w w' : World) : Prop where
  types : w'.types = w.types := by rfl
  packageCount : w'.packages.size = w.packages.size := by rfl
  packages : ∀ id, (w'.package id).packages = (w.package id).packages := by exact fun _ => rfl
  packageName : ∀ id, (w'.package id).name = (w.package id).name := by exact fun _ => rfl
  known : ∀ id simple, w'.known? id simple = w.known? id simple := by exact fun _ _ => rfl
  listed : ∀ key, w'.caches.listed key = w.caches.listed key := by exact fun _ => rfl
  noted : ∀ id, w.noted id ⊆ w'.noted id := by exact fun _ => List.Subset.refl _
  misses : w'.stats.cacheMisses = w.stats.cacheMisses := by rfl
  resolutions : w'.stats.placeholderResolutions = w.stats.placeholderResolutions := by rfl
  units : w.units.size ≤ w'.units.size := by exact Nat.le_refl _
  sources : ∀ unit, unit.index < w.units.size →
    w'.sources.find? unit = w.sources.find? unit ∨ w'.sources.find? unit = none := by
      exact fun _ _ => .inl rfl
  imports : ∀ unit simple id, (w'.unit unit).imports.single.find? simple = some id →
    (w.unit unit).imports.single.find? simple = some id ∨ w.role id = .declared := by
      exact fun _ _ _ h => .inl h
  object : ∀ id, w'.object = some id → w.object = some id ∨ w.Denotes WellKnown.object id := by
    exact fun _ h => .inl h
  captures : ∀ id position captured, w'.captures.find? (id, position) = some captured →
    w.captures.find? (id, position) = some captured ∨ w.CapturedAs position id captured := by
      exact fun _ _ _ h => .inl h
  captureCount : w.captureCount ≤ w'.captureCount := by exact Nat.le_refl _

structure Aside (w w' : World) : Prop extends w.Spares w' where
  upkeep : ∀ referrer, w.upkeep referrer ≠ .atOnce → w'.upkeep referrer = w.upkeep referrer := by
    exact fun _ _ => rfl
  held : ∀ referrer, ∀ slot ∈ w'.held referrer, slot ∈ w.held referrer ∨ w'.MayHold referrer slot := by
      exact fun _ _ h => .inl h

structure SameUnits (w w' : World) : Prop where
  stage : w'.stage = w.stage := by rfl
  deferred : w'.deferredChecks.isSome = w.deferredChecks.isSome := by rfl
  pendingUnits : w'.pendingUnits = w.pendingUnits := by rfl
  unitCount : w'.units.size = w.units.size := by rfl
  unit : ∀ unit, (w'.unit unit).stage = (w.unit unit).stage ∧
    (w'.unit unit).types = (w.unit unit).types := by exact fun _ => ⟨rfl, rfl⟩
  declarations : ∀ unit, w'.sources.find? unit = w.sources.find? unit := by exact fun _ => rfl
  unitsCompleted : w'.stats.unitsCompleted = w.stats.unitsCompleted := by rfl
  isPackage : ∀ name, w'.classPath.isPackage name = w.classPath.isPackage name := by exact fun _ => rfl

structure Steady (w w' : World) : Prop extends w.SameUnits w' where
  sameImports : ∀ unit, (w'.unit unit).imports = (w.unit unit).imports := by exact fun _ => rfl
  memberCompletions : w'.stats.memberCompletions = w.stats.memberCompletions := by rfl
  supertypeCompletions : w'.stats.supertypeCompletions = w.stats.supertypeCompletions := by rfl

structure Neutral (w w' : World) : Prop extends w.Aside w', w.Steady w'

structure Apart (w w' : World) : Prop extends w.Neutral w', w.Level w' where
  classPath : w'.classPath = w.classPath := by rfl

theorem Apart.refl (w : World) : w.Apart w := {}

theorem Apart.addScope {kind : ScopeKind} {parent : Option ScopeId} (h : w.Level (w.addScope { kind, parent }).2) :
    w.Apart (w.addScope { kind, parent }).2 := by
  cases parent <;> exact { Apart.refl w with toLevel := h }

theorem Steady.types (w : World) (types : Array TypeInfo) : w.Steady { w with types } := { Apart.refl w with }

theorem SameUnits.trans (h1 : w.SameUnits w1) (h2 : w1.SameUnits w2) : w.SameUnits w2 where
  stage := h2.stage.trans h1.stage
  deferred := h2.deferred.trans h1.deferred
  pendingUnits := h2.pendingUnits.trans h1.pendingUnits
  unitCount := h2.unitCount.trans h1.unitCount
  unit id := ⟨(h2.unit id).1.trans (h1.unit id).1, (h2.unit id).2.trans (h1.unit id).2⟩
  declarations id := (h2.declarations id).trans (h1.declarations id)
  unitsCompleted := h2.unitsCompleted.trans h1.unitsCompleted
  isPackage name := (h2.isPackage name).trans (h1.isPackage name)

theorem Steady.trans (h1 : w.Steady w1) (h2 : w1.Steady w2) : w.Steady w2 where
  toSameUnits := h1.toSameUnits.trans h2.toSameUnits
  sameImports unit := (h2.sameImports unit).trans (h1.sameImports unit)
  memberCompletions := h2.memberCompletions.trans h1.memberCompletions
  supertypeCompletions := h2.supertypeCompletions.trans h1.supertypeCompletions

theorem Spares.type (h : w.Spares w') (id : TypeId) : w'.type id = w.type id := by
  rw [World.type, World.type, h.types]

theorem Aside.watches (h : w.Aside w') : w.Watches w' where
  size := h.types ▸ Nat.le_refl _
  pending id _ hid := ⟨by rwa [isPending, h.type] at hid, h.noted id⟩
  upkeep := h.upkeep
  held := h.held

theorem NotesMore.aside (h : w.NotesMore w') : w.Apart w' := by
  obtain ⟨hs, hn⟩ := h
  rw [hs] at hn ⊢
  exact { Apart.refl w with noted := hn, held := fun _ _ hsl => .inl hsl }

theorem aside_noteReferrers (w : World) (ref : Referrer) (comps : List TypeId) : w.Apart (w.noteReferrers ref comps) :=
  (noteReferrers_notesMore ref comps).aside

theorem unit_modifyUnit (w : World) (id : UnitId) (change : UnitInfo → UnitInfo) (other : UnitId) :
    (w.modifyUnit id change).unit other = w.unit other ∨
      (w.modifyUnit id change).unit other = change (w.unit other) := by
  rw [World.unit, World.modifyUnit, getD_modify]
  split
  · exact .inr rfl
  · exact .inl rfl

theorem unit_modifyUnit_ne (change : UnitInfo → UnitInfo) {id other : UnitId} (h : other ≠ id) :
    (w.modifyUnit id change).unit other = w.unit other := by
  rw [World.unit, World.modifyUnit, getD_modify, if_neg, ← World.unit]
  exact fun heq => h (by cases id; cases other; simp_all)

theorem unit_modifyUnit_self (change : UnitInfo → UnitInfo) {id : UnitId}
    (h : id.index < w.units.size) : (w.modifyUnit id change).unit id = change (w.unit id) := by
  rw [World.unit, World.modifyUnit, getD_modify, if_pos ⟨rfl, h⟩, ← World.unit]

theorem size_modifyUnit (w : World) (id : UnitId) (change : UnitInfo → UnitInfo) :
    (w.modifyUnit id change).units.size = w.units.size := by
  simp [World.modifyUnit]

theorem aside_modifyUnit (id : UnitId) {change : UnitInfo → UnitInfo}
    (h : ∀ info simple found, (change info).imports.single.find? simple = some found →
      info.imports.single.find? simple = some found ∨ w.role found = .declared) : w.Aside (w.modifyUnit id change) :=
  { Apart.refl w with
    units := Nat.le_of_eq (Array.size_modify ..).symm
    imports unit simple found hf := by
      obtain heq | heq := unit_modifyUnit w id change unit <;> rw [heq] at hf
      · exact .inl hf
      · exact h _ simple found hf }

theorem sameUnits_modifyUnit (w : World) (id : UnitId) {change : UnitInfo → UnitInfo}
    (hs : ∀ info, (change info).stage = info.stage) (ht : ∀ info, (change info).types = info.types) :
    w.SameUnits (w.modifyUnit id change) :=
  { Apart.refl w with
    unitCount := Array.size_modify ..
    unit unit := by
      obtain heq | heq := unit_modifyUnit w id change unit <;> rw [heq]
      · exact ⟨rfl, rfl⟩
      · exact ⟨hs _, ht _⟩ }

theorem aside_noted (ref : Referrer) (hsp : w.Spares w1) (hst : w.Steady w1) (hl : w.Level w1)
    (hp : w1.classPath = w.classPath)
    (hu : ∀ other, w.upkeep other ≠ .atOnce → w1.upkeep other = w.upkeep other)
    (hh : ∀ other, other ≠ ref → w1.held other = w.held other)
    (hn : w1.held ref ⊆ comps) (hk : ∀ slot ∈ comps, w.Knows slot) :
    w.Apart (w1.noteReferrers ref comps) := by
  have hma : ∀ slot ∈ w1.held ref, (w1.noteReferrers ref comps).MayHold ref slot := fun slot hsl =>
    mayHold_noteReferrers (by rw [Knows, hsp.types]; exact hk slot (hn hsl)) (hn hsl)
  obtain ⟨hs, hm⟩ := noteReferrers_notesMore (w := w1) ref comps
  rw [hs] at hm hma ⊢
  refine ⟨⟨⟨⟨hsp.types, hsp.packageCount, hsp.packages, hsp.packageName, hsp.known,
    hsp.listed, ?_, hsp.misses, hsp.resolutions, hsp.units, hsp.sources,
    hsp.imports, hsp.object, hsp.captures, hsp.captureCount⟩, hu, fun other slot hsl => ?_⟩,
    hst.trans { Apart.refl w1 with }⟩,
    ⟨hl.options, hl.comparing, hl.joinDepth, hl.rooted, hl.captured, hl.entry, hl.absent,
      hl.scope, hl.typeScope, hl.isStatic, hl.methodVariables, hl.nested⟩, hp⟩
  · exact fun id => List.Subset.trans (hsp.noted id) (hm id)
  by_cases ho : other = ref
  · subst ho
    exact .inr (hma slot hsl)
  · exact .inl (hh other ho ▸ hsl)

theorem method?_addMethod (info : MethodInfo) (id : MethodId) :
    (w.addMethod info).2.method? id = if id = ⟨w.methods.size⟩ then some info else w.method? id := by
  cases id
  simp [method?, addMethod, Array.getElem?_push]

theorem field?_addField (info : FieldInfo) (id : FieldId) :
    (w.addField info).2.field? id = if id = ⟨w.fields.size⟩ then some info else w.field? id := by
  cases id
  simp [field?, addField, Array.getElem?_push]

theorem addMethod_cases (w : World) (info : MethodInfo) (ref : Referrer) :
    (w.addMethod info).2.held ref = w.held ref ∧ (w.addMethod info).2.upkeep ref = w.upkeep ref ∨
    ref = .method ⟨w.methods.size⟩ ∧ (w.addMethod info).2.held ref = info.slots ∧
      w.upkeep ref = .atOnce ∧ (w.addMethod info).2.upkeep ref = info.upkeep := by
  cases ref with
  | method id =>
    simp only [held, upkeep, method?_addMethod]
    split
    · next heq =>
      subst heq
      refine .inr ⟨rfl, rfl, ?_, rfl⟩
      simp [method?]
    · exact .inl ⟨rfl, rfl⟩
  | type | field => exact .inl ⟨rfl, rfl⟩

theorem Level.addMethod {info : MethodInfo}
    (h : ∀ var ∈ info.typeVariables, (∃ other, var ∈ (w.method other).typeVariables) ∨ w.IsVariable var) :
    w.Level (w.addMethod info).2 where
  __ := refl w
  methodVariables id var hv := by
    rw [method_eq, method?_addMethod] at hv
    split at hv
    · exact h var hv
    · exact .inl ⟨id, by rwa [method_eq]⟩

theorem Level.modifyMethod (id : MethodId)
    (h : ∀ info, ∀ var ∈ (change info).typeVariables, var ∈ info.typeVariables ∨ w.IsVariable var) :
    w.Level (w.modifyMethod id change) where
  __ := refl w
  methodVariables other var hv := by
    rw [method_eq, method?_modifyMethod] at hv
    split at hv
    · next heq =>
      subst heq
      cases hi : w.method? id with
      | none =>
        rw [hi] at hv
        exact .inl ⟨id, by rw [method_eq, hi]; exact hv⟩
      | some info =>
        rw [hi] at hv
        exact (h info var hv).imp_left fun hm => ⟨id, by rw [method_eq, hi]; exact hm⟩
    · exact .inl ⟨other, by rwa [method_eq]⟩

theorem aside_addMethod {info : MethodInfo} (h : ∀ slot ∈ info.slots, w.Knows slot ∧
      (w.isPending slot → .method ⟨w.methods.size⟩ ∈ w.noted slot ∨ info.upkeep = .never))
    (hv : info.typeVariables = [] := by rfl) : w.Apart (w.addMethod info).2 :=
  { Apart.refl w with
    toLevel := .addMethod (by simp [hv])
    upkeep ref hu := by
      obtain ⟨-, hs⟩ | ⟨-, -, hn, -⟩ := addMethod_cases w info ref
      · exact hs
      · exact absurd hn hu
    held ref slot hsl := by
      obtain ⟨hs, -⟩ | ⟨rfl, hh, -, hu⟩ := addMethod_cases w info ref
      · exact .inl (hs ▸ hsl)
      obtain ⟨hk, hm⟩ := h slot (hh ▸ hsl)
      refine .inr ⟨hk, fun hp => (hm hp).imp_right fun hne => ?_⟩
      rw [hu, hne] }

theorem addField_cases (w : World) (info : FieldInfo) (ref : Referrer) : (w.addField info).2.held ref = w.held ref ∨
      ref = .field ⟨w.fields.size⟩ ∧ (w.addField info).2.held ref = [info.type] := by
  cases ref with
  | field id =>
    simp only [held, field?_addField]
    split
    · next heq => exact .inr ⟨by rw [heq], rfl⟩
    · exact .inl rfl
  | type | method => exact .inl rfl

def arrival (w : World) (info : ClassInfo) : World :=
  (registerType info.package info.key ⟨w.types.size⟩ (w.addType (.declared info)).2).2

inductive Move : World → World → Prop
  | aside {w w' : World} : w.Aside w' → Move w w'
  | amend {w : World} (id : TypeId) (change : ClassInfo → ClassInfo) :
    (∀ info, w.class? id = some info → info.AmendedTo (change info)) →
    (∀ info, w.class? id = some info → ∀ slot ∈ (change info).slots,
      slot ∈ info.slots ∨ w.MayHold (.type id) slot) →
    (∀ info, w.class? id = some info → ∀ var ∈ (change info).typeVariables,
      var ∈ info.typeVariables ∨ w.IsVariable var) →
    Move w (w.modifyClass id change)
  | bound {w : World} (id : TypeId) (change : TypeInfo → TypeInfo) :
    (∀ info : TypeInfo, info.Rebound (change info)) →
    (∀ slot ∈ (change (w.type id)).slots, slot ∈ (w.type id).slots ∨ w.MayHold (.type id) slot) →
    Move w (w.modifyType id change)
  | add {w : World} (info : TypeInfo) : info.IsNew w →
    (∀ slot ∈ info.slots, w.MayHold (.type ⟨w.types.size⟩) slot) → Move w (w.addType info).2
  | enter {w : World} (mayAdd : QName → Bool) (segments : List String) :
    Move w (w.enterPackage mayAdd segments defaultPackage).2
  | placeholder {w : World} (name : QName) : Move w (typeOrPlaceholder name w).2
  | build {w w' : World} {info : TypeInfo} {key : CacheKey} : w.Builds w' info key → Move w w'
  | arrive {w : World} (info : ClassInfo) : info.IsNew w → info.Fits w →
    (∀ slot ∈ info.slots, w.MayHold (.type ⟨w.types.size⟩) slot) → Move w (w.arrival info)
  | vanish {w : World} {placeholder target : TypeId} {name : QName} :
    w.type placeholder = .placeholder name none → w.IsFresh target → w.role target = .missing →
    Move w (w.swapPlaceholder placeholder target)

theorem aside_addField {info : FieldInfo} (h : w.MayHold (.field ⟨w.fields.size⟩) info.type) :
    w.Apart (w.addField info).2 :=
  { Apart.refl w with
    toLevel := .addField info
    upkeep ref _ := by cases ref <;> rfl
    held ref slot hsl := by
      obtain hs | ⟨rfl, hh⟩ := addField_cases w info ref
      · exact .inl (hs ▸ hsl)
      · obtain rfl : slot = info.type := List.mem_singleton.1 (hh ▸ hsl)
        exact .inr h }

theorem aside_addField_noted {info : FieldInfo} (change : Caches → Caches)
    (hl : ∀ caches key, (change caches).listed key = caches.listed key) (h : w.Knows info.type) :
    w.Apart (((w.addField info).2.modifyCaches change).noteReferrers (.field ⟨w.fields.size⟩) [info.type]) := by
  have hle : w.Level (w.addField info).2 := .addField info
  refine aside_noted _ { Apart.refl w with listed := hl w.caches } { Apart.refl w with }
    { Apart.refl w with isStatic := hle.isStatic } rfl ?_ ?_ ?_
    (by simpa using h)
  · exact fun other _ => by cases other <;> rfl
  · intro other ho
    exact (addField_cases w info other).resolve_right fun h => ho h.1
  have hh : (w.addField info).2.held (.field ⟨w.fields.size⟩) = [info.type] := by
    rw [held, field?_addField, if_pos rfl]
    rfl
  exact fun slot hs => hh ▸ hs

theorem aside_addMethod_noted {info : MethodInfo} (change : Caches → Caches)
    (hl : ∀ caches key, (change caches).listed key = caches.listed key)
    (h : ∀ slot ∈ info.slots, w.Knows slot) (hv : info.typeVariables = []) :
    w.Apart (((w.addMethod info).2.modifyCaches change).noteReferrers (.method ⟨w.methods.size⟩) info.slots) := by
  have hle : w.Level (w.addMethod info).2 := .addMethod (by simp [hv])
  refine aside_noted _ { Apart.refl w with listed := hl w.caches } { Apart.refl w with }
    { Apart.refl w with methodVariables := hle.methodVariables } rfl ?_ ?_ ?_ h
  · intro other ho
    obtain ⟨-, hs⟩ | ⟨-, -, hn, -⟩ := addMethod_cases w info other
    · exact hs
    · exact absurd hn ho
  · intro other ho
    exact ((addMethod_cases w info other).resolve_right fun h => ho h.1).1
  · have hh : (w.addMethod info).2.held (.method ⟨w.methods.size⟩) = info.slots := by
      rw [held, method?_addMethod, if_pos rfl]
      rfl
    exact fun slot hsl => hh ▸ hsl

theorem modifyMethod_cases (w : World) (id : MethodId)
    (hu : ∀ info, (change info).upkeep = info.upkeep) (ref : Referrer) :
    (w.modifyMethod id change).upkeep ref = w.upkeep ref ∧ ((w.modifyMethod id change).held ref = w.held ref ∨
        ref = .method id ∧ ∃ info, w.method? id = some info ∧
          (w.modifyMethod id change).held ref = (change info).slots) := by
  cases ref with
  | method other =>
    simp only [upkeep, held, method?_modifyMethod]
    split
    · next heq =>
      subst heq
      cases hi : w.method? id with
      | none => exact ⟨rfl, .inl rfl⟩
      | some info => exact ⟨hu info, .inr ⟨rfl, info, rfl, rfl⟩⟩
    · exact ⟨rfl, .inl rfl⟩
  | type | field => exact ⟨rfl, .inl rfl⟩

theorem aside_modifyMethod (id : MethodId) (hu : ∀ info, (change info).upkeep = info.upkeep)
    (h : ∀ info, ∀ slot ∈ (change info).slots, w.MayHold (.method id) slot)
    (hv : ∀ info, ∀ var ∈ (change info).typeVariables, var ∈ info.typeVariables ∨ w.IsVariable var) :
    w.Apart (w.modifyMethod id change) :=
  { Apart.refl w with
    toLevel := .modifyMethod id hv
    upkeep ref _ := (modifyMethod_cases w id hu ref).1
    held ref slot hsl := by
      obtain ⟨hs, hk | ⟨rfl, info, -, hh⟩⟩ := modifyMethod_cases w id hu ref
      · exact .inl (hk ▸ hsl)
      · obtain ⟨hkn, hm⟩ := h info slot (hh ▸ hsl)
        exact .inr ⟨hkn, fun hp => (hm hp).imp_right hs.trans⟩ }

theorem aside_modifyMethod_noted (id : MethodId) (hu : ∀ info, (change info).upkeep = info.upkeep)
    (hsl : ∀ info, w.method? id = some info → (change info).slots ⊆ comps)
    (hk : ∀ slot ∈ comps, w.Knows slot)
    (hv : ∀ info, ∀ var ∈ (change info).typeVariables, var ∈ info.typeVariables ∨ w.IsVariable var) :
    w.Apart ((w.modifyMethod id change).noteReferrers (.method id) comps) := by
  refine aside_noted _ { Apart.refl w with } { Apart.refl w with } (.modifyMethod id hv) rfl
    (fun other _ => (modifyMethod_cases w id hu other).1) ?_ ?_ hk
  · intro other ho
    exact (modifyMethod_cases w id hu other).2.resolve_right fun h => ho h.1
  intro slot hs
  rw [held, method?_modifyMethod, if_pos rfl] at hs
  cases hi : w.method? id with
  | none =>
    rw [hi] at hs
    cases hs
  | some info =>
    rw [hi] at hs
    exact hsl info hi hs

/-! ## Constructed types -/

section

variable (hw : w.WellBuilt)

include hw

theorem WellBuilt.spares (h : w.Spares w') : w'.WellBuilt := by
  refine hw.congr (fun id => .inl (h.type id)) (h.types ▸ Nat.le_refl _) (by rw [countTypes, countTypes, h.types])
    (fun id _ hp => ?_) h.listed h.misses h.noted
  rwa [isPending, h.type] at hp

theorem WellBuilt.modifyType (id : TypeId) {change : TypeInfo → TypeInfo}
    (hb : ∀ info : TypeInfo, info.SameBuild (change info))
    (hp : ∀ info : TypeInfo, (change info).isPending → info.isPending)
    (hv : change (.base .void) = .base .void) : (w.modifyType id change).WellBuilt := by
  have ht : ∀ other, (w.modifyType id change).type other =
      if other = id then change (w.type other) else w.type other := type_modifyType hv
  refine hw.congr ?_ (Nat.le_of_eq (size_modifyType ..).symm) ?_ ?_
  · intro other
    rw [ht]
    split
    · exact hb _
    · exact .inl rfl
  · exact countTypes_modifyType (hb _).isConstructed
  · intro other _ h
    rw [isPending, ht] at h
    split at h
    · exact hp _ h
    · exact h

theorem WellBuilt.addType (hi : info.isConstructed = false) : (w.addType info).2.WellBuilt := by
  have hs : (w.addType info).2.types.size = w.types.size + 1 := Array.size_push ..
  refine hw.congr ?_ (by omega) ?_ ?_
  · intro id
    rw [type_addType]
    split
    · next hid => exact .inr ⟨by rw [type_of_size_le (by omega)]; rfl, hi⟩
    · exact .inl rfl
  · rw [countTypes_addType, hi]
    simp
  · intro id hlt h
    rwa [isPending, type_addType_of_lt info hlt] at h

theorem WellBuilt.packagesGrow (h : w.PackagesGrow w') : w'.WellBuilt := by
  rw [h.same]
  exact hw.congr

theorem WellBuilt.list (package : PackageId) (simple : String) (id : TypeId) :
    (w.list package simple id).WellBuilt := hw.congr

theorem WellBuilt.typeOrPlaceholder (name : QName) : (typeOrPlaceholder name w).2.WellBuilt := by
  have he : (w.entered name.parent).WellBuilt := hw.packagesGrow (enterPackage_grows ..)
  rw [typeOrPlaceholder_world]
  dsimp only
  split
  · exact he
  · exact (he.addType rfl).list _ _ _

theorem WellBuilt.registerType (hf : w.IsFresh id)
    (package : PackageId) (simple : String) : (registerType package simple id w).2.WellBuilt := by
  refine registerType_elim w package simple id (fun _ => hw.congr) fun existing name hp => ?_
  exact (hw.list package simple id).swapPlaceholder hp ⟨hf.lt, hf.notMem, hf.isConstructed, hf.isPending⟩

theorem WellBuilt.isFresh_new (ht : w'.types = w.types.push info) (hc : info.isConstructed = false)
    (hp : info.isPending = false) : w'.IsFresh ⟨w.types.size⟩ := by
  have hn : w'.type ⟨w.types.size⟩ = info := by rw [type_of_push ht, if_pos rfl]
  refine ⟨?_, ?_, by rwa [hn], by rwa [hn]⟩
  · rw [ht, Array.size_push]
    exact Nat.lt_succ_self _
  intro id hm
  rw [type_of_push ht] at hm
  split at hm
  · rw [components_eq_nil hc] at hm
    cases hm
  · exact absurd (hw.known id _ hm) (Nat.lt_irrefl _)

end

theorem mapClass_sameBuild (change : ClassInfo → ClassInfo) (info : TypeInfo) :
    info.SameBuild (info.mapClass change) := by
  cases info with
  | declared info => exact .inr ⟨rfl, rfl⟩
  | _ => exact .inl rfl

theorem role_mapClass {change : ClassInfo → ClassInfo} : (info.mapClass change).role = info.role := by
  cases info <;> rfl

theorem Move.wellBuilt (hw : w.WellBuilt) (h : Move w w') : w'.WellBuilt := by
  cases h with
  | aside h => exact hw.spares h.toSpares
  | amend id change h _ _ =>
    exact hw.modifyType id (mapClass_sameBuild change) (fun _ h => isPending_of_role role_mapClass ▸ h) rfl
  | bound id change h _ =>
    exact hw.modifyType id (fun info => (h info).sameBuild)
      (fun info hp => isPending_of_role (h info).role ▸ hp) (TypeInfo.Rebound.void h)
  | add info h _ => exact hw.addType h.isConstructed
  | enter mayAdd segs => exact hw.packagesGrow (enterPackage_grows ..)
  | placeholder name => exact hw.typeOrPlaceholder name
  | build h => exact hw.build h
  | arrive info _ _ _ => exact (hw.addType rfl).registerType (hw.isFresh_new rfl rfl rfl) _ _
  | vanish hp hf _ => exact hw.swapPlaceholder hp hf

/-! ## The registry -/

theorem PackageTree.spares (ht : w.PackageTree) (h : w.Spares w') : w'.PackageTree :=
  ht.congr h.packageCount h.packages h.packageName

theorem Spares.role (h : w.Spares w') (id : TypeId) : w'.role id = w.role id := by rw [World.role, World.role, h.type]

theorem Spares.fits (h : w.Spares w') {info : ClassInfo} (hf : info.Fits w) : info.Fits w' where
  isListed := hf.isListed
  package := Nat.lt_of_lt_of_eq hf.package h.packageCount.symm
  name hn := by rw [h.packageName, ← hf.name hn]
  room := by
    rintro ⟨id, hid, hr⟩
    exact hf.room ⟨id, by rwa [h.known] at hid, by rwa [h.role] at hr⟩

theorem Registered.spares (hw : w.Registered) (h : w.Spares w') : w'.Registered := by
  refine hw.congr (fun id _ => h.role id) ?_ (hw.tree.spares h) ?_ h.known h.resolutions
    (by rw [countTypes, countTypes, h.types])
  · intro id name tgt hid
    rw [h.role] at hid
    simp [hid]
  · intro name package hn
    rwa [packageNamed?_congr h.packages]

theorem packageNamed?_modifyType (id : TypeId) (change : TypeInfo → TypeInfo) (name : QName) :
    (w.modifyType id change).packageNamed? name = w.packageNamed? name := by
  refine packageNamed?_congr ?_ name
  exact fun _ => rfl

theorem packageNamed?_addType (info : TypeInfo) (name : QName) :
    (w.addType info).2.packageNamed? name = w.packageNamed? name := by
  refine packageNamed?_congr ?_ name
  exact fun _ => rfl

theorem Registered.modifyType (hw : w.Registered) (id : TypeId) {change : TypeInfo → TypeInfo}
    (hr : ∀ info : TypeInfo, (change info).role = info.role)
    (hv : change (.base .void) = .base .void) : (w.modifyType id change).Registered := by
  have hs : ∀ other, (w.modifyType id change).role other = w.role other := read_modifyType TypeInfo.role hv hr
  refine hw.congr (fun other _ => hs other) ?_ (hw.tree.congr rfl (fun _ => rfl) fun _ => rfl) ?_
    (fun _ _ => rfl) rfl (countTypes_modifyType (isResolved_of_role (hr _)))
  · intro other name tgt ho
    rw [hs] at ho
    simp [ho]
  · exact fun name package hn => (packageNamed?_modifyType ..).trans hn

theorem Registered.addType (hw : w.Registered) (hr : ∀ name tgt, info.role ≠ .placeholder name tgt)
    (hre : info.isResolved = false) : (w.addType info).2.Registered := by
  refine hw.congr ?_ ?_ (hw.tree.congr rfl (fun _ => rfl) fun _ => rfl) ?_ (fun _ _ => rfl) rfl ?_
  · intro id hid
    rw [World.role, type_addType_of_lt info (lt_size_of_role_ne hid)]
    rfl
  · intro id name tgt hid
    rw [World.role, type_addType] at hid
    split at hid
    · exact absurd hid (hr name tgt)
    · rw [World.role, hid]
      simp
  · exact fun name package hn => (packageNamed?_addType ..).trans hn
  · rw [countTypes_addType, hre]
    simp

theorem role_of_push (ht : w'.types = w.types.push info) : w'.role ⟨w.types.size⟩ = info.role := by
  rw [World.role, type_of_push ht, if_pos rfl]

theorem role_addClass (w : World) (info : ClassInfo) : (w.addType (.declared info)).2.role ⟨w.types.size⟩ = .declared :=
  @role_of_push w _ (.declared info) rfl

theorem known?_arrival (hw : w.Registered) {info : ClassInfo} (hf : info.Fits w) (package : PackageId)
    (simple : String) : (w.arrival info).known? package simple =
      if package = info.package ∧ simple = info.key then some ⟨w.types.size⟩ else w.known? package simple := by
  have ha : (w.addType (.declared info)).2.Registered := hw.addType (by simp [TypeInfo.role]) rfl
  refine known?_registerType ha hf.package ?_ _ package simple
  rintro ⟨id, hk, hr⟩
  obtain hd | ⟨_, _, hp, -⟩ := hw.entry _ _ _ hk
  · exact hf.room ⟨id, hk, hd⟩
  · rw [World.role, type_addType_of_lt _ (lt_size_of_role_ne (by simp [hp]))] at hr
    cases hr.symm.trans hp

theorem role_arrival (w : World) (info : ClassInfo) : (w.arrival info).role ⟨w.types.size⟩ = .declared :=
  (rolesStay_registerType _ _ _).declared (role_addClass w info)

theorem listsClass_arrival (hw : w.Registered) {info : ClassInfo} (hf : info.Fits w) :
    (w.arrival info).ListsClass info.package info.key :=
  ⟨_, by rw [known?_arrival hw hf, if_pos ⟨rfl, rfl⟩], role_arrival w info⟩

theorem known?_of_typeOrPlaceholder (h : (typeOrPlaceholder name w).2.known? package simple = some id ∧
      (typeOrPlaceholder name w).2.role id = .declared) :
    w.known? package simple = some id ∧ w.role id = .declared := by
  have hg : w.PackagesGrow (w.entered name.parent) := enterPackage_grows ..
  have hb : (w.entered name.parent).known? package simple = some id ∧
      (w.entered name.parent).role id = .declared → w.known? package simple = some id ∧ w.role id = .declared :=
    fun ⟨hid, hr⟩ => ⟨by rwa [hg.known] at hid, by rwa [World.role, hg.type] at hr⟩
  rw [typeOrPlaceholder_world] at h
  dsimp only at h
  split at h
  · exact hb h
  obtain ⟨hid, hr⟩ := h
  change ((w.entered name.parent).addType (.placeholder name none)).2.role id = .declared at hr
  rw [World.role, type_addType] at hr
  split at hr
  · cases hr
  rename_i ho
  rw [known?_list] at hid
  split at hid
  · cases hid
    exact absurd rfl ho
  · exact hb ⟨hid, hr⟩

theorem listsClass_of_typeOrPlaceholder
    (h : (typeOrPlaceholder name w).2.ListsClass package simple) : w.ListsClass package simple := by
  obtain ⟨id, h⟩ := h
  exact ⟨id, known?_of_typeOrPlaceholder h⟩

theorem role_of_isConstructed (h : info.isConstructed) : info.role = .other ∧ info.isResolved = false := by
  cases info <;> simp_all [TypeInfo.isConstructed, TypeInfo.cacheKey?, TypeInfo.role]

theorem Registered.build (hw : w.Registered) {key : CacheKey} (h : w.Builds w' info key) : w'.Registered := by
  obtain ⟨hr, hre⟩ := role_of_isConstructed h.isConstructed
  have ha : (w.addType info).2.Registered := hw.addType (by simp [hr]) hre
  have hs : ∀ id, w'.role id = (w.addType info).2.role id := fun id => by
    rw [World.role, World.role, type_of_push h.types, type_addType]
  have hp : ∀ id, (w'.package id).packages = (w.package id).packages := fun id => by
    rw [h.same]
    rfl
  refine ha.congr (fun id _ => hs id) ?_ ?_ ?_ ?_ h.resolutions ?_
  · intro id name tgt hid
    rw [hs] at hid
    simp [hid]
  · exact hw.tree.congr (by rw [h.same]) hp fun id => by rw [h.same]; rfl
  · intro name package hn
    rwa [packageNamed?_congr hp, ← packageNamed?_addType info]
  · intro package simple
    rw [h.same]
    rfl
  · rw [countTypes, h.types]
    rfl

theorem Move.registered (hw : w.Registered) (h : Move w w') : w'.Registered := by
  cases h with
  | aside h => exact hw.spares h.toSpares
  | amend id change h _ _ => exact hw.modifyType id (fun _ => role_mapClass) rfl
  | bound id change h _ => exact hw.modifyType id (fun info => (h info).role) (TypeInfo.Rebound.void h)
  | add info h _ => exact hw.addType h.role_ne_placeholder h.isResolved
  | enter mayAdd segs => exact hw.packagesGrow (enterPackage_grows ..) (hw.tree.enterPackage _ _ _ hw.tree.root)
  | placeholder name => exact hw.typeOrPlaceholder name
  | build h => exact hw.build h
  | arrive info _ _ _ =>
    have ha : (w.addType (.declared info)).2.Registered := hw.addType (by simp [TypeInfo.role]) rfl
    exact ha.registerType (role_addClass w info) _ _
  | vanish hp _ ht => exact hw.vanish hp ht

/-! ## Growth -/

theorem sort_swapPlaceholder (h : w.type hole = .placeholder name none) :
    ((w.swapPlaceholder hole tgt).type id).sort = (w.type id).sort := by
  rw [read_swapPlaceholder _ h fun _ => sort_swap]
  split
  · next heq => rw [heq, h]; rfl
  · rfl

namespace Grows

theorem of_types (hs : w.types.size ≤ w'.types.size) (hr : ∀ id, id.index < w.types.size → w'.role id = w.role id)
    (hk : ∀ id, id.index < w.types.size → (w'.type id).cacheKey? = (w.type id).cacheKey?)
    (hc : ∀ id info, w.class? id = some info → ∃ info', w'.class? id = some info' ∧ info.KeptAs info')
    (hso : ∀ id, id.index < w.types.size → (w'.type id).sort = (w.type id).sort)
    (hn : ∀ name package, w.packageNamed? name = some package → w'.packageNamed? name = some package)
    (he : ∀ package simple id, w.known? package simple = some id → w.role id = .declared →
      w'.known? package simple = some id) (hu : w.units.size ≤ w'.units.size)
    (hsou : ∀ unit, unit.index < w.units.size →
      w'.sources.find? unit = w.sources.find? unit ∨ w'.sources.find? unit = none) : w.Grows w' where
  size := hs
  declared := hc
  missing id hid := (hr id (lt_size_of_role_ne (by simp [hid]))).trans hid
  pending id name hid := ⟨none, (hr id (lt_size_of_role_ne (by simp [hid]))).trans hid⟩
  resolved id name tgt hid := (hr id (lt_size_of_role_ne (by simp [hid]))).trans hid
  sort := hso
  stem id key stem hid _ := by
    refine ⟨stem, .refl, ?_⟩
    rw [CacheKey.swap_self]
    refine (hk id (lt_size_of_type_ne fun h => ?_)).trans hid
    rw [h] at hid
    cases hid
  named := hn
  entry := he
  units := hu
  sources := hsou

theorem spares (h : w.Spares w') : w.Grows w' := by
  refine of_types (h.types ▸ Nat.le_refl _) (fun id _ => h.role id) (fun id _ => by rw [h.type])
    (fun id info hid => ⟨info, ?_, .refl info⟩) (fun id _ => by rw [h.type]) ?_ ?_ h.units h.sources
  · rwa [class?, h.type]
  · intro name package hn
    rwa [packageNamed?_congr h.packages]
  · intro package simple id hk _
    rwa [h.known]

theorem packagesGrow (h : w.PackagesGrow w') : w.Grows w' := by
  have ht := h.type
  refine of_types ?_ (fun id _ => ?_) (fun id _ => by rw [ht]) (fun id info hid => ⟨info, ?_, .refl info⟩)
    (fun id _ => by rw [ht]) (fun _ _ => h.packageNamed?) ?_ ?_ ?_
  · exact Nat.le_of_eq (by rw [h.same])
  · rw [World.role, ht, World.role]
  · rwa [class?, ht]
  · intro package simple id hk _
    rwa [h.known]
  · exact Nat.le_of_eq (by rw [h.same])
  · rw [h.same]; exact fun _ _ => .inl rfl

theorem modifyType (id : TypeId) {change : TypeInfo → TypeInfo} (hr : ∀ info : TypeInfo, (change info).role = info.role)
    (hk : ∀ info : TypeInfo, (change info).cacheKey? = info.cacheKey?) (hc : ∀ info, w.class? id = some info →
      ∃ info', (change (w.type id)).class? = some info' ∧ info.KeptAs info')
    (hs : ∀ info : TypeInfo, (change info).sort = info.sort)
    (hv : change (.base .void) = .base .void) : w.Grows (w.modifyType id change) := by
  refine of_types (Nat.le_of_eq (size_modifyType ..).symm) (fun other _ => read_modifyType TypeInfo.role hv hr other)
    (fun other _ => read_modifyType TypeInfo.cacheKey? hv hk other) ?_
    (fun other _ => read_modifyType TypeInfo.sort hv hs other)
    (fun name package h => (packageNamed?_modifyType ..).trans h) (fun _ _ _ h _ => h)
    (Nat.le_refl _) (fun _ _ => .inl rfl)
  intro other info hi
  rw [class?, type_modifyType hv]
  split
  · next h => exact h ▸ hc info (h ▸ hi)
  · exact ⟨info, hi, .refl info⟩

theorem modifyClass (id : TypeId) {change : ClassInfo → ClassInfo}
    (h : ∀ info, w.class? id = some info → info.KeptAs (change info)) : w.Grows (w.modifyClass id change) := by
  refine modifyType id (fun _ => role_mapClass) (fun info => (mapClass_sameBuild change info).cacheKey?)
    (fun info hi => ⟨change info, ?_, h info hi⟩) (fun info => ?_) rfl
  · rw [class?_mapClass, ← class?, hi]
    rfl
  · cases info <;> rfl

theorem of_push (hs : w' = { w with
      types := w.types.push info, caches := w'.caches, stats := w'.stats, referrers := w'.referrers }) :
    w.Grows w' := by
  have hty : w'.types = w.types.push info := by rw [hs]
  have ht : ∀ id, id.index < w.types.size → w'.type id = w.type id := fun id hlt => by
    rw [type_of_push hty, if_neg (Nat.ne_of_lt hlt)]
  refine of_types ?_ (fun id hlt => ?_) (fun id hlt => by rw [ht id hlt])
    (fun id info hid => ⟨info, ?_, .refl info⟩) (fun id hlt => by rw [ht id hlt]) ?_ ?_ ?_ ?_
  · rw [hs, Array.size_push]; exact Nat.le_succ _
  · rw [World.role, ht id hlt, World.role]
  · rwa [class?, ht id (lt_size_of_class? hid)]
  · intro name package hn
    rw [packageNamed?_congr (fun id => ?_)]
    · exact hn
    · rw [hs]; rfl
  · rw [hs]; exact fun _ _ _ h _ => h
  · exact Nat.le_of_eq (by rw [hs])
  · rw [hs]; exact fun _ _ => .inl rfl

theorem list (id : TypeId) (hp : ∀ x, w.known? package simple = some x → w.role x ≠ .declared) :
    w.Grows (w.list package simple id) := by
  refine of_types (Nat.le_refl _) (fun _ _ => rfl) (fun _ _ => rfl) (fun _ info h => ⟨info, h, .refl info⟩)
    (fun _ _ => rfl) ?_ ?_ (Nat.le_refl _) (fun _ _ => .inl rfl)
  · intro name found hn
    rwa [packageNamed?_congr (list_packages package simple id)]
  intro other s x hk hx
  rw [known?_list, if_neg]
  · exact hk
  · rintro ⟨rfl, -, rfl⟩
    exact hp x hk hx

theorem swapPlaceholder (tgt : TypeId)
    (h : w.type placeholder = .placeholder name none) : w.Grows (w.swapPlaceholder placeholder tgt) := by
  have hr := role_swapPlaceholder tgt h
  have hp : w.role placeholder = .placeholder name none := role_eq_placeholder.2 h
  have hne : ∀ {id : TypeId}, w.role id ≠ .placeholder name none → id ≠ placeholder := by
    rintro id hid rfl
    exact hid hp
  obtain ⟨types, methods, fields, hw⟩ := swapPlaceholder_with tgt h
  refine ⟨Nat.le_of_eq (size_swapPlaceholder h).symm, ?_, ?_, ?_, ?_, ?_, ?_, ?_, ?_, ?_, ?_⟩
  · intro id info hi
    have hid : id ≠ placeholder := hne (by rw [role_of_class? hi]; simp)
    rw [class?_eq_some] at hi
    rw [class?, type_swapPlaceholder h, if_neg hid, hi]
    split
    · exact ⟨_, rfl, { ClassInfo.EditedTo.refl _ with enclosed := Option.isSome_map .. }⟩
    · exact ⟨info, rfl, .refl info⟩
  · intro id hid
    rw [hr, if_neg (hne (by simp [hid])), hid]
  · intro id other hid
    rw [hr]
    split
    · next heq =>
      rw [heq, hp] at hid
      cases hid
      exact ⟨_, rfl⟩
    · exact ⟨none, hid⟩
  · intro id other old hid
    rw [hr, if_neg (hne (by simp [hid])), hid]
  · exact fun id _ => sort_swapPlaceholder h
  · intro id key stem hke hs
    have hid : id ≠ placeholder := by
      rintro rfl
      simp [h, cacheKey?] at hke
    rw [type_swapPlaceholder h, if_neg hid]
    split
    · rw [cacheKey?_swap, hke, Option.map_some]
      by_cases heq : stem = placeholder
      · subst heq
        exact ⟨tgt, .single ⟨name, by rw [hr, if_pos rfl]⟩, rfl⟩
      · refine ⟨stem, .refl, ?_⟩
        rw [CacheKey.swap_of_stem? tgt (by rw [hs]; simpa using heq), CacheKey.swap_self]
    · exact ⟨stem, .refl, by rw [hke, CacheKey.swap_self]⟩
  · intro other package hn
    rw [packageNamed?_congr (fun id => ?_), hn]
    rw [swapPlaceholder_package tgt h]
  · intro package simple id hk _
    rwa [known?, swapPlaceholder_package tgt h]
  · rw [hw]; exact Nat.le_refl _
  · rw [hw]; exact fun _ _ => .inl rfl

theorem registerType (package : PackageId) (simple : String) (id : TypeId) :
    w.Grows (registerType package simple id w).2 := by
  have hpl : ∀ {existing name tgt}, w.known? package simple = some existing → w.type existing = .placeholder name tgt →
      ∀ x, w.known? package simple = some x → w.role x ≠ .declared := by
    intro existing name tgt hk ht x hx
    obtain rfl : existing = x := Option.some.inj (hk.symm.trans hx)
    simp [World.role, ht, TypeInfo.role]
  rcases registerType_cases w package simple id with
    ⟨hn, h⟩ | ⟨existing, name, hk, hp, h⟩ | ⟨existing, name, tgt, hk, ht, h⟩ |
    h <;> rw [h]
  · refine (list id fun x hx => by cases hn.symm.trans hx).trans (spares ?_)
    exact
      { Apart.refl (w.list package simple id) with
        packageCount := removeAbsent_size ..
        packages := removeAbsent_packages _ _
        packageName := removeAbsent_name _ _
        known := known?_removeAbsent _ _ }
  · exact (list id (hpl hk hp)).trans (swapPlaceholder id hp)
  · exact list id (hpl hk ht)
  · exact refl w

theorem typeOrPlaceholder (name : QName) : w.Grows (typeOrPlaceholder name w).2 := by
  have he : w.Grows (w.entered name.parent) := packagesGrow (enterPackage_grows ..)
  rw [typeOrPlaceholder_world]
  dsimp only
  split
  · exact he
  rename_i hn
  have ha : (w.entered name.parent).Grows ((w.entered name.parent).addType (.placeholder name none)).2 := of_push rfl
  refine (he.trans ha).trans (list _ fun x hx => ?_)
  have hx : (w.entered name.parent).known? _ name.simple = some x := hx
  simp [hx] at hn

end Grows

theorem listsClass_registerType (hw : w.Registered) (hp : package.index < w.packages.size) (simple : String)
    (hid : w.role id = .declared) : (registerType package simple id w).2.ListsClass package simple := by
  by_cases hr : w.ListsClass package simple
  · exact hr.grows (.registerType ..)
  · refine ⟨id, ?_, (rolesStay_registerType _ _ _).declared hid⟩
    rw [known?_registerType hw hp hr, if_pos ⟨rfl, rfl⟩]

theorem Move.grows (h : Move w w') : w.Grows w' := by
  cases h with
  | aside h => exact .spares h.toSpares
  | amend id change h _ _ => exact .modifyClass id fun info hi => (h info hi).toKeptAs
  | bound id change h _ =>
    exact .modifyType id (fun info => (h info).role) (fun info => (h info).sameBuild.cacheKey?)
      (fun info hi => ⟨info, (h _).class?.trans hi, .refl info⟩) (fun info => (h info).sort)
      (TypeInfo.Rebound.void h)
  | add info h _ => exact .of_push rfl
  | enter mayAdd segs => exact .packagesGrow (enterPackage_grows ..)
  | placeholder name => exact .typeOrPlaceholder name
  | build h => exact .of_push (by rw [← h.types]; exact h.same)
  | arrive info _ _ _ => exact Grows.trans (.of_push rfl) (.registerType _ _ _)
  | vanish hp _ _ => exact .swapPlaceholder _ hp

end World

end Bindings
