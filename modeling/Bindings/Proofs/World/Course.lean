import Bindings.Proofs.World.Task

/-!
# Courses

A course is what a query makes of a world: quiet moves, and tasks within which further courses run. It keeps a
world sound and loses nothing (`Course.sound`, `Course.grows`).
-/

namespace Bindings

open TypeInfo ClassInfo

variable {old new : ClassInfo} {w2 : World}

structure ClassInfo.HeldAs (old new : ClassInfo) : Prop where
  superclass : new.superclass = old.superclass
  interfaces : new.interfaces = old.interfaces
  begun : new.state.hierarchyBegun = old.state.hierarchyBegun
  ended : new.state.hierarchyEnded = old.state.hierarchyEnded
  isCompiled : new.isCompiled = old.isCompiled

theorem ClassInfo.HeldAs.refl (info : ClassInfo) : info.HeldAs info := ⟨rfl, rfl, rfl, rfl, rfl⟩

theorem ClassInfo.HeldAs.trans {a b c : ClassInfo} (h1 : a.HeldAs b) (h2 : b.HeldAs c) : a.HeldAs c :=
  ⟨h2.superclass.trans h1.superclass, h2.interfaces.trans h1.interfaces, h2.begun.trans h1.begun,
    h2.ended.trans h1.ended, h2.isCompiled.trans h1.isCompiled⟩

theorem ClassInfo.HeldAs.supertypes (h : old.HeldAs new) : new.supertypes = old.supertypes := by
  rw [ClassInfo.supertypes, h.superclass, h.interfaces, ClassInfo.supertypes]

namespace World

variable {w w' : World}

variable {change : ClassInfo → ClassInfo} {id other : TypeId} {view : MethodId} {w0 w1 : World}

/-! ## Hierarchies of source classes -/

def Above (w : World) (sub super : TypeId) : Prop :=
  ∃ info, w.class? sub = some info ∧ info.isCompiled = false ∧
    ∃ supertype ∈ info.supertypes, w.erasureClass? supertype = some super

def Ended (w : World) (id : TypeId) : Prop :=
  ∃ info, w.class? id = some info ∧ info.state.hierarchyEnded

def FoundationsCompiled (w : World) : Prop :=
  ∀ name ∈ WellKnown.foundations, ∀ id, w.Denotes name id →
    ∃ info, w.class? id = some info ∧ info.isCompiled

def ConnectedTo (w : World) (sub super : TypeId) : Prop := w.Ended sub ∧ w.Above sub super

def Clear (w : World) (source start : TypeId) : Prop :=
  ¬ Relation.ReflTransGen w.ConnectedTo start source

inductive Admits (w : World) (id supertype : TypeId) : Prop
  | checked {erased : TypeId} : w.erasureClass? supertype = some erased →
    w.role erased = .declared → w.Joined erased → (w.FoundationsCompiled → w.Clear id erased) →
    Admits w id supertype
  | foundation {name : QName} {erased : TypeId} : name ∈ WellKnown.foundations →
    w.Denotes name erased → w.erasureClass? supertype = some erased → Admits w id supertype

theorem Admits.founded {sup : TypeId} (h : w.Admits id sup) : w.Founded sup := by
  cases h with
  | checked he hr hj _ => exact ⟨_, he, hr, .inl hj⟩
  | foundation hn hd he => exact ⟨_, he, hd.role, .inr ⟨_, hn, hd⟩⟩

structure Stores (w : World) (id : TypeId) (old new : ClassInfo) : Prop
    extends old.KeptAs new, old.LastsAs new where
  source : old.isCompiled = false
  sameMembers : new.members = old.members := by rfl
  sameMark : new.state.noMemberTypes = old.state.noMemberTypes := by rfl
  samePending : ∀ part, new.state.isPending part = old.state.isPending part := by
    exact fun part => by cases part <;> rfl
  sameBegun : new.state.hierarchyBegun = old.state.hierarchyBegun := by rfl
  sameEnded : new.state.hierarchyEnded = old.state.hierarchyEnded := by rfl
  enclosing : new.enclosing = old.enclosing := by rfl
  sameVariables : new.typeVariables = old.typeVariables := by rfl
  admits : ∀ supertype ∈ new.supertypes, supertype ∈ old.supertypes ∨ w.Admits id supertype

theorem Stores.slots (h : w.Stores id old new) : ∀ slot ∈ new.slots, slot ∈ old.slots ∨ w.MayHold (.type id) slot := by
  intro slot hs
  rw [ClassInfo.slots, h.enclosing, List.mem_append] at hs
  rw [ClassInfo.slots, List.mem_append]
  obtain hs | hs := hs
  · exact (h.admits slot hs).imp .inl fun ha => Grounded.mayHold (.inl ha.founded.settled) _
  · exact .inl (.inr hs)

def beginHierarchy (w : World) (id : TypeId) : World :=
  w.modifyClass id fun info => { info with state := { info.state with hierarchyBegun := true } }

def endHierarchy (w : World) (id : TypeId) : World :=
  w.modifyClass id fun info => { info with state := { info.state with hierarchyEnded := true } }

def Ready (w : World) (id : TypeId) : Prop :=
  ∃ info, w.class? id = some info ∧ info.isCompiled = false ∧
    info.state.hierarchyBegun = false ∧ (w.declaration? id).isSome

def OpensView (w : World) (view : MethodId) (w' : World) : Prop :=
  ∃ info method receiver, info.origin = .view method receiver ∧
    (∀ slot ∈ info.slots, w.Knows slot) ∧ info.typeVariables = (w.method method).typeVariables ∧
    view = ⟨w.methods.size⟩ ∧ w' = (w.addMethod info).2

section

variable (h : w.OpensView view w')

include h

theorem OpensView.spares : w.Spares w' := by
  obtain ⟨_, _, _, -, -, -, -, rfl⟩ := h
  exact { Apart.refl w with }

theorem OpensView.level : w.Level w' := by
  obtain ⟨_, m, _, -, -, hva, -, rfl⟩ := h
  exact .addMethod fun var hv => .inl ⟨m, hva ▸ hv⟩

theorem OpensView.stocked (hw : w.Stocked) : w'.Stocked := by
  obtain ⟨info, _, _, -, hk, -, -, rfl⟩ := h
  intro ref slot hsl
  obtain ⟨hs, -⟩ | ⟨-, hh, -⟩ := addMethod_cases w info ref
  · exact hw ref slot (hs ▸ hsl)
  · exact hk slot (hh ▸ hsl)

theorem OpensView.sound (hw : w.Sound) : w'.Sound := hw.spares h.spares (h.stocked hw.stocked)

end

/-- The classes that hierarchies rest on are of the kinds that they are taken for, as far as they are
known: classes, and an interface that is not generic. -/
structure FoundationsFit (w : World) : Prop where
  classes : ∀ name, name = WellKnown.object ∨ name = WellKnown.enumClass → ∀ id info,
    w.Denotes name id → w.class? id = some info → info.isInterface = false
  annotation : ∀ id info, w.Denotes WellKnown.annotationInterface id → w.class? id = some info →
    info.isInterface ∧ info.isGeneric = false

def Extensible (w : World) (id : TypeId) : Prop :=
  ∃ info, w.class? id = some info ∧ info.isInterface = false ∧ (info.modifiers.isFinal →
    w.Denotes WellKnown.object id ∨ w.Denotes WellKnown.enumClass id)

def IsInterface (w : World) (id : TypeId) : Prop :=
  ∃ info, w.class? id = some info ∧ info.isInterface

structure Implements (w : World) (interfaces : List TypeId) : Prop where
  implemented : ∀ interface ∈ interfaces, ∃ erased, w.erasureClass? interface = some erased ∧
    w.IsInterface erased
  distinct : interfaces.Pairwise fun a b => w.erasureClass? a ≠ w.erasureClass? b

/-- A class holds a superclass that may be extended, unless it is the root of the hierarchy, and holds
interfaces, each of them once. -/
structure Lawful (w : World) (id : TypeId) (superclass : Option TypeId) (interfaces : List TypeId) :
    Prop extends w.Implements interfaces where
  extended : ¬ w.Denotes WellKnown.object id → ∃ supertype erased, superclass = some supertype ∧
    w.erasureClass? supertype = some erased ∧ w.Extensible erased

def Connected (w : World) (id : TypeId) : Prop :=
  ∃ info, w.class? id = some info ∧ info.state.variablesConnected ∧
    (w.FoundationsFit → w.Lawful id info.superclass info.interfaces)

def HasAlias (w : World) : Prop :=
  ∃ id name, w.type id = .placeholder name none ∧ name.dotted = WellKnown.object.dotted

/-- Between two worlds there may be a stop. What is missing is the root of the hierarchy, which is not known
before, or a placeholder that reads as it stands for nothing. -/
def Excuses (w w' : World) (stop : Halt) : Prop :=
  ∀ name, stop = .missingFoundation name →
    name = WellKnown.object.dotted ∧ (w.object = none ∨ w'.HasAlias)

inductive Brackets : Option Halt → World → World → World → World → Prop
  | guard {stop : Option Halt} {w w1 : World} (comparing : List (TypeId × TypeId)) (joinDepth : Nat) :
    Brackets stop w { w with comparing, joinDepth } w1
      { w1 with comparing := w.comparing, joinDepth := w.joinDepth }
  | request {w w1 : World} (name : QName) : w.Pays name w1 → Brackets none w (w.asking name) w1 w1

/-- From one world to another, within a task if there is one. A course comes to its end, or it tells why it
stops. -/
inductive Course : Option Task → Option Halt → World → World → Prop
  | halt {task : Option Task} {stop : Halt} {w w' : World} : Course task none w w' →
    w.Excuses w' stop → Course task (some stop) w w'
  | abandon {stop : Halt} {w w1 : World} (stage : Option Stage) (deferred : Option (List TypeId)) :
    Course (some .complete) (some stop) w w1 →
    Course (some .complete) (some stop) w { w1 with stage, deferredChecks := deferred }
  | trans {task : Option Task} {stop : Option Halt} {w w1 w2 : World} :
    Course task none w w1 → Course task stop w1 w2 → Course task stop w w2
  | move {w w' : World} : Move w w' → w.Quiet w' → Course none none w w'
  | bracket {stop : Option Halt} {w w0 w1 w' : World} : Brackets stop w w0 w1 w' →
    Course none stop w0 w1 → Course none stop w w'
  | inside {task : Task} {stop : Option Halt} {w w' : World} :
    Course none stop w w' → Course (some task) stop w w'
  | tend {task : Task} {w w' : World} : Tends task w w' → Course (some task) none w w'
  | store {w : World} (id : TypeId) (change : ClassInfo → ClassInfo) :
    (∀ info, w.class? id = some info → w.Stores id info (change info)) →
    Course (some (.connect id)) none w (w.modifyClass id change)
  | connect {id : TypeId} {w w' : World} : w.Ready id →
    Course (some (.connect id)) none (w.beginHierarchy id) w' → w'.Connected id →
    Course none none w (w'.endHierarchy id)
  | broken {stop : Halt} {id : TypeId} {w w' : World} : w.Ready id →
    Course (some (.connect id)) (some stop) (w.beginHierarchy id) w' → Course none (some stop) w w'
  | nest {task : Task} {stop : Option Halt} {w w1 w2 : World} : Opens task w w1 →
    Course (some task) stop w1 w2 → Course none stop w w2
  | advance {unit : UnitId} {stop : Option Halt} {w w1 w2 : World} : Course none none w w1 →
    w.units.size ≤ unit.index → Course (some (.advance unit)) stop w1 w2 → Course none stop w w2
  | promote {unit : UnitId} {w w1 w2 : World} : Course none none w w1 → w.Promotes unit w1 w2 →
    Course (some (.advance unit)) none w w2
  | serve {unit : UnitId} {stop : Option Halt} {w w' : World} :
    Course (some (.advance unit)) stop w w' → Course (some .complete) stop w w'
  | operate {task : Task} {stop : Option Halt} {w w' : World} : task = .complete ∨ task = .ask ∨ task = .mark →
    Course (some task) stop w w' → Course (some .operate) stop w w'
  | view {view : MethodId} {w w1 w2 : World} : w.OpensView view w1 → Course none none w1 w2 →
    (∀ slot ∈ w2.held (.method view), w2.MayHold (.method view) slot) → Course none none w w2
  | unfilled {stop : Halt} {view : MethodId} {w w1 w2 : World} : w.OpensView view w1 →
    Course none (some stop) w1 w2 → Course none (some stop) w w2

theorem Brackets.before {stop : Option Halt} (h : Brackets stop w w0 w1 w') : w.Neutral w0 := by
  cases h with
  | guard => exact { Apart.refl w with }
  | request name _ => exact neutral_asking ..

theorem Brackets.after {stop : Option Halt} (h : Brackets stop w w0 w1 w') : w1.Neutral w' := by
  cases h with
  | guard => exact { Apart.refl w1 with }
  | request => exact { Apart.refl w' with }

theorem Brackets.level {stop : Option Halt} (h : Brackets stop w w0 w1 w') (hl : w0.Level w1) : w.Level w' := by
  cases h with
  | guard =>
    exact ⟨hl.options, rfl, rfl, hl.rooted, hl.captured, hl.entry, hl.absent, hl.scope, hl.typeScope, hl.isStatic,
      hl.methodVariables, hl.nested⟩
  | request name _ =>
    exact ⟨hl.options, hl.comparing, hl.joinDepth, hl.rooted, hl.captured, hl.entry, hl.absent,
      hl.scope, hl.typeScope, hl.isStatic, hl.methodVariables, hl.nested⟩

def Lasts (w w' : World) : Prop :=
  ∀ id info, w.class? id = some info → ∃ info', w'.class? id = some info' ∧ info.LastsAs info'

theorem Lasts.trans (h1 : w.Lasts w1) (h2 : w1.Lasts w2) : w.Lasts w2 := by
  intro id info hi
  obtain ⟨info1, hi1, hl1⟩ := h1 id info hi
  obtain ⟨info2, hi2, hl2⟩ := h2 id info1 hi1
  exact ⟨info2, hi2, hl1.trans hl2⟩

theorem Lasts.spares (h : w.Spares w') : w.Lasts w' := fun id info hi => ⟨info, by rwa [class?, h.type], .refl info⟩

theorem Lasts.modifyClass (id : TypeId) (h : ∀ info, w.class? id = some info → info.LastsAs (change info)) :
    w.Lasts (w.modifyClass id change) := by
  intro other info hi
  rw [class?_modifyClass]
  split
  · next heq => exact ⟨change info, by rw [hi]; rfl, h info (heq ▸ hi)⟩
  · exact ⟨info, hi, .refl info⟩

theorem IsRead.lasts {part : ClassPart} (hg : w.Grows w') (hl : w.Lasts w')
    (h : w.IsRead id part) : w'.IsRead id part := by
  obtain ⟨info, hi, hc, hr⟩ := h
  obtain ⟨info', hi', hk⟩ := hg.declared id info hi
  obtain ⟨_, hi'', hl⟩ := hl id info hi
  cases hi'.symm.trans hi''
  refine ⟨info', hi', hk.isCompiled.trans hc, ?_⟩
  by_contra hp
  rw [hl.pending part (by simpa using hp)] at hr
  cases hr

theorem Built.lasts (hl : w.Lasts w') (h : w.Built id) : w'.Built id := by
  obtain ⟨info, hi, hb⟩ := h
  obtain ⟨info', hi', hla⟩ := hl id info hi
  exact ⟨info', hi', hla.membersBuilt hb⟩

theorem Ended.grows (hg : w.Grows w') (h : w.Ended id) : w'.Ended id := by
  obtain ⟨info, hi, he⟩ := h
  obtain ⟨info', hi', hk⟩ := hg.declared id info hi
  exact ⟨info', hi', hk.ended he⟩

theorem Ready.role (h : w.Ready id) : w.role id = .declared := by
  obtain ⟨info, hi, -⟩ := h
  exact role_of_class? hi

theorem Ready.not_begun (h : w.Ready id) : ¬ w.Begun id := by
  rintro ⟨info, hi, hb⟩
  obtain ⟨info', hi', -, hn, -⟩ := h
  cases hi.symm.trans hi'
  simp [hb] at hn

theorem Ready.declaration (h : w.Ready id) : w.declaration? id ≠ none := by
  obtain ⟨info, -, -, -, hs⟩ := h
  exact Option.isSome_iff_ne_none.1 hs

theorem grows_beginHierarchy (w : World) (id : TypeId) : w.Grows (w.beginHierarchy id) :=
  .modifyClass id fun _ _ => { EditedTo.refl _ with begun := fun _ => rfl }

theorem grows_endHierarchy (w : World) (id : TypeId) : w.Grows (w.endHierarchy id) :=
  .modifyClass id fun _ _ => { EditedTo.refl _ with ended := fun _ => rfl }

theorem lasts_beginHierarchy (w : World) (id : TypeId) : w.Lasts (w.beginHierarchy id) :=
  .modifyClass id fun _ _ => { EditedTo.refl _ with }

theorem lasts_endHierarchy (w : World) (id : TypeId) : w.Lasts (w.endHierarchy id) :=
  .modifyClass id fun _ _ => { EditedTo.refl _ with }

theorem begun_beginHierarchy :
    (w.beginHierarchy id).Begun other ↔ w.Begun other ∨ other = id ∧ w.role id = .declared := by
  simp only [Begun, beginHierarchy, class?_modifyClass, role_eq_declared]
  split
  · next heq =>
    subst heq
    constructor
    · rintro ⟨new, hn, -⟩
      obtain ⟨old, ho, -⟩ := Option.map_eq_some_iff.1 hn
      exact .inr ⟨rfl, old, ho⟩
    · rintro (⟨info, hi, -⟩ | ⟨-, info, hi⟩) <;> exact ⟨_, by rw [hi]; rfl, rfl⟩
  · next hne => simp [hne]

theorem Ready.begun (h : w.Ready id) : (w.beginHierarchy id).Begun id := begun_beginHierarchy.2 (.inr ⟨rfl, h.role⟩)

theorem Begun.of_spares (h : w.Spares w') (hb : w'.Begun id) : w.Begun id := by
  obtain ⟨info, hi, hb⟩ := hb
  rw [class?, h.type] at hi
  exact ⟨info, hi, hb⟩

theorem Begun.of_modifyClass (hs : ∀ info, w.class? id = some info →
      (change info).state.hierarchyBegun = info.state.hierarchyBegun)
    (h : (w.modifyClass id change).Begun other) : w.Begun other := by
  obtain ⟨new, hn, hb⟩ := h
  obtain hn | ⟨rfl, old, ho, rfl⟩ := class?_of_modifyClass hn
  · exact ⟨new, hn, hb⟩
  · exact ⟨old, ho, hs old ho ▸ hb⟩

theorem Begun.of_endHierarchy (h : (w.endHierarchy id).Begun other) : w.Begun other :=
  Begun.of_modifyClass (fun _ _ => by rfl) h

theorem Sound.modifyClass (hw : w.Sound) (id : TypeId)
    (h : ∀ info, w.class? id = some info → info.KeptAs (change info) ∧
      ((change info).state.hierarchyEnded → (change info).state.hierarchyBegun) ∧
      (info.isCompiled = false → ∀ sup ∈ (change info).supertypes, w.Founded sup) ∧
      (change info).enclosing = info.enclosing)
    (hsl : ∀ info, w.class? id = some info → ∀ slot ∈ (change info).slots,
      slot ∈ info.slots ∨ w.MayHold (.type id) slot) : (w.modifyClass id change).Sound := by
  have hg : w.Grows (w.modifyClass id change) := .modifyClass id fun info hi => (h info hi).1
  refine ⟨?_, hw.registered.modifyType id (fun _ => role_mapClass) rfl, ⟨?_, ?_, ?_, ?_, ?_, ?_, ?_,
    hw.linked.base_grows hg⟩, (watches_modifyClass id hsl).stocked hw.stocked, ?_⟩
  · exact hw.wellBuilt.modifyType id (mapClass_sameBuild change) (fun _ h => isPending_of_role role_mapClass ▸ h) rfl
  · exact fun unit simple found hf => hg.role_declared (hw.linked.imports unit simple found hf)
  · intro other new unit path hn hor
    obtain ho | ⟨-, old, ho, rfl⟩ := class?_of_modifyClass hn
    · exact hw.linked.source other new unit path ho hor
    obtain ⟨hk, -, -⟩ := h old ho
    rw [hk.origin] at hor
    rw [hk.scope]
    exact hw.linked.source id old unit path ho hor
  · intro other new hn
    obtain ho | ⟨-, old, ho, rfl⟩ := class?_of_modifyClass hn
    · exact hw.linked.begun other new ho
    · exact (h old ho).2.1
  · intro other new hn hp
    obtain ho | ⟨-, old, ho, rfl⟩ := class?_of_modifyClass hn
    · exact hw.linked.pending other new ho hp
    obtain ⟨hk, -, -⟩ := h old ho
    rw [hk.isCompiled]
    exact hw.linked.pending id old ho (hp.imp hk.superclassPending hk.interfacesPending)
  · intro other new hn hs sup hm
    refine Founded.grows hw.linked hg ?_
    obtain ho | ⟨-, old, ho, rfl⟩ := class?_of_modifyClass hn
    · exact hw.linked.founded other new ho hs sup hm
    · obtain ⟨hk, -, hfo, -⟩ := h old ho
      exact hfo (hk.isCompiled ▸ hs) sup hm
  · intro other new hn hs outer hm
    refine SourceIn.grows hg ?_
    obtain ho | ⟨-, old, ho, rfl⟩ := class?_of_modifyClass hn
    · exact hw.linked.housed other new ho hs outer hm
    · obtain ⟨hk, -, -, hen⟩ := h old ho
      exact hk.package ▸ hw.linked.housed id old ho (hk.isCompiled ▸ hs) outer (hen ▸ hm)
  · exact fun found hf => (hw.linked.object found hf).grows hg
  · intro other pos seq hot
    exact hw.numbered other pos seq (read_modifyType TypeInfo.sort rfl (fun _ => sort_mapClass) other ▸ hot)

theorem Sound.beginHierarchy (hw : w.Sound) (id : TypeId) : (w.beginHierarchy id).Sound := hw.modifyClass id
    (fun info hi => ⟨{ EditedTo.refl _ with begun := fun _ => rfl }, fun _ => rfl,
      hw.linked.founded id info hi, rfl⟩)
    fun _ _ _ hs => .inl hs

theorem Sound.endHierarchy (hw : w.Sound) (hb : w.Begun id) : (w.endHierarchy id).Sound := by
  refine hw.modifyClass id (fun info hi =>
    ⟨{ EditedTo.refl _ with ended := fun _ => rfl }, fun _ => ?_, hw.linked.founded id info hi, rfl⟩)
    fun _ _ _ hs => .inl hs
  obtain ⟨old, ho, hb⟩ := hb
  cases ho.symm.trans hi
  exact hb

theorem Move.role_eq (h : Move w w') (hid : w.Knows id)
    (hn : ∀ name, w.role id ≠ .placeholder name none) : w'.role id = w.role id := by
  have hpu : ∀ {info : TypeInfo}, w'.types = w.types.push info → w'.role id = w.role id := by
    intro info ht
    rw [World.role, type_of_push ht, if_neg (Nat.ne_of_lt hid), World.role]
  have hs : ∀ {w1 : World} {hole tgt : TypeId} {name : QName}, w1.role id = w.role id →
      w1.type hole = .placeholder name none →
      (w1.swapPlaceholder hole tgt).role id = w.role id := by
    intro w1 hole tgt name hr hp
    rw [role_swapPlaceholder _ hp, if_neg, hr]
    rintro rfl
    exact hn name (hr ▸ role_eq_placeholder.2 hp)
  cases h with
  | aside h => exact h.toSpares.role id
  | amend other change _ _ _ => exact read_modifyType TypeInfo.role rfl (fun _ => role_mapClass) id
  | bound other change h _ => exact read_modifyType TypeInfo.role (Rebound.void h) (fun _ => (h _).role) id
  | add info _ _ => exact hpu rfl
  | enter mayAdd segs => rw [World.role, (enterPackage_grows ..).type, World.role]
  | placeholder name =>
    obtain ⟨-, ht | ht⟩ := typeOrPlaceholder_with w name
    · rw [World.role, World.type, ht]
      rfl
    · exact hpu ht
  | build h => exact hpu h.types
  | arrive info _ _ _ =>
    have ha : ∀ {w1 : World}, w1.types = w.types.push (.declared info) → w1.role id = w.role id := by
      intro w1 ht
      rw [World.role, type_of_push ht, if_neg (Nat.ne_of_lt hid), World.role]
    rw [arrival]
    exact registerType_elim _ _ _ _ (fun _ => ha rfl) fun existing name hp => hs (ha rfl) hp
  | vanish hp _ _ => exact hs rfl hp

namespace Course

variable {task : Option Task} {stop : Option Halt}

variable {id : TypeId}

/-! ## Moves -/

theorem apart (h : w.Apart w') : Course none none w w' := .move (.aside h.toAside) (.apart h)

theorem refl (w : World) : Course none none w w := .apart (.refl w)

theorem amend (id : TypeId) (change : ClassInfo → ClassInfo)
    (h : ∀ info, w.class? id = some info → info.EditedTo (change info))
    (hs : ∀ info, w.class? id = some info → ∀ slot ∈ (change info).slots, slot ∈ info.slots ∨ w.MayHold (.type id) slot)
    (hv : ∀ info, w.class? id = some info → ∀ var ∈ (change info).typeVariables,
      var ∈ info.typeVariables ∨ w.IsVariable var := by exact fun _ _ _ h => .inl h) :
    Course none none w (w.modifyClass id change) :=
  .move (.amend id change (fun info hi => (h info hi).toAmendedTo) hs hv) (.modifyClass id h)

theorem bound (id : TypeId) (change : TypeInfo → TypeInfo) (h : ∀ info : TypeInfo, info.Rebound (change info))
    (hs : ∀ slot ∈ (change (w.type id)).slots, slot ∈ (w.type id).slots ∨ w.MayHold (.type id) slot) :
    Course none none w (w.modifyType id change) :=
  .move (.bound id change h hs) (.modifyType id h)

theorem add (info : TypeInfo) (h : info.IsNew w) (hs : ∀ slot ∈ info.slots, w.MayHold (.type ⟨w.types.size⟩) slot)
    (hi : ∀ new, info.class? = some new → new.IsUnread := by exact fun _ h => by cases h) :
    Course none none w (w.addType info).2 :=
  .move (.add info h hs) (.of_push (.types ..) (.types ..) rfl rfl hi)

theorem enter (mayAdd : QName → Bool) (segs : List String) :
    Course none none w (w.enterPackage mayAdd segs defaultPackage).2 :=
  .move (.enter mayAdd segs) (.enterPackage mayAdd segs)

theorem placeholder (name : QName) : Course none none w (Edit.typeOrPlaceholder name w).2 :=
  .move (.placeholder name) (.typeOrPlaceholder name)

theorem build {info : TypeInfo} {key : CacheKey} (h : w.Builds w' info key) : Course none none w w' :=
  .move (.build h) (.build h)

theorem arrive (info : ClassInfo) (h : info.IsNew w) (hf : info.Fits w)
    (hs : ∀ slot ∈ info.slots, w.MayHold (.type ⟨w.types.size⟩) slot) (hi : info.IsUnread) :
    Course none none w (w.arrival info) :=
  .move (.arrive info h hf hs) (.arrival hi)

theorem vanish {hole tgt : TypeId} {name : QName} (hp : w.type hole = .placeholder name none) (hf : w.IsFresh tgt)
    (hr : w.role tgt = .missing) : Course none none w (w.swapPlaceholder hole tgt) :=
  .move (.vanish hp hf hr) (.swapPlaceholder tgt hp)

/-! ## Changes that are noted afterwards -/

theorem bound_noted (id : TypeId) {change : TypeInfo → TypeInfo} {comps : List TypeId}
    (hr : ∀ info : TypeInfo, info.Rebound (change info))
    (hsl : ∀ slot ∈ (change (w.type id)).slots, slot ∈ (w.type id).slots ∨ slot ∈ comps)
    (hk : ∀ slot ∈ comps, w.Knows slot) :
    Course none none w ((w.modifyType id change).noteReferrers (.type id) comps) := by
  have hv := Rebound.void hr
  rw [noteReferrers_comm (·.modifyType id change) _ (fun _ _ => rfl) rfl]
  · have hmo := noteReferrers_notesMore (w := w) (.type id) comps
    refine .trans (.apart (aside_noteReferrers ..)) (.bound id change hr ?_)
    rw [hmo.type]
    exact fun slot hs => (hsl slot hs).imp_right fun hm => mayHold_noteReferrers (hk slot hm) hm
  · exact fun other _ => read_modifyType TypeInfo.isPending hv (fun _ => isPending_of_role (hr _).role) other

section

variable (hid : w.IsCompiled id) (reading : Reading) (hp : reading.part = .superclass ∨ reading.part = .interfaces)
  (hk : ∀ slot ∈ reading.supertypes, w.Knows slot)

include hid hp hk

theorem noted_fill : Course (some (.read id reading.part)) none w
    ((w.noteReferrers (.type id) reading.supertypes).modifyClass id reading.store) := by
  have hm := noteReferrers_notesMore (w := w) (.type id) reading.supertypes
  refine .trans (.inside (.apart (aside_noteReferrers ..))) (.tend (.fill reading ?_ ?_ ?_))
  · obtain ⟨info, hi, hc⟩ := hid
    exact ⟨info, by rwa [class?, hm.type], hc⟩
  · exact fun slot hs => mayHold_noteReferrers (hk slot hs) hs
  · rintro members rfl
    obtain h | h := hp <;> cases h

theorem fill_noted : Course (some (.read id reading.part)) none w
    ((w.modifyClass id reading.store).noteReferrers (.type id) reading.supertypes) := by
  rw [noteReferrers_comm (·.modifyClass id reading.store) _ (fun _ _ => rfl) rfl]
  · exact noted_fill hid reading hp hk
  · exact fun other _ => read_modifyType TypeInfo.isPending rfl (fun _ => isPending_of_role role_mapClass) other

end

theorem arrive_noted {info : ClassInfo} (hn : info.IsNew w) (hf : info.Fits w)
    (hk : ∀ slot ∈ info.slots, w.Knows slot) (hi : info.IsUnread) :
    Course none none w (Edit.registerType info.package info.key ⟨w.types.size⟩
      ((w.addType (.declared info)).2.noteReferrers (.type ⟨w.types.size⟩) info.slots)).2 := by
  have hm := noteReferrers_notesMore (w := w) (.type ⟨w.types.size⟩) info.slots
  have ha := aside_noteReferrers w (.type ⟨w.types.size⟩) info.slots
  rw [noteReferrers_comm (fun w => (w.addType (.declared info)).2) _ (fun _ _ => rfl) rfl]
  · have hsi : (w.noteReferrers (.type ⟨w.types.size⟩) info.slots).types.size = w.types.size := by rw [hm.same]
    have har : Course none none (w.noteReferrers (.type ⟨w.types.size⟩) info.slots)
        ((w.noteReferrers (.type ⟨w.types.size⟩) info.slots).arrival info) := by
      refine .arrive info (hn.later (.spares ha.toSpares)) (ha.toSpares.fits hf) ?_ hi
      rw [hsi]
      exact fun slot hs => mayHold_noteReferrers (hk slot hs) hs
    rw [arrival, hsi] at har
    exact (apart ha).trans har
  · intro id hid
    rw [isPending, type_addType_of_lt _ (hk id hid), isPending]

/-! ## Growth and soundness -/

theorem invariant (fact : World → Prop) (hm : ∀ {w w' : World}, Move w w' → fact w → fact w')
    (hv : ∀ {w w' : World} {view : MethodId}, w.OpensView view w' → fact w → fact w')
    (hs : ∀ {w : World} (id : TypeId) (change : ClassInfo → ClassInfo),
      (∀ info, w.class? id = some info → w.Stores id info (change info)) → fact w → fact (w.modifyClass id change))
    (hb : ∀ {w : World} {id : TypeId}, w.Ready id → fact w → fact (w.beginHierarchy id))
    (he : ∀ {w w' : World} {id : TypeId}, w.Ready id → fact w →
      Course (some (.connect id)) none (w.beginHierarchy id) w' → fact w' → fact (w'.endHierarchy id))
    (h : Course task stop w w') (hf : fact w) : fact w' := by
  induction h with
  | halt _ _ ih | inside _ ih | serve _ ih | operate _ _ ih => exact ih hf
  | bracket h _ ih => exact hm (.aside h.after.toAside) (ih (hm (.aside h.before.toAside) hf))
  | promote _ h ih => exact hm (.aside h.aside) (ih hf)
  | abandon _ _ _ ih => exact hm (.aside (aside_turn ..)) (ih hf)
  | trans _ _ ih1 ih2 | advance _ _ _ ih1 ih2 => exact ih2 (ih1 hf)
  | move h _ => exact hm h hf
  | tend h => exact hm h.move hf
  | store id change h => exact hs id change h hf
  | connect hr hi _ ih => exact he hr hf hi (ih (hb hr hf))
  | broken hr _ ih => exact ih (hb hr hf)
  | nest h _ ih =>
    obtain ⟨_, h0, h1⟩ := h.moves
    exact ih (hm h1 (hm h0 hf))
  | view h _ _ ih | unfilled h _ ih => exact ih (hv h hf)

theorem grows (h : Course task stop w w') : w.Grows w' := by
  refine invariant w.Grows (fun h hg => hg.trans h.grows) (fun h hg => hg.trans (.spares h.spares))
    (fun id change h hg => hg.trans (.modifyClass id fun info hi => (h info hi).toKeptAs))
    (fun _ hg => hg.trans (grows_beginHierarchy ..))
    (fun _ _ _ hg => hg.trans (grows_endHierarchy ..)) h (.refl w)

theorem sound (h : Course task stop w w') (hw : w.Sound) : w'.Sound := by
  refine invariant Sound (fun h hw => hw.move h) (fun h hw => h.sound hw) (fun id change h hw => ?_)
    (fun _ hw => hw.beginHierarchy _) (fun hr _ hin hw => ?_) h hw
  · refine hw.modifyClass id (fun info hi => ⟨(h info hi).toKeptAs, ?_, ?_, (h info hi).enclosing⟩)
      fun info hi => (h info hi).slots
    · intro he
      rw [(h info hi).sameEnded] at he
      rw [(h info hi).sameBegun]
      exact hw.linked.begun id info hi he
    · intro hs sup hm
      obtain hm | ha := (h info hi).admits sup hm
      · exact hw.linked.founded id info hi hs sup hm
      · exact ha.founded
  · exact hw.endHierarchy (.grows hin.grows hr.begun)

theorem keeps {fact : World → Prop} (hs : ∀ {w w' : World}, w.Sound → w.Spares w' → fact w → fact w')
    (hc : ∀ {w : World} (id : TypeId) (change : ClassInfo → ClassInfo), w.Sound →
      (∀ info, w.class? id = some info → info.KeptAs (change info) ∧ info.LastsAs (change info) ∧
        (change info).typeVariables = info.typeVariables) →
      fact w → fact (w.modifyClass id change)) (hm : ∀ {w w' : World}, w.Sound → Move w w' → fact w → fact w')
    (h : Course task stop w w') (hw : w.Sound) (hf : fact w) : fact w' := by
  refine (invariant (fun u => u.Sound ∧ fact u) (fun h ⟨hw, hf⟩ => ⟨hw.move h, hm hw h hf⟩)
    (fun h ⟨hw, hf⟩ => ⟨h.sound hw, hs hw h.spares hf⟩) (fun id change h ⟨hw, hf⟩ => ?_)
    (fun _ ⟨hw, hf⟩ => ?_) (fun hr hf hin ⟨hw', hf'⟩ => ?_) h ⟨hw, hf⟩).2
  · exact ⟨sound (.store id change h) hw, hc id change hw (fun info hi =>
      ⟨(h info hi).toKeptAs, (h info hi).toLastsAs, (h info hi).sameVariables⟩) hf⟩
  · exact ⟨hw.beginHierarchy _, hc _ _ hw (fun _ _ =>
      ⟨{ EditedTo.refl _ with begun := fun _ => rfl }, { EditedTo.refl _ with }, rfl⟩) hf⟩
  · exact ⟨hw'.endHierarchy (.grows hin.grows hr.begun), hc _ _ hw' (fun _ _ =>
        ⟨{ EditedTo.refl _ with ended := fun _ => rfl }, { EditedTo.refl _ with }, rfl⟩) hf'⟩

theorem role_eq (h : Course task stop w w') (hid : w.Knows id)
    (hn : ∀ name, w.role id ≠ .placeholder name none) : w'.role id = w.role id := by
  have hm : ∀ (w : World) (other : TypeId) (change : ClassInfo → ClassInfo),
      (w.modifyClass other change).role id = w.role id := by
    intro w other change
    exact read_modifyType TypeInfo.role rfl (fun _ => role_mapClass) _
  have hs : w'.Knows id ∧ w'.role id = w.role id := by
    refine invariant (fun u => u.Knows id ∧ u.role id = w.role id) (fun h hp => ?_)
      (fun h hp => ⟨hp.1.grows (.spares h.spares), (h.spares.role id).trans hp.2⟩)
      (fun other change h hp => ?_)
      (fun _ hp => ⟨hp.1.grows (grows_beginHierarchy ..), (hm ..).trans hp.2⟩)
      (fun _ _ _ hp => ⟨hp.1.grows (grows_endHierarchy ..), (hm ..).trans hp.2⟩) h ⟨hid, rfl⟩
    · exact ⟨hp.1.grows h.grows, (h.role_eq hp.1 (hp.2 ▸ hn)).trans hp.2⟩
    · exact ⟨hp.1.grows (grows (.store other change h)), (hm ..).trans hp.2⟩
  exact hs.2

theorem level (h : Course task stop w w') : w.Level w' := by
  induction h with
  | halt _ _ ih | inside _ ih | serve _ ih | operate _ _ ih => exact ih
  | bracket h _ ih => exact h.level ih
  | abandon _ _ _ ih => exact ih.trans {} (.spares (aside_turn ..).toSpares)
  | trans _ h2 ih1 ih2 | advance _ _ h2 ih1 ih2 => exact ih1.trans ih2 h2.grows
  | move _ h => exact h.toLevel
  | tend h => exact h.level
  | promote _ h ih => exact ih.trans h.level (.spares h.aside.toSpares)
  | store => exact {}
  | connect _ h _ ih => exact (Level.trans {} ih h.grows).trans {} (grows_endHierarchy ..)
  | broken _ h ih => exact Level.trans {} ih h.grows
  | nest h hi ih | view h hi _ ih | unfilled h hi ih => exact h.level.trans ih hi.grows

/-! ## Supertypes and connecting -/

def Kept (w w' : World) (id : TypeId) : Prop :=
  ∀ info, w.class? id = some info → info.isCompiled = false →
    ∃ info', w'.class? id = some info' ∧ info.HeldAs info'

theorem Kept.trans (h1 : Kept w w1 id) (h2 : Kept w1 w2 id) : Kept w w2 id := by
  intro info hi hs
  obtain ⟨info1, hi1, hh1⟩ := h1 info hi hs
  obtain ⟨info2, hi2, hh2⟩ := h2 info1 hi1 (hh1.isCompiled.trans hs)
  exact ⟨info2, hi2, hh1.trans hh2⟩

theorem kept_modifyClass (change : ClassInfo → ClassInfo) (h : other ≠ id) :
    Kept w (w.modifyClass id change) other := by
  intro info hi hs
  exact ⟨info, by rw [class?_modifyClass, if_neg h, hi], .refl info⟩

theorem kept_spares (h : w.Spares w') : Kept w w' id := fun info hi _ => ⟨info, by rwa [class?, h.type], .refl info⟩

theorem kept_move (hw : w.Linked) (h : Move w w') : Kept w w' id := by
  intro info hi hs
  obtain ⟨info', hi', -⟩ := h.grows.declared id info hi
  obtain ⟨old, ho, hk⟩ | ⟨hn, -⟩ := h.carries hw id info' hi'
  · cases hi.symm.trans ho
    exact ⟨info', hi', hk.superclass hs, hk.interfaces hs, hk.sameBegun, hk.sameEnded, hk.isCompiled⟩
  · cases hi.symm.trans hn

theorem kept (h : Course task stop w w') (hw : w.Sound) (hb : w.Begun id)
    (ht : task ≠ some (.connect id)) : Kept w w' id := by
  induction h with
  | halt _ _ ih => exact ih hw hb ht
  | inside _ ih | serve _ ih => exact ih hw hb (by simp)
  | operate ht' _ ih => exact ih hw hb (by rcases ht' with rfl | rfl | rfl <;> simp)
  | bracket h _ ih =>
    exact ((kept_spares h.before.toSpares).trans (ih (hw.move (.aside h.before.toAside))
      (hb.grows (.spares h.before.toSpares)) (by simp))).trans (kept_spares h.after.toSpares)
  | promote _ h ih => exact (ih hw hb (by simp)).trans (kept_spares h.aside.toSpares)
  | abandon _ _ h1 ih => exact (ih hw hb ht).trans (kept_spares (aside_turn ..).toSpares)
  | trans h1 _ ih1 ih2 => exact (ih1 hw hb ht).trans (ih2 (h1.sound hw) (hb.grows h1.grows) ht)
  | advance h1 _ _ ih1 ih2 => exact (ih1 hw hb ht).trans (ih2 (h1.sound hw) (hb.grows h1.grows) (by simp))
  | move h _ => exact kept_move hw.linked h
  | tend h => exact kept_move hw.linked h.move
  | store other change h => exact kept_modifyClass change fun heq => ht (by rw [heq])
  | @connect other w w' hr hi _ ih =>
    have hne : id ≠ other := fun heq => hr.not_begun (heq ▸ hb)
    exact (kept_modifyClass _ hne).trans <|
      (ih (hw.beginHierarchy _) (begun_beginHierarchy.2 (.inl hb)) (by simp [Ne.symm hne])).trans
        (kept_modifyClass _ hne)
  | @broken _ other w w' hr hi ih =>
    have hne : id ≠ other := fun heq => hr.not_begun (heq ▸ hb)
    exact (kept_modifyClass _ hne).trans
      (ih (hw.beginHierarchy _) (begun_beginHierarchy.2 (.inl hb)) (by simp [Ne.symm hne]))
  | @nest task _ w w1 w2 h _ ih =>
    obtain ⟨_, h0, h1⟩ := h.moves
    have hn : some task ≠ some (.connect id) := fun heq => h.ne_connect id (Option.some.inj heq)
    exact ((kept_move hw.linked h0).trans (kept_move (hw.move h0).linked h1)).trans
      (ih ((hw.move h0).move h1) (hb.grows (h0.grows.trans h1.grows)) hn)
  | view h _ _ ih | unfilled h _ ih =>
    exact (kept_spares h.spares).trans (ih (h.sound hw) (hb.grows (.spares h.spares)) (by simp))

theorem ended_of_begun_move (hw : w.Linked) (h : Move w w') (hb : w'.Begun id) (hno : ¬ w.Begun id) : w'.Ended id := by
  obtain ⟨info', hi', hb⟩ := hb
  obtain ⟨old, ho, hk⟩ | ⟨-, hn⟩ := h.carries hw id info' hi'
  · exact absurd ⟨old, ho, by rwa [← hk.sameBegun]⟩ hno
  cases hn with
  | compiled _ _ he => exact ⟨info', hi', he⟩
  | source _ _ _ _ _ hs _ => simp [hs] at hb

theorem ended_of_begun (h : Course task none w w') (hw : w.Sound) (hb : w'.Begun id)
    (hn : ¬ w.Begun id) : w'.Ended id := by
  generalize hen : none = stop at h
  induction h with
  | halt | abandon | broken | unfilled => cases hen
  | bracket h _ ih =>
    refine (ih (hw.move (.aside h.before.toAside)) (hb.of_spares h.after.toSpares)
      (fun hm => hn (hm.of_spares h.before.toSpares)) hen).grows (.spares h.after.toSpares)
  | @trans _ stop w w1 w2 h1 h2 ih1 ih2 | @advance _ stop w w1 w2 h1 _ h2 ih1 ih2 =>
    by_cases hm : w1.Begun id
    · exact (ih1 hw hm hn rfl).grows h2.grows
    · exact ih2 (h1.sound hw) hb hm hen
  | move h _ => exact ended_of_begun_move hw.linked h hb hn
  | tend h => exact ended_of_begun_move hw.linked h.move hb hn
  | inside _ ih | serve _ ih | operate _ _ ih => exact ih hw hb hn hen
  | promote _ h ih => exact (ih hw (hb.of_spares h.aside.toSpares) hn rfl).grows (.spares h.aside.toSpares)
  | @store w other change h => exact absurd (hb.of_modifyClass fun info hi => (h info hi).sameBegun) hn
  | @connect other w w' hr hin _ ih =>
    by_cases heq : id = other
    · obtain ⟨info', hi', -⟩ := hb.of_endHierarchy
      exact ⟨_, by rw [endHierarchy, class?_modifyClass, if_pos heq, hi']; rfl, rfl⟩
    have hm : ¬ (w.beginHierarchy other).Begun id := fun h => (begun_beginHierarchy.1 h).elim hn fun h => heq h.1
    obtain ⟨info', hi', he⟩ := ih (hw.beginHierarchy _) hb.of_endHierarchy hm rfl
    exact ⟨info', by rw [endHierarchy, class?_modifyClass, if_neg heq, hi'], he⟩
  | @nest _ _ w w1 w2 h hin ih =>
    obtain ⟨w0, h0, h1⟩ := h.moves
    by_cases hm0 : w0.Begun id
    · exact (ended_of_begun_move hw.linked h0 hm0 hn).grows (h1.grows.trans hin.grows)
    by_cases hm1 : w1.Begun id
    · exact (ended_of_begun_move (hw.move h0).linked h1 hm1 hm0).grows hin.grows
    · exact ih ((hw.move h0).move h1) hb hm1 hen
  | view h _ _ ih => exact ih (h.sound hw) hb (fun hm => hn (hm.of_spares h.spares)) hen

theorem begun_of_move (hw : w.Linked) (h : Move w w') (hr : w.role id = .declared) (hb : w'.Begun id) : w.Begun id := by
  obtain ⟨info, hi⟩ := role_eq_declared.1 hr
  obtain ⟨info', hi', hb⟩ := hb
  obtain ⟨old, ho, hk⟩ | ⟨hn, -⟩ := h.carries hw id info' hi'
  · exact ⟨old, ho, by rwa [← hk.sameBegun]⟩
  · simp [hi] at hn

theorem declaration_of_begun (h : Course task stop w w') (hw : w.Sound)
    (hr : w.role id = .declared) (hb : w'.Begun id) (hno : ¬ w.Begun id) : w.declaration? id ≠ none := by
  intro hn
  refine (invariant (fun u => u.Sound ∧ u.role id = .declared ∧ u.declaration? id = none ∧ ¬ u.Begun id)
    ?_ ?_ ?_ ?_ ?_ h ⟨hw, hr, hn, hno⟩).2.2.2 hb
  · rintro u u' h ⟨hu, hr, hn, hno⟩
    exact ⟨hu.move h, h.grows.role_declared hr, declaration?_grows hu.linked h.grows hr hn,
      fun hb => hno (begun_of_move hu.linked h hr hb)⟩
  · rintro u u' view h ⟨hu, hr, hn, hno⟩
    have hg : u.Grows u' := .spares h.spares
    exact ⟨h.sound hu, hg.role_declared hr, declaration?_grows hu.linked hg hr hn,
      fun hb => hno (hb.of_spares h.spares)⟩
  · rintro u other change h ⟨hu, hr, hn, hno⟩
    have hg := grows (.store other change h)
    exact ⟨sound (.store other change h) hu, hg.role_declared hr, declaration?_grows hu.linked hg hr hn,
      fun hb => hno (hb.of_modifyClass fun info hi => (h info hi).sameBegun)⟩
  · rintro u other hre ⟨hu, hr, hn, hno⟩
    have hg := grows_beginHierarchy u other
    refine ⟨hu.beginHierarchy _, hg.role_declared hr, declaration?_grows hu.linked hg hr hn,
      fun hb => (begun_beginHierarchy.1 hb).elim hno fun h => ?_⟩
    exact hre.declaration (h.1 ▸ hn)
  · rintro u u' other hre - hin ⟨hu, hr, hn, hno⟩
    have hg := grows_endHierarchy u' other
    exact ⟨hu.endHierarchy (.grows hin.grows hre.begun), hg.role_declared hr, declaration?_grows hu.linked hg hr hn,
      fun hb => hno hb.of_endHierarchy⟩

/-! ## What lasts of classes -/

theorem lasts_move (hw : w.Linked) (h : Move w w') : w.Lasts w' := by
  intro id info hi
  obtain ⟨info', hi', -⟩ := h.grows.declared id info hi
  obtain ⟨old, ho, hk⟩ | ⟨hn, -⟩ := h.carries hw id info' hi'
  · cases hi.symm.trans ho
    exact ⟨info', hi', hk.toLastsAs⟩
  · cases hi.symm.trans hn

theorem lasts (h : Course task stop w w') (hw : w.Sound) : w.Lasts w' := h.keeps (fun _ hs hl => hl.trans (.spares hs))
    (fun id _ _ hk hl => hl.trans (.modifyClass id fun info hi => (hk info hi).2.1))
    (fun hw h hl => hl.trans (lasts_move hw.linked h)) hw fun _ info hi => ⟨info, hi, .refl info⟩

end Course

/-! ## Classes that have begun, along a course -/

structure Follows (w w' : World) : Prop where
  grows : w.Grows w'
  lasts : w.Lasts w'
  kept : ∀ id, w.Begun id → Course.Kept w w' id
  begun : ∀ id, w.role id = .declared → w.declaration? id = none → w'.Begun id → w.Begun id

theorem Course.follows {stop : Option Halt} (h : Course none stop w w') (hw : w.Sound) : w.Follows w' where
  grows := h.grows
  lasts := h.lasts hw
  kept _ hb := h.kept hw hb (by simp)
  begun _ hr hn hb := by
    by_contra hno
    exact h.declaration_of_begun hw hr hb hno hn

theorem Follows.trans (hw : w.Sound) (h1 : w.Follows w1) (h2 : w1.Follows w2) : w.Follows w2 where
  grows := h1.grows.trans h2.grows
  lasts := h1.lasts.trans h2.lasts
  kept id hb := (h1.kept id hb).trans (h2.kept id (hb.grows h1.grows))
  begun id hr hn hb :=
    h1.begun id hr hn <| h2.begun id (h1.grows.role_declared hr) (declaration?_grows hw.linked h1.grows hr hn) hb

theorem Joined.begun_of_follows (h : w.Joined id) (hf : w.Follows w')
    (hr : w.role id = .declared) (hb : w'.Begun id) : w.Begun id := by
  obtain h | hn := h
  · exact h
  · exact hf.begun id hr hn hb

end World

end Bindings
