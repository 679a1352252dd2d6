import Bindings.Proofs.ClassFiles
import Bindings.Proofs.Replay.Supertypes

/-! # Classes without member types -/

open Relation

namespace Bindings

open ClassInfo

variable {info : ClassInfo} {slot base : TypeId}

theorem ClassInfo.exists_supertypesOf : (∃ part, slot ∈ info.supertypesOf part) ↔ slot ∈ info.supertypes := by
  rw [supertypes, List.mem_append]
  constructor
  · rintro ⟨part, hs⟩
    cases part with
    | superclass => exact .inl hs
    | interfaces => exact .inr hs
    | members | memberTypes => cases hs
  · rintro (hs | hs)
    exacts [⟨.superclass, hs⟩, ⟨.interfaces, hs⟩]

structure ClassInfo.FixesSupertypes (info : ClassInfo) : Prop where
  superclass : info.isCompiled → info.state.isPending .superclass = false
  interfaces : info.isCompiled → info.state.isPending .interfaces = false
  ended : info.isCompiled = false → info.state.hierarchyEnded

namespace World

variable {w w' : World} {task : Option Task} {stop : Option Halt} {id : TypeId} {base' tgt : TypeId} {super : TypeId}

def IsFree (task : Option Task) : Prop := task = none ∨ task = some .operate

theorem isFree_none : IsFree none := .inl rfl

theorem isFree_operate : IsFree (some .operate) := .inr rfl

theorem IsFree.ne (h : IsFree task) {other : Task} (hne : other ≠ .operate) : task ≠ some other := by
  obtain rfl | rfl := h
  · simp
  · simpa using hne.symm

theorem Stands.unique {target' : TypeId} (h : w.Stands id tgt) (h' : w.Stands id target') : target' = tgt := by
  obtain ⟨hn, rfl⟩ | ⟨name, hna⟩ := h
  · obtain ⟨-, rfl⟩ | ⟨name', hna'⟩ := h'
    · rfl
    · exact absurd hna' (hn _ _)
  obtain ⟨hn, -⟩ | ⟨name', hna'⟩ := h'
  · exact absurd hna (hn _ _)
  rw [hna] at hna'
  cases hna'
  rfl

theorem Stands.self (h : w.role id = .declared) : w.Stands id id := .inl ⟨by simp [h], rfl⟩

theorem Stands.knows (h : w.Stands id tgt) (hw : w.Registered) (hid : w.Knows id) : w.Knows tgt := by
  obtain ⟨-, rfl⟩ | ⟨name, hn⟩ := h
  · exact hid
  · exact lt_size_of_role_ne (by rcases hw.role_target hn with h | h <;> simp [h])

theorem Stands.role_later (h : w.Stands id tgt) (hc : Course task stop w w')
    (hw : w.Sound) (hid : w.Knows id) : w'.role tgt = w.role tgt :=
  hc.role_eq (h.knows hw.registered hid) fun name => h.ne_placeholder hw.registered name none

theorem Stands.erasureClass?_eq (h : w.Stands id tgt) (hw : w.Registered) :
    w.erasureClass? id = w.erasureClass? tgt := by
  obtain ⟨-, rfl⟩ | ⟨name, hn⟩ := h
  · rfl
  have ht : w.type id = .placeholder name (some tgt) := TypeInfo.role_eq_placeholder.1 hn
  obtain hr | hr := hw.role_target hn
  · obtain ⟨info, hi⟩ := role_eq_declared.1 hr
    simp [World.erasureClass?, ht, hi, class?_eq_some.1 hi]
  · have hm := TypeInfo.role_eq_missing.1 hr
    cases hta : w.type tgt <;> simp_all [World.erasureClass?, class?]

theorem Replaced.of_becomes (hw : w.Registered) (h : w.Becomes base base') : w.Replaced base base' := by
  induction h with
  | refl => exact .inl rfl
  | tail _ hs ih =>
    obtain ⟨name, hn⟩ := hs
    exact ih.trans hw (.refl w) (.inr ⟨name, TypeInfo.role_eq_placeholder.1 hn⟩)

theorem Course.erasureClass?_before (h : Course task stop w w') (hw : w.Sound)
    (hs : w.Knows slot) (hst : w.Stands slot tgt) (hb' : w'.erasureClass? slot = some base') :
    ∃ base, w.erasureClass? slot = some base ∧ w'.Replaced base base' := by
  have hw' := h.sound hw
  cases hb : w.erasureClass? slot with
  | some base =>
    obtain ⟨_, hb'', hbe⟩ := h.grows.erasureClass?_becomes hb
    cases hb'.symm.trans hb''
    exact ⟨base, rfl, .of_becomes hw'.registered hbe⟩
  | none =>
    -- The type is built on no class, and its sort does not change.
    have hta := hst.knows hw.registered hs
    rw [(hst.later h hs).erasureClass?_eq hw'.registered] at hb'
    rw [hst.erasureClass?_eq hw.registered] at hb
    have hso := h.grows.sort tgt hta
    have hn := hst.ne_placeholder hw.registered
    exfalso
    cases ht : w.type tgt with
    | declared | parameterized | raw => simp [World.erasureClass?, ht] at hb
    | placeholder name pending => exact hn name pending (TypeInfo.role_eq_placeholder.2 ht)
    | _ =>
      rw [ht] at hso
      cases ht' : w'.type tgt <;> simp_all [World.erasureClass?, TypeInfo.sort]

def IsResolved (w : World) (id : TypeId) : Prop := ∃ target, w.Stands id target

def NoMembers (w : World) (id : TypeId) : Prop :=
  ∃ info, w.class? id = some info ∧ info.members = [] ∧
    (info.isCompiled → info.state.isPending .memberTypes = false)

theorem NoMembers.later (h : w.NoMembers id) (hc : Course task stop w w') (ht : IsFree task)
    (hw : w.Sound) : w'.NoMembers id := by
  obtain ⟨info, hi, hn, hr⟩ := h
  cases hco : info.isCompiled with
  | true =>
    obtain ⟨info', _, hi', -, hr', -, hs⟩ := hc.retainsPart hw (ht.ne (by simp)) info hi hco (hr hco)
    exact ⟨info', hi', Eq.trans hs hn, fun _ => hr'⟩
  | false =>
    obtain ⟨unit, path, ho⟩ := source_of_isCompiled hco
    have hu := (hw.linked.source id info unit path hi ho).1
    obtain ⟨info', hi', ho', hs⟩ := hc.frame.members id unit path ⟨info, hi, ho⟩ hu (ht.ne (by simp)) info hi hco
    refine ⟨info', hi', hs.trans hn, fun hco' => ?_⟩
    simp [isCompiled_of_source (ho'.trans ho)] at hco'

theorem Course.supertypesOf (h : Course task stop w w') (ht : IsFree task) (hw : w.Sound)
    (hi : w.class? id = some info) (hfi : info.FixesSupertypes) :
    ∃ info', w'.class? id = some info' ∧ info'.FixesSupertypes ∧ ∀ part,
      ∀ slot' ∈ info'.supertypesOf part, ∃ slot ∈ info.supertypesOf part, w'.Replaced slot slot' := by
  cases hc : info.isCompiled with
  | true =>
    obtain ⟨info', f, hi', hc', hr, hf, hs⟩ := h.retainsPart hw (ht.ne (by simp)) info hi hc (hfi.superclass hc)
    obtain ⟨_, g, hi'', -, hr', hg, hs'⟩ := h.retainsPart hw (ht.ne (by simp)) info hi hc (hfi.interfaces hc)
    cases hi'.symm.trans hi''
    refine ⟨info', hi', ⟨fun _ => hr, fun _ => hr', by simp [hc']⟩, fun part slot' hsl' => ?_⟩
    cases part with
    | superclass =>
      rw [hs.supertypesOf, List.mem_map] at hsl'
      obtain ⟨slot, hsl, rfl⟩ := hsl'
      exact ⟨slot, hsl, hf slot⟩
    | interfaces =>
      rw [hs'.supertypesOf, List.mem_map] at hsl'
      obtain ⟨slot, hsl, rfl⟩ := hsl'
      exact ⟨slot, hsl, hg slot⟩
    | members | memberTypes => cases hsl'
  | false =>
    have he := hfi.ended hc
    obtain ⟨info', hi', hh⟩ := h.kept hw ⟨info, hi, hw.linked.begun id info hi he⟩ (ht.ne (by simp)) info hi hc
    have hso : info'.isCompiled = false := hh.isCompiled.trans hc
    refine ⟨info', hi', ⟨by simp [hso], by simp [hso], fun _ => hh.ended.trans he⟩,
      fun part slot' hsl' => ⟨slot', ?_, .inl rfl⟩⟩
    cases part with
    | superclass => rwa [ClassInfo.supertypesOf, ← hh.superclass]
    | interfaces => rwa [ClassInfo.supertypesOf, ← hh.interfaces]
    | members | memberTypes => cases hsl'

structure Over (w : World) (bases : TypeId → Prop) (slot : TypeId) : Prop where
  resolved : w.IsResolved slot
  base : ∀ base, w.erasureClass? slot = some base → bases base

section

variable {bases bases' : TypeId → Prop} {part : ClassPart}

theorem Over.later {slot' : TypeId} (h : w.Over bases slot) (hc : Course task stop w w')
    (hw : w.Sound) (hs : w.Knows slot) (hr : w'.Replaced slot slot')
    (hba : ∀ base base', w.Knows base → bases base → w'.Replaced base base' → bases' base') :
    w'.Over bases' slot' := by
  obtain ⟨tgt, hst⟩ := h.resolved
  have hw' := (hc.sound hw).registered
  have hl := hst.later hc hs
  have hl' := hl.replaced hw' hr
  refine ⟨⟨tgt, hl'⟩, fun base' hb' => ?_⟩
  rw [hl'.erasureClass?_eq hw', ← hl.erasureClass?_eq hw'] at hb'
  obtain ⟨base, hb, hr⟩ := hc.erasureClass?_before hw hs hst hb'
  exact hba base base' (knows_erasureClass? hw hb) (h.base base hb) hr

def PartOver (w : World) (bases : TypeId → Prop) (id : TypeId) (part : ClassPart) : Prop :=
  ∃ info, w.class? id = some info ∧ info.FixesSupertypes ∧
    ∀ slot ∈ info.supertypesOf part, w.Over bases slot

theorem PartOver.mono (h : w.PartOver bases id part)
    (hba : ∀ base, bases base → bases' base) : w.PartOver bases' id part := by
  obtain ⟨info, hi, hf, ho⟩ := h
  exact ⟨info, hi, hf, fun slot hs => ⟨(ho slot hs).resolved, fun base hb => hba base ((ho slot hs).base base hb)⟩⟩

theorem PartOver.later (h : w.PartOver bases id part) (hc : Course task stop w w') (ht : IsFree task) (hw : w.Sound)
    (hb : ∀ base base', w.Knows base → bases base → w'.Replaced base base' → bases' base') :
    w'.PartOver bases' id part := by
  obtain ⟨info, hi, hf, ho⟩ := h
  obtain ⟨info', hi', hf', hr⟩ := hc.supertypesOf ht hw hi hf
  refine ⟨info', hi', hf', fun slot' hs' => ?_⟩
  obtain ⟨slot, hs, hr⟩ := hr part slot' hs'
  exact (ho slot hs).later hc hw (knows_supertypesOf hw hi slot hs) hr hb

end

def Supers (w : World) (sub super : TypeId) : Prop :=
  ∃ info, w.class? sub = some info ∧ ∃ slot ∈ info.supertypes, ∃ base,
    w.erasureClass? slot = some base ∧ w.Stands base super ∧ w.role super = .declared

/-- Neither the class nor a class above it has member types, and nothing of that is open. -/
def Barren (w : World) (id : TypeId) : Prop :=
  ∀ super, ReflTransGen w.Supers id super →
    w.NoMembers super ∧ ∀ part, w.PartOver w.IsResolved super part

def Into (w : World) (set : TypeId → Prop) (base : TypeId) : Prop :=
  ∃ target, w.Stands base target ∧ (w.role target = .declared → set target)

theorem Into.later {set : TypeId → Prop} (h : w.Into set base)
    (hc : Course task stop w w') (hw : w.Sound) (hb : w.Knows base)
    (hr : w'.Replaced base base') : w'.Into set base' := by
  obtain ⟨tgt, hs, hse⟩ := h
  refine ⟨tgt, (hs.later hc hb).replaced (hc.sound hw).registered hr, ?_⟩
  rwa [hs.role_later hc hw hb]

theorem Barren.of_closed (set : TypeId → Prop) (hid : set id)
    (hse : ∀ other, set other → w.NoMembers other ∧ ∀ part, w.PartOver (w.Into set) other part) : w.Barren id := by
  intro super hp
  have hsu : set super := by
    induction hp with
    | refl => exact hid
    | @tail sub super _ hste ih =>
      obtain ⟨info, hi, slot, hs, base, hb, hst, hr⟩ := hste
      obtain ⟨part, hs⟩ := exists_supertypesOf.2 hs
      obtain ⟨_, hi', -, ho⟩ := (hse sub ih).2 part
      cases hi.symm.trans hi'
      obtain ⟨tgt, hst', ht⟩ := (ho slot hs).base base hb
      cases hst.unique hst'
      exact ht hr
  obtain ⟨hn, ho⟩ := hse super hsu
  exact ⟨hn, fun part => (ho part).mono fun base ⟨tgt, hst, _⟩ => ⟨tgt, hst⟩⟩

theorem Barren.closed (h : w.Barren id) (hp : ReflTransGen w.Supers id super) :
    w.NoMembers super ∧ ∀ part, w.PartOver (w.Into (ReflTransGen w.Supers id)) super part := by
  refine ⟨(h super hp).1, fun part => ?_⟩
  obtain ⟨info, hi, hf, ho⟩ := (h super hp).2 part
  refine ⟨info, hi, hf, fun slot hs => ⟨(ho slot hs).resolved, fun base hb => ?_⟩⟩
  obtain ⟨tgt, hst⟩ := (ho slot hs).base base hb
  have hm := exists_supertypesOf.1 ⟨part, hs⟩
  exact ⟨tgt, hst, fun hr => hp.tail ⟨info, hi, slot, hm, base, hb, hst, hr⟩⟩

theorem Barren.of_above (h : w.Barren id) (hp : ReflTransGen w.Supers id super) :
    w.Barren super := fun _ hp' => h _ (hp.trans hp')

theorem Barren.later (h : w.Barren id) (hc : Course task stop w w') (ht : IsFree task) (hw : w.Sound) :
    w'.Barren id := by
  refine .of_closed (ReflTransGen w.Supers id) .refl fun other ho => ?_
  obtain ⟨hn, hov⟩ := h.closed ho
  exact ⟨hn.later hc ht hw, fun part => (hov part).later hc ht hw fun _ _ hb hi => hi.later hc hw hb⟩

def Marked (w : World) (id : TypeId) : Prop :=
  ∃ info, w.class? id = some info ∧ info.state.noMemberTypes

def MarksNothing (w w' : World) : Prop := ∀ id, w'.Marked id → w.Marked id

namespace MarksNothing

theorem trans {w1 w2 : World} (h1 : w.MarksNothing w1) (h2 : w1.MarksNothing w2) : w.MarksNothing w2 :=
  fun id h => h1 id (h2 id h)

theorem of_types (h : w'.types = w.types) : w.MarksNothing w' := by
  rintro id ⟨info, hi, hm⟩
  exact ⟨info, by rwa [class?, type, h] at hi, hm⟩

theorem spares (h : w.Spares w') : w.MarksNothing w' := of_types h.types

theorem quiet (h : w.Quiet w') : w.MarksNothing w' := by
  rintro id ⟨new, hn, hm⟩
  cases ho : w.class? id with
  | none => simp [(h.fresh id new hn ho).unmarked] at hm
  | some old =>
    obtain ⟨_, _, hn', -, hq⟩ := h.kept id old ho
    cases hn.symm.trans hn'
    exact ⟨old, ho, hq.mark ▸ hm⟩

theorem modifyClass (id : TypeId) {change : ClassInfo → ClassInfo}
    (h : ∀ info, w.class? id = some info → (change info).state.noMemberTypes = info.state.noMemberTypes) :
    w.MarksNothing (w.modifyClass id change) := by
  rintro other ⟨new, hn, hm⟩
  obtain hn | ⟨rfl, old, ho, rfl⟩ := class?_of_modifyClass hn
  · exact ⟨new, hn, hm⟩
  · exact ⟨old, ho, h old ho ▸ hm⟩

theorem addClass (h : info.state.noMemberTypes = false) : w.MarksNothing (w.addType (.declared info)).2 := by
  rintro id ⟨new, hn, hm⟩
  rw [class?, type_addType] at hn
  split at hn
  · cases hn
    simp [h] at hm
  · exact ⟨new, hn, hm⟩

theorem opens {task : Task} (h : Opens task w w') : w.MarksNothing w' := by
  cases h with
  | @read _ _ part _ => exact modifyClass _ fun _ _ => by cases part <;> rfl
  | imports | found => exact of_types rfl
  | form h => exact spares h.aside.toSpares

theorem tends {task : Task} (h : Tends task w w') (ht : task ≠ .mark) : w.MarksNothing w' := by
  cases h with
  | fill reading _ _ _ => exact modifyClass _ fun info _ => by cases reading <;> rfl
  | declare _ _ _ hs => exact (addClass (by rw [hs])).trans (quiet (quiet_newListedClass ..).1)
  | enclose | endow => exact modifyClass _ fun _ _ => rfl
  | store | list | retire | turn | ask => exact of_types rfl
  | release => exact spares (releaseUnit_aside ..).toSpares
  | mark => exact absurd rfl ht

end MarksNothing

theorem Course.marksNothing (h : Course task stop w w') (hm : task ≠ some .mark)
    (ho : task ≠ some .operate) : w.MarksNothing w' := by
  have hb : ∀ {w : World} {id : TypeId}, w.MarksNothing (w.beginHierarchy id) := .modifyClass _ fun _ _ => by exact rfl
  induction h with
  | halt _ _ ih => exact ih hm ho
  | inside _ ih | serve _ ih => exact ih (by simp) (by simp)
  | operate => exact absurd rfl ho
  | bracket h _ ih =>
    exact ((MarksNothing.spares h.before.toSpares).trans (ih (by simp) (by simp))).trans (.spares h.after.toSpares)
  | abandon _ _ _ ih => exact (ih hm ho).trans (.of_types rfl)
  | trans _ _ ih1 ih2 => exact (ih1 hm ho).trans (ih2 hm ho)
  | advance _ _ _ ih1 ih2 => exact (ih1 (by simp) (by simp)).trans (ih2 (by simp) (by simp))
  | move _ hq => exact .quiet hq
  | tend h => exact .tends h (by simpa using hm)
  | store other change h => exact .modifyClass other fun info hi => (h info hi).sameMark
  | connect _ _ _ ih =>
    exact (hb.trans (ih (by simp) (by simp))).trans (MarksNothing.modifyClass _ fun _ _ => by exact rfl)
  | broken _ _ ih => exact hb.trans (ih (by simp) (by simp))
  | nest h _ ih => exact (MarksNothing.opens h).trans (ih (by cases h <;> simp) (by cases h <;> simp))
  | promote _ h ih => exact (ih (by simp) (by simp)).trans (.spares h.aside.toSpares)
  | view h _ _ ih | unfilled h _ ih => exact (MarksNothing.spares h.spares).trans (ih (by simp) (by simp))

def Truthful (w : World) : Prop := ∀ id, w.Marked id → w.Barren id

theorem Truthful.later (h : w.Truthful) (hc : Course none stop w w') (hw : w.Sound) : w'.Truthful :=
  fun id hid => (h id (hc.marksNothing (by simp) (by simp) id hid)).later hc isFree_none hw

end World

end Bindings
