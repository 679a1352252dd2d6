import Bindings.Hierarchy
import Bindings.Proofs.World.Move

/-! # Sound worlds -/

namespace Bindings

open TypeInfo

variable {hole : TypeId} {name : QName} {new : ClassInfo}

def WellKnown.foundations : List QName := [object, enumClass, annotationInterface]

namespace World

variable {w w' : World} {id : TypeId}

def Settled (w : World) (id : TypeId) : Prop :=
  ∃ erased, w.erasureClass? id = some erased ∧ w.role erased = .declared

theorem Settled.grows (hg : w.Grows w') (h : w.Settled id) : w'.Settled id := by
  obtain ⟨erased, he, hr⟩ := h
  exact ⟨erased, hg.erasureClass? he hr, hg.role_declared hr⟩

theorem Settled.ne (h : w.Settled id) (hp : w.type hole = .placeholder name none) : id ≠ hole := by
  rintro rfl
  obtain ⟨erased, he, -⟩ := h
  simp [erasureClass?, hp] at he

def Grounded (w : World) (id : TypeId) : Prop :=
  w.Settled id ∨ id.index < w.types.size ∧ (w.type id).isClassless

theorem Grounded.grows (hg : w.Grows w') (h : w.Grounded id) : w'.Grounded id := h.imp (.grows hg) fun ⟨hlt, h⟩ =>
    ⟨Nat.lt_of_lt_of_le hlt hg.size, hg.isClassless hlt ▸ h⟩

theorem Grounded.knows (h : w.Grounded id) : w.Knows id := by
  obtain ⟨erased, he, -⟩ | ⟨hlt, -⟩ := h
  · exact lt_size_of_type_ne fun ht => by simp [erasureClass?, ht] at he
  · exact hlt

theorem Grounded.isPending (h : w.Grounded id) : w.isPending id = false := by
  rw [Bool.eq_false_iff]
  intro hp
  obtain ⟨name, hn⟩ := isPending_iff.1 hp
  obtain h | ⟨-, hc⟩ := h
  · exact h.ne hn rfl
  · rw [hn] at hc
    cases hc

theorem Grounded.mayHold (h : w.Grounded id) (ref : Referrer) : w.MayHold ref id :=
  ⟨h.knows, fun hp => by simp [h.isPending] at hp⟩

theorem aside_addMethod_grounded {info : MethodInfo} (h : ∀ slot ∈ info.slots, w.Grounded slot)
    (hv : info.typeVariables = [] := by rfl) : w.Apart (w.addMethod info).2 :=
  aside_addMethod (fun slot hs => ⟨(h slot hs).knows, fun hp => by simp [(h slot hs).isPending] at hp⟩) hv

theorem Grounded.role {erased : TypeId} (h : w.Grounded id)
    (he : w.erasureClass? id = some erased) : w.role erased = .declared := by
  obtain ⟨settled, hs, hr⟩ | ⟨-, hc⟩ := h
  · cases he.symm.trans hs
    exact hr
  · cases ht : w.type id <;> simp [erasureClass?, ht, isClassless, sort] at he hc

theorem Settled.of_role (h : w.role id = .declared) : w.Settled id := by
  obtain ⟨info, hi⟩ := role_eq_declared.1 h
  exact ⟨id, by rw [erasureClass?, class?_eq_some.1 hi], h⟩

def Refers (w : World) (id : TypeId) : Prop :=
  w.Grounded id ∧ ∀ leaf dimensions, w.type id = .array leaf dimensions → w.Grounded leaf

def Begun (w : World) (id : TypeId) : Prop :=
  ∃ info, w.class? id = some info ∧ info.state.hierarchyBegun

def Joined (w : World) (id : TypeId) : Prop := w.Begun id ∨ w.declaration? id = none

def Founded (w : World) (id : TypeId) : Prop :=
  ∃ erased, w.erasureClass? id = some erased ∧ w.role erased = .declared ∧
    (w.Joined erased ∨ ∃ name ∈ WellKnown.foundations, w.Denotes name erased)

theorem Founded.settled (h : w.Founded id) : w.Settled id := by
  obtain ⟨erased, he, hr, -⟩ := h
  exact ⟨erased, he, hr⟩

structure Linked (w : World) : Prop where
  imports : ∀ unit simple id, (w.unit unit).imports.single.find? simple = some id →
    w.role id = .declared
  source : ∀ id info unit path, w.class? id = some info → info.origin = .source unit path →
    unit.index < w.units.size ∧ info.scope.isSome
  begun : ∀ id info, w.class? id = some info → info.state.hierarchyEnded →
    info.state.hierarchyBegun
  pending : ∀ id info, w.class? id = some info →
    info.state.superclassPending ∨ info.state.interfacesPending → info.isCompiled
  founded : ∀ id info, w.class? id = some info → info.isCompiled = false →
    ∀ supertype ∈ info.supertypes, w.Founded supertype
  housed : ∀ id info, w.class? id = some info → info.isCompiled = false →
    ∀ outer ∈ info.enclosing, w.SourceIn outer info.package
  object : ∀ id, w.object = some id → w.Denotes WellKnown.object id
  base : ∀ kind, (baseType kind).index < w.types.size ∧ (w.type (baseType kind)).sort = .other

def Numbered (w : World) : Prop :=
  ∀ id position sequence, (w.type id).sort = .capture position sequence → sequence ≤ w.captureCount

structure Sound (w : World) : Prop where
  wellBuilt : w.WellBuilt
  registered : w.Registered
  linked : w.Linked
  stocked : w.Stocked
  numbered : w.Numbered

theorem Linked.settled (hw : w.Linked) {info : ClassInfo} (hi : w.class? id = some info)
    (hs : info.isCompiled = false) {sup : TypeId} (hm : sup ∈ info.supertypes) :
    w.Settled sup :=
  (hw.founded id info hi hs sup hm).settled

theorem Linked.settled_slot (hw : w.Linked) {info : ClassInfo} (hi : w.class? id = some info)
    (hs : info.isCompiled = false) {slot : TypeId} (hm : slot ∈ info.slots) : w.Settled slot := by
  obtain hm | hm := List.mem_append.1 hm
  · exact hw.settled hi hs hm
  · obtain ⟨_, ho, -⟩ := hw.housed id info hi hs slot (Option.mem_toList.1 hm)
    exact .of_role (role_of_class? ho)

theorem Begun.grows (hg : w.Grows w') (h : w.Begun id) : w'.Begun id := by
  obtain ⟨info, hi, hb⟩ := h
  obtain ⟨info', hi', hk⟩ := hg.declared id info hi
  exact ⟨info', hi', hk.begun hb⟩

theorem declaration?_grows (hw : w.Linked) (hg : w.Grows w')
    (hr : w.role id = .declared) (h : w.declaration? id = none) : w'.declaration? id = none := by
  obtain ⟨info, hi⟩ := role_eq_declared.1 hr
  obtain ⟨info', hi', hk⟩ := hg.declared id info hi
  simp only [declaration?, hi, hi', hk.origin, Option.bind_eq_bind, Option.bind_some] at h ⊢
  cases ho : info.origin with
  | compiled => rfl
  | source unit path =>
    simp only [ho] at h ⊢
    obtain hs | hs := hg.sources unit (hw.source id info unit path hi ho).1
    · rwa [hs]
    · simp [hs]

theorem Joined.grows (hw : w.Linked) (hg : w.Grows w') (hr : w.role id = .declared) (h : w.Joined id) : w'.Joined id :=
  h.imp (.grows hg) (declaration?_grows hw hg hr)

theorem Founded.grows (hw : w.Linked) (hg : w.Grows w') (h : w.Founded id) : w'.Founded id := by
  obtain ⟨erased, he, hr, h⟩ := h
  refine ⟨erased, hg.erasureClass? he hr, hg.role_declared hr, ?_⟩
  exact h.imp (.grows hw hg hr) fun ⟨name, hn, hd⟩ => ⟨name, hn, hd.grows hg⟩

theorem typeOrPlaceholder_with (w : World) (name : QName) :
    let w' := (Edit.typeOrPlaceholder name w).2
    w' = { w with types := w'.types, packages := w'.packages } ∧
      (w'.types = w.types ∨ w'.types = w.types.push (.placeholder name none)) := by
  have he : w.entered name.parent = { w with packages := (w.entered name.parent).packages } :=
    (enterPackage_grows _ _ _).same
  dsimp only
  rw [typeOrPlaceholder_world]
  dsimp only
  split
  · rw [he]
    exact ⟨rfl, .inl rfl⟩
  · rw [he]
    exact ⟨rfl, .inr rfl⟩

def Carries (w w' : World) : Prop :=
  ∀ id new, w'.class? id = some new →
    (∃ old, w.class? id = some old ∧ old.AmendedTo new) ∨ w.class? id = none ∧ new.IsNew w

namespace Carries

theorem of_class? (h : ∀ id, w'.class? id = w.class? id) : w.Carries w' := fun id new hn =>
  .inl ⟨new, h id ▸ hn, .refl new⟩

theorem modifyClass (id : TypeId) (change : ClassInfo → ClassInfo)
    (h : ∀ info, w.class? id = some info → info.AmendedTo (change info)) : w.Carries (w.modifyClass id change) := by
  intro other new hn
  obtain hn | ⟨rfl, old, ho, rfl⟩ := class?_of_modifyClass hn
  · exact .inl ⟨new, hn, .refl new⟩
  · exact .inl ⟨old, ho, h old ho⟩

theorem of_push {info : TypeInfo} (ht : w'.types = w.types.push info)
    (hi : ∀ new, info.class? = some new → new.IsNew w) : w.Carries w' := by
  intro id new hn
  rw [class?, type_of_push ht] at hn
  split at hn
  · next hid => exact .inr ⟨by rw [class?, type_of_size_le (Nat.le_of_eq hid.symm)]; rfl, hi new hn⟩
  · exact .inl ⟨new, hn, .refl new⟩

theorem amended_of_swap {tgt : TypeId} (hp : w.type hole = .placeholder name none)
    (hse : ∀ id info, w.class? id = some info → info.isCompiled = false → ∀ slot ∈ info.slots, w.Settled slot)
    (hn : (w.swapPlaceholder hole tgt).class? id = some new) :
    ∃ old, w.class? id = some old ∧ old.AmendedTo new ∧ new.state = old.state ∧
      new.typeVariables = old.typeVariables := by
  rw [class?, type_swapPlaceholder hp] at hn
  split at hn
  · cases hn
  split at hn
  · obtain ⟨old, ho, rfl⟩ := class?_swap.1 hn
    refine ⟨old, ho, ?_, rfl, rfl⟩
    have hno : old.isCompiled = false → hole ∉ old.slots := fun hs hm =>
      (hse id old ho hs hole hm).ne hp rfl
    have hop : ∀ slot : Option TypeId, hole ∉ slot → slot.map (.swap hole tgt) = slot := by
      intro slot hm
      cases slot with
      | none => rfl
      | some slot => exact congrArg some (TypeId.swap_of_ne fun heq => hm (congrArg some heq))
    exact
      { ClassInfo.EditedTo.refl _ with
        enclosed := Option.isSome_map ..
        superclass := fun hs => hop _ fun hm => hno hs (by simp_all [ClassInfo.slots, ClassInfo.supertypes])
        interfaces := fun hs => TypeId.map_swap_of_notMem tgt fun hm =>
          hno hs (by simp [ClassInfo.slots, ClassInfo.supertypes, hm])
        enclosing := fun hs => hop _ fun hm => hno hs (by simp_all [ClassInfo.slots]) }
  · exact ⟨new, hn, .refl new, rfl, rfl⟩

theorem amended_of_register (pkg : PackageId) (simple : String) (id : TypeId)
    (hs : ∀ id info, w.class? id = some info → info.isCompiled = false → ∀ slot ∈ info.slots, w.Settled slot)
    {other : TypeId}
    (hn : (Edit.registerType pkg simple id w).2.class? other = some new) :
    ∃ old, w.class? other = some old ∧ old.AmendedTo new ∧ new.state = old.state ∧
      new.typeVariables = old.typeVariables := by
  revert hn
  refine registerType_elim w pkg simple id (fun _ hn => ⟨new, hn, .refl new, rfl, rfl⟩) fun existing name hp hn => ?_
  exact amended_of_swap (w := w.list pkg simple id) hp hs hn

theorem arrival (hw : w.Linked) {info : ClassInfo} (hi : info.IsNew w) : w.Carries (w.arrival info) := by
  have hg : w.Grows (w.addType (.declared info)).2 := .of_push rfl
  have ha : w.Carries (w.addType (.declared info)).2 := by
    refine of_push rfl fun new hn => ?_
    cases hn
    exact hi
  have hse : ∀ id mid, (w.addType (.declared info)).2.class? id = some mid → mid.isCompiled = false →
      ∀ slot ∈ mid.slots, (w.addType (.declared info)).2.Settled slot := by
    intro id mid hmi hs slot hm
    obtain ⟨old, ho, hk⟩ | ⟨-, hmi⟩ := ha id mid hmi
    · rw [hk.isCompiled] at hs
      rw [ClassInfo.slots, hk.supertypes hs, hk.enclosing hs] at hm
      exact (hw.settled_slot ho hs hm).grows hg
    cases hmi with
    | compiled hc _ _ _ => simp [hc] at hs
    | source _ _ _ _ _ _ hno _ hen =>
      rw [ClassInfo.slots, hno, List.nil_append, Option.mem_toList] at hm
      obtain ⟨_, ho, -⟩ := hen slot hm
      exact (Settled.of_role (role_of_class? ho)).grows hg
  intro id new hn
  obtain ⟨mid, hmi, ham, hst, hv⟩ := amended_of_register _ _ _ hse hn
  obtain ⟨old, ho, -⟩ | ⟨hno, hmi⟩ := ha id mid hmi
  · rw [class?, type_addType_of_lt _ (lt_size_of_class? ho), ← class?, ho] at hmi
    exact .inl ⟨old, ho, Option.some.inj hmi ▸ ham⟩
  · exact .inr ⟨hno, hmi.amended ham hst hv⟩

theorem typeOrPlaceholder (name : QName) : w.Carries (Edit.typeOrPlaceholder name w).2 := by
  obtain ⟨-, h | h⟩ := typeOrPlaceholder_with w name
  · exact of_class? fun id => by rw [class?, type, h]; rfl
  · exact of_push h fun _ h => by cases h

end Carries

variable {change : ClassInfo → ClassInfo} {id : TypeId} {info : TypeInfo} {pos seq : Nat}

theorem Move.carries (hw : w.Linked) (h : Move w w') : w.Carries w' := by
  cases h with
  | aside h => exact .of_class? fun id => by rw [class?, h.type, class?]
  | amend id change h => exact .modifyClass id change h
  | bound id change h =>
    exact .of_class? (read_modifyType TypeInfo.class? (TypeInfo.Rebound.void h) fun _ => (h _).class?)
  | add info h => exact .of_push rfl fun new hn => h.class? hn
  | enter mayAdd segs => exact .of_class? fun id => by rw [class?, (enterPackage_grows ..).type, class?]
  | placeholder name => exact .typeOrPlaceholder name
  | build h =>
    refine .of_push h.types fun new hn => ?_
    rw [TypeInfo.class?_eq_some.1 hn] at h
    cases h.cacheKey
  | arrive info hi _ _ => exact .arrival hw hi
  | vanish hp _ _ =>
    intro id new hn
    obtain ⟨old, ho, ha, -⟩ := Carries.amended_of_swap hp (fun _ _ h1 h2 _ => hw.settled_slot h1 h2) hn
    exact .inl ⟨old, ho, ha⟩

theorem Move.units_or_aside (h : Move w w') :
    w.Aside w' ∨ w'.units = w.units ∧ w'.object = w.object ∧ w'.captures = w.captures ∧
      w'.captureCount = w.captureCount := by
  cases h with
  | aside h => exact .inl h
  | amend | bound | add => exact .inr ⟨rfl, rfl, rfl, rfl⟩
  | enter mayAdd segs =>
    rw [(enterPackage_grows mayAdd segs defaultPackage).same]
    exact .inr ⟨rfl, rfl, rfl, rfl⟩
  | placeholder name =>
    rw [(typeOrPlaceholder_with w name).1]
    exact .inr ⟨rfl, rfl, rfl, rfl⟩
  | build h =>
    rw [h.same]
    exact .inr ⟨rfl, rfl, rfl, rfl⟩
  | arrive info _ _ _ =>
    rw [arrival]
    refine registerType_elim _ _ _ _ (fun _ => .inr ⟨rfl, rfl, rfl, rfl⟩) fun existing name hp => ?_
    obtain ⟨types, methods, fields, h⟩ := swapPlaceholder_with
      (w := (w.addType (.declared info)).2.list info.package info.key ⟨w.types.size⟩) ⟨w.types.size⟩ hp
    rw [h]
    exact .inr ⟨rfl, rfl, rfl, rfl⟩
  | vanish hp _ _ =>
    obtain ⟨types, methods, fields, h⟩ := swapPlaceholder_with _ hp
    rw [h]
    exact .inr ⟨rfl, rfl, rfl, rfl⟩

theorem sort_mapClass : (info.mapClass change).sort = info.sort := by cases info <;> rfl

theorem sort_of_push (h : w'.types = w.types.push info) (hid : (w'.type id).sort = .capture pos seq) :
    (w.type id).sort = .capture pos seq ∨ id.index = w.types.size ∧ info.sort = .capture pos seq := by
  rw [type_of_push h] at hid
  split at hid
  · next heq => exact .inr ⟨heq, hid⟩
  · exact .inl hid

theorem Move.marked (h : Move w w') (hid : (w'.type id).sort = .capture pos seq) :
    (w.type id).sort = .capture pos seq ∨ id.index = w.types.size ∧ w.Unmarked seq := by
  cases h with
  | aside h => exact .inl (h.type id ▸ hid)
  | amend other change _ _ _ =>
    exact .inl (read_modifyType TypeInfo.sort rfl (fun _ => sort_mapClass) id ▸ hid)
  | bound other change h _ =>
    exact .inl (read_modifyType TypeInfo.sort (Rebound.void h) (fun _ => (h _).sort) id ▸ hid)
  | add info h _ =>
    refine (sort_of_push rfl hid).imp_right ?_
    rintro ⟨hi, hs⟩
    refine ⟨hi, ?_⟩
    cases h with
    | declared h => rw [h] at hs; cases hs
    | missing h => cases info <;> first | (cases h; done) | cases hs
    | variableLike _ _ h => exact h pos seq hs
  | enter mayAdd segs => exact .inl ((enterPackage_grows ..).type id ▸ hid)
  | placeholder name =>
    obtain ⟨-, ht | ht⟩ := typeOrPlaceholder_with w name
    · rw [World.type, ht] at hid
      exact .inl hid
    · exact (sort_of_push ht hid).imp_right fun h => by cases h.2
  | @build _ info _ h =>
    refine (sort_of_push h.types hid).imp_right ?_
    rintro ⟨-, hs⟩
    have hc := h.isConstructed
    cases info <;> first | (cases hs; done) | cases hc
  | arrive info _ _ _ =>
    have ha : ∀ {id}, ((w.addType (.declared info)).2.type id).sort = .capture pos seq →
        (w.type id).sort = .capture pos seq := fun hid =>
      (sort_of_push rfl hid).resolve_right fun h => by cases h.2
    rw [arrival] at hid
    revert hid
    refine registerType_elim _ _ _ _ (fun _ hid => .inl (ha hid)) fun existing name hp hid => ?_
    exact .inl (ha ((sort_swapPlaceholder (w := (w.addType (.declared info)).2.list ..) hp).symm.trans hid))
  | vanish hp _ _ => exact .inl (sort_swapPlaceholder hp ▸ hid)

theorem Numbered.move (hw : w.Numbered) (h : Move w w') : w'.Numbered := by
  have hc : w.captureCount ≤ w'.captureCount := by
    obtain h | ⟨-, -, -, h⟩ := h.units_or_aside
    · exact h.captureCount
    · exact Nat.le_of_eq h.symm
  intro id pos seq hid
  obtain hid | ⟨-, hn⟩ := h.marked hid
  · exact Nat.le_trans (hw id pos seq hid) hc
  · exact Nat.le_trans hn.1 hc

theorem minds_modifyType {change : TypeInfo → TypeInfo} (hr : ∀ info : TypeInfo, (change info).role = info.role)
    (hu : ∀ info : TypeInfo, (change info).upkeep = info.upkeep)
    (hv : change (.base .void) = .base .void) : w.Minds (w.modifyType id change) where
  size := Nat.le_of_eq (size_modifyType ..).symm
  pending other _ hp :=
    ⟨(read_modifyType TypeInfo.isPending hv (fun _ => isPending_of_role (hr _)) other).symm.trans hp,
      List.Subset.refl _⟩
  upkeep ref _ := by
    cases ref with
    | type other => exact read_modifyType TypeInfo.upkeep hv hu other
    | field | method => rfl

theorem watches_modifyClass (id : TypeId) (hsl : ∀ info, w.class? id = some info → ∀ slot ∈ (change info).slots,
      slot ∈ info.slots ∨ w.MayHold (.type id) slot) : w.Watches (w.modifyClass id change) where
  toMinds := minds_modifyType (fun _ => role_mapClass) (fun info => by cases info <;> rfl) rfl
  held ref slot hs := by
    cases ref with
    | type other =>
      rw [held, type_modifyClass] at hs
      split at hs
      · next heq =>
        subst heq
        cases ht : w.type other with
        | declared info =>
          rw [ht] at hs
          refine (hsl info (class?_eq_some.2 ht) slot hs).imp (fun ho => ?_) fun hn => ?_
          · rwa [held, ht]
          · refine hn.minds (minds_modifyType (fun _ => role_mapClass) ?_ rfl)
            exact fun info => by cases info <;> rfl
        | _ =>
          rw [ht] at hs
          exact .inl (by rwa [held, ht])
      · exact .inl hs
    | field | method => exact .inl hs

section

variable (hs : w' = { w with
    types := w'.types, packages := w'.packages, caches := w'.caches, stats := w'.stats, referrers := w'.referrers })
  (ht : w'.types = w.types.push info) (hn : ∀ id, w.noted id ⊆ w'.noted id)

include hs ht hn

theorem minds_of_push : w.Minds w' where
  size := by rw [ht, Array.size_push]; exact Nat.le_succ _
  pending id hid hp := by
    rw [isPending, type_of_push ht, if_neg (Nat.ne_of_lt hid)] at hp
    exact ⟨hp, hn id⟩
  upkeep ref hu := by
    cases ref with
    | type other =>
      rw [upkeep, type_of_push ht]
      split
      · next hid =>
        rw [upkeep, type_of_size_le (Nat.le_of_eq hid.symm)] at hu
        exact absurd rfl hu
      · rfl
    | field | method => rw [hs]; rfl

theorem watches_of_push (hslo : ∀ slot ∈ info.slots, w'.MayHold (.type ⟨w.types.size⟩) slot) : w.Watches w' where
  toMinds := minds_of_push hs ht hn
  held ref slot hsl := by
    cases ref with
    | type other =>
      rw [held, type_of_push ht] at hsl
      split at hsl
      · next hid =>
        obtain rfl : other = ⟨w.types.size⟩ := TypeId.ext hid
        exact .inr (hslo slot hsl)
      · exact .inl hsl
    | field | method =>
      rw [hs] at hsl
      exact .inl hsl

end

theorem Watches.of_same (hty : w'.types = w.types) (hm : w'.methods = w.methods)
    (hf : w'.fields = w.fields) (hr : w'.referrers = w.referrers) : w.Watches w' := by
  have ht : ∀ id, w'.type id = w.type id := fun id => by rw [World.type, World.type, hty]
  have hh : w'.held = w.held := by
    funext ref
    cases ref <;> simp only [World.held, ht, method?, field?, hm, hf]
  have hu : w'.upkeep = w.upkeep := by
    funext ref
    cases ref <;> simp only [World.upkeep, ht, method?, hm]
  refine ⟨⟨hty ▸ Nat.le_refl _, fun id _ hid => ⟨?_, ?_⟩, fun _ _ => by rw [hu]⟩, ?_⟩
  · rwa [isPending, ht] at hid
  · rw [noted, noted, hr]
    exact List.Subset.refl _
  · exact fun _ _ hs => .inl (hh ▸ hs)

theorem watches_addType
    (h : ∀ slot ∈ info.slots, w.MayHold (.type ⟨w.types.size⟩) slot) : w.Watches (w.addType info).2 := by
  have hn : ∀ id, w.noted id ⊆ (w.addType info).2.noted id := fun _ => List.Subset.refl _
  exact watches_of_push rfl rfl hn fun slot hs => (h slot hs).minds (minds_of_push rfl rfl hn)

theorem watches_registerType (pkg : PackageId) (simple : String) {fresh : TypeId}
    (hf : w.Knows fresh) (hn : w.isPending fresh = false) :
    w.Watches (Edit.registerType pkg simple fresh w).2 := by
  refine registerType_elim w pkg simple fresh (fun _ => .of_same rfl rfl rfl rfl) fun existing name hp => ?_
  have hs := watches_swapPlaceholder (w := w.list pkg simple fresh) hp hf hn
  exact ⟨⟨hs.size, hs.pending, hs.upkeep⟩, hs.held⟩

theorem Move.watches (h : Move w w') : w.Watches w' := by
  cases h with
  | aside h => exact h.watches
  | amend id change _ hslo _ => exact watches_modifyClass id hslo
  | bound id change hr hslo =>
    have hv := Rebound.void hr
    have hm : w.Minds (w.modifyType id change) :=
      minds_modifyType (fun info => (hr info).role) (fun info => (hr info).upkeep) hv
    refine ⟨hm, fun ref slot hsl => ?_⟩
    cases ref with
    | type other =>
      rw [held, type_modifyType hv] at hsl
      split at hsl
      · next heq =>
        subst heq
        exact (hslo slot hsl).imp_right (·.minds hm)
      · exact .inl hsl
    | field | method => exact .inl hsl
  | add info _ hslo => exact watches_addType hslo
  | enter mayAdd segs =>
    rw [(enterPackage_grows (w := w) mayAdd segs defaultPackage).same]
    exact .of_same rfl rfl rfl rfl
  | placeholder name =>
    obtain ⟨hs, ht | ht⟩ := typeOrPlaceholder_with w name
    · rw [hs, ht]
      exact .of_same rfl rfl rfl rfl
    refine watches_of_push (by rw [hs]) ht (by rw [hs]; exact fun _ => List.Subset.refl _) ?_
    intro slot hsl
    cases hsl
  | @build w' info key hb =>
    refine watches_of_push (by rw [hb.same]) hb.types hb.noted fun slot hsl => ?_
    rw [slots_of_isConstructed hb.isConstructed] at hsl
    refine ⟨?_, fun hp => .inl (hb.notes slot hsl ?_)⟩
    · rw [Knows, hb.types, Array.size_push]
      exact Nat.lt_succ_of_lt (hb.known slot hsl)
    · exact isPending_of_push hb.types (isPending_eq_false hb.isConstructed) slot hp
  | arrive info _ _ hslo =>
    have ha : w.Watches (w.addType (.declared info)).2 := watches_addType hslo
    refine ha.trans (watches_registerType _ _ ?_ ?_)
    · rw [Knows, World.addType, Array.size_push]
      exact Nat.lt_succ_self _
    · rw [isPending, type_addType_new]
      rfl
  | vanish hp hf _ => exact watches_swapPlaceholder hp hf.lt hf.isPending

theorem Linked.base_grows (hw : w.Linked) (hg : w.Grows w') (kind : BaseType) :
    (baseType kind).index < w'.types.size ∧ (w'.type (baseType kind)).sort = .other := by
  obtain ⟨hlt, hs⟩ := hw.base kind
  exact ⟨Nat.lt_of_lt_of_le hlt hg.size, (hg.sort _ hlt).trans hs⟩

theorem Linked.grounded_base (hw : w.Linked) (kind : BaseType) : w.Grounded (baseType kind) := by
  obtain ⟨hlt, hs⟩ := hw.base kind
  exact .inr ⟨hlt, by rw [isClassless, hs]; rfl⟩

theorem Linked.of_carries (hw : w.Linked) (hg : w.Grows w') (hc : w.Carries w')
    (hi : ∀ unit simple id, (w'.unit unit).imports.single.find? simple = some id →
      (w.unit unit).imports.single.find? simple = some id ∨ w.role id = .declared)
    (hob : ∀ id, w'.object = some id → w.object = some id ∨ w.Denotes WellKnown.object id) : w'.Linked := by
  refine ⟨?_, ?_, ?_, ?_, ?_, ?_, ?_, ?_⟩
  · intro unit simple id hid
    obtain h | h := hi unit simple id hid
    · exact hg.role_declared (hw.imports unit simple id h)
    · exact hg.role_declared h
  · intro id new unit path hn hor
    obtain ⟨old, ho, hk⟩ | ⟨-, hn⟩ := hc id new hn
    · rw [hk.origin] at hor
      obtain ⟨hu, hsc⟩ := hw.source id old unit path ho hor
      exact ⟨Nat.lt_of_lt_of_le hu hg.units, hk.scope ▸ hsc⟩
    cases hn with
    | compiled h _ _ => simp [ClassInfo.isCompiled, hor] at h
    | source unit' path' h hu hsc _ _ =>
      cases hor.symm.trans h
      exact ⟨Nat.lt_of_lt_of_le hu hg.units, hsc⟩
  · intro id new hn he
    obtain ⟨old, ho, hk⟩ | ⟨-, hn⟩ := hc id new hn
    · rw [hk.sameEnded] at he
      rw [hk.sameBegun]
      exact hw.begun id old ho he
    cases hn with
    | compiled _ h _ => exact h
    | source _ _ _ _ _ hst _ => simp [hst] at he
  · intro id new hn hp
    obtain ⟨old, ho, hk⟩ | ⟨-, hn⟩ := hc id new hn
    · rw [hk.isCompiled]
      exact hw.pending id old ho (hp.imp hk.superclassPending hk.interfacesPending)
    cases hn with
    | compiled h _ _ => exact h
    | source _ _ _ _ _ hst _ => simp [hst] at hp
  · intro id new hn hs sup hm
    obtain ⟨old, ho, hk⟩ | ⟨-, hn⟩ := hc id new hn
    · rw [hk.isCompiled] at hs
      rw [hk.supertypes hs] at hm
      exact (hw.founded id old ho hs sup hm).grows hw hg
    cases hn with
    | compiled h _ _ => simp [h] at hs
    | source _ _ _ _ _ _ hno => simp [hno] at hm
  · intro id new hn hs outer hm
    obtain ⟨old, ho, hk⟩ | ⟨-, hn⟩ := hc id new hn
    · rw [hk.isCompiled] at hs
      rw [hk.enclosing hs] at hm
      exact hk.package ▸ (hw.housed id old ho hs outer hm).grows hg
    cases hn with
    | compiled h _ _ => simp [h] at hs
    | source _ _ _ _ _ _ _ _ hen => exact (hen outer hm).grows hg
  · intro id hid
    obtain h | h := hob id hid
    · exact (hw.object id h).grows hg
    · exact h.grows hg
  · exact hw.base_grows hg

theorem Linked.move (hw : w.Linked) (h : Move w w') : w'.Linked := by
  refine hw.of_carries h.grows (h.carries hw) ?_ ?_
  · obtain h | ⟨h, -⟩ := h.units_or_aside
    · exact h.imports
    · intro unit simple id hid
      exact .inl (by simpa only [World.unit, h] using hid)
  · obtain h | ⟨-, h, -⟩ := h.units_or_aside
    · exact h.object
    · rw [h]
      exact fun _ h => .inl h

theorem Sound.spares (hw : w.Sound) (h : w.Spares w') (hs : w'.Stocked) : w'.Sound where
  wellBuilt := hw.wellBuilt.spares h
  registered := hw.registered.spares h
  linked := hw.linked.of_carries (.spares h) (.of_class? fun id => by rw [class?, h.type, class?]) h.imports h.object
  stocked := hs
  numbered id pos seq hid := by
    rw [h.type] at hid
    exact Nat.le_trans (hw.numbered id pos seq hid) h.captureCount

theorem Sound.move (hw : w.Sound) (h : Move w w') : w'.Sound where
  wellBuilt := h.wellBuilt hw.wellBuilt
  registered := h.registered hw.registered
  linked := hw.linked.move h
  stocked := h.watches.stocked hw.stocked
  numbered := hw.numbered.move h

theorem Sound.knows_method (hw : w.Sound) (id : MethodId) : ∀ slot ∈ (w.method id).slots, w.Knows slot := by
  intro slot hs
  rw [method_eq] at hs
  cases hi : w.method? id with
  | none =>
    rw [hi] at hs
    obtain rfl : slot = baseType .boolean := List.mem_singleton.1 hs
    exact (hw.linked.base .boolean).1
  | some info =>
    rw [hi] at hs
    exact hw.stocked (.method id) slot (by rw [held, hi]; exact hs)

theorem Sound.knows_orVoid (hw : w.Sound) (id : TypeId) : w.Knows (w.orVoid id) := by
  rw [orVoid]
  split
  · assumption
  · exact (hw.linked.base .void).1

theorem Sound.knows_field (hw : w.Sound) (id : FieldId) : w.Knows (w.field id).type := by
  rw [field_eq]
  cases hi : w.field? id with
  | none => exact (hw.linked.base .boolean).1
  | some info => exact hw.stocked (.field id) info.type (by rw [held, hi]; exact .head _)

section

variable (options : Options) (classPath : ClassPath) (log : ProblemLog)

theorem type_initial (id : TypeId) : ∃ base, (initial options classPath log).type id = .base base := by
  rw [type, Array.getD_eq_getD_getElem?]
  cases hid : (initial options classPath log).types[id.index]? with
  | none => exact ⟨.void, rfl⟩
  | some info =>
    have hm : info ∈ BaseType.all.map base := by
      simpa [initial] using List.mem_of_getElem? (l := BaseType.all.map base) (by simpa [initial] using hid)
    obtain ⟨base, -, rfl⟩ := List.mem_map.1 hm
    exact ⟨base, rfl⟩

theorem no_class_initial (id : TypeId) (info : ClassInfo) : (initial options classPath log).class? id ≠ some info := by
  intro hi
  obtain ⟨base, hb⟩ := type_initial options classPath log id
  simp [class?, hb] at hi

theorem wellBuilt_initial : (initial options classPath log).WellBuilt := by
  have ht := type_initial options classPath log
  refine { unique := ?_, listed := ?_, leaf := ?_, misses := ?_, known := ?_, noted := ?_ }
  · intro a b ha
    obtain ⟨base, hb⟩ := ht a
    simp [hb, isConstructed, cacheKey?] at ha
  · intro id key
    obtain ⟨base, hb⟩ := ht id
    have hl : (initial options classPath log).caches.listed key = [] := by cases key <;> rfl
    simp [hb, hl, cacheKey?]
  · intro id leaf dims hid
    obtain ⟨base, hb⟩ := ht id
    simp [hb] at hid
  · rfl
  all_goals
    intro id comp hm
    obtain ⟨base, hb⟩ := ht id
    simp [hb] at hm

theorem package_initial (id : PackageId) : ((initial options classPath log).package id).packages = .empty ∧
      ((initial options classPath log).package id).types = .empty := by
  rw [package, Array.getD_eq_getD_getElem?]
  cases id with
  | mk i => cases i <;> exact ⟨rfl, rfl⟩

theorem registered_initial : (initial options classPath log).Registered := by
  have hr : ∀ id name tgt, (initial options classPath log).role id ≠ .placeholder name tgt := by
    intro id name tgt
    obtain ⟨base, hb⟩ := type_initial options classPath log id
    simp [role, hb, TypeInfo.role]
  have hc : ∀ outer seg inner,
      ((initial options classPath log).package outer).packages.find? seg ≠ some inner := by
    intro outer seg inner
    simp [(package_initial options classPath log outer).1]
  refine ⟨⟨Nat.zero_lt_one, ?_, ?_, ?_, rfl, ?_, ?_⟩, ?_, ?_, ?_, rfl⟩
  · exact fun outer seg inner h => absurd h (hc _ _ _)
  · exact fun outer seg inner h => absurd h (hc _ _ _)
  · exact fun outer outer' seg segment' inner h => absurd h (hc _ _ _)
  · exact fun outer seg inner h => absurd h (hc _ _ _)
  · intro inner hlt hne
    have hz : inner.index = 0 := Nat.lt_one_iff.1 hlt
    cases inner
    exact absurd (congrArg PackageId.mk hz) hne
  · intro pkg simple id h
    simp [known?, (package_initial options classPath log pkg).2] at h
  · exact fun id name tgt h => absurd h (hr id name tgt)
  · exact fun a b name name' tgt target' h => absurd h (hr a name tgt)

theorem linked_initial : (initial options classPath log).Linked := by
  have hc := no_class_initial options classPath log
  refine ⟨?_, fun _ _ _ _ h => absurd h (hc _ _), fun _ _ h => absurd h (hc _ _), fun _ _ h => absurd h (hc _ _),
    fun _ _ h => absurd h (hc _ _), fun _ _ h => absurd h (hc _ _), (fun _ h => by cases h), fun kind => ⟨?_, ?_⟩⟩
  · intro unit simple id h
    cases h
  · exact Nat.lt_of_lt_of_eq (by cases kind <;> decide : kind.index < BaseType.all.length) (by rfl)
  · obtain ⟨base, hb⟩ := type_initial options classPath log (baseType kind)
    rw [hb]
    rfl

theorem held_initial (ref : Referrer) : (initial options classPath log).held ref = [] := by
  cases ref with
  | type id =>
    obtain ⟨base, hb⟩ := type_initial options classPath log id
    rw [held, hb]
    rfl
  | field | method => rfl

theorem sound_initial : (initial options classPath log).Sound := by
  refine ⟨wellBuilt_initial .., registered_initial .., linked_initial .., fun ref slot hs => ?_,
    fun id position sequence hid => ?_⟩
  · rw [held_initial] at hs
    cases hs
  · obtain ⟨base, hb⟩ := type_initial options classPath log id
    rw [hb] at hid
    cases hid

end

end World

end Bindings
