import Bindings.Proofs.Orderly.Names

/-!
# What is kept when nothing is loaded

As long as nothing is loaded or connected, types are added and supertypes of compiled classes are read
(`Keeps`). Asking once more changes counters only (`Alike`).
-/

namespace Bindings

open World Edit

variable {a b : TypeInfo} {name : QName} {gen : TypeId} {encl : Option TypeId}

structure ClassInfo.ReadTo (old new : ClassInfo) : Prop where
  same : new = { old with
    superclass := new.superclass
    interfaces := new.interfaces
    state := { old.state with
      superclassPending := new.state.superclassPending
      interfacesPending := new.state.interfacesPending } }
  superclass : old.state.superclassPending = false →
    new.superclass = old.superclass ∧ new.state.superclassPending = false
  interfaces : old.state.interfacesPending = false →
    new.interfaces = old.interfaces ∧ new.state.interfacesPending = false

theorem ClassInfo.ReadTo.refl (info : ClassInfo) : info.ReadTo info := ⟨rfl, fun h => ⟨rfl, h⟩, fun h => ⟨rfl, h⟩⟩

theorem ClassInfo.ReadTo.trans {a b c : ClassInfo} (h1 : a.ReadTo b) (h2 : b.ReadTo c) : a.ReadTo c where
  same := by rw [h2.same, h1.same]
  superclass h := by
    obtain ⟨hs1, hr1⟩ := h1.superclass h
    obtain ⟨hs2, hr2⟩ := h2.superclass hr1
    exact ⟨hs2.trans hs1, hr2⟩
  interfaces h := by
    obtain ⟨hs1, hr1⟩ := h1.interfaces h
    obtain ⟨hs2, hr2⟩ := h2.interfaces hr1
    exact ⟨hs2.trans hs1, hr2⟩

inductive TypeInfo.ReadTo : TypeInfo → TypeInfo → Prop
  | refl (info : TypeInfo) : ReadTo info info
  | declared {old new : ClassInfo} : old.ReadTo new → ReadTo (.declared old) (.declared new)

theorem TypeInfo.ReadTo.of_eq (h : b = a) : a.ReadTo b := h ▸ .refl a

theorem TypeInfo.ReadTo.trans {c : TypeInfo} (h1 : a.ReadTo b) (h2 : b.ReadTo c) : a.ReadTo c := by
  cases h1 with
  | refl => exact h2
  | declared h1 =>
    cases h2 with
    | refl => exact .declared h1
    | declared h2 => exact .declared (h1.trans h2)

theorem TypeInfo.ReadTo.eq (h : a.ReadTo b) (hc : a.class? = none) : b = a := by
  cases h with
  | refl => rfl
  | declared _ => cases hc

theorem TypeInfo.mapClass_of_class? (change : ClassInfo → ClassInfo) {type : TypeInfo}
    (h : type.class? = none) : type.mapClass change = type := by
  cases type with
  | declared info => cases h
  | _ => rfl

namespace World

variable {w u v : World}

structure Keeps (w u : World) : Prop where
  grows : w.Grows u
  same : u = { w with
    types := u.types
    packages := u.packages
    caches := u.caches
    referrers := u.referrers
    log := u.log
    uncheckedCount := u.uncheckedCount
    stats := u.stats }
  type : ∀ id, w.Knows id → (w.type id).ReadTo (u.type id)

def Alike (w u : World) : Prop :=
  ∃ hits count, u = { w with stats := { w.stats with cacheHits := hits }, uncheckedCount := count }

theorem Keeps.refl (w : World) : w.Keeps w := ⟨.refl w, rfl, fun _ _ => .refl _⟩

theorem Keeps.trans (h1 : w.Keeps u) (h2 : u.Keeps v) : w.Keeps v where
  grows := h1.grows.trans h2.grows
  same := by rw [h2.same, h1.same]
  type id hid := (h1.type id hid).trans (h2.type id (hid.grows h1.grows))

theorem Alike.refl (w : World) : w.Alike w := ⟨w.stats.cacheHits, w.uncheckedCount, rfl⟩

theorem Alike.trans (h1 : w.Alike u) (h2 : u.Alike v) : w.Alike v := by
  obtain ⟨_, _, rfl⟩ := h1
  obtain ⟨hits, count, rfl⟩ := h2
  exact ⟨hits, count, rfl⟩

theorem Alike.aside (h : w.Alike u) : w.Aside u := by
  obtain ⟨_, _, rfl⟩ := h
  exact { Apart.refl w with }

theorem Alike.sound (h : w.Alike u) (hw : w.Sound) : u.Sound := hw.move (.aside h.aside)

theorem Alike.keeps (h : w.Alike u) : w.Keeps u := by
  have hg : w.Grows u := .spares h.aside.toSpares
  obtain ⟨_, _, rfl⟩ := h
  exact ⟨hg, rfl, fun _ _ => .refl _⟩

namespace Keeps

variable {id : TypeId}

section

variable (h : w.Keeps u)

include h

theorem knows (hid : w.Knows id) : u.Knows id := hid.grows h.grows

theorem comparing : u.comparing = w.comparing := by rw [h.same]

theorem object : u.object = w.object := by rw [h.same]

theorem type_eq (hid : w.Knows id) (hc : w.class? id = none) : u.type id = w.type id :=
  (h.type id hid).eq hc

theorem type_cases (hid : w.Knows id) :
    u.type id = w.type id ∨ ∃ old new, w.type id = .declared old ∧ u.type id = .declared new ∧ old.ReadTo new := by
  have hto := h.type id hid
  generalize ht : w.type id = old at hto
  generalize ht' : u.type id = new at hto
  cases hto with
  | refl => exact .inl rfl
  | declared hr => exact .inr ⟨_, _, rfl, rfl, hr⟩

theorem class? {info : ClassInfo} (hi : w.class? id = some info) :
    ∃ info', u.class? id = some info' ∧ info.ReadTo info' := by
  have hr := h.type id (lt_size_of_class? hi)
  rw [class?_eq_some.1 hi] at hr
  cases hr' : u.type id with
  | declared info' =>
    refine ⟨info', class?_eq_some.2 hr', ?_⟩
    rw [hr'] at hr
    cases hr with
    | refl => exact .refl _
    | declared hr => exact hr
  | _ => rw [hr'] at hr; cases hr

theorem class?_none (hid : w.Knows id) (hc : w.class? id = none) : u.class? id = none := by
  rw [World.class?, h.type_eq hid hc]
  exact hc

theorem class?_cases (hid : w.Knows id) : (w.class? id = none ∧ u.class? id = none) ∨
      ∃ old new, w.class? id = some old ∧ u.class? id = some new ∧ old.ReadTo new := by
  cases hc : w.class? id with
  | none => exact .inl ⟨rfl, h.class?_none hid hc⟩
  | some old =>
    obtain ⟨new, hn, hr⟩ := h.class? hc
    exact .inr ⟨old, new, rfl, hn, hr⟩

theorem class?_isSome (hid : w.Knows id) : (u.class? id).isSome = (w.class? id).isSome := by
  obtain ⟨ho, hn⟩ | ⟨old, new, ho, hn, -⟩ := h.class?_cases hid <;> rw [ho, hn]
  rfl

end

theorem class?_map {α : Type} (read : ClassInfo → α) (h : w.Keeps u) (hid : w.Knows id)
    (hr : ∀ old new : ClassInfo, old.ReadTo new → read new = read old) :
    (u.class? id).map read = (w.class? id).map read := by
  obtain ⟨ho, hn⟩ | ⟨old, new, ho, hn, hto⟩ := h.class?_cases hid <;> rw [ho, hn]
  rw [Option.map_some, Option.map_some, hr old new hto]

theorem class?_any (test : ClassInfo → Bool) (h : w.Keeps u) (hid : w.Knows id)
    (ht : ∀ old new : ClassInfo, old.ReadTo new → test new = test old) :
    (u.class? id).any test = (w.class? id).any test := by
  obtain ⟨ho, hn⟩ | ⟨old, new, ho, hn, hto⟩ := h.class?_cases hid <;> rw [ho, hn]
  rw [Option.any_some, Option.any_some, ht old new hto]

theorem erasureClass? (h : w.Keeps u) (hw : w.Sound) (hid : w.Knows id) : u.erasureClass? id = w.erasureClass? id := by
  cases hc : w.class? id with
  | some info =>
    obtain ⟨info', hi', -⟩ := h.class? hc
    simp only [World.erasureClass?, class?_eq_some.1 hc, class?_eq_some.1 hi']
  | none =>
    rw [World.erasureClass?, h.type_eq hid hc, World.erasureClass?]
    split <;> try rfl
    next tgt ht =>
    have hr := hw.registered.role_target (TypeInfo.role_eq_placeholder.2 ht)
    have hta : w.Knows tgt := by rcases hr with hr | hr <;> exact lt_size_of_role_ne (by rw [hr]; simp)
    rw [h.class?_isSome hta]

theorem isObject (h : w.Keeps u) (hid : w.Knows id) : u.isObject id = w.isObject id := by
  have hn := h.class?_any (fun info => info.name.dotted == WellKnown.object.dotted) hid
    fun old new hr => by rw [hr.same]
  rw [World.isObject, World.isObject, h.object, hn]

theorem around {before after : ClassInfo → ClassInfo} {v' : World}
    (h : (w.modifyClass id before).Keeps v) (hg : w.Grows v')
    (hs : v' = { v.modifyClass id after with referrers := v'.referrers })
    (hr : ∀ info new, w.class? id = some info → (before info).ReadTo new →
      info.ReadTo (after new)) : w.Keeps v' := by
  refine ⟨hg, ?_, fun other ho => ?_⟩
  · rw [hs, h.same]
    rfl
  have ht : v'.type other = (v.modifyClass id after).type other := by
    rw [hs]
    rfl
  rw [ht]
  have hto := h.type other (Nat.lt_of_lt_of_eq ho (size_modifyType ..).symm)
  rw [type_modifyClass] at hto ⊢
  by_cases heq : other = id
  · rw [if_pos heq] at hto ⊢
    subst heq
    cases hc : w.class? other with
    | some info =>
      rw [class?_eq_some.1 hc] at hto ⊢
      cases hn : v.type other with
      | declared new =>
        rw [hn] at hto
        refine .declared (hr info new hc ?_)
        cases hto with
        | refl => exact .refl _
        | declared hto => exact hto
      | _ => rw [hn] at hto; cases hto
    | none =>
      rw [TypeInfo.mapClass_of_class? before hc] at hto
      rw [hto.eq hc, TypeInfo.mapClass_of_class? after hc]
      exact .refl _
  · rw [if_neg heq] at hto ⊢
    exact hto

end Keeps

/-- A placeholder that stands for something although a parameterized type has it as its generic type. -/
def Stale (w : World) (gen : TypeId) : Prop :=
  (w.type gen).isResolved ∧ ∃ id args encl, w.type id = .parameterized gen args encl

def hasNoStale (w : World) : Bool :=
  w.types.all fun
    | .parameterized gen _ _ => !(w.type gen).isResolved
    | _ => true

theorem not_stale_of_test (h : w.hasNoStale) (gen : TypeId) : ¬ w.Stale gen := by
  rintro ⟨hr, id, args, encl, ht⟩
  have hid : id.index < w.types.size := lt_size_of_type_ne fun hv => by cases ht.symm.trans hv
  have hal := Array.all_eq_true.1 h id.index hid
  have heq : w.types[id.index] = .parameterized gen args encl := by
    rw [← ht, World.type, Array.getD_eq_getD_getElem?, Array.getElem?_eq_getElem hid, Option.getD_some]
  simp only [heq, hr] at hal
  cases hal

/-- Nothing is loaded, and no placeholder becomes stale. -/
structure Furthers (w u : World) : Prop extends w.Keeps u where
  stale : ∀ gen, u.Stale gen → w.Stale gen

theorem Furthers.refl (w : World) : w.Furthers w := { Keeps.refl w with stale := fun _ h => h }

theorem Furthers.trans (h1 : w.Furthers u) (h2 : u.Furthers v) : w.Furthers v :=
  { h1.toKeeps.trans h2.toKeeps with stale := fun gen h => h1.stale gen (h2.stale gen h) }

def Takes (w : World) : TypeInfo → Prop
  | .placeholder _ (some _) => False
  | .parameterized gen _ _ => (w.type gen).isResolved → w.Stale gen
  | _ => True

theorem Stale.of_push {info : TypeInfo} {gen : TypeId} (ht : u.types = w.types.push info) (ha : w.Takes info)
    (h : u.Stale gen) : w.Stale gen := by
  obtain ⟨hg, id, args, encl, hid⟩ := h
  rw [type_of_push ht] at hg hid
  have hg' : (w.type gen).isResolved := by
    split at hg
    · cases info with
      | placeholder name tgt =>
        cases tgt with
        | none => cases hg
        | some _ => exact ha.elim
      | _ => cases hg
    · exact hg
  split at hid
  · subst hid
    exact ha hg'
  · exact ⟨hg', id, args, encl, hid⟩

theorem Stale.of_types {gen : TypeId} (ht : u.types = w.types) (h : u.Stale gen) : w.Stale gen := by
  simpa only [Stale, World.type, ht] using h

theorem Alike.furthers (h : w.Alike u) : w.Furthers u := by
  refine ⟨h.keeps, fun gen hs => hs.of_types ?_⟩
  obtain ⟨_, _, rfl⟩ := h
  rfl

theorem Stale.of_modifyClass {gen id : TypeId} {change : ClassInfo → ClassInfo}
    (h : (w.modifyClass id change).Stale gen) : w.Stale gen := by
  have hty : ∀ other, (w.modifyClass id change).type other = w.type other ∨
      ∃ info, (w.modifyClass id change).type other = .declared info := by
    intro other
    rw [type_modifyClass]
    split
    · cases w.type other with
      | declared info => exact .inr ⟨_, rfl⟩
      | _ => exact .inl rfl
    · exact .inl rfl
  obtain ⟨hg, other, args, encl, ho⟩ := h
  refine ⟨?_, other, args, encl, ?_⟩
  · obtain hs | ⟨info, hd⟩ := hty gen
    · rwa [← hs]
    · rw [hd] at hg
      cases hg
  · obtain hs | ⟨info, hd⟩ := hty other
    · rw [← hs, ho]
    · cases ho.symm.trans hd

end World

/-- An edit that makes no placeholder stale. -/
class Edit.Furthering {α : Type} (edit : Edit α) : Prop extends edit.Orderly where
  furthers : ∀ w : World, w.Sound → w.Furthers (edit w).2

namespace Edit.Furthering

variable {α β : Type} {edit : Edit α} {next : α → Edit β} {w : World}

theorem of_types [he : edit.Orderly] (hs : ∀ w : World, (edit w).2 = { w with
      types := (edit w).2.types
      packages := (edit w).2.packages
      caches := (edit w).2.caches
      referrers := (edit w).2.referrers
      log := (edit w).2.log
      uncheckedCount := (edit w).2.uncheckedCount
      stats := (edit w).2.stats })
    (ht : ∀ w : World, (edit w).2.types = w.types ∨ ∃ info, w.Takes info ∧ (edit w).2.types = w.types.push info) :
    edit.Furthering := by
  refine ⟨fun w hw => ⟨⟨(he.course w hw).grows, hs w, fun id hid => .of_eq ?_⟩, fun gen h => ?_⟩⟩
  · obtain ht | ⟨info, -, ht⟩ := ht w
    · rw [World.type, World.type, ht]
    · rw [type_of_push ht, if_neg (Nat.ne_of_lt hid)]
  · obtain ht | ⟨info, ha, ht⟩ := ht w
    · exact h.of_types ht
    · exact h.of_push ht ha

instance (a : α) : (pure a : Edit α).Furthering := ⟨fun w _ => .refl w⟩

instance : (get : Edit World).Furthering := ⟨fun w _ => .refl w⟩

instance [he : edit.Furthering] [hn : ∀ a, (next a).Furthering] : (edit >>= next).Furthering :=
  ⟨fun w hw => (he.furthers w hw).trans ((hn _).furthers _ ((he.course w hw).sound hw))⟩

instance {p : Prop} [Decidable p] {edit' : Edit α} [he : edit.Furthering]
    [he' : edit'.Furthering] : (if p then edit else edit').Furthering := by
  split
  · exact he
  · exact he'

instance (kind : ProblemKind) (args : List String) : (report kind args).Furthering :=
  of_types (fun _ => rfl) fun _ => .inl rfl

instance (reason : Reason) (closest : Option TypeId) : (newMissing name reason closest).Furthering :=
  of_types (fun _ => rfl) fun _ => .inr ⟨.missing name reason closest, trivial, rfl⟩

instance : (typeOrPlaceholder name).Furthering := by
  refine of_types (fun w => ?_) fun w => ?_
  · rw [(typeOrPlaceholder_with w name).1]
  · exact (typeOrPlaceholder_with w name).2.imp_right fun h => ⟨.placeholder name none, trivial, h⟩

section

variable {edit : Edit TypeId} {info : TypeInfo} {key : CacheKey}

theorem keeps_of_interns (h : edit.Interns info key) (hg : w.Grows (edit w).2) : w.Keeps (edit w).2 := by
  obtain ⟨-, he⟩ | ⟨_, -, -, he⟩ | ⟨-, -, _, -, he⟩ := h.cases w <;> rw [he] at hg ⊢
  · exact .refl w
  · exact ⟨hg, rfl, fun id _ => .refl _⟩
  · refine ⟨hg, by rw [(noteReferrers_notesMore _ _).same], fun id hid => .of_eq ?_⟩
    rw [(noteReferrers_notesMore _ _).type, type_of_push (w := w) rfl, if_neg (Nat.ne_of_lt hid)]

theorem furthers_of_interns (h : edit.Interns info key) (hg : w.Grows (edit w).2) (ha : w.Takes info) :
    w.Furthers (edit w).2 := by
  refine ⟨keeps_of_interns h hg, fun gen hs => ?_⟩
  obtain ⟨-, he⟩ | ⟨_, -, -, he⟩ | ⟨-, -, _, -, he⟩ := h.cases w <;> rw [he] at hs
  · exact hs
  · exact hs
  · refine hs.of_push ?_ ha
    rw [(noteReferrers_notesMore _ _).same]

end

theorem parameterizedType_keeps (hw : w.Sound) (args : List TypeId) :
    w.Keeps (parameterizedType gen args encl w).2 :=
  keeps_of_interns (parameterizedType_interns gen args encl) (Orderly.course w hw).grows

theorem parameterizedType_furthers (hw : w.Sound) (args : List TypeId)
    (h : (w.type gen).isResolved → w.Stale gen) :
    w.Furthers (parameterizedType gen args encl w).2 :=
  furthers_of_interns (parameterizedType_interns gen args encl) (Orderly.course w hw).grows h

instance : (rawType gen encl).Furthering :=
  ⟨fun w hw => furthers_of_interns (rawType_interns gen encl) (Orderly.course w hw).grows trivial⟩

instance (gen : Option TypeId) (rank : Nat) (bound : Option TypeId) (otherBounds : List TypeId)
    (kind : WildcardKind) : (wildcard gen rank bound otherBounds kind).Furthering :=
  ⟨fun w hw => furthers_of_interns (wildcard_interns ..) (Orderly.course w hw).grows trivial⟩

instance (comp : TypeId) (dims : UInt32) : (arrayType comp dims).Furthering where
  furthers w hw := by
    have hc : Course none none w (arrayType comp dims w).2 := Edit.Orderly.course w hw
    obtain ⟨leaf, -, h | ⟨total, -, h⟩⟩ := arrayType_cases w comp dims
    · rw [h]
      exact .refl w
    · rw [h] at hc ⊢
      exact furthers_of_interns (arrayOf_interns leaf total) hc.grows trivial

theorem typeOrPlaceholder_unresolved (hw : w.Sound) (name : QName) :
    (typeOrPlaceholder name).Gives w fun id w1 => (w1.type id).isResolved = false := by
  have he := hw.registered.entered name.parent
  simp only [Gives, typeOrPlaceholder, bind_apply, get_apply, createPackage_world]
  cases (w.entered name.parent).known? (createPackage name.parent w).1 name.simple with
  | none => exact congrArg TypeInfo.isResolved (type_addType_new (w := w.entered name.parent) (.placeholder name none))
  | some known =>
    change ((w.entered name.parent).type ((w.entered name.parent).follow known)).isResolved = false
    rw [follow]
    split
    · next tgt ht =>
      obtain hta | hta := he.role_target (TypeInfo.role_eq_placeholder.2 ht) <;> rw [World.role] at hta <;>
        cases hty : (w.entered name.parent).type tgt <;> simp_all [TypeInfo.role]
    · next hno => cases hty : (w.entered name.parent).type known <;> simp_all

theorem applied {make : Edit (List TypeId)} [hm : make.Furthering]
    {next : TypeId → Edit β} [hn : ∀ id, (next id).Furthering] (hw : w.Sound) (hg : w.Knows gen)
    (h : (w.type gen).isResolved = false) :
    w.Furthers ((make >>= fun args => parameterizedType gen args encl >>= next) w).2 := by
  have hf := hm.furthers w hw
  have hw1 : (make w).2.Sound := (Orderly.course w hw).sound hw
  have hp : (make w).2.Furthers (parameterizedType gen (make w).1 encl (make w).2).2 := by
    refine parameterizedType_furthers hw1 _ ?_
    intro hr
    obtain hs | ⟨_, _, -, hd, -⟩ := hf.type_cases hg
    · rw [hs, h] at hr
      cases hr
    · rw [hd] at hr
      cases hr
  exact (hf.trans hp).trans ((hn _).furthers _ ((Orderly.course _ hw1).sound hw1))

theorem named {make : TypeId → Edit β} [∀ gen, (make gen).Orderly]
    (h : ∀ (w : World) (gen : TypeId), w.Sound → w.Knows gen → (w.type gen).isResolved = false →
      w.Furthers (make gen w).2) :
    (typeOrPlaceholder name >>= make).Furthering := by
  refine ⟨fun w hw => ?_⟩
  have hf : w.Furthers (typeOrPlaceholder name w).2 := furthers w hw
  refine hf.trans (h _ _ ((Orderly.course w hw).sound hw) ?_ ?_)
  · exact typeOrPlaceholder_knows hw name
  · exact typeOrPlaceholder_unresolved hw name

mutual

instance typeOfSig (ctx : SignatureContext) : ∀ sig, (Edit.typeOfSig ctx sig).Furthering
  | .base base => by rw [Edit.typeOfSig]; infer_instance
  | .array comp => by
    have := typeOfSig ctx comp
    rw [Edit.typeOfSig]
    infer_instance
  | .variable name => by
    rw [Edit.typeOfSig]
    split <;> infer_instance
  | .classType name args inner => by
    have := fun outer => argumentsOfSig ctx outer 0 args
    have := fun outer => innerOfSig ctx name outer inner
    rw [Edit.typeOfSig]
    refine named fun w gen hw hg hr => ?_
    rw [bind_apply, get_apply]
    dsimp only
    split
    · exact applied hw hg hr
    · exact furthers w hw

instance argumentsOfSig (ctx : SignatureContext) (generic : TypeId) (rank : Nat) :
    ∀ args, (Edit.argumentsOfSig ctx generic rank args).Furthering
  | [] => by rw [Edit.argumentsOfSig]; infer_instance
  | argument :: rest => by
    have := argumentOfSig ctx generic rank argument
    have := argumentsOfSig ctx generic (rank + 1) rest
    rw [Edit.argumentsOfSig]
    infer_instance

instance argumentOfSig (ctx : SignatureContext) (gen : TypeId) (rank : Nat) :
    ∀ arg, (Edit.argumentOfSig ctx gen rank arg).Furthering
  | .unbounded => by rw [Edit.argumentOfSig]; infer_instance
  | .upper bound | .lower bound => by
    have := typeOfSig ctx bound
    rw [Edit.argumentOfSig]
    infer_instance
  | .exactly type => by
    have := typeOfSig ctx type
    rw [Edit.argumentOfSig]
    infer_instance

instance innerOfSig (ctx : SignatureContext) (name : String) (cur : TypeId) :
    ∀ inner, (Edit.innerOfSig ctx name cur inner).Furthering
  | [] => by rw [Edit.innerOfSig]; infer_instance
  | .member simple args :: rest => by
    have := fun member => argumentsOfSig ctx member 0 args
    have := fun name member => innerOfSig ctx name member rest
    rw [Edit.innerOfSig]
    refine named fun w gen hw hg hr => ?_
    rw [bind_apply, get_apply]
    dsimp only
    split
    · exact applied hw hg hr
    · exact furthers w hw

end

end Edit.Furthering

end Bindings
