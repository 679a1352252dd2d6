import Mathlib.Logic.Relation
import Bindings.Proofs.World.Interned
import Bindings.Proofs.World.Registered

/-! # What is never lost -/

open Relation

namespace Bindings

open TypeInfo World Edit

variable {a b : ClassInfo} {gen : TypeId} {info : TypeInfo}

theorem TypeInfo.cacheKey?_eq_array {leaf : TypeId} :
    info.cacheKey? = some (.array leaf) ↔ ∃ dims, info = .array leaf dims := by
  cases info <;> simp [cacheKey?]

theorem TypeInfo.cacheKey?_eq_parameterized : info.cacheKey? = some (.parameterized gen) ↔
      ∃ args encl, info = .parameterized gen args encl := by
  cases info <;> simp [cacheKey?]

theorem TypeInfo.cacheKey?_eq_raw : info.cacheKey? = some (.raw gen) ↔ ∃ encl, info = .raw gen encl := by
  cases info <;> simp [cacheKey?]

inductive TypeSort where
  | classBased
  | typeVariable
  | capture (position sequence : Nat)
  | array
  | wildcard
  | other
  deriving DecidableEq, Repr

def TypeInfo.sort : TypeInfo → TypeSort
  | declared _ | parameterized .. | raw .. | placeholder .. => .classBased
  | «variable» _ => .typeVariable
  | capture info => .capture info.position info.sequence
  | array .. => .array
  | wildcard _ => .wildcard
  | _ => .other

def TypeInfo.isClassless (info : TypeInfo) : Bool := info.sort != .classBased

theorem TypeInfo.isVariableLike_iff :
    info.isVariableLike ↔ info.sort = .typeVariable ∨ ∃ pos seq, info.sort = .capture pos seq := by
  cases info <;> simp [sort]

theorem TypeInfo.isClassless_of_isVariableLike (h : info.isVariableLike) : info.isClassless := by
  obtain h | ⟨_, _, h⟩ := isVariableLike_iff.1 h <;> rw [isClassless, h] <;> rfl

theorem TypeInfo.isSome_wildcard? : info.wildcard?.isSome ↔ info.sort = .wildcard := by
  cases info <;> simp [wildcard?, sort]

theorem TypeInfo.sort_eq_capture {pos seq : Nat} : info.sort = .capture pos seq ↔
      ∃ cap, info = .capture cap ∧ cap.position = pos ∧ cap.sequence = seq := by
  cases info <;> simp [sort]

structure ClassInfo.KeptAs (old new : ClassInfo) : Prop where
  name : new.name = old.name := by rfl
  sourceName : new.sourceName = old.sourceName := by rfl
  package : new.package = old.package := by rfl
  enclosed : new.enclosing.isSome = old.enclosing.isSome := by rfl
  origin : new.origin = old.origin := by rfl
  scope : new.scope = old.scope := by rfl
  members : old.members ⊆ new.members := by exact List.Subset.refl _
  begun : old.state.hierarchyBegun → new.state.hierarchyBegun := by exact fun h => h
  ended : old.state.hierarchyEnded → new.state.hierarchyEnded := by exact fun h => h
  superclassPending : new.state.superclassPending → old.state.superclassPending := by exact fun h => h
  interfacesPending : new.state.interfacesPending → old.state.interfacesPending := by exact fun h => h

theorem ClassInfo.KeptAs.refl (info : ClassInfo) : info.KeptAs info := {}

theorem ClassInfo.KeptAs.trans {c : ClassInfo} (h1 : a.KeptAs b) (h2 : b.KeptAs c) : a.KeptAs c where
  name := h2.name.trans h1.name
  sourceName := h2.sourceName.trans h1.sourceName
  package := h2.package.trans h1.package
  enclosed := h2.enclosed.trans h1.enclosed
  origin := h2.origin.trans h1.origin
  scope := h2.scope.trans h1.scope
  members := List.Subset.trans h1.members h2.members
  begun h := h2.begun (h1.begun h)
  ended h := h2.ended (h1.ended h)
  superclassPending h := h1.superclassPending (h2.superclassPending h)
  interfacesPending h := h1.interfacesPending (h2.interfacesPending h)

theorem ClassInfo.KeptAs.isNamed (h : a.KeptAs b) (simple : String) : b.isNamed simple = a.isNamed simple := by
  simp only [ClassInfo.isNamed, h.name, h.sourceName]

theorem ClassInfo.KeptAs.isCompiled (h : a.KeptAs b) : b.isCompiled = a.isCompiled := by
  simp only [ClassInfo.isCompiled, h.origin]

namespace World

variable {w w' : World} {id : TypeId}

def Becomes (w : World) : TypeId → TypeId → Prop :=
  ReflTransGen fun id target => ∃ name, w.role id = .placeholder name (some target)

theorem Becomes.of_declared {tgt : TypeId} (h : w.Becomes id tgt) (hid : w.role id = .declared) : tgt = id := by
  obtain heq | ⟨_, ⟨_, hr⟩, -⟩ := ReflTransGen.cases_head h
  · exact heq.symm
  · rw [hid] at hr
    cases hr

structure Grows (w w' : World) : Prop where
  size : w.types.size ≤ w'.types.size
  declared : ∀ id info, w.class? id = some info → ∃ info', w'.class? id = some info' ∧ info.KeptAs info'
  missing : ∀ id, w.role id = .missing → w'.role id = .missing
  pending : ∀ id name, w.role id = .placeholder name none →
    ∃ target, w'.role id = .placeholder name target
  resolved : ∀ id name target, w.role id = .placeholder name (some target) →
    w'.role id = .placeholder name (some target)
  sort : ∀ id, id.index < w.types.size → (w'.type id).sort = (w.type id).sort
  stem : ∀ id key stem, (w.type id).cacheKey? = some key → key.stem? = some stem →
    ∃ stem', w'.Becomes stem stem' ∧ (w'.type id).cacheKey? = some (key.swap stem stem')
  named : ∀ name package, w.packageNamed? name = some package → w'.packageNamed? name = some package
  entry : ∀ package simple id, w.known? package simple = some id → w.role id = .declared →
    w'.known? package simple = some id
  units : w.units.size ≤ w'.units.size
  sources : ∀ unit, unit.index < w.units.size →
    w'.sources.find? unit = w.sources.find? unit ∨ w'.sources.find? unit = none

theorem role_eq_declared : w.role id = .declared ↔ ∃ info, w.class? id = some info := by
  rw [role, TypeInfo.role_eq_declared, Option.isSome_iff_exists]
  rfl

theorem role_of_class? {info : ClassInfo} (h : w.class? id = some info) : w.role id = .declared :=
  role_eq_declared.2 ⟨info, h⟩

def ListsClass (w : World) (package : PackageId) (simple : String) : Prop :=
  ∃ id, w.known? package simple = some id ∧ w.role id = .declared

namespace Grows

variable {erased id : TypeId}

theorem role_declared (h : w.Grows w') (hid : w.role id = .declared) : w'.role id = .declared := by
  obtain ⟨info, hi⟩ := role_eq_declared.1 hid
  obtain ⟨info', hi', -⟩ := h.declared id info hi
  exact role_of_class? hi'

theorem refl (w : World) : w.Grows w where
  size := Nat.le_refl _
  declared id info h := ⟨info, h, .refl info⟩
  missing id h := h
  pending id name h := ⟨none, h⟩
  resolved id name tgt h := h
  sort _ _ := rfl
  stem id key stem h _ := ⟨stem, .refl, by rw [h, CacheKey.swap_self]⟩
  named name package h := h
  entry package simple id h _ := h
  units := Nat.le_refl _
  sources _ _ := .inl rfl

theorem trans {w1 w2 : World} (h1 : w.Grows w1) (h2 : w1.Grows w2) : w.Grows w2 where
  size := Nat.le_trans h1.size h2.size
  declared id info h := by
    obtain ⟨info1, hi1, hk1⟩ := h1.declared id info h
    obtain ⟨info2, hi2, hk2⟩ := h2.declared id info1 hi1
    exact ⟨info2, hi2, hk1.trans hk2⟩
  missing id h := h2.missing id (h1.missing id h)
  pending id name h := by
    obtain ⟨tgt, ht⟩ := h1.pending id name h
    cases tgt with
    | none => exact h2.pending id name ht
    | some tgt => exact ⟨_, h2.resolved id name tgt ht⟩
  resolved id name tgt h := h2.resolved id name tgt (h1.resolved id name tgt h)
  sort id hlt := (h2.sort id (Nat.lt_of_lt_of_le hlt h1.size)).trans (h1.sort id hlt)
  stem id key stem hke hst := by
    obtain ⟨stem1, hb1, hke1⟩ := h1.stem id key stem hke hst
    obtain ⟨hst1, hs⟩ := CacheKey.swap_stem? stem1 hst
    obtain ⟨stem2, hb2, hke2⟩ := h2.stem id _ stem1 hke1 hst1
    refine ⟨stem2, ReflTransGen.trans ?_ hb2, hs stem2 ▸ hke2⟩
    exact ReflTransGen.mono (fun a b ⟨name, hr⟩ => ⟨name, h2.resolved a name b hr⟩) _ _ hb1
  named name package h := h2.named name package (h1.named name package h)
  entry package simple id h hid := h2.entry package simple id (h1.entry package simple id h hid) (h1.role_declared hid)
  units := Nat.le_trans h1.units h2.units
  sources unit hu := by
    obtain h | h := h2.sources unit (Nat.lt_of_lt_of_le hu h1.units)
    · exact h ▸ h1.sources unit hu
    · exact .inr h

theorem isClassless (h : w.Grows w') (hlt : id.index < w.types.size) :
    (w'.type id).isClassless = (w.type id).isClassless := by
  rw [TypeInfo.isClassless, h.sort id hlt, TypeInfo.isClassless]

theorem erasureClass?_becomes (h : w.Grows w') (he : w.erasureClass? id = some erased) :
    ∃ erased', w'.erasureClass? id = some erased' ∧ w'.Becomes erased erased' := by
  cases ht : w.type id with
  | declared info =>
    obtain rfl : id = erased := by simpa [erasureClass?, ht] using he
    obtain ⟨info', hi', -⟩ := h.declared id info (class?_eq_some.2 ht)
    exact ⟨id, by simp [erasureClass?, class?_eq_some.1 hi'], .refl⟩
  | parameterized gen args encl =>
    obtain rfl : gen = erased := by simpa [erasureClass?, ht] using he
    obtain ⟨stem, hb, hk⟩ := h.stem id (.parameterized gen) gen (by rw [ht]; rfl) rfl
    rw [CacheKey.swap, TypeId.swap, if_pos rfl] at hk
    obtain ⟨arguments', enclosing', ht'⟩ := cacheKey?_eq_parameterized.1 hk
    exact ⟨stem, by simp [erasureClass?, ht'], hb⟩
  | raw gen encl =>
    obtain rfl : gen = erased := by simpa [erasureClass?, ht] using he
    obtain ⟨stem, hb, hk⟩ := h.stem id (.raw gen) gen (by rw [ht]; rfl) rfl
    rw [CacheKey.swap, TypeId.swap, if_pos rfl] at hk
    obtain ⟨enclosing', ht'⟩ := cacheKey?_eq_raw.1 hk
    exact ⟨stem, by simp [erasureClass?, ht'], hb⟩
  | placeholder name tgt =>
    cases tgt with
    | none => simp [erasureClass?, ht] at he
    | some tgt =>
      have ht' := h.resolved id name tgt (role_eq_placeholder.2 ht)
      rw [role, role_eq_placeholder] at ht'
      simp only [erasureClass?, ht] at he
      split at he
      · next hc =>
        cases he
        obtain ⟨info, hi⟩ := Option.isSome_iff_exists.1 hc
        obtain ⟨info', hi', -⟩ := h.declared erased info hi
        exact ⟨erased, by simp [erasureClass?, ht', hi'], .refl⟩
      · cases he
  | _ => simp [erasureClass?, ht] at he

theorem erasureClass? (h : w.Grows w') (he : w.erasureClass? id = some erased) (hr : w.role erased = .declared) :
    w'.erasureClass? id = some erased := by
  obtain ⟨erased', he', hb⟩ := h.erasureClass?_becomes he
  rw [he', hb.of_declared (h.role_declared hr)]

end Grows

variable {id : TypeId} {name : QName} {package : PackageId} {simple : String}

def IsVariable (w : World) (id : TypeId) : Prop := (w.type id).sort = .typeVariable

theorem IsVariable.lt_size (h : w.IsVariable id) : id.index < w.types.size :=
  lt_size_of_type_ne fun ht => by simp [IsVariable, ht, sort] at h

theorem IsVariable.grows (hg : w.Grows w') (h : w.IsVariable id) : w'.IsVariable id := (hg.sort id h.lt_size).trans h

theorem isVariable_iff : w.IsVariable id ↔ ∃ info, w.type id = .variable info := by
  rw [IsVariable]
  cases w.type id <;> simp [sort]

theorem ListsClass.grows (hg : w.Grows w') (h : w.ListsClass package simple) : w'.ListsClass package simple := by
  obtain ⟨id, hid, hr⟩ := h
  exact ⟨id, hg.entry package simple id hid hr, hg.role_declared hr⟩

theorem known?_registerType (hw : w.Registered)
    (hp : package.index < w.packages.size) (hro : ¬ w.ListsClass package simple)
    (id : TypeId) (other : PackageId) (s : String) : (registerType package simple id w).2.known? other s =
      if other = package ∧ s = simple then some id else w.known? other s := by
  have hl : (w.list package simple id).known? other s =
      if other = package ∧ s = simple then some id else w.known? other s := by
    rw [known?_list]
    exact if_congr (by simp [hp]) rfl rfl
  cases hk : w.known? package simple with
  | none =>
    have hwo : (registerType package simple id w).2 =
        (w.list package simple id).modifyPackage package (·.removeAbsent simple) := by
      simp only [registerType, bind_apply, get_apply, hk]
      rfl
    rw [hwo, known?_removeAbsent, hl]
  | some existing =>
    obtain hr | ⟨name, tgt, hr, -⟩ := hw.entry package simple existing hk
    · exact absurd ⟨existing, hk, hr⟩ hro
    have ht := role_eq_placeholder.1 hr
    cases tgt with
    | none =>
      have hwo : (registerType package simple id w).2 =
          (w.list package simple id).swapPlaceholder existing id := by
        simp only [registerType, bind_apply, get_apply, hk, ht]
        rfl
      rw [hwo, known?, swapPlaceholder_package (w := w.list package simple id) id ht]
      exact hl
    | some tgt =>
      have hwo : (registerType package simple id w).2 = w.list package simple id := by
        simp only [registerType, bind_apply, get_apply, hk, ht]
        rfl
      rw [hwo, hl]

theorem rolesStay_registerType (package : PackageId) (simple : String) (id : TypeId) :
    w.RolesStay (registerType package simple id w).2 := by
  refine registerType_elim w package simple id (fun _ _ _ => rfl) fun existing name hp => ?_
  exact rolesStay_swap (w := w.list package simple id) id hp

/-- A class that a name denotes: a class that is listed under the name, or a member type of a class
that the name before the last segment denotes. -/
inductive Denotes (w : World) : QName → TypeId → Prop
  | listed {name : QName} {package : PackageId} {id : TypeId} :
    w.packageNamed? name.parent = some package → w.known? package name.simple = some id →
    w.role id = .declared → Denotes w name id
  | member {name : QName} {outer member : TypeId} {info inner : ClassInfo} :
    Denotes w name.parent outer → w.class? outer = some info → member ∈ info.members →
    w.class? member = some inner → inner.isNamed name.simple → Denotes w name member

theorem Denotes.role (h : w.Denotes name id) : w.role id = .declared := by
  cases h with
  | listed _ _ hid => exact hid
  | member _ _ _ hi _ => exact role_of_class? hi

theorem Denotes.grows (hg : w.Grows w') (h : w.Denotes name id) : w'.Denotes name id := by
  induction h with
  | listed hp hk hid => exact .listed (hg.named _ _ hp) (hg.entry _ _ _ hk hid) (hg.role_declared hid)
  | member _ hi hm hin hn ih =>
    obtain ⟨info', hi', hke⟩ := hg.declared _ _ hi
    obtain ⟨inner', hin', hke'⟩ := hg.declared _ _ hin
    exact .member ih hi' (hke.members hm) hin' (by rw [hke'.isNamed]; exact hn)

def SourceIn (w : World) (id : TypeId) (package : PackageId) : Prop :=
  ∃ info, w.class? id = some info ∧ info.isCompiled = false ∧ info.package = package

theorem SourceIn.grows (hg : w.Grows w') (h : w.SourceIn id package) :
    w'.SourceIn id package := by
  obtain ⟨info, hi, hs, hp⟩ := h
  obtain ⟨info', hi', hk⟩ := hg.declared id info hi
  exact ⟨info', hi', hk.isCompiled.trans hs, hk.package.trans hp⟩

end World

end Bindings
