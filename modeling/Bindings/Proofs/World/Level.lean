import Bindings.Proofs.World.Growth

/-! # What stays in place -/

namespace Bindings.World

variable {w w' : World} {pkg : PackageId} {parent : ScopeId}

/-- What a scope lists is listed once, and comes from it. The scopes in it come later. -/
structure NestedAt (scope : ScopeId → Scope) (locals : Nat) (localVar : LocalId → LocalInfo) (id : ScopeId) : Prop where
  children : (scope id).children.Nodup
  child : ∀ child ∈ (scope id).children, id.index < child.index ∧ (scope child).parent = some id
  vars : (scope id).locals.Nodup
  declared : ∀ var ∈ (scope id).locals, var.index < locals ∧ (localVar var).scope = id

def Nested (w : World) : Prop := ∀ id, NestedAt w.scope w.locals.size w.localVar id

theorem lt_size_of_parent {id : ScopeId} (h : (w.scope id).parent = some parent) : id.index < w.scopes.size :=
  lt_size_of_read (fun scope : Scope => scope.parent = some parent) h nofun

theorem scope_modifyScope (id : ScopeId) (change : Scope → Scope) (other : ScopeId) :
    (w.modifyScope id change).scope other =
      if other = id ∧ id.index < w.scopes.size then change (w.scope other) else w.scope other := by
  cases id
  cases other
  simp only [World.scope, World.modifyScope, getD_modify, ScopeId.mk.injEq]

theorem scope_addScope (scope : Scope) (other : ScopeId) :
    (w.addScope scope).2.scope other = if other.index = w.scopes.size then scope else
      if scope.parent = some other ∧ other.index < w.scopes.size then
        { w.scope other with children := (w.scope other).children ++ [⟨w.scopes.size⟩] } else w.scope other := by
  rw [World.addScope]
  cases scope.parent with
  | none => exact (getD_push ..).trans (by simp [World.scope])
  | some parent =>
    rw [World.scope, getD_push, ← World.scope, scope_modifyScope]
    by_cases hp : parent = other
    · simp [modifyScope, hp]
    · simp [modifyScope, hp, Ne.symm hp]

theorem Nested.addScope (h : w.Nested) (kind : ScopeKind) (parent : Option ScopeId) :
    (w.addScope { kind, parent }).2.Nested := by
  intro id
  have hl : (w.addScope { kind, parent }).2.locals = w.locals := by
    rw [World.addScope]
    cases parent <;> rfl
  have ho : ∀ child ∈ (w.scope id).children, id.index < child.index ∧
      ((w.addScope { kind, parent }).2.scope child).parent = some id := by
    intro child hc
    obtain ⟨hlt, hp⟩ := (h id).child child hc
    rw [scope_addScope, if_neg (Nat.ne_of_lt (lt_size_of_parent hp))]
    exact ⟨hlt, by split <;> exact hp⟩
  have hv : ∀ var ∈ (w.scope id).locals, var.index < (w.addScope { kind, parent }).2.locals.size ∧
      ((w.addScope { kind, parent }).2.localVar var).scope = id := by
    simp only [localVar, hl]
    exact (h id).declared
  have hid := scope_addScope (w := w) { kind, parent } id
  split at hid
  · exact ⟨by simp [hid], by simp [hid], by simp [hid], by simp [hid]⟩
  split at hid
  · next hid' =>
    refine ⟨?_, ?_, hid ▸ (h id).vars, hid ▸ hv⟩
    · have hf : ⟨w.scopes.size⟩ ∉ (w.scope id).children := fun hc =>
        Nat.lt_irrefl _ (lt_size_of_parent ((h id).child _ hc).2)
      rw [hid]
      exact List.nodup_append.2 ⟨(h id).children, by simp, by grind⟩
    · intro child hc
      rw [hid, List.mem_append, List.mem_singleton] at hc
      obtain hc | rfl := hc
      · exact ho child hc
      · exact ⟨hid'.2, by simpa [scope_addScope] using hid'.1⟩
  · exact ⟨hid ▸ (h id).children, hid ▸ ho, hid ▸ (h id).vars, hid ▸ hv⟩

/-- The variable is added and listed in its scope. -/
def declared (w : World) (log : ProblemLog) (info : LocalInfo) : World :=
  ({ w with log, locals := w.locals.push info } : World).modifyScope info.scope fun scope =>
    { scope with locals := scope.locals ++ [⟨w.locals.size⟩] }

theorem scope_declared (log : ProblemLog) (info : LocalInfo) (id : ScopeId) :
    (w.declared log info).scope id = if id = info.scope ∧ info.scope.index < w.scopes.size then
      { w.scope id with locals := (w.scope id).locals ++ [⟨w.locals.size⟩] } else w.scope id := scope_modifyScope ..

theorem localVar_declared (log : ProblemLog) (info : LocalInfo) (var : LocalId) :
    (w.declared log info).localVar var = if var.index = w.locals.size then info else w.localVar var := getD_push ..

theorem Nested.declared (h : w.Nested) (log : ProblemLog) (info : LocalInfo) : (w.declared log info).Nested := by
  intro id
  have hp : ∀ other, ((w.declared log info).scope other).parent = (w.scope other).parent := fun other => by
    rw [scope_declared]
    split <;> rfl
  have hc : ∀ child ∈ (w.scope id).children, id.index < child.index ∧
    ((w.declared log info).scope child).parent = some id :=
    fun child hm => hp child ▸ (h id).child child hm
  have hs : (w.declared log info).locals.size = w.locals.size + 1 := Array.size_push ..
  have ho : ∀ var ∈ (w.scope id).locals, var.index < (w.declared log info).locals.size ∧
      ((w.declared log info).localVar var).scope = id := by
    intro var hv
    obtain ⟨hlt, hid⟩ := (h id).declared var hv
    rw [localVar_declared, if_neg (Nat.ne_of_lt hlt)]
    exact ⟨by omega, hid⟩
  have hid := scope_declared (w := w) log info id
  split at hid
  · next hsc =>
    have hf : ⟨w.locals.size⟩ ∉ (w.scope id).locals := fun hv => Nat.lt_irrefl _ ((h id).declared _ hv).1
    refine ⟨hid ▸ (h id).children, hid ▸ hc, ?_, fun var hv => ?_⟩
    · rw [hid]
      exact List.nodup_append.2 ⟨(h id).vars, by simp, by grind⟩
    rw [hid, List.mem_append, List.mem_singleton] at hv
    obtain hv | rfl := hv
    · exact ho var hv
    · exact ⟨by dsimp only; omega, by rw [localVar_declared, if_pos rfl, hsc.1]⟩
  · exact ⟨hid ▸ (h id).children, hid ▸ hc, hid ▸ (h id).vars, hid ▸ ho⟩

theorem Nested.locals (h : w.Nested) {locals : Array LocalInfo} (hs : locals.size = w.locals.size)
    (hsc : ∀ var : LocalId, (locals.getD var.index default).scope = (w.localVar var).scope) :
    ({ w with locals } : World).Nested := fun id =>
  { h id with
    declared := fun var hv => by
      obtain ⟨hlt, hid⟩ := (h id).declared var hv
      exact ⟨hs ▸ hlt, (hsc var).trans hid⟩ }

/-- The scopes from one outwards, up to that of a unit in the package. -/
inductive Outward (scope : ScopeId → Scope) (scopes : Nat) (package : PackageId) : List ScopeId → Prop
  | unit {id : ScopeId} {unit : UnitId} : id.index < scopes → (scope id).kind = .unit unit package →
    (scope id).parent = none → Outward scope scopes package [id]
  | inner {id parent : ScopeId} {path : List ScopeId} : (scope id).parent = some parent →
    Outward scope scopes package (parent :: path) → Outward scope scopes package (id :: parent :: path)

def LiesIn (w : World) (id : ScopeId) (package : PackageId) : Prop :=
  ∃ path, Outward w.scope w.scopes.size package (id :: path)

theorem LiesIn.inner {id : ScopeId} (hp : (w.scope id).parent = some parent)
    (h : w.LiesIn parent pkg) : w.LiesIn id pkg := by
  obtain ⟨path, h⟩ := h
  exact ⟨_, .inner hp h⟩

theorem LiesIn.of_scopes {id : ScopeId} (h : w.LiesIn id pkg)
    (hs : ∀ id, id.index < w.scopes.size → id.index < w'.scopes.size ∧
      (w'.scope id).kind = (w.scope id).kind ∧ (w'.scope id).parent = (w.scope id).parent) : w'.LiesIn id pkg := by
  obtain ⟨path, h⟩ := h
  refine ⟨path, ?_⟩
  generalize id :: path = path at h ⊢
  induction h with
  | unit hlt hk hp => exact .unit (hs _ hlt).1 ((hs _ hlt).2.1.trans hk) ((hs _ hlt).2.2.trans hp)
  | inner hp _ ih => exact .inner ((hs _ (lt_size_of_parent hp)).2.2.trans hp) ih

structure Level (w w' : World) : Prop where
  options : w'.options = w.options := by rfl
  comparing : w'.comparing = w.comparing := by rfl
  joinDepth : w'.joinDepth = w.joinDepth := by rfl
  rooted : w.object.isSome → w'.object.isSome := by exact fun h => h
  captured : ∀ key id, w.captures.find? key = some id → w'.captures.find? key = some id := by
    exact fun _ _ h => h
  entry : ∀ package simple id, w.known? package simple = some id →
    w'.known? package simple = some id ∨ w'.ListsClass package simple := by exact fun _ _ _ h => .inl h
  absent : ∀ package simple, simple ∈ (w.package package).absent →
    simple ∈ (w'.package package).absent ∨
      w.known? package simple = none ∧ w'.ListsClass package simple := by exact fun _ _ h => .inl h
  scope : ∀ id, id.index < w.scopes.size → id.index < w'.scopes.size ∧
    (w'.scope id).kind = (w.scope id).kind ∧ (w'.scope id).parent = (w.scope id).parent := by
      exact fun _ h => ⟨h, rfl, rfl⟩
  typeScope : ∀ id type, (w'.scope id).kind = .type type → (w.scope id).kind = .type type ∨
    ∃ package, w'.SourceIn type package ∧ w'.LiesIn id package := by exact fun _ _ h => .inl h
  isStatic : ∀ id, (w.field id).isStatic → (w'.field id).isStatic := by exact fun _ h => h
  methodVariables : ∀ id, ∀ var ∈ (w'.method id).typeVariables,
    (∃ other, var ∈ (w.method other).typeVariables) ∨ w'.IsVariable var := by
      exact fun id _ h => .inl ⟨id, h⟩
  nested : w.Nested → w'.Nested := by exact fun h => h

namespace Level

variable {change : Scope → Scope} {id : TypeId} {w1 : World}

theorem refl (w : World) : w.Level w := {}

theorem trans {w2 : World} (h1 : w.Level w1) (h2 : w1.Level w2) (hg : w1.Grows w2) : w.Level w2 where
  options := h2.options.trans h1.options
  comparing := h2.comparing.trans h1.comparing
  joinDepth := h2.joinDepth.trans h1.joinDepth
  rooted h := h2.rooted (h1.rooted h)
  captured key id h := h2.captured key id (h1.captured key id h)
  entry pkg simple id h := by
    obtain h | h := h1.entry pkg simple id h
    · exact h2.entry pkg simple id h
    · exact .inr (h.grows hg)
  absent pkg simple h := by
    obtain h | ⟨hn, h⟩ := h1.absent pkg simple h
    · refine (h2.absent pkg simple h).imp_right fun ⟨hn, hl⟩ => ⟨?_, hl⟩
      cases hk : w.known? pkg simple with
      | none => rfl
      | some id => rcases h1.entry pkg simple id hk with h | ⟨_, h, -⟩ <;> rw [hn] at h <;> cases h
    · exact .inr ⟨hn, h.grows hg⟩
  scope id h := by
    obtain ⟨hlt1, hki1, hpa1⟩ := h1.scope id h
    obtain ⟨hlt2, hki2, hpa2⟩ := h2.scope id hlt1
    exact ⟨hlt2, hki2.trans hki1, hpa2.trans hpa1⟩
  typeScope id type h := by
    obtain h | h := h2.typeScope id type h
    · exact (h1.typeScope id type h).imp_right fun ⟨pkg, hs, hl⟩ => ⟨pkg, hs.grows hg, hl.of_scopes h2.scope⟩
    · exact .inr h
  isStatic id h := h2.isStatic id (h1.isStatic id h)
  methodVariables id var h := by
    obtain ⟨mid, h⟩ | h := h2.methodVariables id var h
    · exact (h1.methodVariables mid var h).imp_right (.grows hg)
    · exact .inr h
  nested h := h2.nested (h1.nested h)

theorem types (w : World) (types : Array TypeInfo) : w.Level { w with types } := { refl w with
    entry := fun _ _ _ => .inl
    absent := fun _ _ => .inl
    typeScope := fun _ _ => .inl
    methodVariables := fun id _ h => .inl ⟨id, h⟩ }

theorem of_packagesGrow (hg : w.PackagesGrow w1) (h : w1.Level w') : w.Level w' where
  options := h.options.trans (by rw [hg.same])
  comparing := h.comparing.trans (by rw [hg.same])
  joinDepth := h.joinDepth.trans (by rw [hg.same])
  rooted ho := h.rooted (by rwa [hg.same])
  captured key id hk := h.captured key id (by rwa [hg.same])
  entry pkg simple id hid := h.entry pkg simple id ((hg.known ..).trans hid)
  absent pkg simple hs := by
    rw [← hg.known]
    exact h.absent pkg simple ((hg.absent pkg).symm ▸ hs)
  scope id hid := by
    rw [hg.same] at h
    exact h.scope id hid
  typeScope id type hk := by
    rw [hg.same] at h
    exact h.typeScope id type hk
  isStatic id hid := by
    rw [hg.same] at h
    exact h.isStatic id hid
  methodVariables id var hv := by
    rw [hg.same] at h
    exact h.methodVariables id var hv
  nested hn := h.nested (by rwa [hg.same])

theorem size_addScope (scope : Scope) : (w.addScope scope).2.scopes.size = w.scopes.size + 1 := by
  cases hp : scope.parent <;> simp [World.addScope, modifyScope, hp]

theorem addScope (kind : ScopeKind) (parent : Option ScopeId) (h : ∀ type, kind = .type type →
      ∃ pkg outer, w.SourceIn type pkg ∧ parent = some outer ∧ w.LiesIn outer pkg) :
    w.Level (w.addScope { kind, parent }).2 := by
  have hsc : ∀ id, id.index < w.scopes.size → id.index < (w.addScope { kind, parent }).2.scopes.size ∧
      ((w.addScope { kind, parent }).2.scope id).kind = (w.scope id).kind ∧
      ((w.addScope { kind, parent }).2.scope id).parent = (w.scope id).parent := by
    intro id hlt
    rw [scope_addScope, if_neg (Nat.ne_of_lt hlt), size_addScope]
    exact ⟨by omega, by split <;> rfl, by split <;> rfl⟩
  have hty : ∀ id type, ((w.addScope { kind, parent }).2.scope id).kind = .type type → (w.scope id).kind = .type type ∨
      ∃ pkg, (w.addScope { kind, parent }).2.SourceIn type pkg ∧
        (w.addScope { kind, parent }).2.LiesIn id pkg := by
    intro id type hk
    by_cases hid : id.index = w.scopes.size
    · obtain ⟨pkg, outer, hs, rfl, hl⟩ := h type (by rwa [scope_addScope, if_pos hid] at hk)
      exact .inr ⟨pkg, hs, .inner (by rw [scope_addScope, if_pos hid]) (hl.of_scopes hsc)⟩
    · rw [scope_addScope, if_neg hid] at hk
      split at hk <;> exact .inl hk
  have hn := fun h : w.Nested => h.addScope kind parent
  cases parent <;> exact { refl w with scope := hsc, typeScope := hty, nested := hn }

theorem declared (log : ProblemLog) (info : LocalInfo) : w.Level (w.declared log info) where
  __ := refl w
  scope id hlt := by
    refine ⟨by rwa [World.declared, World.modifyScope, Array.size_modify], ?_⟩
    rw [scope_declared]
    split <;> exact ⟨rfl, rfl⟩
  typeScope id type hk := by
    rw [scope_declared] at hk
    split at hk <;> exact .inl hk
  nested h := h.declared log info

theorem addField (info : FieldInfo) : w.Level (w.addField info).2 where
  __ := refl w
  isStatic id hid := by
    simp only [World.field, World.addField, Array.getD_eq_getD_getElem?, Array.getElem?_push] at hid ⊢
    split
    · next heq =>
      rw [heq, Array.getElem?_size] at hid
      cases hid
    · exact hid

theorem packagesGrow (h : w.PackagesGrow w') : w.Level w' := of_packagesGrow h (.refl w')

theorem swapPlaceholder {hole : TypeId} {name : QName} (tgt : TypeId)
    (h : w.type hole = .placeholder name none) : w.Level (w.swapPlaceholder hole tgt) := by
  have hm : ∀ id, ((w.swapPlaceholder hole tgt).field id).modifiers =
      (w.field id).modifiers := modifiers_swapPlaceholder h
  have hva : ∀ id, ((w.swapPlaceholder hole tgt).method id).typeVariables =
      (w.method id).typeVariables := typeVariables_swapPlaceholder h
  obtain ⟨swapped, methods, fields, hw⟩ := swapPlaceholder_with tgt h
  rw [hw] at hm hva ⊢
  exact
    { types w swapped with
      isStatic := fun id hid => by rwa [FieldInfo.isStatic, hm]
      methodVariables := fun id var hv => .inl ⟨id, hva id ▸ hv⟩ }

theorem absent_list (pkg : PackageId) (simple : String) (id : TypeId) (other : PackageId) :
    ((w.list pkg simple id).package other).absent = (w.package other).absent :=
  absent_modifyPackage pkg other (by exact fun _ => rfl)

theorem list {simple : String} (id : TypeId) (h : w.known? pkg simple = none) : w.Level (w.list pkg simple id) where
  __ := refl w
  entry other s listed hl := by
    refine .inl ?_
    rw [known?_list, if_neg]
    · exact hl
    · rintro ⟨rfl, -, rfl⟩
      rw [h] at hl
      cases hl
  absent other s hs := .inl ((absent_list ..).symm ▸ hs)

theorem list_declared (pkg : PackageId) (simple : String)
    (h : w.role id = .declared) : w.Level (w.list pkg simple id) where
  __ := refl w
  entry other s listed hl := by
    simp only [ListsClass, known?_list]
    split
    · exact .inr ⟨id, rfl, h⟩
    · exact .inl hl
  absent other s hs := .inl ((absent_list ..).symm ▸ hs)

theorem typeOrPlaceholder (name : QName) : w.Level (Edit.typeOrPlaceholder name w).2 := by
  have he : w.PackagesGrow (w.entered name.parent) := enterPackage_grows ..
  rw [typeOrPlaceholder_world]
  dsimp only
  split
  · exact packagesGrow he
  rename_i hn
  have hl := list (w := ((w.entered name.parent).addType (.placeholder name none)).2)
    ⟨(w.entered name.parent).types.size⟩ (Option.not_isSome_iff_eq_none.1 hn)
  exact of_packagesGrow he
    { refl (w.entered name.parent) with
      entry := hl.entry
      absent := hl.absent
      typeScope := hl.typeScope
      methodVariables := hl.methodVariables }

theorem registerType (pkg : PackageId) (simple : String)
    (hr : w.role id = .declared) : w.Level (Edit.registerType pkg simple id w).2 := by
  have hli := list_declared pkg simple hr
  rcases registerType_cases w pkg simple id with
    ⟨hn, h⟩ | ⟨existing, name, -, hp, h⟩ | ⟨existing, name, tgt, -, -, h⟩ | h <;> rw [h]
  · refine { refl w with entry := fun other s listed hl => ?_, absent := fun other s hs => ?_ }
    · simp only [ListsClass, known?_removeAbsent]
      exact hli.entry other s listed hl
    · rw [← absent_list pkg simple id] at hs
      simp only [ListsClass, known?_removeAbsent, known?_list, package_modifyPackage, size_list]
      by_cases ho : other = pkg ∧ pkg.index < w.packages.size
      · rw [if_pos ho]
        by_cases hsi : s = simple
        · obtain ⟨rfl, hlt⟩ := ho
          exact .inr ⟨hsi ▸ hn, id, if_pos ⟨rfl, hlt, hsi⟩, hr⟩
        · exact .inl (List.mem_filter.2 ⟨hs, by simpa using hsi⟩)
      · rw [if_neg ho]
        exact .inl hs
  · have hp' : (w.list pkg simple id).type existing = .placeholder name none := hp
    have hpa := swapPlaceholder_package id hp'
    have hsw := swapPlaceholder id hp'
    refine
      { options := hsw.options
        comparing := hsw.comparing
        joinDepth := hsw.joinDepth
        rooted := hsw.rooted
        captured := hsw.captured
        scope := hsw.scope
        typeScope := hsw.typeScope
        isStatic := hsw.isStatic
        methodVariables := hsw.methodVariables
        nested := hsw.nested
        entry := fun other s listed hl => ?_
        absent := fun other s hs => ?_ }
    · rw [ListsClass, known?, hpa]
      refine (hli.entry other s listed hl).imp_right ?_
      rintro ⟨found, hf, hr⟩
      exact ⟨found, hf, (rolesStay_swap id hp').declared hr⟩
    · rw [hpa]
      exact .inl ((absent_list ..).symm ▸ hs)
  · exact hli
  · exact .refl w

end Level

end Bindings.World
