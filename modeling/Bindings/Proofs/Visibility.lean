import Bindings.Proofs.StaticContexts

/-!
# Visibility

The less restricted a member of a source class is, the more scopes see it. A class in which a private member
is seen has its outermost class in common with the declaring one, and classes around each other are of one
package, which is that of their scopes.
-/

namespace Bindings

open Query

namespace Modifiers

variable {m flags flag : Modifiers}

theorem has_union (hm : m.isPackagePrivate) (hf : access ∩ flag = flag) : (m ∪ flags).has flag = flags.has flag := by
  have hi : m.bits &&& flag.bits = 0 := calc
    m.bits &&& flag.bits = m.bits &&& (access.bits &&& flag.bits) := by
      rw [show access.bits &&& flag.bits = flag.bits from congrArg bits hf]
    _ = (m.bits &&& access.bits) &&& flag.bits := (UInt32.and_assoc ..).symm
    _ = 0 := by rw [show m.bits &&& access.bits = 0 from congrArg bits (beq_iff_eq.1 hm), UInt32.zero_and]
  have hu : (m ∪ flags) ∩ flag = flags ∩ flag := congrArg mk <| calc
    (m.bits ||| flags.bits) &&& flag.bits = m.bits &&& flag.bits ||| flags.bits &&& flag.bits :=
      UInt32.toBitVec_inj.1 BitVec.and_or_distrib_right
    _ = flags.bits &&& flag.bits := by rw [hi, UInt32.zero_or]
  rw [has, hu, has]

theorem union_empty (m : Modifiers) : m ∪ empty = m := congrArg mk UInt32.or_zero

end Modifiers

namespace World

variable {w : World} {id : ScopeId} {type : TypeId} {package : PackageId}

namespace Outward

variable {scope : ScopeId → Scope} {scopes : Nat} {path other : List ScopeId}

theorem suffix (h : Outward scope scopes package path) (hs : id :: other <:+ path) :
    Outward scope scopes package (id :: other) := by
  induction h with
  | unit hlt hk hp =>
    rw [List.suffix_cons_iff, List.suffix_nil] at hs
    obtain hs | hs := hs
    · exact hs ▸ .unit hlt hk hp
    · cases hs
  | inner hp h ih => exact (List.suffix_cons_iff.1 hs).elim (· ▸ .inner hp h) ih

section

variable (h : Outward w.scope w.scopes.size package path)

include h

theorem scopeChainFrom_eq {fuel : Nat}
    (hid : path.head? = some id) (hle : path.length ≤ fuel) : w.scopeChainFrom fuel id = path := by
  induction h generalizing id fuel with
  | unit _ _ hp =>
    cases hid
    obtain ⟨fuel, rfl⟩ := Nat.exists_eq_add_of_le' hle
    simp [scopeChainFrom, hp]
  | inner hp _ ih =>
    cases hid
    obtain ⟨fuel, rfl⟩ := Nat.exists_eq_add_of_le' hle
    rw [List.length_cons, ← Nat.add_assoc, scopeChainFrom, hp]
    exact congrArg (List.cons _) (ih rfl (Nat.le_add_left ..))

/-- A scope met twice would have two ways out, one longer than the other. -/
theorem nodup : path.Nodup := by
  induction h with
  | unit => simp
  | @inner id parent path hp h ih =>
    refine List.nodup_cons.2 ⟨fun hm => ?_, ih⟩
    obtain ⟨front, back, heq⟩ := List.append_of_mem hm
    have hl := congrArg List.length heq
    simp only [List.length_append, List.length_cons] at hl
    have hs : w.scopeChainFrom (path.length + 2) id = id :: back :=
      (h.suffix ⟨front, heq.symm⟩).scopeChainFrom_eq rfl (by rw [List.length_cons]; omega)
    have ho : w.scopeChainFrom (path.length + 2) id = _ := (Outward.inner hp h).scopeChainFrom_eq rfl le_rfl
    have := congrArg List.length (hs.symm.trans ho)
    simp only [List.length_cons] at this
    omega

theorem length_le : path.length ≤ w.scopes.size := by
  have hlt : ∀ id ∈ path, id.index < w.scopes.size := by
    induction h with
    | unit hlt => simpa using hlt
    | inner hp _ ih => exact List.forall_mem_cons.2 ⟨lt_size_of_parent hp, ih⟩
  have hi : (path.map ScopeId.index).Nodup := h.nodup.map fun a b hab => congrArg ScopeId.mk hab
  have hs : path.map ScopeId.index ⊆ List.range w.scopes.size := by
    intro i hm
    obtain ⟨id, hid, rfl⟩ := List.mem_map.1 hm
    exact List.mem_range.2 (hlt id hid)
  simpa using (hi.subperm hs).length_le

end

theorem getLast? (h : Outward scope scopes package path) :
    ∃ last unit, path.getLast? = some last ∧ (scope last).kind = .unit unit package := by
  induction h with
  | unit _ hk _ => exact ⟨_, _, rfl, hk⟩
  | inner _ _ ih => simpa using ih

end Outward

theorem LiesIn.scopePackage (h : w.LiesIn id package) : w.scopePackage id = package := by
  obtain ⟨path, h⟩ := h
  obtain ⟨last, unit, hl, hk⟩ := h.getLast?
  have hu : w.unitScope id = last := by
    rw [unitScope, scopeChain, h.scopeChainFrom_eq rfl (Nat.le_succ_of_le h.length_le), hl, Option.getD_some]
  rw [World.scopePackage, hu, hk]

/-- The scope of a type lies in the package of the type. -/
def Seated (w : World) : Prop :=
  ∀ id type, (w.scope id).kind = .type type → ∃ package, w.SourceIn type package ∧ w.LiesIn id package

theorem Reachable.seated (h : w.Reachable) : w.Seated := by
  refine h.fact (fun _ _ _ id type hk => by cases hk) fun _ hc hs id type hk => ?_
  refine (hc.level.typeScope id type hk).elim (fun hk => ?_) fun hn => hn
  obtain ⟨package, hso, hl⟩ := hs id type hk
  exact ⟨package, hso.grows hc.grows, hl.of_scopes hc.level.scope⟩

theorem Reachable.enclosingType? (h : w.Reachable) (he : w.enclosingType? id = some type) :
    ∃ package, w.SourceIn type package ∧ w.LiesIn id package := by
  have hs : ∀ id, w.scopeType? id = some type → ∃ package, w.SourceIn type package ∧ w.LiesIn id package := by
    intro id hid
    rw [scopeType?] at hid
    split at hid
    · next hk =>
      cases hid
      exact h.seated id type hk
    · cases hid
  rw [World.enclosingType?, scopeChain] at he
  generalize w.scopes.size + 1 = fuel at he
  induction fuel generalizing id with
  | zero => cases he
  | succ fuel ih =>
    rw [scopeChainFrom] at he
    split at he
    · next parent hp =>
      cases hid : w.scopeType? id with
      | some own =>
        rw [List.findSome?_cons_of_isSome (by rw [hid]; rfl)] at he
        exact hs id he
      | none =>
        rw [List.findSome?_cons_of_isNone (by rw [hid]; rfl)] at he
        obtain ⟨package, hso, hl⟩ := ih he
        exact ⟨package, hso, .inner hp hl⟩
    · exact hs id (by simpa using he)

theorem SourceIn.outermostFrom (hw : w.Linked) (h : w.SourceIn type package) (fuel : Nat) :
    w.SourceIn (w.outermostFrom fuel type) package := by
  induction fuel generalizing type with
  | zero => exact h
  | succ fuel ih =>
    rw [World.outermostFrom]
    obtain ⟨info, hi, hs, rfl⟩ := h
    split
    · exact ⟨info, hi, hs, rfl⟩
    rename_i outer ho
    rw [hi] at ho
    have hso := hw.housed type info hi hs outer ho
    have := ih hso
    obtain ⟨_, hi', -⟩ := hso
    simpa only [class?_eq_some.1 hi'] using this

theorem SourceIn.erasureClass? (h : w.SourceIn type package) : w.erasureClass? type = some type := by
  obtain ⟨info, hi, -⟩ := h
  rw [World.erasureClass?, class?_eq_some.1 hi]

theorem SourceIn.outermostType (hw : w.Linked) (h : w.SourceIn type package) :
    w.SourceIn (w.outermostType type) package := by
  rw [World.outermostType, h.erasureClass?, Option.getD_some]
  exact h.outermostFrom hw _

theorem SourceIn.unique {other : PackageId} (h : w.SourceIn type package) (ho : w.SourceIn type other) :
    package = other := by
  obtain ⟨info, hi, -, rfl⟩ := h
  obtain ⟨_, hi', -, rfl⟩ := ho
  cases hi.symm.trans hi'
  rfl

theorem Reachable.scopePackage_of_outermostType (h : w.Reachable) {accessing : TypeId} (hso : w.SourceIn type package)
    (he : w.enclosingType? id = some accessing) (ho : w.outermostType accessing = w.outermostType type) :
    w.scopePackage id = package := by
  obtain ⟨other, ha, hl⟩ := h.enclosingType? he
  have hout := ha.outermostType h.sound.linked
  rw [ho] at hout
  rw [hl.scopePackage, hout.unique (hso.outermostType h.sound.linked)]

end World

namespace Query

variable {w : World} {declaring : TypeId} {package : PackageId} {modifiers : Modifiers}

theorem canSeeMember_apply (h : w.SourceIn declaring package) (hp : modifiers.isPublic = false) (scope : ScopeId)
    (receiver : Option TypeId) (d : Demand) :
    canSeeMember declaring modifiers scope receiver d w = (do
      if modifiers.isPrivate then
        return (w.enclosingType? scope).any fun accessing => w.outermostType accessing == w.outermostType declaring
      if package == w.scopePackage scope then return true
      if !modifiers.isProtected then return false
      protectedAccess declaring modifiers receiver (← fuel) (w.enclosingType? scope) : Query Bool) d w := by
  have her := h.erasureClass?
  obtain ⟨info, hi, -, rfl⟩ := h
  have hr : resolved declaring d w = (.ok declaring, w) := resolved_eq_self d (by simp [World.role_of_class? hi])
  have hpa : w.packageOf? declaring = some info.package := by rw [World.packageOf?, her]; simp [hi]
  rw [canSeeMember, hp, if_neg Bool.false_ne_true, bind_ok d w hr, get_bind_apply]
  simp [her, hpa]

end Query

namespace World

variable {w : World}

/-- The query finds the member visible. -/
def Sees (w : World) (declaring : TypeId) (scope : ScopeId) (receiver : Option TypeId) (d : Demand)
    (modifiers : Modifiers) : Prop :=
  (canSeeMember declaring modifiers scope receiver d w).1 = .ok true

theorem Reachable.sees_monotone (h : w.Reachable) {declaring : TypeId} (hdeclaring : w.IsSource declaring)
    {modifiers : Modifiers} (hmodifiers : modifiers.isPackagePrivate) (scope : ScopeId) (receiver : Option TypeId)
    (isLast : World → Bool) (fuel : Nat) :
    let sees := w.Sees declaring scope receiver (.upTo isLast fuel)
    (sees (modifiers ∪ .privateFlag) → sees modifiers) ∧
      (sees modifiers → sees (modifiers ∪ .protectedFlag)) ∧
      (sees (modifiers ∪ .protectedFlag) → sees (modifiers ∪ .publicFlag)) := by
  obtain ⟨info, hi, hs⟩ := hdeclaring
  have hso : w.SourceIn declaring info.package := ⟨info, hi, hs, rfl⟩
  have hflag : ∀ flags flag, Modifiers.access ∩ flag = flag → (modifiers ∪ flags).has flag = flags.has flag :=
    fun _ _ => Modifiers.has_union hmodifiers
  have hpackage : w.Sees declaring scope receiver (.upTo isLast fuel) (modifiers ∪ .empty) ↔
      w.scopePackage scope = info.package := by
    rw [Sees, canSeeMember_apply hso (hflag .empty .publicFlag rfl), Modifiers.isPrivate, hflag _ _ rfl,
      if_neg (by decide)]
    by_cases hp : info.package = w.scopePackage scope
    · rw [if_pos (beq_iff_eq.2 hp)]
      exact ⟨fun _ => hp.symm, fun _ => rfl⟩
    · rw [if_neg (mt beq_iff_eq.1 hp), Modifiers.isProtected, hflag _ _ rfl, if_pos (by decide)]
      exact ⟨fun hfalse => (by cases hfalse), fun hq => absurd hq.symm hp⟩
  rw [Modifiers.union_empty] at hpackage
  refine ⟨fun hsees => hpackage.2 ?_, fun hsees => ?_, fun _ => ?_⟩
  · rw [Sees, canSeeMember_apply hso (hflag .privateFlag .publicFlag rfl), Modifiers.isPrivate, hflag _ _ rfl,
      if_pos (by decide)] at hsees
    obtain ⟨accessing, ha, ho⟩ := (Option.any_eq_true ..).1 (Except.ok.inj hsees)
    exact h.scopePackage_of_outermostType hso ha (beq_iff_eq.1 ho)
  · rw [Sees, canSeeMember_apply hso (hflag .protectedFlag .publicFlag rfl), Modifiers.isPrivate, hflag _ _ rfl,
      if_neg (by decide), if_pos (beq_iff_eq.2 (hpackage.1 hsees).symm)]
    rfl
  · rw [Sees, canSeeMember, Modifiers.isPublic, hflag _ _ rfl, if_pos (by decide)]
    rfl

theorem sees_monotone_room :
    houseWorld.Sees ⟨10⟩ ⟨2⟩ none (.upTo (fun _ => false) 9) (.staticFlag ∪ .privateFlag) ∧
      houseWorld.Sees ⟨10⟩ ⟨2⟩ none (.upTo (fun _ => false) 9) .staticFlag ∧
      houseWorld.Sees ⟨10⟩ ⟨2⟩ none (.upTo (fun _ => false) 9) (.staticFlag ∪ .protectedFlag) := by
  have hread : (houseWorld.class? ⟨10⟩).map (·.isCompiled) = some false ∧
      (canSeeMember ⟨10⟩ (.staticFlag ∪ .privateFlag) ⟨2⟩ none (.upTo (fun _ => false) 9) houseWorld).1 = .ok true := by
    decide +kernel
  obtain ⟨hsource, hprivate⟩ := hread
  have hroom := @Reachable.sees_monotone houseWorld reachable_houseWorld ⟨10⟩ (Option.map_eq_some_iff.1 hsource)
    .staticFlag (by decide) ⟨2⟩ none (fun _ => false) 9
  have hpackage := hroom.1 hprivate
  exact ⟨hprivate, hpackage, hroom.2.1 hpackage⟩

end World

end Bindings
