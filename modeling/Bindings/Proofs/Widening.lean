import Bindings.Proofs.Inheritance
import Bindings.Proofs.Substitution

/-!
# Widening

Compatibility of base types, classes whose supertypes are classes, and arrays of these is the relation that is
declared (`World.Widens`, `Reachable.compatible_iff_widens`).
-/

open Relation

namespace Bindings

open Query World WellKnown Term

namespace World

variable {w : World} {leaf leaf' : TypeId} {dims dims' : Nat} {id : TypeId} {u : World} {kind : BaseType}
  {info : ClassInfo}

def IsBase (w : World) (leaf : TypeId) (dims : Nat) : Prop := dims = 0 ∧ (w.base? leaf).isSome

/-- One type can be assigned to another by declaration. A type is given as what it is an array of and
the number of its dimensions. -/
inductive Widens (w : World) : TypeId → Nat → TypeId → Nat → Prop
  | refl (leaf : TypeId) (dims : Nat) : Widens w leaf dims leaf dims
  | base {leaf leaf' : TypeId} {kind kind' : BaseType} : w.base? leaf = some kind →
    w.base? leaf' = some kind' → kind.widensTo kind' → Widens w leaf 0 leaf' 0
  | null {leaf leaf' : TypeId} {dims' : Nat} : w.base? leaf = some .null → ¬ w.IsBase leaf' dims' →
    Widens w leaf 0 leaf' dims'
  | object {leaf leaf' : TypeId} {dims : Nat} : ¬ w.IsBase leaf dims → w.isObject leaf' →
    Widens w leaf dims leaf' 0
  | inherits {leaf leaf' : TypeId} : ReflTransGen w.Inherits leaf leaf' → Widens w leaf 0 leaf' 0
  | arrayInterface {leaf leaf' : TypeId} {dims : Nat} {info : ClassInfo} : w.class? leaf' = some info →
    info.name.dotted = cloneable.dotted ∨ info.name.dotted = serializable.dotted →
    Widens w leaf (dims + 1) leaf' 0
  | components {leaf leaf' : TypeId} {dims dims' : Nat} : ¬ w.IsBase leaf dims → ¬ w.IsBase leaf' dims' →
    Widens w leaf dims leaf' dims' → Widens w leaf (dims + 1) leaf' (dims' + 1)

theorem class?_eq_none_of_base? (h : (w.base? leaf).isSome) : w.class? leaf = none := by
  rw [base?] at h
  rw [class?]
  cases ht : w.type leaf <;> first | rfl | (rw [ht] at h; cases h)

theorem eq_of_inherits_base (hleaf : (w.base? leaf).isSome) (h : ReflTransGen w.Inherits leaf leaf') :
    leaf = leaf' := by
  obtain rfl | ⟨super, hs, -⟩ := h.cases_head
  · rfl
  · rw [Inherits, parents, class?_eq_none_of_base? hleaf] at hs
    cases hs

theorem widens_bases_iff {kind' : BaseType} (hleaf : w.base? leaf = some kind)
    (hleaf' : w.base? leaf' = some kind') (hne : leaf ≠ leaf') : w.Widens leaf 0 leaf' 0 ↔ kind.widensTo kind' := by
  refine ⟨fun h => ?_, .base hleaf hleaf'⟩
  cases h with
  | refl => exact absurd rfl hne
  | base hk hk' hwi =>
    cases hleaf.symm.trans hk
    cases hleaf'.symm.trans hk'
    exact hwi
  | null _ hn => exact absurd ⟨rfl, by rw [hleaf']; rfl⟩ hn
  | object hn _ => exact absurd ⟨rfl, by rw [hleaf]; rfl⟩ hn
  | inherits hp => exact absurd (eq_of_inherits_base (by rw [hleaf]; rfl) hp) hne

theorem widens_from_base_iff (hleaf : w.base? leaf = some kind)
    (hn : ¬ w.IsBase leaf' dims') : w.Widens leaf 0 leaf' dims' ↔ kind = .null := by
  have hbase : w.IsBase leaf 0 := ⟨rfl, by rw [hleaf]; rfl⟩
  refine ⟨fun h => ?_, fun hnu => .null (hnu ▸ hleaf) hn⟩
  cases h with
  | refl => exact absurd hbase hn
  | base _ hk' _ => exact absurd ⟨rfl, by rw [hk']; rfl⟩ hn
  | null hk _ => exact Option.some.inj (hleaf.symm.trans hk)
  | object hn' _ => exact absurd hbase hn'
  | inherits hp => exact absurd (eq_of_inherits_base hbase.2 hp ▸ hbase) hn

theorem not_widens_to_base (hw : w.Sound) (hleaf' : (w.base? leaf').isSome) (hn : ¬ w.IsBase leaf dims)
    (hc : (w.class? leaf).isSome → w.HierarchyKnown leaf) (hd : dims = 0 → (w.class? leaf).isSome) :
    ¬ w.Widens leaf dims leaf' 0 := by
  have hno := class?_eq_none_of_base? hleaf'
  intro h
  cases h with
  | refl => exact hn ⟨rfl, hleaf'⟩
  | base hk _ _ => exact hn ⟨rfl, by rw [hk]; rfl⟩
  | null _ hn' => exact hn' ⟨rfl, hleaf'⟩
  | object _ hob =>
    rw [isObject, hno, Option.any_none, Bool.or_false, beq_iff_eq] at hob
    have hr := (hw.linked.object leaf' hob).role
    obtain ⟨info, hi⟩ := role_eq_declared.1 hr
    cases hno.symm.trans hi
  | inherits hp =>
    have hknown := hc (hd rfl) leaf' hp
    rw [hno] at hknown
    cases hknown
  | arrayInterface hi _ => cases hno.symm.trans hi

theorem widens_classes_iff (hleaf : w.base? leaf = none) (hob : w.isObject leaf' = false) :
    w.Widens leaf 0 leaf' 0 ↔ ReflTransGen w.Inherits leaf leaf' := by
  refine ⟨fun h => ?_, .inherits⟩
  cases h with
  | refl => exact .refl
  | base hk _ _ => cases hleaf.symm.trans hk
  | null hk _ => cases hleaf.symm.trans hk
  | object _ ho' => cases hob.symm.trans ho'
  | inherits hp => exact hp

theorem not_widens_class_array (hleaf : w.base? leaf = none) : ¬ w.Widens leaf 0 leaf' (dims' + 1) := by
  intro h
  cases h with
  | null hk _ => cases hleaf.symm.trans hk

theorem widens_array_class_iff (hi : w.class? leaf' = some info)
    (hob : w.isObject leaf' = false) : w.Widens leaf (dims + 1) leaf' 0 ↔
      info.name.dotted = cloneable.dotted ∨ info.name.dotted = serializable.dotted := by
  refine ⟨fun h => ?_, .arrayInterface hi⟩
  cases h with
  | object _ ho' => cases hob.symm.trans ho'
  | arrayInterface hi' hn =>
    cases hi.symm.trans hi'
    exact hn

theorem widens_arrays_iff : w.Widens leaf (dims + 1) leaf' (dims' + 1) ↔ (leaf = leaf' ∧ dims = dims') ∨
      ¬ w.IsBase leaf dims ∧ ¬ w.IsBase leaf' dims' ∧ w.Widens leaf dims leaf' dims' := by
  refine ⟨fun h => ?_, ?_⟩
  · cases h with
    | refl => exact .inl ⟨rfl, rfl⟩
    | components hn hn' hwi => exact .inr ⟨hn, hn', hwi⟩
  · rintro (⟨rfl, rfl⟩ | ⟨hn, hn', hwi⟩)
    · exact .refl _ _
    · exact .components hn hn' hwi

structure IsLeaf (w : World) (id : TypeId) : Prop where
  knows : w.Knows id
  sort : (w.base? id).isSome ∨ (w.class? id).isSome

structure HasLeaf (w : World) (id leaf : TypeId) (dims : UInt32) : Prop where
  knows : w.Knows id
  term : w.term id = .atom leaf dims

inductive Presents (w : World) (leaf : TypeId) : UInt32 → TypeId → Prop
  | base {kind : BaseType} : w.type leaf = .base kind → Presents w leaf 0 leaf
  | declared {info : ClassInfo} : w.type leaf = .declared info → Presents w leaf 0 leaf
  | array {id inner : TypeId} {dims : UInt32} : dims ≠ 0 → w.type id = .array inner dims →
    w.HasLeaf inner leaf 0 → Presents w leaf dims id

theorem IsLeaf.presents (h : w.IsLeaf leaf) : w.Presents leaf 0 leaf := by
  obtain ⟨-, h⟩ := h
  rw [base?, class?] at h
  cases ht : w.type leaf with
  | base => exact .base ht
  | declared => exact .declared ht
  | _ => rw [ht] at h; rcases h with h | h <;> cases h

theorem IsLeaf.follow (h : w.IsLeaf leaf) : w.follow leaf = leaf ∧ w.isPending leaf = false := by
  rw [World.follow, isPending]
  cases h.presents with
  | base ht => simp [ht]
  | declared ht => simp [ht]
  | array hp => exact absurd rfl hp

theorem IsLeaf.self (h : w.IsLeaf leaf) : w.HasLeaf leaf leaf 0 := by
  refine ⟨h.knows, term_atomic ?_⟩
  cases h.presents with
  | base ht => rw [ht]; rfl
  | declared ht => rw [ht]; rfl
  | array hp => exact absurd rfl hp

section

variable (hw : w.Sound) (hf : w.Formed)

include hw hf

theorem HasLeaf.presents (hleaf : w.IsLeaf leaf)
    {dims : UInt32} (h : w.HasLeaf id leaf dims) :
    w.isPending id = false ∧ w.HasLeaf (w.follow id) leaf dims ∧ w.Presents leaf dims (w.follow id) := by
  obtain ⟨hk, hte⟩ := h
  rcases hf.term_cases hw.wellBuilt id with ⟨inner, dims', ht, hp, hd, hra⟩ |
    ⟨-, ⟨name, -, ha⟩ | ⟨-, hat⟩ | ⟨name, tgt, ht, hat⟩⟩
  · obtain rfl : dims = dims' := by rw [← hd, hte]; rfl
    have hi : w.HasLeaf inner leaf 0 := by
      have hs : (w.term inner).raise dims = (atom leaf 0).raise dims := by
        rw [← hra, hte, raise, UInt32.zero_add]
      exact ⟨hw.wellBuilt.known id inner (by simp [ht]), raise_inj hs⟩
    rw [follow_of_not_placeholder (by rw [ht]; rfl)]
    exact ⟨by rw [isPending, ht]; rfl, ⟨hk, hte⟩, .array hp ht hi⟩
  · have hr := congrArg root (ha.symm.trans hte)
    rw [root_apply] at hr
    cases hr
  · obtain ⟨rfl, rfl⟩ := atom.inj (hat.symm.trans hte)
    rw [hleaf.follow.1]
    exact ⟨hleaf.follow.2, hleaf.self, hleaf.presents⟩
  obtain ⟨hta, rfl⟩ := atom.inj (hat.symm.trans hte)
  cases tgt with
  | none =>
    obtain rfl : id = leaf := hta
    rw [hleaf.follow.1]
    exact ⟨hleaf.follow.2, hleaf.self, hleaf.presents⟩
  | some tgt =>
    obtain rfl : tgt = leaf := hta
    rw [follow, ht]
    exact ⟨by rw [isPending, ht]; rfl, hleaf.self, hleaf.presents⟩

theorem HasLeaf.eq_base (h : w.HasLeaf id leaf 0)
    (hleaf : (w.base? leaf).isSome) : id = leaf := by
  refine hf.eq_of_term_eq_atom hw.wellBuilt h.term fun name ht => ?_
  rw [base?] at hleaf
  obtain ⟨_, h⟩ | ⟨_, _, _, h⟩ := hw.registered.type_target ht <;> rw [h] at hleaf <;> cases hleaf

theorem HasLeaf.isBase_iff {dims : UInt32}
    (h : w.HasLeaf id leaf dims) : w.IsBase leaf dims.toNat ↔ (w.base? id).isSome := by
  constructor
  · rintro ⟨hd, hleaf⟩
    obtain rfl : dims = 0 := UInt32.toNat_inj.1 hd
    rwa [h.eq_base hw hf hleaf]
  · intro hid
    have ha : w.term id = .atom id 0 := term_atomic <| by
      rw [base?] at hid
      cases ht : w.type id <;> first | rfl | (rw [ht] at hid; cases hid)
    obtain ⟨rfl, rfl⟩ := atom.inj (h.term.symm.trans ha)
    exact ⟨rfl, hid⟩

theorem HasLeaf.eq_of_base? {id' : TypeId} {dims : UInt32}
    (h : w.HasLeaf id leaf dims) (h' : w.HasLeaf id' leaf dims)
    (hbase : (w.base? id).isSome ∨ (w.base? id').isSome) : id = id' := by
  rw [← h.isBase_iff hw hf, ← h'.isBase_iff hw hf, or_self] at hbase
  obtain rfl : dims = 0 := UInt32.toNat_inj.1 hbase.1
  rw [h.eq_base hw hf hbase.2, h'.eq_base hw hf hbase.2]

end

structure Beside (w u : World) : Prop where
  keeps : ({ w with comparing := u.comparing, joinDepth := u.joinDepth } : World).Keeps u
  sound : u.Sound
  formed : u.Formed

namespace Beside

variable {u v : World}

theorem refl (hw : w.Sound) (hf : w.Formed) : w.Beside w := ⟨.refl w, hw, hf⟩

theorem trans (h : w.Beside u) (huv : u.Beside v) : w.Beside v :=
  ⟨((h.keeps.recompare v.comparing).rejoin v.joinDepth).trans huv.keeps, huv.sound, huv.formed⟩

theorem onward (h : w.Beside u) (huv : u.Onward v) : w.Beside v := by
  refine h.trans ⟨?_, huv.sound, huv.formed⟩
  rw [huv.keeps.comparing, huv.keeps.joinDepth]
  exact huv.keeps

theorem recompare (h : w.Beside u) (pairs : List (TypeId × TypeId)) : w.Beside { u with comparing := pairs } :=
  ⟨h.keeps.recompare pairs, h.sound.move (.aside { Apart.refl u with }), h.formed.of_types rfl⟩

theorem base_sound (_ : w.Beside u) (hw : w.Sound) :
    Sound { w with comparing := u.comparing, joinDepth := u.joinDepth } :=
  hw.move (.aside { Apart.refl w with })

theorem base? (h : w.Beside u) (hleaf : w.Knows leaf) : u.base? leaf = w.base? leaf := h.keeps.base? hleaf

theorem base (h : w.Beside u) (hleaf : w.Knows leaf) (ht : u.type leaf = .base kind) : w.base? leaf = some kind := by
  rw [← h.base? hleaf, World.base?, ht]
  rfl

theorem declared (h : w.Beside u) (hleaf : w.Knows leaf) (ht : u.type leaf = .declared info) :
    w.base? leaf = none ∧ ∃ old, w.class? leaf = some old ∧ info.name = old.name := by
  refine ⟨by rw [← h.base? hleaf, World.base?, ht]; rfl, ?_⟩
  obtain ⟨-, hno⟩ | ⟨old, new, ho, hn, hr⟩ := h.keeps.class?_cases hleaf
  · cases hno.symm.trans (class?_eq_some.2 ht)
  · cases hn.symm.trans (class?_eq_some.2 ht)
    exact ⟨old, ho, by rw [hr.same]⟩

theorem isLeaf (h : w.Beside u) (hleaf : w.IsLeaf leaf) : u.IsLeaf leaf where
  knows := h.keeps.knows hleaf.knows
  sort := by
    have hc : (u.class? leaf).isSome = (w.class? leaf).isSome := h.keeps.class?_isSome hleaf.knows
    rw [h.base? hleaf.knows, hc]
    exact hleaf.sort

end Beside

section

variable {u : World} {dims : UInt32} {id : TypeId} (hu : w.Beside u) (hleaf : w.IsLeaf leaf)
  (h : u.Presents leaf dims id)

include hu hleaf h

theorem Presents.kinds : (∃ kind, dims = 0 ∧ id = leaf ∧ u.type id = .base kind ∧ w.base? leaf = some kind) ∨
    ¬ w.IsBase leaf dims.toNat ∧
      ((∃ info, u.type id = .declared info) ∨ ∃ inner dims, u.type id = .array inner dims) := by
  cases h with
  | @base kind ht => exact .inl ⟨kind, rfl, rfl, ht, hu.base hleaf.knows ht⟩
  | @declared info ht =>
    refine .inr ⟨fun hbase => ?_, .inl ⟨info, ht⟩⟩
    rw [IsBase, (hu.declared hleaf.knows ht).1] at hbase
    cases hbase.2
  | array hp ht _ => exact .inr ⟨fun hbase => hp (UInt32.toNat_inj.1 hbase.1), .inr ⟨_, _, ht⟩⟩

theorem Presents.isObject_iff : u.isObject id ↔ dims = 0 ∧ w.isObject leaf := by
  have hs : u.isObject leaf = w.isObject leaf := hu.keeps.isObject hleaf.knows
  cases h with
  | base => rw [hs, eq_self_iff_true, true_and]
  | declared => rw [hs, eq_self_iff_true, true_and]
  | array hp ht _ =>
    refine ⟨fun hob => ?_, fun hb => absurd hb.1 hp⟩
    have hno : u.class? id = none := by rw [class?, ht]; rfl
    rw [isObject, hno, Option.any_none, Bool.or_false, beq_iff_eq] at hob
    obtain ⟨info, hi⟩ := role_eq_declared.1 (hu.sound.linked.object id hob).role
    cases hno.symm.trans hi

end

theorem HasLeaf.onward {dims : UInt32} (h : w.HasLeaf id leaf dims) (hw : w.Sound)
    (hf : w.Formed) (hu : w.Onward u) : u.HasLeaf id leaf dims :=
  ⟨hu.keeps.knows h.knows, (hu.term hw hf h.knows).trans h.term⟩

theorem Beside.term (h : w.Beside u) (hw : w.Sound) (hf : w.Formed) (hid : w.Knows id) : u.term id = w.term id := by
  have hr : w.Respells { w with comparing := u.comparing, joinDepth := u.joinDepth } :=
    ⟨Nat.le_refl _, fun _ _ => .inl rfl⟩
  exact (h.keeps.respells.term (hf.of_types rfl) (h.base_sound hw).wellBuilt h.formed hid).trans
    (hr.term hf hw.wellBuilt (hf.of_types rfl) hid)

theorem HasLeaf.beside {dims : UInt32} (h : w.HasLeaf id leaf dims) (hw : w.Sound)
    (hf : w.Formed) (hu : w.Beside u) : u.HasLeaf id leaf dims :=
  ⟨hu.keeps.knows h.knows, (hu.term hw hf h.knows).trans h.term⟩

theorem Presents.recompare (hw : w.Sound) (hf : w.Formed) (pairs : List (TypeId × TypeId))
    {dims : UInt32} (h : w.Presents leaf dims id) :
    Presents { w with comparing := pairs } leaf dims id := by
  cases h with
  | base ht => exact .base ht
  | declared ht => exact .declared ht
  | array hp ht hi => exact .array hp ht (hi.beside hw hf ((Beside.refl hw hf).recompare pairs))

end World

namespace Query

variable {w u : World} {d : Demand} {leaf leaf' : TypeId} {info : ClassInfo}

theorem guarded_delivers {src tgt : TypeId} {decide : Query Bool} {post : Bool → World → Prop}
    (hn : (src, tgt) ∉ u.comparing)
    (hd : decide.Delivers d { u with comparing := (src, tgt) :: u.comparing } fun ans v =>
      post ans { v with comparing := v.comparing.erase (src, tgt) }) :
    (guarded src tgt decide).Delivers d u post := by
  obtain ⟨ans, v, hr, hp⟩ := hd
  refine ⟨ans, _, ?_, hp⟩
  rw [guarded, get_bind_apply, if_neg (by simpa using hn), bind_ok d u rfl, thenAlways_apply]
  rw [hr]
  rfl

theorem classCompatible_delivers (compatible : TypeId → TypeId → Query Bool) (hw : w.Sound) (hu : w.Keeps u)
    (hknown : w.HierarchyKnown leaf) (ht : u.type leaf' = .declared info)
    (hfuel : w.searchSteps ≤ d.fuel) : (classCompatible compatible leaf leaf').Delivers d u fun ans v =>
      v = u ∧ (ans = true ↔ ReflTransGen w.Inherits leaf leaf') := by
  refine .get ?_
  rw [erasureClass?, ht]
  refine .bind (asSuperType_delivers hw hu hknown hfuel) ?_
  rintro found v ⟨rfl, hf, hs⟩
  cases found with
  | none => exact .pure ⟨rfl, by simpa using hs⟩
  | some super =>
    obtain rfl := hf super rfl
    refine .get ?_
    rw [ht]
    exact .pure ⟨rfl, by simpa using hs⟩

theorem arrayCompatible_class (compatible : TypeId → TypeId → Query Bool) (inner : TypeId) (dims : UInt32)
    (ht : u.type leaf' = .declared info) : arrayCompatible compatible inner dims leaf' d u =
      (.ok (info.name.dotted == cloneable.dotted || info.name.dotted == serializable.dotted), u) := by
  rw [arrayCompatible, get_bind_apply, ht]
  dsimp only
  rw [get_bind_apply, isArrayInterface, erasureClass?, ht, Option.bind_some, class?_eq_some.2 ht]
  rfl

end Query

namespace World

variable {leaf id : TypeId}

def IsWildcard (w : World) (id : TypeId) : Prop := ∃ info, w.type id = .wildcard info

def NotedAbove (w : World) (dims : Nat) : Prop :=
  ∀ pair ∈ w.comparing, w.Knows pair.1 ∧ dims < (w.term pair.1).dimensions.toNat ∨
    w.IsWildcard pair.1 ∨ w.IsWildcard pair.2

variable {w u : World} {dims : Nat}

theorem Presents.not_isWildcard {dims : UInt32} (h : w.Presents leaf dims id) : ¬ w.IsWildcard id := by
  rintro ⟨info, hi⟩
  cases h with
  | base ht => cases ht.symm.trans hi
  | declared ht => cases ht.symm.trans hi
  | array _ ht _ => cases ht.symm.trans hi

theorem IsWildcard.keeps (hu : w.Keeps u) (h : w.IsWildcard id) : u.IsWildcard id := by
  obtain ⟨info, ht⟩ := h
  have hk : w.Knows id := lt_size_of_type_ne (by rw [ht]; nofun)
  exact ⟨info, (hu.type_eq hk (by rw [class?, ht]; rfl)).trans ht⟩

theorem NotedAbove.onward (h : w.NotedAbove dims) (hw : w.Sound) (hf : w.Formed) (hu : w.Onward u) :
    u.NotedAbove dims := by
  intro pair hp
  rw [hu.keeps.comparing] at hp
  refine (h pair hp).imp (fun ⟨hk, hlt⟩ => ?_) (.imp (.keeps hu.keeps) (.keeps hu.keeps))
  exact ⟨hu.keeps.knows hk, by rwa [hu.term hw hf hk]⟩

theorem NotedAbove.note {src tgt : TypeId} {dims : UInt32} {fewer : Nat} (h : w.NotedAbove dims.toNat)
    (hw : w.Sound) (hf : w.Formed) (hs : w.HasLeaf src leaf dims) (hfe : fewer < dims.toNat) :
    NotedAbove { w with comparing := (src, tgt) :: w.comparing } fewer := by
  intro pair hp
  obtain rfl | hp := List.mem_cons.1 hp
  · refine .inl ⟨hs.knows, ?_⟩
    rw [((Beside.refl hw hf).recompare _).term hw hf hs.knows, hs.term]
    exact hfe
  refine (h pair hp).imp_left fun ⟨hk, hlt⟩ => ⟨hk, ?_⟩
  rw [((Beside.refl hw hf).recompare _).term hw hf hk]
  omega

end World

namespace Query

variable {w u : World} {d : Demand} {leaf leaf' : TypeId}

def Compares (w : World) (leaf : TypeId) (dims : UInt32) (leaf' : TypeId) (dims' : UInt32) (u : World)
    (answer : Bool) (v : World) : Prop :=
  u.Beside v ∧ v.comparing = u.comparing ∧ (answer = true ↔ w.Widens leaf dims.toNat leaf' dims'.toNat)

def Decides (compatible : TypeId → TypeId → Query Bool) (d : Demand) (w : World) (leaf : TypeId) (dims : UInt32)
    (leaf' : TypeId) (dims' : UInt32) : Prop :=
  ∀ u source target, w.Beside u → u.HasLeaf source leaf dims → u.HasLeaf target leaf' dims' →
    u.NotedAbove dims.toNat → (compatible source target).Delivers d u (Compares w leaf dims leaf' dims' u)

theorem toNat_sub_one {dims : UInt32} (h : dims ≠ 0) : dims.toNat = (dims - 1).toNat + 1 := by
  have hp : dims.toNat ≠ 0 := fun hz => h (UInt32.toNat_inj.1 hz)
  have hle : (1 : UInt32) ≤ dims := by
    rw [UInt32.le_iff_toNat_le]
    exact Nat.one_le_iff_ne_zero.2 hp
  rw [UInt32.toNat_sub_of_le _ _ hle]
  exact (Nat.sub_add_cancel (Nat.one_le_iff_ne_zero.2 hp)).symm

theorem arrayCompatible_array {compatible : TypeId → TypeId → Query Bool} {dims dims' : UInt32}
    (hd : dims ≠ 0) (hd' : dims' ≠ 0)
    (hcom : Decides compatible d w leaf (dims - 1) leaf' (dims' - 1)) (hleaf : w.IsLeaf leaf)
    (hleaf' : w.IsLeaf leaf') (hu : w.Beside u) {inner inner' tgt : TypeId}
    (hi : u.HasLeaf inner leaf 0) (hi' : u.HasLeaf inner' leaf' 0)
    (ht : u.type tgt = .array inner' dims') (ha : u.NotedAbove (dims - 1).toNat) :
    (arrayCompatible compatible inner dims tgt).Delivers d u (Compares w leaf dims leaf' dims' u) := by
  refine .get ?_
  rw [ht]
  refine .bind (arrayType_delivers hu.sound hu.formed hi.knows (dims - 1)) ?_
  rintro comp v ⟨huv, hk, hte, -⟩
  have hi' := hi'.onward hu.sound hu.formed huv
  refine .bind (arrayType_delivers huv.sound huv.formed hi'.knows (dims' - 1)) ?_
  rintro component' x ⟨hvx, hk', hte', -⟩
  have hux := huv.trans hvx
  have hx := hu.onward hux
  have hb := (Beside.refl hu.sound hu.formed).onward hux
  have hco : x.HasLeaf comp leaf (dims - 1) := by
    refine ⟨hvx.keeps.knows hk, ?_⟩
    rw [hvx.term huv.sound huv.formed hk, hte, hi.term, raise, UInt32.zero_add]
  have hco' : x.HasLeaf component' leaf' (dims' - 1) := ⟨hk', by rw [hte', hi'.term, raise, UInt32.zero_add]⟩
  have hbase : w.IsBase leaf (dims - 1).toNat ↔ (x.base? comp).isSome := by
    rw [← hco.isBase_iff hx.sound hx.formed, IsBase, IsBase, hx.base? hleaf.knows]
  have hbase' : w.IsBase leaf' (dims' - 1).toNat ↔ (x.base? component').isSome := by
    rw [← hco'.isBase_iff hx.sound hx.formed, IsBase, IsBase, hx.base? hleaf'.knows]
  refine .get (.ite (fun hso => .pure ⟨hb, hux.keeps.comparing, ?_⟩) fun hn => ?_)
  · rw [toNat_sub_one hd, toNat_sub_one hd', widens_arrays_iff, hbase, hbase', beq_iff_eq]
    rw [Bool.or_eq_true] at hso
    constructor
    · rintro rfl
      obtain ⟨rfl, hs⟩ := atom.inj (hco.term.symm.trans hco'.term)
      exact .inl ⟨rfl, by rw [hs]⟩
    · rintro (⟨rfl, hs⟩ | ⟨hno, hno', -⟩)
      · exact hco.eq_of_base? hx.sound hx.formed (UInt32.toNat_inj.1 hs ▸ hco') hso
      · exact (hso.elim hno hno').elim
  · rw [Bool.or_eq_true, not_or] at hn
    refine (hcom x comp component' hx hco hco' (ha.onward hu.sound hu.formed hux)).mono ?_
    rintro ans y ⟨hy, hc, hif⟩
    refine ⟨hb.trans hy, hc.trans hux.keeps.comparing, ?_⟩
    rw [toNat_sub_one hd, toNat_sub_one hd', widens_arrays_iff, hbase, hbase', hif]
    constructor
    · exact fun hwi => .inr ⟨hn.1, hn.2, hwi⟩
    · rintro (⟨rfl, hs⟩ | ⟨-, -, hwi⟩)
      · rw [hs]
        exact .refl _ _
      · exact hwi

section

variable {compatible : TypeId → TypeId → Query Bool} {dims dims' : UInt32}
  (hcom : dims ≠ 0 → dims' ≠ 0 → Decides compatible d w leaf (dims - 1) leaf' (dims' - 1))
  (hw : w.Sound) (hleaf : w.IsLeaf leaf) (hleaf' : w.IsLeaf leaf')
  (hknown : (w.class? leaf).isSome → w.HierarchyKnown leaf) (hfuel : w.searchSteps ≤ d.fuel)
  (hbase : ¬ w.IsBase leaf dims.toNat) (hbase' : ¬ w.IsBase leaf' dims'.toNat)
  (hob : dims' = 0 → w.isObject leaf' = false) {src tgt : TypeId}

include hcom hw hleaf hleaf' hknown hfuel hbase hbase' hob

theorem referenceCompatible_delivers (hu : w.Beside u) (hso : u.Presents leaf dims src)
    (hta : u.Presents leaf' dims' tgt) (ha : dims ≠ 0 → u.NotedAbove (dims - 1).toNat) :
    (referenceCompatible compatible src tgt).Delivers d u (Compares w leaf dims leaf' dims' u) := by
  have hs : u.Beside u := .refl hu.sound hu.formed
  refine .get ?_
  cases hso with
  | base ht => exact absurd ⟨rfl, by rw [hu.base hleaf.knows ht]; rfl⟩ hbase
  | declared ht =>
    obtain ⟨hn, _, hi, -⟩ := hu.declared hleaf.knows ht
    cases hta with
    | base ht' => exact absurd ⟨rfl, by rw [hu.base hleaf'.knows ht']; rfl⟩ hbase'
    | declared ht' =>
      rw [ht']
      refine .get ?_
      rw [ht]
      refine (classCompatible_delivers compatible (hu.base_sound hw) hu.keeps (hknown (by rw [hi]; rfl)) ht'
        hfuel).mono ?_
      rintro ans v ⟨rfl, hif⟩
      exact ⟨hs, rfl, hif.trans (widens_classes_iff hn (hob rfl)).symm⟩
    | array hp ht' hin =>
      rw [ht']
      refine .get ?_
      rw [ht]
      refine .get ?_
      rw [erasureClass?, ht']
      refine .pure ⟨hs, rfl, ?_⟩
      rw [toNat_sub_one hp]
      simpa using not_widens_class_array hn
  | array hp ht hin =>
    cases hta with
    | base ht' => exact absurd ⟨rfl, by rw [hu.base hleaf'.knows ht']; rfl⟩ hbase'
    | declared ht' =>
      obtain ⟨-, _, hi, hna⟩ := hu.declared hleaf'.knows ht'
      rw [ht']
      refine .get ?_
      rw [ht]
      refine ⟨_, _, arrayCompatible_class compatible _ _ ht', hs, rfl, ?_⟩
      have hif : w.Widens leaf ((dims - 1).toNat + 1) leaf' 0 ↔ _ := widens_array_class_iff hi (hob rfl)
      rw [toNat_sub_one hp, hna]
      simpa using hif.symm
    | array hp' ht' hin' =>
      rw [ht']
      refine .get ?_
      rw [ht]
      exact arrayCompatible_array hp hp' (hcom hp hp') hleaf hleaf' hu hin hin' ht' (ha hp)

theorem guardedReference_delivers (hu : w.Beside u) (hs : u.HasLeaf src leaf dims)
    (hpr : u.Presents leaf dims src) (hpr' : u.Presents leaf' dims' tgt)
    (ha : u.NotedAbove dims.toNat) :
    (guarded src tgt (referenceCompatible compatible src tgt)).Delivers d u (Compares w leaf dims leaf' dims' u) := by
  refine guarded_delivers (fun hn => ?_) ?_
  · obtain ⟨-, hlt⟩ | hwi | hwi := ha _ hn
    · rw [hs.term] at hlt
      exact Nat.lt_irrefl _ hlt
    · exact hpr.not_isWildcard hwi
    · exact hpr'.not_isWildcard hwi
  · refine (referenceCompatible_delivers hcom hw hleaf hleaf' hknown hfuel hbase hbase' hob
      (hu.recompare _) (hpr.recompare hu.sound hu.formed _) (hpr'.recompare hu.sound hu.formed _)
      fun hp => ha.note hu.sound hu.formed hs ?_).mono ?_
    · rw [toNat_sub_one hp]
      exact Nat.lt_succ_self _
    · rintro ans v ⟨hv, hc, hi⟩
      refine ⟨(((Beside.refl hu.sound hu.formed).recompare _).trans hv).recompare _, ?_, hi⟩
      rw [hc, List.erase_cons_head]

end

variable {info : TypeInfo} {kind : BaseType}

theorem kindCompatible?_base (h : info.base? = none) : kindCompatible? (.base kind) info = some (kind == .null) := by
  cases info with
  | base => cases h
  | _ => cases kind <;> rfl

theorem kindCompatible?_to_base (h : info.base? = none) : kindCompatible? info (.base kind) = some false := by
  cases info with
  | base => cases h
  | _ => rfl

theorem kindCompatible?_of_reference {a b : TypeInfo}
    (ha : (∃ info, a = .declared info) ∨ ∃ inner dims, a = .array inner dims)
    (hb : (∃ info, b = .declared info) ∨ ∃ inner dims, b = .array inner dims) :
    a.base? = none ∧ b.base? = none ∧ kindCompatible? a b = none := by
  obtain ⟨_, rfl⟩ | ⟨_, _, rfl⟩ := ha <;> rcases hb with ⟨_, rfl⟩ | ⟨_, _, rfl⟩ <;> exact ⟨rfl, rfl, rfl⟩

theorem compatibleFrom_decides (hw : w.Sound) (hleaf : w.IsLeaf leaf) (hleaf' : w.IsLeaf leaf')
    (hknown : (w.class? leaf).isSome → w.HierarchyKnown leaf) (hst : w.searchSteps ≤ d.fuel) {fuel : Nat}
    {dims dims' : UInt32} (hfuel : dims.toNat < fuel) : Decides (compatibleFrom fuel) d w leaf dims leaf' dims' := by
  induction fuel generalizing dims dims' with
  | zero => cases hfuel
  | succ fuel ih =>
    intro u src tgt hu hso hta ha
    have hs : u.Beside u := .refl hu.sound hu.formed
    obtain ⟨hd, hso, hpr⟩ := hso.presents hu.sound hu.formed (hu.isLeaf hleaf)
    obtain ⟨hd', hta, hpr'⟩ := hta.presents hu.sound hu.formed (hu.isLeaf hleaf')
    rw [compatibleFrom]
    refine .step (resolved_eq_follow d hd) (.step (resolved_eq_follow d hd') ?_)
    generalize u.follow src = src at hso hpr
    generalize u.follow tgt = tgt at hta hpr'
    refine .ite (fun heq => .pure ⟨hs, rfl, ?_⟩) fun hne => .get ?_
    · subst heq
      obtain ⟨rfl, rfl⟩ := atom.inj (hso.term.symm.trans hta.term)
      exact ⟨fun _ => .refl _ _, fun _ => rfl⟩
    obtain ⟨kind, rfl, rfl, ht, hk⟩ | ⟨hbase, hre⟩ := hpr.kinds hu hleaf
    · obtain ⟨kind', rfl, rfl, ht', hk'⟩ | ⟨hbase', hre'⟩ := hpr'.kinds hu hleaf'
      · rw [ht, ht']
        exact .pure ⟨hs, rfl, (widens_bases_iff hk hk' hne).symm⟩
      · rw [ht, kindCompatible?_base (kindCompatible?_of_reference hre' hre').1]
        exact .pure ⟨hs, rfl, beq_iff_eq.trans (widens_from_base_iff hk hbase').symm⟩
    obtain ⟨kind', rfl, rfl, ht', hk'⟩ | ⟨hbase', hre'⟩ := hpr'.kinds hu hleaf'
    · rw [ht', kindCompatible?_to_base (kindCompatible?_of_reference hre hre).1]
      have hn : ¬ w.Widens leaf dims.toNat tgt 0 := not_widens_to_base hw (by rw [hk']; rfl)
        hbase hknown fun hz => hleaf.sort.resolve_left fun hsom => hbase ⟨hz, hsom⟩
      exact .pure ⟨hs, rfl, by simpa using hn⟩
    rw [(kindCompatible?_of_reference hre hre').2.2]
    have hob := hpr'.isObject_iff hu hleaf'
    refine .ite (fun hr => .pure ⟨hs, rfl, ?_⟩) fun hr => ?_
    · obtain ⟨rfl, hr⟩ := hob.1 hr
      exact ⟨fun _ => .object hbase hr, fun _ => rfl⟩
    refine guardedReference_delivers (fun hp _ => ih ?_) hw hleaf hleaf' hknown hst hbase hbase'
      (fun hz => ?_) hu hso hpr hpr' ha
    · have := toNat_sub_one hp
      omega
    · by_contra hr'
      exact hr (hob.2 ⟨hz, by simpa using hr'⟩)

end Query

namespace World

variable {w : World}

theorem Reachable.comparing (h : w.Reachable) : w.comparing = [] := show (fun w : World => w.comparing = []) w from
    h.fact (fun _ _ _ => rfl) fun _ hc hn => hc.level.comparing.trans hn

theorem Reachable.compatible_iff_widens (h : w.Reachable) {source target leaf leaf' : TypeId}
    {dims dims' : UInt32} (hsource : w.HasLeaf source leaf dims) (htarget : w.HasLeaf target leaf' dims')
    (hleaf : w.IsLeaf leaf) (hleaf' : w.IsLeaf leaf')
    (hknown : (w.class? leaf).isSome → w.HierarchyKnown leaf) : ∃ budget, ∀ d : Demand, budget ≤ d.fuel →
      ∃ answer, (compatible source target d w).1 = .ok answer ∧
        (answer = true ↔ w.Widens leaf dims.toNat leaf' dims'.toNat) := by
  have hw := h.sound
  refine ⟨w.searchSteps + dims.toNat + 1, fun d hfuel => ?_⟩
  have hnone : w.NotedAbove dims.toNat := by
    rw [NotedAbove, h.comparing]
    exact nofun
  have hdecides : Decides (compatibleFrom d.fuel) d w leaf dims leaf' dims' :=
    compatibleFrom_decides hw hleaf hleaf' hknown (by omega) (by omega)
  obtain ⟨answer, v, hrun, -, -, hiff⟩ := hdecides w source target (.refl hw h.formed) hsource htarget hnone
  refine ⟨answer, ?_, hiff⟩
  change (compatibleFrom d.fuel source target d w).1 = .ok answer
  rw [hrun]

def ringClassPath : ClassPath := .ofClasses
  [{ name := "p/Shape" }, { name := "p/Left", superclass := "p/Right" },
   { name := "p/Right", superclass := "p/Left", interfaces := ["p/Shape"] }]

def ringWorld : World :=
  (initial {} ringClassPath {}).after
    [.getType ⟨["p", "Left"]⟩, .getType ⟨["p", "Right"]⟩, .getType ⟨["p", "Shape"]⟩, .superclass ⟨10⟩,
      .superclass ⟨11⟩, .superclass ⟨12⟩, .superInterfaces ⟨11⟩, .superclass ⟨14⟩, .arrayType ⟨10⟩ 2,
      .arrayType ⟨12⟩ 2]

theorem compatible_iff_widens_ring :
    ringWorld.type ⟨15⟩ = .array ⟨10⟩ 2 ∧ ringWorld.type ⟨16⟩ = .array ⟨12⟩ 2 ∧
      ⟨11⟩ ∈ ringWorld.parents ⟨10⟩ ∧ ⟨10⟩ ∈ ringWorld.parents ⟨11⟩ ∧ ⟨12⟩ ∈ ringWorld.parents ⟨11⟩ ∧
      ∃ budget, ∀ d : Demand, budget ≤ d.fuel → (compatible ⟨15⟩ ⟨16⟩ d ringWorld).1 = .ok true := by
  have hread : ringWorld.types.size = 17 ∧ ringWorld.term ⟨15⟩ = .atom ⟨10⟩ 2 ∧ ringWorld.term ⟨16⟩ = .atom ⟨12⟩ 2 ∧
      (ringWorld.base? ⟨10⟩ = none ∧ (ringWorld.class? ⟨10⟩).isSome = true) ∧
      (ringWorld.base? ⟨12⟩ = none ∧ (ringWorld.class? ⟨12⟩).isSome = true) ∧
      ⟨11⟩ ∈ ringWorld.parents ⟨10⟩ ∧ ⟨12⟩ ∈ ringWorld.parents ⟨11⟩ ∧
      ringWorld.isClosed (·.supertypesKnown) [⟨10⟩, ⟨11⟩, ⟨12⟩, ⟨14⟩] = true := by
    decide +kernel
  obtain ⟨hsize, hterm, hterm', ⟨hbase, hclass⟩, ⟨hbase', hclass'⟩, hup, hshape, hclosed⟩ := hread
  have hknows : ∀ index, index < 17 → ringWorld.Knows ⟨index⟩ := fun index h => Nat.lt_of_lt_of_eq h hsize.symm
  have hreach : ringWorld.Reachable := (Reachable.initial {} ringClassPath {}).after _
  obtain ⟨budget, h⟩ := hreach.compatible_iff_widens ⟨hknows 15 (by decide), hterm⟩
    ⟨hknows 16 (by decide), hterm'⟩ ⟨hknows 10 (by decide), .inr hclass⟩ ⟨hknows 12 (by decide), .inr hclass'⟩
    fun _ => hierarchyKnown_of_closed hclosed (by decide)
  have hwidens : ringWorld.Widens ⟨10⟩ 2 ⟨12⟩ 2 := by
    refine .components (fun h => by cases h.1) (fun h => by cases h.1) (.components ?_ ?_ (.inherits ?_))
    · rw [IsBase, hbase]
      simp
    · rw [IsBase, hbase']
      simp
    · exact .head hup (.single hshape)
  refine ⟨by decide +kernel, by decide +kernel, hup, by decide +kernel, hshape, budget, fun d hfuel => ?_⟩
  obtain ⟨answer, hrun, hiff⟩ := h d hfuel
  rw [hrun, hiff.2 hwidens]

end World

end Bindings
