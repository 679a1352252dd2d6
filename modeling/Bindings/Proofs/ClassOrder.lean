import Bindings.Proofs.Meets

/-! # The order of classes -/

open Relation

namespace Bindings

open World Query

namespace World

variable {w u : World} {id root sub sup tgt : TypeId}

/-- The root of the hierarchy is a class, there is nothing above it, and there is no other one. -/
structure RootKnown (w : World) (root : TypeId) : Prop where
  object : w.object = some root
  known : w.HierarchyKnown root
  top : w.parents root = []
  isRoot : ∀ id, w.isObject id → id = root
  isClass : isInterfaceType w root = false

def Descends (w : World) (sub sup : TypeId) : Prop := w.isObject sup ∨ ReflTransGen w.Inherits sub sup

theorem RootKnown.eq_of_inherits (h : w.RootKnown root) (hp : ReflTransGen w.Inherits root sup) : sup = root := by
  obtain rfl | ⟨super, hs, -⟩ := hp.cases_head
  · rfl
  · rw [Inherits, h.top] at hs
    cases hs

theorem RootKnown.descends_trans (h : w.RootKnown root) {mid : TypeId} (hs : w.Descends sub mid)
    (hsu : w.Descends mid sup) : w.Descends sub sup := by
  obtain ho | hp := hsu
  · exact .inl ho
  obtain ho | hp' := hs
  · obtain rfl := h.isRoot mid ho
    rw [h.eq_of_inherits hp]
    exact .inl ho
  · exact .inr (hp'.trans hp)

def isRootKnown (w : World) (root : TypeId) : Bool :=
  w.object == some root && (w.class? root).any (fun info => info.supertypesKnown && !info.isInterface) &&
    (w.parents root).isEmpty && (List.range w.types.size).all fun index => !w.isObject ⟨index⟩ || index == root.index

theorem rootKnown_of_test (h : w.isRootKnown root) : w.RootKnown root := by
  simp only [isRootKnown, Bool.and_eq_true, beq_iff_eq, List.isEmpty_iff, List.all_eq_true, List.mem_range] at h
  obtain ⟨⟨⟨ho, hc⟩, hto⟩, ha⟩ := h
  obtain ⟨info, hi, hki⟩ := (Option.any_eq_true ..).1 hc
  rw [Bool.and_eq_true] at hki
  refine ⟨ho, fun super hp => ?_, hto, fun id hid => ?_, ?_⟩
  · obtain rfl | ⟨super, hs, -⟩ := hp.cases_head
    · rw [hi]
      exact hki.1
    · rw [Inherits, hto] at hs
      cases hs
  · have hk : w.Knows id := by
      rw [isObject, Bool.or_eq_true, beq_iff_eq] at hid
      obtain hid | hid := hid
      · cases ho.symm.trans hid
        exact lt_size_of_class? hi
      · obtain ⟨_, hi, -⟩ := (Option.any_eq_true ..).1 hid
        exact lt_size_of_class? hi
    have ht := ha id.index hk
    rw [show (⟨id.index⟩ : TypeId) = id from rfl, hid] at ht
    cases id
    cases root
    simpa using ht
  · rw [isInterfaceType, erasureClass?, class?_eq_some.1 hi, Option.bind_some, hi]
    simpa using hki.2

namespace Extends

variable (h : w.Extends u)

include h

theorem class?_eq (id : TypeId) : u.class? id = w.class? id := by
  by_cases hid : w.Knows id
  · rw [class?, h.type id hid, class?]
  · rw [h.added id hid, class?_of_not_knows hid]

theorem erasureClass?_eq (hid : w.Knows id) : u.erasureClass? id = w.erasureClass? id := by
  simp only [erasureClass?, h.type id hid, h.class?_eq]

theorem isObject_eq (id : TypeId) : u.isObject id = w.isObject id := by rw [isObject, isObject, h.object, h.class?_eq]

theorem isClassBound_eq (hid : w.Knows id) : isClassBound u id = isClassBound w id := by
  simp only [isClassBound, h.erasureClass?_eq hid, h.class?_eq, h.type id hid]

theorem isInterfaceBound_eq (hid : w.Knows id) : isInterfaceBound u id = isInterfaceBound w id := by
  simp only [isInterfaceBound, h.erasureClass?_eq hid, funext h.class?_eq]

theorem stands (hid : w.Knows id) (hs : w.Stands id tgt) : u.Stands id tgt := by
  rw [Stands, role, h.type id hid]
  exact hs

section

variable (hw : w.Sound)

include hw

theorem parents_eq (id : TypeId) : u.parents id = w.parents id := by
  rw [parents, parents, h.class?_eq]
  cases hi : w.class? id with
  | none => rfl
  | some info =>
    refine List.map_congr_left fun stored hs => ?_
    have hk : w.Knows stored := hw.stocked (.type id) stored (by
      rw [held, class?_eq_some.1 hi]
      exact List.mem_append_left _ hs)
    rw [follow, follow, h.type stored hk]

theorem inherits_eq : u.Inherits = w.Inherits := by
  funext sub super
  rw [Inherits, Inherits, h.parents_eq hw]

theorem hierarchyKnown_iff : u.HierarchyKnown id ↔ w.HierarchyKnown id := by
  simp only [HierarchyKnown, h.inherits_eq hw, h.class?_eq]

theorem searchSteps_eq (hs : w.types.size ≤ u.types.size) : u.searchSteps = w.searchSteps := by
  obtain ⟨more, hm⟩ := Nat.exists_eq_add_of_le hs
  have hn : ∀ i, w.parents ⟨w.types.size + i⟩ = [] := fun i => by
    rw [parents, class?_of_not_knows (Nat.not_lt.2 (Nat.le_add_right ..))]
    rfl
  rw [searchSteps, searchSteps, hm, List.range_add]
  simp [Function.comp_def, hn, h.parents_eq hw]

end

end Extends

structure Enlarges (w u : World) : Prop extends w.Extends u where
  sound : u.Sound
  size : w.types.size ≤ u.types.size
  comparing : u.comparing = []

end World

namespace Query

variable {u : World} {d : Demand} {sub sup : TypeId} {list : List TypeId}

section

variable (hu : u.Sound) (hst : u.searchSteps ≤ d.fuel)

include hu hst

theorem compatibleFrom_classes (hs : u.HierarchyKnown sub) (hsu : (u.class? sup).isSome)
    (hn : (sub, sup) ∉ u.comparing) (fuel : Nat) : (compatibleFrom (fuel + 1) sub sup).Delivers d u fun ans v =>
      u = v ∧ (ans = true ↔ u.Descends sub sup) := by
  obtain ⟨info, hi, -⟩ := hs.class?
  obtain ⟨info', hi'⟩ := Option.isSome_iff_exists.1 hsu
  rw [compatibleFrom]
  refine .step (resolved_apply hi d) (.step (resolved_apply hi' d) ?_)
  refine .ite (fun heq => .pure ⟨rfl, fun _ => heq ▸ .inr .refl, fun _ => rfl⟩) fun _ => .get ?_
  rw [class?_eq_some.1 hi, class?_eq_some.1 hi']
  refine .ite (fun ho => .pure ⟨rfl, fun _ => .inl ho, fun _ => rfl⟩) fun ho => ?_
  let noted : World := { u with comparing := (sub, sup) :: u.comparing }
  have hno : noted.Sound := hu.move (.aside { Apart.refl u with })
  refine guarded_delivers hn (.get ?_)
  rw [show noted.type sup = .declared info' from class?_eq_some.1 hi']
  refine .get ?_
  rw [show noted.type sub = .declared info from class?_eq_some.1 hi]
  refine (classCompatible_delivers (w := noted) _ hno (.refl noted) hs (class?_eq_some.1 hi') hst).mono ?_
  rintro ans v ⟨rfl, hif⟩
  refine ⟨by simp [noted], hif.trans ⟨.inr, fun h => h.resolve_left ho⟩⟩

theorem comparesAs_classes (hc : u.comparing = []) (h : ∀ id ∈ list, u.HierarchyKnown id)
    {below : TypeId → TypeId → Bool} (hb : ∀ a b, below a b = true ↔ u.Descends a b) :
    ComparesAs d (u = ·) list below := by
  rintro _ rfl sub hs sup hsu
  obtain ⟨info, hi, -⟩ := (h sup hsu).class?
  obtain ⟨fuel, hf⟩ := Nat.exists_eq_succ_of_ne_zero (n := d.fuel) (by rw [searchSteps] at hst; omega)
  refine .fuel ?_
  rw [hf]
  refine (compatibleFrom_classes hu hst (h sub hs) (by rw [hi]; rfl) (by simp [hc]) fuel).mono ?_
  exact fun ans v h => ⟨h.1, Bool.eq_iff_iff.2 (h.2.trans (hb sub sup).symm)⟩

end

end Query

end Bindings
