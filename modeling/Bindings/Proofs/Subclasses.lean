import Bindings.Proofs.Inheritance
import Bindings.Proofs.Reachable

/-!
# Subclasses

In a world where everything is loaded, `isSubclassOf` decides whether one class is reached from another by
steps to the class of a direct supertype, with cycles or without (`FullyLoaded.isSubclassOf_iff_reaches`).
-/

open Relation

namespace Bindings

open World

namespace World

variable {w u : World} {id : TypeId}

/-- The type is a class or a missing one, or stands for such a type. -/
def NamesClass (w : World) (id : TypeId) : Prop :=
  w.role (w.follow id) = .declared ∨ w.role (w.follow id) = .missing

instance : Decidable (w.NamesClass id) := inferInstanceAs (Decidable (_ ∨ _))

/-- Every name has been looked up, and every class has its supertypes. Those that are built on something are
built on a class. -/
structure FullyLoaded (w : World) : Prop where
  done : ∀ id, w.isPending id = false
  known : ∀ id info, w.class? id = some info → info.supertypesKnown
  built : ∀ id super, w.Inherits id super → ∀ erased ∈ w.erasureClass? super, w.NamesClass erased

def isFullyLoaded (w : World) : Bool :=
  ((List.range w.types.size).map TypeId.mk).all fun id =>
    !w.isPending id && (w.class? id).all (·.supertypesKnown) &&
      (w.parents id).all fun super => (w.erasureClass? super).all (w.NamesClass ·)

theorem type_of_not_knows (hid : ¬ w.Knows id) : w.type id = .base .void := by
  by_contra hne
  exact hid (lt_size_of_type_ne hne)

theorem fullyLoaded_of_test (h : w.isFullyLoaded) : w.FullyLoaded := by
  have ht : ∀ id, w.isPending id = false ∧ (∀ info, w.class? id = some info → info.supertypesKnown) ∧
      ∀ super ∈ w.parents id, ∀ erased ∈ w.erasureClass? super, w.NamesClass erased := by
    intro id
    by_cases hid : w.Knows id
    · rw [isFullyLoaded, List.all_eq_true] at h
      simpa [Option.all_eq_true, and_assoc] using h id (List.mem_map.2 ⟨id.index, List.mem_range.2 hid, rfl⟩)
    · simp [isPending, parents, class?, type_of_not_knows hid]
  exact ⟨fun id => (ht id).1, fun id => (ht id).2.1, fun id => (ht id).2.2⟩

theorem NamesClass.knows (h : w.NamesClass id) : w.Knows id := by
  by_contra hid
  simp [NamesClass, follow, role, type_of_not_knows hid, TypeInfo.role] at h

/-- The classes of the direct supertypes of a class, or of what stands for it. -/
def erasedParents (w : World) (id : TypeId) : List TypeId := (w.parents (w.follow id)).filterMap w.erasureClass?

def StepsTo (w : World) (sub super : TypeId) : Prop := super ∈ w.erasedParents sub

def erasedSteps (w : World) : Nat :=
  1 + (((List.range w.types.size).map TypeId.mk).map fun id => (w.erasedParents id).length).sum

end World

namespace Query

variable {w : World} {d : Demand} {id : TypeId}

theorem superErasures_loaded (hl : w.FullyLoaded) (hid : w.NamesClass id) (hf : d.fuel ≠ 0) :
    superErasures id d w = (.ok (w.erasedParents id), w) := by
  have hre : ∀ id, resolved id d w = (.ok (w.follow id), w) := fun id => resolved_eq_follow d (hl.done id)
  rw [erasedParents, parents]
  obtain hc | hm := hid
  · obtain ⟨info, hi⟩ := role_eq_declared.1 hc
    have hk := hl.known _ info hi
    have hr : ∀ stored ∈ info.supertypes, resolved stored d w = (.ok (w.follow stored), w) := fun stored _ => hre stored
    rw [superErasures_eq (superclass_known (hre id) hi hk hr hf)
      (superInterfaces_known (hre id) hi hk hr hf), hi, Option.map_some, Option.getD_some,
      ClassInfo.supertypes, List.map_append, Option.toList_map]
  obtain ⟨fuel, hf⟩ := Nat.exists_eq_succ_of_ne_zero hf
  rw [role, TypeInfo.role_eq_missing] at hm
  have hn : w.class? (w.follow id) = none := by
    rw [class?]
    cases ht : w.type (w.follow id) <;> first | rfl | (rw [ht] at hm; cases hm)
  have hs : superclass id d w = (.ok none, w) := by
    change superclassFrom d.fuel id d w = _
    rw [hf, superclassFrom, bind_ok d w (hre id), get_bind_apply]
    cases ht : w.type (w.follow id) <;> first | rfl | (rw [ht] at hm; cases hm)
  have hin : superInterfaces id d w = (.ok [], w) := by
    change superInterfacesFrom d.fuel id d w = _
    rw [hf, superInterfacesFrom, bind_ok d w (hre id), get_bind_apply]
    cases ht : w.type (w.follow id) <;> first | rfl | (rw [ht] at hm; cases hm)
  rw [superErasures_eq hs hin, hn]
  rfl

theorem isSubclassOf_loaded {a b sub sup : TypeId} (hl : w.FullyLoaded) (ha : w.erasureClass? a = some sub)
    (hb : w.erasureClass? b = some sup) (hsu : w.NamesClass sub) (hf : w.erasedSteps ≤ d.fuel) :
    (isSubclassOf a b).Delivers d w fun ans v =>
      v = w ∧ (ans = true ↔ w.isObject sup ∨ ReflTransGen w.StepsTo sub sup) := by
  have hpo : d.fuel ≠ 0 := fun hz => by
    rw [hz, erasedSteps] at hf
    omega
  have hn : ∀ place, w.NamesClass place → ∀ other ∈ w.erasedParents place, w.NamesClass other := by
    intro place _ other ho
    obtain ⟨super, hs, he⟩ := List.mem_filterMap.1 ho
    exact hl.built (w.follow place) super hs other he
  have hpl : ∀ place, w.NamesClass place → place ∈ (List.range w.types.size).map TypeId.mk :=
    fun place hp => List.mem_map.2 ⟨place.index, List.mem_range.2 hp.knows, rfl⟩
  exact isSubclassOf_visits ha hb hsu (fun place hp => superErasures_loaded hl hp hpo) hn hpl hf

end Query

namespace World

variable {w : World} {d : Demand} {a b sub sup : TypeId}

theorem FullyLoaded.isSubclassOf_iff_reaches (hloaded : w.FullyLoaded) (ha : w.erasureClass? a = some sub)
    (hb : w.erasureClass? b = some sup) (hsub : w.NamesClass sub) (hfuel : w.erasedSteps ≤ d.fuel) :
    ∃ answer, Query.isSubclassOf a b d w = (.ok answer, w) ∧
      (answer = true ↔ w.isObject sup ∨ ReflTransGen w.StepsTo sub sup) := by
  obtain ⟨answer, _, hrun, rfl, hanswer⟩ := Query.isSubclassOf_loaded hloaded ha hb hsub hfuel
  exact ⟨answer, hrun, hanswer⟩

def henClassPath : ClassPath := .ofClasses
  [{ name := "p/Hen", superclass := "p/Egg" }, { name := "p/Egg", superclass := "p/Hen" },
   { name := "p/Nest", superclass := "p/Hen" }]

def henWorld : World :=
  (initial {} henClassPath {}).after
    [.getType ⟨["p", "Nest"]⟩, .getType ⟨["p", "Hen"]⟩, .getType ⟨["p", "Egg"]⟩, .superclass ⟨10⟩,
      .superInterfaces ⟨10⟩, .superclass ⟨11⟩, .superInterfaces ⟨11⟩, .superclass ⟨12⟩, .superInterfaces ⟨12⟩]

theorem isSubclassOf_iff_reaches_hen : henWorld.Reachable ∧ henWorld.StepsTo ⟨11⟩ ⟨12⟩ ∧ henWorld.StepsTo ⟨12⟩ ⟨11⟩ ∧
    Query.isSubclassOf ⟨10⟩ ⟨12⟩ .standard henWorld = (.ok true, henWorld) := by
  have hread : henWorld.isFullyLoaded = true ∧ henWorld.erasureClass? ⟨10⟩ = some ⟨10⟩ ∧
      henWorld.erasureClass? ⟨12⟩ = some ⟨12⟩ ∧ henWorld.NamesClass ⟨10⟩ ∧
      henWorld.erasedSteps ≤ Demand.standard.fuel ∧ ⟨11⟩ ∈ henWorld.erasedParents ⟨10⟩ ∧
      ⟨12⟩ ∈ henWorld.erasedParents ⟨11⟩ ∧ ⟨11⟩ ∈ henWorld.erasedParents ⟨12⟩ := by decide +kernel
  obtain ⟨hloaded, hnest, hegg, hnames, hfuel, hstep₁, hstep₂, hstep₃⟩ := hread
  obtain ⟨answer, hrun, hanswer⟩ := (fullyLoaded_of_test hloaded).isSubclassOf_iff_reaches hnest hegg hnames hfuel
  obtain rfl : answer = true := hanswer.2 (.inr (.head hstep₁ (.single hstep₂)))
  exact ⟨(Reachable.initial {} henClassPath {}).after _, hstep₂, hstep₃, hrun⟩

end World

end Bindings
