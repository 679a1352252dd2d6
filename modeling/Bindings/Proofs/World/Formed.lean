import Bindings.Proofs.World.Course

/-! # Well-formed types -/

namespace Bindings

open TypeInfo

variable {info : TypeInfo} {tgt id : TypeId} {change : ClassInfo → ClassInfo}

theorem TypeInfo.isNormal_swap {src : TypeId} (h : info.IsNormal) : (info.swap src tgt).IsNormal := by
  cases info with
  | array => exact h
  | wildcard info =>
    intro hk
    rw [h hk]
    rfl
  | «variable» info =>
    intro first hf
    obtain ⟨old, ho, rfl⟩ := Option.map_eq_some_iff.1 hf
    have hm : old ∈ info.superclass.toList ++ info.interfaces := h old ho
    have hs := List.mem_map_of_mem (f := TypeId.swap src tgt) hm
    rwa [List.map_append, ← Option.toList_map] at hs
  | _ => trivial

theorem TypeInfo.isNormal_mapClass (h : info.IsNormal) : (info.mapClass change).IsNormal := by
  cases info with
  | declared => trivial
  | _ => exact h

namespace World

variable {w w' : World} {task : Option Task} {stop : Option Halt}

structure Formed (w : World) : Prop where
  order : ∀ id component, component ∈ (w.type id).components → (w.type component).isConstructed →
    component.index < id.index
  normal : ∀ id, (w.type id).IsNormal
  parameters : ∀ id info, w.class? id = some info → ∀ var ∈ info.typeVariables, w.IsVariable var

theorem formed_initial (options : Options) (classPath : ClassPath) (log : ProblemLog) :
    (initial options classPath log).Formed where
  order id comp hm _ := by
    obtain ⟨base, hb⟩ := type_initial options classPath log id
    rw [hb] at hm
    cases hm
  normal id := by
    obtain ⟨base, hb⟩ := type_initial options classPath log id
    rw [hb]
    trivial
  parameters id info hi := absurd hi (no_class_initial options classPath log id info)

namespace Formed

variable (hw : w.Formed)

include hw

theorem of_types (h : w'.types = w.types) : w'.Formed := by
  have ht : ∀ id, w'.type id = w.type id := fun id => by rw [World.type, h, World.type]
  refine ⟨fun id comp hm hc => ?_, fun id => ?_, fun id info hi var hv => ?_⟩
  · rw [ht] at hm hc
    exact hw.order id comp hm hc
  · rw [ht]
    exact hw.normal id
  · rw [class?, ht] at hi
    rw [IsVariable, ht]
    exact hw.parameters id info hi var hv

theorem spares (h : w.Spares w') : w'.Formed := hw.of_types h.types

theorem modifyType {change : TypeInfo → TypeInfo}
    (hg : w.Grows (w.modifyType id change)) (hvo : change (.base .void) = .base .void)
    (hb : (w.type id).SameBuild (change (w.type id))) (hno : (change (w.type id)).IsNormal)
    (hva : ∀ new, (change (w.type id)).class? = some new → ∀ var ∈ new.typeVariables, w.IsVariable var) :
    (w.modifyType id change).Formed := by
  have ht : ∀ other, (w.modifyType id change).type other =
      if other = id then change (w.type other) else w.type other := type_modifyType hvo
  have hs : ∀ other, (w.type other).SameBuild ((w.modifyType id change).type other) := by
    intro other
    rw [ht]
    split
    · next heq => exact heq ▸ hb
    · exact .inl rfl
  refine ⟨fun other comp hm hc => ?_, fun other => ?_, fun other new hn var hv => ?_⟩
  · rw [(hs other).components] at hm
    rw [(hs comp).isConstructed] at hc
    exact hw.order other comp hm hc
  · rw [ht]
    split
    · next heq => exact heq ▸ hno
    · exact hw.normal other
  · refine IsVariable.grows hg ?_
    rw [class?, ht] at hn
    split at hn
    · next heq => exact hva new (heq ▸ hn) var hv
    · exact hw.parameters other new hn var hv

theorem modifyClass (id : TypeId) (hk : ∀ info, w.class? id = some info → info.KeptAs (change info))
    (hva : ∀ info, w.class? id = some info → ∀ var ∈ (change info).typeVariables,
      var ∈ info.typeVariables ∨ w.IsVariable var) : (w.modifyClass id change).Formed := by
  refine hw.modifyType (.modifyClass id hk) rfl (mapClass_sameBuild change _)
    (isNormal_mapClass (hw.normal id)) fun new hn var hv => ?_
  rw [class?_mapClass] at hn
  obtain ⟨old, ho, rfl⟩ := Option.map_eq_some_iff.1 hn
  exact (hva old ho var hv).elim (hw.parameters id old ho var) fun h => h

theorem push (hb : w.WellBuilt) (hg : w.Grows w')
    (hty : w'.types = w.types.push info) (hno : info.IsNormal)
    (hk : ∀ comp ∈ info.components, w.Knows comp)
    (hva : ∀ new, info.class? = some new → new.typeVariables = []) : w'.Formed := by
  have ht := type_of_push hty
  refine ⟨fun id comp hm hc => ?_, fun id => ?_, fun id new hn var hv => ?_⟩
  · rw [ht] at hm
    split at hm
    · next hid => exact hid ▸ hk comp hm
    · rw [ht, if_neg (Nat.ne_of_lt (hb.known id comp hm))] at hc
      exact hw.order id comp hm hc
  · rw [ht]
    split
    · exact hno
    · exact hw.normal id
  · rw [class?, ht] at hn
    split at hn
    · rw [hva new hn] at hv
      cases hv
    · exact (hw.parameters id new hn var hv).grows hg

theorem swapPlaceholder (hb : w.WellBuilt) {hole : TypeId} {name : QName}
    (hp : w.type hole = .placeholder name none) (hf : w.IsFresh tgt) :
    (w.swapPlaceholder hole tgt).Formed := by
  have hg : w.Grows (w.swapPlaceholder hole tgt) := .swapPlaceholder tgt hp
  refine ⟨fun id comp hm hc => ?_, fun id => ?_, fun id new hn var hv => ?_⟩
  · rw [WellBuilt.isConstructed_swap tgt hp] at hc
    obtain rfl | ⟨hm, -⟩ := hb.mem_components_swap hp hm
    · rw [hf.isConstructed] at hc
      cases hc
    · exact hw.order id comp hm hc
  · rw [type_swapPlaceholder hp]
    split
    · trivial
    split
    · exact isNormal_swap (hw.normal id)
    · exact hw.normal id
  · refine IsVariable.grows hg ?_
    rw [class?, type_swapPlaceholder hp] at hn
    split at hn
    · cases hn
    split at hn
    · obtain ⟨old, ho, rfl⟩ := class?_swap.1 hn
      exact hw.parameters id old ho var hv
    · exact hw.parameters id new hn var hv

theorem registerType (hb : w.WellBuilt) (hf : w.IsFresh id)
    (pkg : PackageId) (simple : String) : (Edit.registerType pkg simple id w).2.Formed := by
  have hl : (w.list pkg simple id).Formed := hw.of_types rfl
  refine registerType_elim w pkg simple id (fun _ => hw.of_types rfl) fun existing name hp => ?_
  exact hl.swapPlaceholder (hb.list pkg simple id) hp ⟨hf.lt, hf.notMem, hf.isConstructed, hf.isPending⟩

theorem move (hb : w.WellBuilt) (h : Move w w') : w'.Formed := by
  have hg := h.grows
  cases h with
  | aside h => exact hw.spares h.toSpares
  | amend id change h _ hv => exact hw.modifyClass id (fun info hi => (h info hi).toKeptAs) hv
  | bound id change h _ =>
    refine hw.modifyType hg (TypeInfo.Rebound.void h) (h _).sameBuild ((h _).isNormal (hw.normal id)) ?_
    exact fun new hn => hw.parameters id new ((h _).class?.symm.trans hn)
  | add info h _ =>
    refine hw.push hb hg rfl h.isNormal (fun comp hm => ?_) fun new hn => (h.class? hn).typeVariables
    rw [TypeInfo.components_eq_nil h.isConstructed] at hm
    cases hm
  | enter mayAdd segs => exact hw.of_types (by rw [(enterPackage_grows ..).same])
  | placeholder name =>
    obtain ⟨-, ht | ht⟩ := typeOrPlaceholder_with w name
    · exact hw.of_types ht
    · exact hw.push hb hg ht trivial (by simp) (by simp)
  | build h =>
    refine hw.push hb hg h.types h.normal h.known fun new hn => ?_
    have hc := h.isConstructed
    rw [TypeInfo.class?_eq_some.1 hn] at hc
    cases hc
  | arrive info h _ _ =>
    have ha : (w.addType (.declared info)).2.Formed := by
      refine hw.push hb (.of_push rfl) rfl trivial (by simp) ?_
      rintro _ ⟨⟩
      exact h.typeVariables
    exact ha.registerType (hb.addType rfl) (hb.isFresh_new rfl rfl rfl) _ _
  | vanish hp hf _ => exact hw.swapPlaceholder hb hp hf

end Formed

theorem Course.formed (h : Course task stop w w') (hw : w.Sound) (hf : w.Formed) : w'.Formed := by
  refine h.keeps (fun _ hs hf => hf.spares hs) (fun id change _ hk hf => ?_)
    (fun hw hm hf => hf.move hw.wellBuilt hm) hw hf
  refine hf.modifyClass id (fun info hi => (hk info hi).1) fun info hi var hv => .inl ?_
  rwa [← (hk info hi).2.2]

end World

end Bindings
