import Bindings.Proofs.World.Course

/-!
# What stays of types

Along a move, constructed types change only by the swap of a placeholder (`Retyped.move`), so a type that is built
on classes stays what it is (`Course.type_eq`). A class keeps the type variables that it was made with
(`Course.sameVariables`).
-/

namespace Bindings

open TypeInfo

theorem TypeId.swap_self (id : TypeId) : TypeId.swap id id = fun other => other := by
  funext other
  rw [TypeId.swap]
  split
  · next heq => exact heq.symm
  · rfl

theorem TypeInfo.swap_self (id : TypeId) (info : TypeInfo) : info.swap id id = info := by
  cases info <;> simp [swap, TypeId.swap_self]

theorem TypeId.swap_cases (src tgt id : TypeId) :
    TypeId.swap src tgt id = id ∨ id = src ∧ TypeId.swap src tgt id = tgt := by
  by_cases h : id = src
  · exact .inr ⟨h, if_pos h⟩
  · exact .inl (if_neg h)

namespace World

variable {w w' : World} {task : Option Task} {stop : Option Halt} {id : TypeId} {info : ClassInfo}

structure Retyped (w w' : World) : Prop where
  grows : w.Grows w'
  swaps : ∃ source target, (source = target ∨
      w.isPending source ∧ w'.Knows target ∧ (w'.type target).sort ≠ .wildcard) ∧
    ∀ id, w.Knows id → ((w.type id).swap source target).SameBuild (w'.type id)

namespace Retyped

theorem of_sameBuild (hg : w.Grows w') (h : ∀ id, w.Knows id → (w.type id).SameBuild (w'.type id)) :
    w.Retyped w' := by
  refine ⟨hg, ⟨0⟩, ⟨0⟩, .inl rfl, fun id hid => ?_⟩
  rw [swap_self]
  exact h id hid

theorem of_types (hg : w.Grows w') (h : w'.types = w.types) : w.Retyped w' :=
  of_sameBuild hg fun id _ => .inl (by rw [World.type, h, World.type])

theorem push {info : TypeInfo} (hg : w.Grows w') (h : w'.types = w.types.push info) : w.Retyped w' :=
  of_sameBuild hg fun id hid => .inl (by rw [type_of_push h, if_neg (Nat.ne_of_lt hid)])

theorem modifyType {change : TypeInfo → TypeInfo} (hg : w.Grows (w.modifyType id change))
    (hb : ∀ info : TypeInfo, info.SameBuild (change info)) (hv : change (.base .void) = .base .void) :
    w.Retyped (w.modifyType id change) := by
  refine of_sameBuild hg fun other _ => ?_
  rw [type_modifyType hv]
  split
  · exact hb _
  · exact .inl rfl

theorem swapPlaceholder (hw : w.WellBuilt) {hole tgt : TypeId} {name : QName}
    (hp : w.type hole = .placeholder name none) (ht : w.Knows tgt)
    (hs : (w.type tgt).sort ≠ .wildcard) : w.Retyped (w.swapPlaceholder hole tgt) := by
  refine ⟨.swapPlaceholder tgt hp, hole, tgt, .inr ⟨by rw [isPending, hp]; rfl, ?_, ?_⟩, fun id _ => ?_⟩
  · rwa [Knows, size_swapPlaceholder hp]
  · rwa [sort_swapPlaceholder hp]
  · cases hid : (w.type id).isConstructed with
    | true => exact .inl (hw.type_swap_of_isConstructed hp hid)
    | false => exact .inr ⟨isConstructed_swap.trans hid, (WellBuilt.isConstructed_swap tgt hp id).trans hid⟩

theorem registerType (hw : w.WellBuilt) (hid : w.Knows id) (hs : (w.type id).sort ≠ .wildcard)
    (pkg : PackageId) (simple : String) : w.Retyped (Edit.registerType pkg simple id w).2 := by
  have hg := Grows.registerType (w := w) pkg simple id
  revert hg
  refine registerType_elim w pkg simple id (fun _ hg => of_types hg rfl) fun existing name hp hg => ?_
  exact ⟨hg, (swapPlaceholder (hw.list pkg simple id) hp hid hs).swaps⟩

theorem move {fact : World → Prop} (hf : ∀ {u u' : World}, u.Retyped u' → fact u → fact u') (hw : w.WellBuilt)
    (h : Move w w') : fact w → fact w' := by
  have hg := h.grows
  cases h with
  | aside h => exact hf (of_types hg h.types)
  | amend id change _ _ _ => exact hf (modifyType hg (mapClass_sameBuild change) rfl)
  | bound id change h _ => exact hf (modifyType hg (fun info => (h info).sameBuild) (Rebound.void h))
  | add info _ _ => exact hf (push hg rfl)
  | enter mayAdd segs => exact hf (of_types hg (by rw [(enterPackage_grows ..).same]))
  | placeholder name =>
    obtain ⟨-, hty | hty⟩ := typeOrPlaceholder_with w name
    · exact hf (of_types hg hty)
    · exact hf (push hg hty)
  | build h => exact hf (push hg h.types)
  | arrive info _ _ _ =>
    have ha : (w.addType (.declared info)).2.WellBuilt := hw.addType rfl
    have hn := type_addType_new (w := w) (.declared info)
    refine fun h => hf (registerType ha ?_ ?_ ..) (hf (push (.of_push rfl) rfl) h)
    · exact lt_size_of_type_ne (by rw [hn]; simp)
    · rw [hn]
      simp [sort]
  | vanish hp hfr hm =>
    refine hf (swapPlaceholder hw hp hfr.lt fun hs => ?_)
    rw [role, role_eq_missing] at hm
    cases ht : w.type _ <;> rw [ht] at hm hs <;> first | (cases hs; done) | cases hm

end Retyped

theorem Course.retyped (h : Course task stop w w') (fact : World → Prop)
    (hf : ∀ {u u' : World}, u.Retyped u' → fact u → fact u') (hw : w.Sound) : fact w → fact w' :=
  h.keeps (fun _ hs => hf (.of_types (.spares hs) hs.types))
    (fun id change _ hc => hf (.modifyType (.modifyClass id fun info hi => (hc info hi).1)
      (mapClass_sameBuild change) rfl)) (fun hw hm => Retyped.move hf hw.wellBuilt hm) hw

theorem Retyped.type_eq (h : w.Retyped w') (hc : (w.type id).isConstructed)
    (hp : ∀ part ∈ (w.type id).components, w.Grounded part) : w'.type id = w.type id := by
  obtain ⟨src, tgt, hv, hs⟩ := h.swaps
  have hb := hs id (lt_size_of_type_ne fun ht => by rw [ht] at hc; cases hc)
  have he : (w.type id).swap src tgt = w.type id := by
    obtain rfl | ⟨hso, -⟩ := hv
    · exact swap_self ..
    · exact swap_of_notMem hc fun hm => by simp [(hp _ hm).isPending] at hso
  rw [he] at hb
  exact hb.eq_of_isConstructed (hb.isConstructed.trans hc)

theorem Course.type_eq (h : Course task stop w w') (hw : w.Sound) (hc : (w.type id).isConstructed)
    (hp : ∀ part ∈ (w.type id).components, w.Grounded part) : w'.type id = w.type id :=
  (h.retyped (fun u => u.type id = w.type id ∧ ∀ part ∈ (w.type id).components, u.Grounded part)
    (fun hret ⟨ht, hg⟩ => ⟨(hret.type_eq (ht ▸ hc) (ht ▸ hg)).trans ht,
      fun part hm => (hg part hm).grows hret.grows⟩) hw ⟨rfl, hp⟩).1

theorem Grows.base?_eq_none (hg : w.Grows w') (hk : w.Knows id) (h : w.base? id = none) : w'.base? id = none := by
  have hs := hg.sort id hk
  cases ht' : w'.type id with
  | base kind =>
    cases ht : w.type id with
    | base => simp [World.base?, ht, TypeInfo.base?] at h
    | missing =>
      have hm := hg.missing id (by rw [role, ht]; rfl)
      rw [role, ht'] at hm
      cases hm
    | _ => rw [ht, ht'] at hs; cases hs
  | _ => rw [World.base?, ht']; rfl

/-! ## Type variables of classes -/

def SameVariables (w w' : World) (id : TypeId) : Prop :=
  ∀ info, w.class? id = some info → ∃ info', w'.class? id = some info' ∧ info'.typeVariables = info.typeVariables

namespace SameVariables

theorem trans {w1 w2 : World} (h1 : w.SameVariables w1 id) (h2 : w1.SameVariables w2 id) : w.SameVariables w2 id := by
  intro info hi
  obtain ⟨info1, hi1, hv1⟩ := h1 info hi
  obtain ⟨info2, hi2, hv2⟩ := h2 info1 hi1
  exact ⟨info2, hi2, hv2.trans hv1⟩

theorem spares (h : w.Spares w') : w.SameVariables w' id := fun info hi => ⟨info, by rwa [class?, h.type], rfl⟩

theorem quiet (h : w.Quiet w') : w.SameVariables w' id := by
  intro info hi
  obtain ⟨new, _, hn, -, hq⟩ := h.kept id info hi
  exact ⟨new, hn, hq.typeVariables⟩

theorem modifyClass (other : TypeId) {change : ClassInfo → ClassInfo}
    (h : ∀ info, w.class? other = some info → id = other → (change info).typeVariables = info.typeVariables) :
    w.SameVariables (w.modifyClass other change) id := by
  intro info hi
  rw [class?_modifyClass]
  split
  · next heq => exact ⟨change info, by rw [hi]; rfl, h info (heq ▸ hi) heq⟩
  · exact ⟨info, hi, rfl⟩

theorem opens {task : Task} (h : Opens task w w') : w.SameVariables w' id := by
  cases h with
  | @read _ other part _ => exact modifyClass other fun _ _ _ => by exact rfl
  | imports | found => exact fun info hi => ⟨info, hi, rfl⟩
  | form h => exact spares h.aside.toSpares

theorem tends {task : Task} (h : Tends task w w') (hn : ¬ w.Founds task id) : w.SameVariables w' id := by
  cases h with
  | fill reading _ _ _ => exact modifyClass _ fun info _ _ => by cases reading <;> rfl
  | @declare w info =>
    intro old ho
    refine quiet (quiet_newListedClass w info).1 old ?_
    rwa [class?, type_addType_of_lt _ (lt_size_of_class? ho)]
  | enclose | mark => exact modifyClass _ fun _ _ _ => rfl
  | endow hf => exact modifyClass _ fun _ _ heq => absurd (heq ▸ hf) hn
  | store | list | retire | turn | ask => exact fun info hi => ⟨info, hi, rfl⟩
  | release => exact spares (releaseUnit_aside ..).toSpares

end SameVariables

theorem Founds.of_grows {task : Task} (h : w'.Founds task id) (hg : w.Grows w')
    (hi : w.class? id = some info) : w.Founds task id := by
  refine h.imp_right fun ⟨unit, path, ht, new, hn, ho⟩ => ⟨unit, path, ht, info, hi, ?_⟩
  obtain ⟨_, hn', hk⟩ := hg.declared id info hi
  cases hn.symm.trans hn'
  exact hk.origin.symm.trans ho

theorem Course.sameVariables (h : Course task stop w w') (hw : w.Sound) (hn : ∀ t ∈ task, ¬ w.Founds t id) :
    w.SameVariables w' id := by
  induction h with
  | halt _ _ ih => exact ih hw hn
  | abandon _ _ _ ih => exact (ih hw hn).trans (.spares (aside_turn ..).toSpares)
  | trans h1 _ ih1 ih2 =>
    intro info hi
    exact ((ih1 hw hn).trans (ih2 (h1.sound hw) fun t ht hf => hn t ht (hf.of_grows h1.grows hi))) info hi
  | move _ hq => exact .quiet hq
  | bracket h _ ih =>
    have hb := ih (hw.move (.aside h.before.toAside)) nofun
    exact ((SameVariables.spares h.before.toSpares).trans hb).trans (.spares h.after.toSpares)
  | inside _ ih => exact ih hw nofun
  | tend h => exact .tends h (hn _ rfl)
  | store other change h => exact .modifyClass other fun info hi _ => (h info hi).sameVariables
  | @connect other _ _ _ _ _ ih =>
    have hb := ih (hw.beginHierarchy other) (by simp [Founds])
    exact ((SameVariables.modifyClass other fun _ _ _ => by exact rfl).trans hb).trans
      (.modifyClass other fun _ _ _ => by exact rfl)
  | @broken _ other _ _ _ _ ih =>
    have hb := ih (hw.beginHierarchy other) (by simp [Founds])
    exact (SameVariables.modifyClass other fun _ _ _ => by exact rfl).trans hb
  | nest ho _ ih =>
    obtain ⟨_, h0, h1⟩ := ho.moves
    intro info hi
    refine ((SameVariables.opens ho).trans (ih ((hw.move h0).move h1) fun t ht hf => ?_)) info hi
    cases ht
    -- The class or its unit would have been made within the task.
    obtain rfl | ⟨unit, path, rfl, _, hi', hor⟩ := hf.of_grows (h0.grows.trans h1.grows) hi
    · cases ho with
      | found hle => exact absurd (lt_size_of_class? hi) (Nat.not_lt.2 hle)
    cases ho with
    | form h =>
      obtain ⟨_, -, -, -, rfl, -⟩ := h
      exact Nat.lt_irrefl _ (hw.linked.source id _ _ path hi' hor).1
  | advance h1 _ _ ih1 ih2 => exact (ih1 hw nofun).trans (ih2 (h1.sound hw) (by simp [Founds]))
  | promote _ h ih => exact (ih hw nofun).trans (.spares h.aside.toSpares)
  | serve _ ih => exact ih hw (by simp [Founds])
  | operate ht _ ih => exact ih hw (by rcases ht with rfl | rfl | rfl <;> simp [Founds])
  | view h _ _ ih | unfilled h _ ih => exact (SameVariables.spares h.spares).trans (ih (h.sound hw) nofun)

theorem Course.class_kept (h : Course none none w w') (hw : w.Sound) (hi : w.class? id = some info) :
    ∃ info', w'.class? id = some info' ∧ info'.typeVariables = info.typeVariables ∧ info.LastsAs info' := by
  obtain ⟨info', hi', hv⟩ := h.sameVariables hw nofun info hi
  obtain ⟨_, hi'', hl⟩ := h.lasts hw id info hi
  cases hi'.symm.trans hi''
  exact ⟨info', hi', hv, hl⟩

end World

end Bindings
