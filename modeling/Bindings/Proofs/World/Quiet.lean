import Bindings.Proofs.World.Sound

/-! # Quiet moves -/

namespace Bindings

def ClassInfo.SamePart (replace : TypeId → TypeId) (old new : ClassInfo) : ClassPart → Prop
  | .superclass => new.superclass = old.superclass.map replace
  | .interfaces => new.interfaces = old.interfaces.map replace
  | .members => new.fields = old.fields ∧ new.methods = old.methods
  | .memberTypes => new.members = old.members

structure ClassInfo.QuietAs (replace : TypeId → TypeId) (old new : ClassInfo) : Prop where
  kind : new.kind = old.kind
  pending : ∀ part, new.state.isPending part = old.state.isPending part
  members : new.members = old.members
  typeVariables : new.typeVariables = old.typeVariables
  mark : new.state.noMemberTypes = old.state.noMemberTypes
  parts : old.isCompiled → ∀ part, old.SamePart replace new part

structure ClassInfo.IsUnread (info : ClassInfo) : Prop where
  isCompiled : info.isCompiled
  superclass : info.state.superclassPending
  interfaces : info.state.interfacesPending
  members : info.state.membersPending
  memberless : info.members = []
  unmarked : info.state.noMemberTypes = false

theorem ClassInfo.QuietAs.refl (info : ClassInfo) : info.QuietAs (fun slot => slot) info where
  kind := rfl
  pending _ := rfl
  members := rfl
  typeVariables := rfl
  mark := rfl
  parts _ part := by cases part <;> simp [SamePart]

theorem ClassInfo.EditedTo.quietAs {old new : ClassInfo} (h : old.EditedTo new) :
    old.QuietAs (fun slot => slot) new where
  kind := h.kind
  pending := h.samePending
  members := h.sameMembers
  typeVariables := h.sameVariables
  mark := h.sameMark
  parts hc part := by
    cases part with
    | superclass => exact h.sameSuperclass.trans (Option.map_id_apply).symm
    | interfaces => exact h.sameInterfaces.trans (List.map_id _).symm
    | members => exact ⟨h.sameFields hc, h.sameMethods hc⟩
    | memberTypes => exact h.sameMembers

namespace World

variable {w w' : World}

def Replaced (w : World) (old new : TypeId) : Prop :=
  new = old ∨ ∃ name, w.type old = .placeholder name (some new)

/-- Nothing is read from a class file, units are as far as they were, and what stays in place is left in
place. -/
structure Quiet (w w' : World) : Prop extends w.Steady w', w.Level w' where
  classPath : w'.classPath = w.classPath := by rfl
  kept : ∀ id old, w.class? id = some old → ∃ new replace, w'.class? id = some new ∧
    (∀ slot, w'.Replaced slot (replace slot)) ∧ old.QuietAs replace new
  fresh : ∀ id new, w'.class? id = some new → w.class? id = none → new.IsUnread

namespace Quiet

variable {info : TypeInfo}

theorem of_class? (hs : w.Steady w') (hl : w.Level w') (hp : w'.classPath = w.classPath)
    (h : ∀ id, w'.class? id = w.class? id) : w.Quiet w' where
  toSteady := hs
  toLevel := hl
  classPath := hp
  kept id old ho := ⟨old, _, (h id).trans ho, fun _ => .inl rfl, ClassInfo.QuietAs.refl old⟩
  fresh id new hn hno := by
    rw [h, hno] at hn
    cases hn

theorem apart (h : w.Apart w') : w.Quiet w' :=
  of_class? h.toSteady h.toLevel h.classPath fun id => by rw [class?, h.type, class?]

theorem modifyClass (id : TypeId) {change : ClassInfo → ClassInfo}
    (h : ∀ info, w.class? id = some info → info.EditedTo (change info)) : w.Quiet (w.modifyClass id change) where
  toSteady := { Apart.refl w with }
  kept other old ho := by
    rw [class?_modifyClass]
    split
    · next heq =>
      refine ⟨change old, _, by rw [ho]; rfl, fun _ => .inl rfl, ?_⟩
      exact (h old (heq ▸ ho)).quietAs
    · exact ⟨old, _, ho, fun _ => .inl rfl, ClassInfo.QuietAs.refl old⟩
  fresh other new hn hno := by
    rw [class?_modifyClass] at hn
    split at hn <;> simp [hno] at hn

theorem modifyType (id : TypeId) {change : TypeInfo → TypeInfo}
    (h : ∀ info : TypeInfo, info.Rebound (change info)) : w.Quiet (w.modifyType id change) :=
  of_class? (.types ..) (.types ..) rfl
    (read_modifyType TypeInfo.class? (TypeInfo.Rebound.void h) fun _ => (h _).class?)

theorem of_push (hs : w.Steady w') (hl : w.Level w') (hp : w'.classPath = w.classPath)
    (ht : w'.types = w.types.push info) (hi : ∀ new, info.class? = some new → new.IsUnread) : w.Quiet w' where
  toSteady := hs
  toLevel := hl
  classPath := hp
  kept id old ho := by
    refine ⟨old, _, ?_, fun _ => .inl rfl, ClassInfo.QuietAs.refl old⟩
    rwa [class?, type_of_push ht, if_neg (Nat.ne_of_lt (lt_size_of_class? ho))]
  fresh id new hn hno := by
    rw [class?, type_of_push ht] at hn
    split at hn
    · exact hi new hn
    · rw [class?, hn] at hno
      cases hno

theorem enterPackage (mayAdd : QName → Bool) (segs : List String) :
    w.Quiet (w.enterPackage mayAdd segs defaultPackage).2 := by
  have hl : w.Level _ := .packagesGrow (enterPackage_grows mayAdd segs defaultPackage)
  rw [(enterPackage_grows mayAdd segs defaultPackage).same] at hl ⊢
  exact of_class? { Apart.refl w with } hl rfl fun _ => rfl

theorem typeOrPlaceholder (name : QName) : w.Quiet (Edit.typeOrPlaceholder name w).2 := by
  have hl : w.Level _ := .typeOrPlaceholder name
  obtain ⟨hs, ht | ht⟩ := typeOrPlaceholder_with w name
  · refine of_class? (by rw [hs]; exact { Apart.refl w with }) hl (by rw [hs]) fun id => ?_
    rw [class?, type, ht]
    rfl
  · exact of_push (by rw [hs]; exact { Apart.refl w with }) hl (by rw [hs]) ht fun _ h => by cases h

theorem build {key : CacheKey} (h : w.Builds w' info key) : w.Quiet w' := by
  refine of_push ?_ (by rw [h.same]; exact {}) (by rw [h.same]) h.types fun new hn => ?_
  · have hs := h.stats
    rw [h.same] at hs ⊢
    exact
      { Apart.refl w with
        unitsCompleted := by rw [hs]
        memberCompletions := by rw [hs]
        supertypeCompletions := by rw [hs] }
  · have hc := h.isConstructed
    rw [TypeInfo.class?_eq_some.1 hn] at hc
    cases hc

theorem swapPlaceholder {hole : TypeId} {name : QName} (tgt : TypeId)
    (h : w.type hole = .placeholder name none) : w.Quiet (w.swapPlaceholder hole tgt) where
  toSteady := by
    obtain ⟨types, methods, fields, hw⟩ := swapPlaceholder_with tgt h
    rw [hw]
    exact { Apart.refl w with }
  toLevel := .swapPlaceholder tgt h
  classPath := by
    obtain ⟨types, methods, fields, hw⟩ := swapPlaceholder_with tgt h
    rw [hw]
    rfl
  kept id old ho := by
    have hid : id ≠ hole := by
      rintro rfl
      rw [class?, h] at ho
      cases ho
    rw [class?, type_swapPlaceholder h, if_neg hid]
    split
    · refine ⟨_, .swap hole tgt, TypeInfo.class?_swap.2 ⟨old, ho, rfl⟩, fun slot => ?_, ?_⟩
      · by_cases heq : slot = hole
        · subst heq
          exact .inr ⟨name, by rw [type_swapPlaceholder h, if_pos rfl, TypeId.swap, if_pos rfl]⟩
        · exact .inl (TypeId.swap_of_ne heq)
      · refine ⟨rfl, fun part => by cases part <;> rfl, rfl, rfl, rfl, fun _ part => ?_⟩
        cases part <;> first | rfl | exact ⟨rfl, rfl⟩
    · exact ⟨old, _, ho, fun _ => .inl rfl, ClassInfo.QuietAs.refl old⟩
  fresh id new hn hno := by
    rw [class?, type_swapPlaceholder h] at hn
    split at hn
    · cases hn
    split at hn
    · obtain ⟨old, ho, -⟩ := TypeInfo.class?_swap.1 hn
      rw [class?, ho] at hno
      cases hno
    · rw [class?, hn] at hno
      cases hno

theorem registerType (pkg : PackageId) (simple : String) {id : TypeId}
    (hr : w.role id = .declared) : w.Quiet (Edit.registerType pkg simple id w).2 := by
  have hle : w.Level _ := .registerType pkg simple hr
  revert hle
  refine registerType_elim w pkg simple id (fun _ hle => of_class? { Apart.refl w with } hle rfl fun _ => rfl) ?_
  intro existing name hp hle
  have hq := swapPlaceholder (w := w.list pkg simple id) id hp
  have hl : w.Steady (w.list pkg simple id) := { Apart.refl w with }
  exact ⟨hl.trans hq.toSteady, hle, hq.classPath, hq.kept, hq.fresh⟩

theorem arrival {info : ClassInfo} (hi : info.IsUnread) : w.Quiet (w.arrival info) := by
  have ha : w.Quiet (w.addType (.declared info)).2 := of_push (.types ..) (.types ..) rfl rfl (by rintro _ ⟨⟩; exact hi)
  have hl := registerType info.package info.key (role_addClass w info)
  have hg : (w.addType (.declared info)).2.Grows (w.arrival info) := .registerType _ _ _
  refine ⟨ha.toSteady.trans hl.toSteady, ha.toLevel.trans hl.toLevel hg,
    hl.classPath, fun id old ho => ?_, fun id new hn hno => ?_⟩
  · refine hl.kept id old ?_
    rwa [class?, type_addType_of_lt _ (lt_size_of_class? ho)]
  cases hm : (w.addType (.declared info)).2.class? id with
  | none => exact hl.fresh id new hn hm
  | some mid =>
    have hu := ha.fresh id mid hm hno
    obtain ⟨_, _, hn', -, hq⟩ := hl.kept id mid hm
    cases hn.symm.trans hn'
    obtain ⟨_, hn'', hk⟩ := hg.declared id mid hm
    cases hn.symm.trans hn''
    exact
      { isCompiled := hk.isCompiled.trans hu.isCompiled
        superclass := (hq.pending .superclass).trans hu.superclass
        interfaces := (hq.pending .interfaces).trans hu.interfaces
        members := (hq.pending .members).trans hu.members
        memberless := hq.members.trans hu.memberless
        unmarked := hq.mark.trans hu.unmarked }

end Quiet

end World

end Bindings
