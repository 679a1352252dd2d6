import Bindings.Proofs.World.Course

/-! # Classes in their packages -/

namespace Bindings

variable {a b : ClassInfo} {info : TypeInfo} {change : ClassInfo → ClassInfo}

theorem ClassInfo.KeptAs.isListed (h : a.KeptAs b) : b.isListed = a.isListed := by
  rw [ClassInfo.isListed, h.isCompiled, ← Option.not_isSome, h.enclosed, Option.not_isSome, ClassInfo.isListed]

theorem ClassInfo.KeptAs.key (h : a.KeptAs b) : b.key = a.key := by
  rw [ClassInfo.key, h.isCompiled, h.name, h.sourceName, ClassInfo.key]

theorem TypeInfo.IsNew.isListed {w : World} (h : info.IsNew w) {new : ClassInfo}
    (hn : info.class? = some new) : new.isListed = false := by
  cases h with
  | declared h _ hl =>
    rw [h] at hn
    exact Option.some.inj hn ▸ hl
  | missing h => cases info <;> simp_all
  | variableLike h _ => cases info <;> simp_all

namespace World

variable {w w' : World} {task : Option Task} {stop : Option Halt} {id : TypeId} {new : ClassInfo}
  {pkg : PackageId} {simple : String}

structure Filed (w : World) : Prop where
  entry : ∀ package simple id info, w.known? package simple = some id → w.class? id = some info →
    info.isListed ∧ info.package = package ∧ info.key = simple ∧
      (info.name ≠ .root → info.name = (w.package package).name.child simple)
  listed : ∀ id info, w.class? id = some info → info.isListed →
    w.known? info.package info.key = some id

theorem Registered.knows_of_known? (hw : w.Registered) (h : w.known? pkg simple = some id) : w.Knows id := by
  refine lt_size_of_role_ne ?_
  obtain hr | ⟨_, _, hr, -⟩ := hw.entry pkg simple id h <;> simp [hr]

theorem filed_initial (options : Options) (classPath : ClassPath) (log : ProblemLog) :
    (initial options classPath log).Filed where
  entry _ _ id info _ h := absurd h (no_class_initial options classPath log id info)
  listed id info h := absurd h (no_class_initial options classPath log id info)

theorem class?_of_swapPlaceholder {hole : TypeId} {name : QName} {tgt : TypeId}
    (hp : w.type hole = .placeholder name none)
    (hn : (w.swapPlaceholder hole tgt).class? id = some new) :
    ∃ old, w.class? id = some old ∧ old.KeptAs new := by
  rw [class?, type_swapPlaceholder hp] at hn
  split at hn
  · cases hn
  split at hn
  · obtain ⟨old, ho, rfl⟩ := TypeInfo.class?_swap.1 hn
    exact ⟨old, ho, { ClassInfo.EditedTo.refl _ with enclosed := Option.isSome_map .. }⟩
  · exact ⟨new, hn, .refl new⟩

theorem class?_of_registerType {fresh : TypeId} (hn : (Edit.registerType pkg simple fresh w).2.class? id = some new) :
    ∃ old, w.class? id = some old ∧ old.KeptAs new := by
  revert hn
  refine registerType_elim w pkg simple fresh (fun _ hn => ⟨new, hn, .refl new⟩) fun existing name hp hn => ?_
  exact class?_of_swapPlaceholder (w := w.list pkg simple fresh) hp hn

def Sorts (w w' : World) : Prop :=
  ∀ id new, w'.class? id = some new → (∃ old, w.class? id = some old ∧ old.KeptAs new) ∨
    w.types.size ≤ id.index ∧ new.isListed = false

namespace Sorts

theorem of_class? (h : ∀ id, w'.class? id = w.class? id) : w.Sorts w' := fun id new hn =>
  .inl ⟨new, h id ▸ hn, .refl new⟩

theorem modifyClass (id : TypeId)
    (h : ∀ info, w.class? id = some info → info.KeptAs (change info)) : w.Sorts (w.modifyClass id change) := by
  intro other new hn
  obtain hn | ⟨rfl, old, ho, rfl⟩ := class?_of_modifyClass hn
  · exact .inl ⟨new, hn, .refl new⟩
  · exact .inl ⟨old, ho, h old ho⟩

theorem of_push (ht : w'.types = w.types.push info)
    (h : ∀ new, info.class? = some new → new.isListed = false) : w.Sorts w' := by
  intro id new hn
  rw [class?, type_of_push ht] at hn
  split at hn
  · next heq => exact .inr ⟨Nat.le_of_eq heq.symm, h new hn⟩
  · exact .inl ⟨new, hn, .refl new⟩

end Sorts

def Relists (w w' : World) : Prop :=
  ∀ package simple id, w'.known? package simple = some id → w'.role id = .declared →
    w.known? package simple = some id

theorem Relists.of_known? (h : ∀ pkg simple, w'.known? pkg simple = w.known? pkg simple) :
    w.Relists w' := fun pkg simple _ hid _ => h pkg simple ▸ hid

def SameNames (w w' : World) : Prop :=
  ∀ package, package.index < w.packages.size → (w'.package package).name = (w.package package).name

theorem sameNames_registerType (pkg : PackageId) (simple : String) (id : TypeId) :
    w.SameNames (Edit.registerType pkg simple id w).2 := by
  intro other _
  rcases registerType_cases w pkg simple id with
    ⟨-, h⟩ | ⟨existing, name, -, hp, h⟩ | ⟨existing, name, tgt, -, -, h⟩ | h <;> rw [h]
  · rw [removeAbsent_name, list_name]
  · rw [swapPlaceholder_package (w := w.list pkg simple id) id hp, list_name]
  · rw [list_name]

theorem sameNames_typeOrPlaceholder (name : QName) : w.SameNames (Edit.typeOrPlaceholder name w).2 := by
  intro pkg hlt
  have he : ((w.entered name.parent).package pkg).name = (w.package pkg).name := (enterPackage_grows ..).name pkg hlt
  rw [typeOrPlaceholder_world]
  dsimp only
  split
  · exact he
  · rw [list_name]
    exact he

namespace Filed

section

variable (hw : w.Filed) (hr : w.Registered)

include hw hr

theorem stay (hg : w.Grows w') (hs : w.Sorts w')
    (hli : w.Relists w') (hna : w.SameNames w') : w'.Filed where
  entry pkg simple id new hid hn := by
    have hb := hli pkg simple id hid (role_of_class? hn)
    obtain ⟨old, ho, hk⟩ | ⟨hla, -⟩ := hs id new hn
    · rw [hk.isListed, hk.package, hk.key, hk.name, hna pkg (lt_size_of_known? hb)]
      exact hw.entry pkg simple id old hb ho
    · exact absurd (hr.knows_of_known? hb) (Nat.not_lt.2 hla)
  listed id new hn hl := by
    obtain ⟨old, ho, hk⟩ | ⟨-, hno⟩ := hs id new hn
    · rw [hk.package, hk.key]
      exact hg.entry _ _ _ (hw.listed id old ho (hk.isListed ▸ hl)) (role_of_class? ho)
    · simp [hno] at hl

theorem spares (h : w.Spares w') : w'.Filed :=
  hw.stay hr (.spares h) (.of_class? fun id => by rw [class?, h.type, class?])
    (.of_known? h.known) fun pkg _ => h.packageName pkg

theorem modifyClass (id : TypeId)
    (h : ∀ info, w.class? id = some info → info.KeptAs (change info)) : (w.modifyClass id change).Filed :=
  hw.stay hr (.modifyClass id h) (.modifyClass id h) (.of_known? fun _ _ => rfl) fun _ _ => rfl

theorem arrival {info : ClassInfo} (hf : info.Fits w) : (w.arrival info).Filed := by
  have hk := known?_arrival hr hf
  have hc : ∀ id new, (w.arrival info).class? id = some new → id = ⟨w.types.size⟩ ∧ info.KeptAs new ∨
        id ≠ ⟨w.types.size⟩ ∧ ∃ old, w.class? id = some old ∧ old.KeptAs new := by
    intro id new hn
    obtain ⟨old, ho, hke⟩ := class?_of_registerType hn
    rw [class?, type_addType] at ho
    split at ho
    · next heq =>
      cases ho
      exact .inl ⟨congrArg TypeId.mk heq, hke⟩
    · next hne => exact .inr ⟨fun heq => hne (by rw [heq]), old, ho, hke⟩
  have hna : w.SameNames (w.arrival info) :=
    sameNames_registerType (w := (w.addType (.declared info)).2) info.package info.key ⟨w.types.size⟩
  refine { entry := fun pkg simple id new hid hn => ?_, listed := fun id new hn hl => ?_ }
  · rw [hk] at hid
    obtain ⟨rfl, hke⟩ | ⟨hne, old, ho, hke⟩ := hc id new hn
    · split at hid
      · next hp =>
        obtain ⟨rfl, rfl⟩ := hp
        rw [hke.isListed, hke.package, hke.key, hke.name, hna _ hf.package]
        exact ⟨hf.isListed, rfl, rfl, hf.name⟩
      · have hlt : w.types.size < w.types.size := hr.knows_of_known? hid
        exact absurd hlt (Nat.lt_irrefl _)
    rw [if_neg fun hp => hne (Option.some.inj ((if_pos hp).symm.trans hid)).symm] at hid
    rw [hke.isListed, hke.package, hke.key, hke.name, hna pkg (lt_size_of_known? hid)]
    exact hw.entry pkg simple id old hid ho
  · rw [hk]
    obtain ⟨rfl, hke⟩ | ⟨hne, old, ho, hke⟩ := hc id new hn
    · rw [if_pos ⟨hke.package, hke.key⟩]
    have hb := hw.listed id old ho (hke.isListed ▸ hl)
    rw [hke.package, hke.key, if_neg, hb]
    intro hp
    rw [hp.1, hp.2] at hb
    exact hf.room ⟨id, hb, role_of_class? ho⟩

end

theorem move (hw : w.Filed) (hre : w.Registered) (h : Move w w') : w'.Filed := by
  have hs := hw.stay hre h.grows
  cases h with
  | aside h => exact hw.spares hre h.toSpares
  | amend id change h _ _ => exact hw.modifyClass hre id fun info hi => (h info hi).toKeptAs
  | bound id change h _ =>
    exact hs (.of_class? (read_modifyType TypeInfo.class? (TypeInfo.Rebound.void h) fun _ => (h _).class?))
      (.of_known? fun _ _ => rfl) fun _ _ => rfl
  | add info h _ => exact hs (.of_push rfl fun _ => h.isListed) (.of_known? fun _ _ => rfl) fun _ _ => rfl
  | enter mayAdd segs =>
    have hpa : w.PackagesGrow (w.enterPackage mayAdd segs defaultPackage).2 := enterPackage_grows ..
    exact hs (.of_class? fun id => by rw [class?, hpa.type, class?]) (.of_known? hpa.known) hpa.name
  | placeholder name =>
    refine hs ?_ (fun _ _ _ hid hr => (known?_of_typeOrPlaceholder ⟨hid, hr⟩).1) (sameNames_typeOrPlaceholder name)
    obtain ⟨-, ht | ht⟩ := typeOrPlaceholder_with w name
    · exact .of_class? fun id => by rw [class?, World.type, ht]; rfl
    · exact .of_push ht fun _ hn => by cases hn
  | build h =>
    refine hs (.of_push h.types fun new hn => ?_) (.of_known? fun _ _ => ?_) fun _ _ => ?_
    · have hr := TypeInfo.role_eq_declared.2 (Option.isSome_iff_exists.2 ⟨new, hn⟩)
      cases hr.symm.trans (role_of_isConstructed h.isConstructed).1
    · rw [h.same]; rfl
    · rw [h.same]; rfl
  | arrive info _ hf _ => exact hw.arrival hre hf
  | vanish hp _ _ =>
    refine hs (fun id new hn => .inl (class?_of_swapPlaceholder hp hn)) (.of_known? fun _ _ => ?_) fun _ _ => ?_
    · rw [known?, swapPlaceholder_package _ hp, known?]
    · rw [swapPlaceholder_package _ hp]

end Filed

theorem Course.filed (h : Course task stop w w') (hw : w.Sound) (hf : w.Filed) : w'.Filed :=
  h.keeps (fun hw hs hf => hf.spares hw.registered hs)
    (fun id _ hw hk hf => hf.modifyClass hw.registered id fun info hi => (hk info hi).1)
    (fun hw hm hf => hf.move hw.registered hm) hw hf

end World

end Bindings
