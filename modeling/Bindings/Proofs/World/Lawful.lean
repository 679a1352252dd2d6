import Bindings.Proofs.World.Course

/-! # Lawful hierarchies -/

namespace Bindings.World

variable {w w' : World} {task : Option Task} {stop : Option Halt}

variable {change : ClassInfo → ClassInfo} {id other : TypeId} {ifaces interfaces : List TypeId}

theorem IsInterface.lasts (hl : w.Lasts w') (h : w.IsInterface id) : w'.IsInterface id := by
  obtain ⟨info, hi, hin⟩ := h
  obtain ⟨info', hi', hla⟩ := hl id info hi
  exact ⟨info', hi', hla.isInterface.trans hin⟩

section

variable (hg : w.Grows w') (hl : w.Lasts w')

include hg hl

theorem Extensible.lasts (h : w.Extensible id) : w'.Extensible id := by
  obtain ⟨info, hi, hin, hf⟩ := h
  obtain ⟨info', hi', hla⟩ := hl id info hi
  refine ⟨info', hi', hla.isInterface.trans hin, fun hf' => ?_⟩
  rw [hla.modifiers] at hf'
  exact (hf hf').imp (.grows hg) (.grows hg)

theorem FoundationsFit.of_lasts (h : w'.FoundationsFit) : w.FoundationsFit where
  classes name hn id info hd hi := by
    obtain ⟨info', hi', hla⟩ := hl id info hi
    exact hla.isInterface.symm.trans (h.classes name hn id info' (hd.grows hg) hi')
  annotation id info hd hi := by
    obtain ⟨info', hi', hla⟩ := hl id info hi
    obtain ⟨hin, hge⟩ := h.annotation id info' (hd.grows hg) hi'
    refine ⟨hla.isInterface.symm.trans hin, ?_⟩
    rw [Bool.eq_false_iff] at hge ⊢
    exact fun h => hge (hla.isGeneric h)

theorem Implements.lasts
    (h : w.Implements interfaces) : w'.Implements interfaces where
  implemented iface hm := by
    obtain ⟨erased, he, hin⟩ := h.implemented iface hm
    have ⟨info, hi, _⟩ := hin
    exact ⟨erased, hg.erasureClass? he (role_of_class? hi), hin.lasts hl⟩
  distinct := by
    have hs : ∀ iface ∈ interfaces, w'.erasureClass? iface = w.erasureClass? iface := by
      intro iface hm
      obtain ⟨erased, he, info, hi, -⟩ := h.implemented iface hm
      rw [he, hg.erasureClass? he (role_of_class? hi)]
    exact h.distinct.imp_of_mem fun {a b} ha hb hne => by rwa [hs a ha, hs b hb]

theorem Lawful.lasts
    {superclass : Option TypeId} (h : w.Lawful id superclass ifaces) : w'.Lawful id superclass ifaces where
  toImplements := h.toImplements.lasts hg hl
  extended hn := by
    obtain ⟨sup, erased, hs, he, hex⟩ := h.extended fun hd => hn (hd.grows hg)
    have ⟨info, hi, _⟩ := hex
    exact ⟨sup, erased, hs, hg.erasureClass? he (role_of_class? hi), hex.lasts hg hl⟩

end

def Upheld (w : World) : Prop :=
  ∀ id info, w.class? id = some info → info.isCompiled = false → info.state.hierarchyEnded →
    w.Connected id

theorem Connected.lasts (hg : w.Grows w') (hl : w.Lasts w')
    {info info' : ClassInfo} (hi : w.class? id = some info) (hi' : w'.class? id = some info')
    (hs : info'.superclass = info.superclass) (hin : info'.interfaces = info.interfaces)
    (h : w.Connected id) : w'.Connected id := by
  obtain ⟨_, hi1, hv, hlaw⟩ := h
  cases hi.symm.trans hi1
  obtain ⟨_, hi2, hla⟩ := hl id info hi
  cases hi'.symm.trans hi2
  refine ⟨info', hi', hla.variablesConnected hv, fun hf => ?_⟩
  rw [hs, hin]
  exact (hlaw (hf.of_lasts hg hl)).lasts hg hl

theorem Upheld.step (hg : w.Grows w') (hl : w.Lasts w') (h : w.Upheld)
    (hst : ∀ id info', w'.class? id = some info' → info'.isCompiled = false →
      info'.state.hierarchyEnded → w'.Connected id ∨ ∃ info, w.class? id = some info ∧ info.HeldAs info') :
    w'.Upheld := by
  intro id info' hi' hs he
  obtain hc | ⟨info, hi, hh⟩ := hst id info' hi' hs he
  · exact hc
  refine .lasts hg hl hi hi' hh.superclass hh.interfaces (h id info hi ?_ ?_)
  · exact hh.isCompiled.symm.trans hs
  · exact hh.ended.symm.trans he

theorem Upheld.spares (hs : w.Spares w') (h : w.Upheld) : w'.Upheld := by
  refine h.step (.spares hs) (.spares hs) fun id info hi _ _ => .inr ⟨info, ?_, .refl info⟩
  rwa [class?, hs.type] at hi

theorem Upheld.move (hw : w.Linked) (h : Move w w') (hu : w.Upheld) : w'.Upheld := by
  refine hu.step h.grows (Course.lasts_move hw h) fun id info' hi' hs he => .inr ?_
  obtain ⟨old, ho, hk⟩ | ⟨-, hn⟩ := h.carries hw id info' hi'
  · have hs := hk.isCompiled.symm.trans hs
    exact ⟨old, ho, hk.superclass hs, hk.interfaces hs, hk.sameBegun, hk.sameEnded, hk.isCompiled⟩
  cases hn with
  | compiled hc => simp [hc] at hs
  | source _ _ _ _ _ hst _ => simp [hst] at he

theorem Upheld.modifyClass (h : w.Upheld) (hno : ¬ w.Ended id)
    (hc : ∀ info, w.class? id = some info → info.KeptAs (change info) ∧
      info.LastsAs (change info) ∧ (change info).state.hierarchyEnded = info.state.hierarchyEnded) :
    (w.modifyClass id change).Upheld := by
  refine h.step (.modifyClass id fun info hi => (hc info hi).1)
    (.modifyClass id fun info hi => (hc info hi).2.1) fun other new hn _ he => ?_
  obtain hn | ⟨rfl, old, ho, rfl⟩ := class?_of_modifyClass hn
  · exact .inr ⟨new, hn, .refl new⟩
  · exact absurd ⟨old, ho, (hc old ho).2.2 ▸ he⟩ hno

theorem Ended.of_modifyClass (hs : ∀ info, w.class? id = some info →
      (change info).state.hierarchyEnded = info.state.hierarchyEnded)
    (h : (w.modifyClass id change).Ended other) : w.Ended other := by
  obtain ⟨new, hn, he⟩ := h
  obtain hn | ⟨rfl, old, ho, rfl⟩ := class?_of_modifyClass hn
  · exact ⟨new, hn, he⟩
  · exact ⟨old, ho, hs old ho ▸ he⟩

theorem Ended.of_beginHierarchy (h : (w.beginHierarchy id).Ended other) : w.Ended other :=
  of_modifyClass (fun _ _ => by rfl) h

theorem Ended.of_spares (h : w.Spares w') (he : w'.Ended id) : w.Ended id := by
  obtain ⟨info, hi, he⟩ := he
  rw [class?, h.type] at hi
  exact ⟨info, hi, he⟩

theorem Ended.of_move (hw : w.Linked) (h : Move w w') (hb : w.Begun id) (he : w'.Ended id) : w.Ended id := by
  obtain ⟨info, hi, -⟩ := hb
  obtain ⟨info', hi', he⟩ := he
  obtain ⟨old, ho, hk⟩ | ⟨hn, -⟩ := h.carries hw id info' hi'
  · exact ⟨old, ho, hk.sameEnded ▸ he⟩
  · cases hi.symm.trans hn

theorem Course.not_ended (h : Course task stop w w') (hw : w.Sound) (hb : w.Begun id)
    (hn : ¬ w.Ended id) : ¬ w'.Ended id := by
  refine (h.invariant (fun u => u.Sound ∧ u.Begun id ∧ ¬ u.Ended id) ?_ ?_ ?_ ?_ ?_ ⟨hw, hb, hn⟩).2.2
  · exact fun h ⟨hu, hb, hn⟩ => ⟨hu.move h, hb.grows h.grows, fun he => hn (he.of_move hu.linked h hb)⟩
  · exact fun h ⟨hu, hb, hn⟩ => ⟨h.sound hu, hb.grows (.spares h.spares), fun he => hn (he.of_spares h.spares)⟩
  · refine fun other change h ⟨hu, hb, hn⟩ =>
      ⟨Course.sound (.store other change h) hu, hb.grows (Course.grows (.store other change h)), fun he => ?_⟩
    exact hn (he.of_modifyClass fun info hi => (h info hi).sameEnded)
  · exact fun _ ⟨hu, hb, hn⟩ => ⟨hu.beginHierarchy _, begun_beginHierarchy.2 (.inl hb),
      fun he => hn he.of_beginHierarchy⟩
  · rintro u u' other hr ⟨-, hb, -⟩ hin ⟨hu', hb', hn'⟩
    have hne : id ≠ other := fun heq => hr.not_begun (heq ▸ hb)
    refine ⟨hu'.endHierarchy (.grows hin.grows hr.begun), hb'.grows (grows_endHierarchy ..), ?_⟩
    rintro ⟨info, hi, he⟩
    rw [endHierarchy, class?_modifyClass, if_neg hne] at hi
    exact hn' ⟨info, hi, he⟩

theorem Ready.not_ended (hw : w.Linked) (h : w.Ready id) : ¬ w.Ended id := by
  rintro ⟨info, hi, he⟩
  exact h.not_begun ⟨info, hi, hw.begun id info hi he⟩

def IsConnecting (w : World) (id : TypeId) : Prop := w.Begun id ∧ ¬ w.Ended id

theorem Ready.isConnecting (hw : w.Linked) (h : w.Ready id) : (w.beginHierarchy id).IsConnecting id :=
  ⟨h.begun, fun he => h.not_ended hw he.of_beginHierarchy⟩

theorem Upheld.beginHierarchy (hw : w.Linked) (h : w.Upheld) (hr : w.Ready id) : (w.beginHierarchy id).Upheld :=
  h.modifyClass (hr.not_ended hw) fun _ _ =>
    ⟨{ ClassInfo.EditedTo.refl _ with begun := fun _ => rfl }, { ClassInfo.EditedTo.refl _ with }, by rfl⟩

theorem Upheld.endHierarchy (h : w.Upheld) (hc : w.Connected id) : (w.endHierarchy id).Upheld := by
  have hl := lasts_endHierarchy w id
  refine h.step (grows_endHierarchy ..) hl fun other new hn _ _ => ?_
  obtain ho | ⟨rfl, old, ho, rfl⟩ := class?_of_modifyClass hn
  · exact .inr ⟨new, ho, .refl new⟩
  · exact .inl (hc.lasts (grows_endHierarchy ..) hl ho hn rfl rfl)

theorem Course.upheld (h : Course task stop w w') (hw : w.Sound) (hu : w.Upheld)
    (ht : ∀ id, task = some (.connect id) → w.IsConnecting id) : w'.Upheld := by
  induction h with
  | halt _ _ ih => exact ih hw hu ht
  | inside _ ih | serve _ ih => exact ih hw hu (by simp)
  | operate ht' _ ih => exact ih hw hu (by rcases ht' with rfl | rfl | rfl <;> simp)
  | bracket h _ ih =>
    exact (ih (hw.move (.aside h.before.toAside)) (hu.spares h.before.toSpares) (by simp)).spares h.after.toSpares
  | promote _ h ih => exact (ih hw hu (by simp)).spares h.aside.toSpares
  | abandon _ _ _ ih => exact (ih hw hu ht).spares (aside_turn ..).toSpares
  | trans h1 _ ih1 ih2 =>
    refine ih2 (h1.sound hw) (ih1 hw hu ht) fun id hid => ?_
    obtain ⟨hb, hn⟩ := ht id hid
    exact ⟨hb.grows h1.grows, h1.not_ended hw hb hn⟩
  | advance h1 _ _ ih1 ih2 => exact ih2 (h1.sound hw) (ih1 hw hu ht) (by simp)
  | move h _ => exact hu.move hw.linked h
  | tend h => exact hu.move hw.linked h.move
  | store id change h =>
    exact hu.modifyClass (ht id rfl).2 fun info hi =>
      ⟨(h info hi).toKeptAs, (h info hi).toLastsAs, (h info hi).sameEnded⟩
  | connect hr _ hc ih =>
    refine (ih (hw.beginHierarchy _) (hu.beginHierarchy hw.linked hr) ?_).endHierarchy hc
    rintro _ ⟨⟩
    exact hr.isConnecting hw.linked
  | broken hr _ ih =>
    refine ih (hw.beginHierarchy _) (hu.beginHierarchy hw.linked hr) ?_
    rintro _ ⟨⟩
    exact hr.isConnecting hw.linked
  | nest h _ ih =>
    obtain ⟨_, h0, h1⟩ := h.moves
    have hw0 := hw.move h0
    refine ih (hw0.move h1) ((hu.move hw.linked h0).move hw0.linked h1) fun id heq => ?_
    exact absurd (Option.some.inj heq) (h.ne_connect id)
  | view h _ _ ih | unfilled h _ ih => exact ih (h.sound hw) (hu.spares h.spares) (by simp)

end Bindings.World
