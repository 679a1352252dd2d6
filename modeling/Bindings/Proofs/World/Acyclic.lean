import Bindings.Proofs.World.Course

/-! # Hierarchies without cycles -/

open Relation

namespace Bindings.World

variable {w w' : World} {task : Option Task} {stop : Option Halt} {change : ClassInfo → ClassInfo}
  {id start sub super tgt : TypeId}

theorem FoundationsCompiled.of_grows (hg : w.Grows w') (h : w'.FoundationsCompiled) : w.FoundationsCompiled := by
  intro name hn id hid
  obtain ⟨info, hi⟩ := role_eq_declared.1 hid.role
  obtain ⟨info', hi', hk⟩ := hg.declared id info hi
  obtain ⟨found, hf, hc⟩ := h name hn id (hid.grows hg)
  cases hi'.symm.trans hf
  exact ⟨info, hi, hk.isCompiled ▸ hc⟩

structure Layered (w : World) : Prop where
  begun : ∀ sub super, w.Above sub super → w.Begun sub
  acyclic : ∀ id, ¬ TransGen w.Above id id

/-- Whatever leads to a class is connected to the end, the class itself apart. -/
def Behind (w : World) (id : TypeId) : Prop :=
  ∀ start, start ≠ id → ReflTransGen (fun sub super => sub ≠ id ∧ w.Above sub super) start id →
    w.Ended start

theorem Above.role (hw : w.Linked) (h : w.Above sub super) : w.role super = .declared := by
  obtain ⟨info, hi, hs, sup, hm, hsu⟩ := h
  obtain ⟨erased, he, hr⟩ := hw.settled hi hs hm
  cases hsu.symm.trans he
  exact hr

theorem declaration?_of_compiled {info : ClassInfo} (hi : w.class? id = some info)
    (h : info.isCompiled) : w.declaration? id = none := by
  have ho : info.origin = .compiled := by simpa [ClassInfo.isCompiled] using h
  simp [declaration?, hi, ho]

theorem Above.joined (hw : w.Linked) (hf : w.FoundationsCompiled) (h : w.Above sub super) : w.Joined super := by
  obtain ⟨info, hi, hs, sup, hm, hsu⟩ := h
  obtain ⟨erased, he, -, hj⟩ := hw.founded sub info hi hs sup hm
  cases hsu.symm.trans he
  obtain hj | ⟨name, hn, hd⟩ := hj
  · exact hj
  · obtain ⟨info, hi, hc⟩ := hf name hn super hd
    exact .inr (declaration?_of_compiled hi hc)

theorem Above.of_kept (hw : w.Linked) (hg : w.Grows w') {old new : ClassInfo}
    (ho : w.class? sub = some old) (hn : w'.class? sub = some new)
    (hsup : new.supertypes = old.supertypes) (h : w'.Above sub super) : w.Above sub super := by
  obtain ⟨info, hi, hs, sup, hm, hsu⟩ := h
  cases hn.symm.trans hi
  have hs' : old.isCompiled = false := by
    obtain ⟨info', hi', hk⟩ := hg.declared sub old ho
    cases hn.symm.trans hi'
    exact hk.isCompiled.symm.trans hs
  rw [hsup] at hm
  obtain ⟨erased, he, hr⟩ := hw.settled ho hs' hm
  cases hsu.symm.trans (hg.erasureClass? he hr)
  exact ⟨old, ho, hs', sup, hm, he⟩

theorem Above.of_move (hw : w.Linked) (h : Move w w') (ha : w'.Above sub super) : w.Above sub super := by
  obtain ⟨new, hn, hs, sup, hm, -⟩ := id ha
  obtain ⟨old, ho, hk⟩ | ⟨-, hi⟩ := h.carries hw sub new hn
  · exact ha.of_kept hw h.grows ho hn (hk.supertypes (hk.isCompiled.symm.trans hs))
  cases hi with
  | compiled hc _ _ => simp [hc] at hs
  | source _ _ _ _ _ _ hno => simp [hno] at hm

theorem Above.of_spares (h : w.Spares w') (ha : w'.Above sub super) : w.Above sub super := by
  have ht : w'.type = w.type := funext h.type
  have he : w'.erasureClass? = w.erasureClass? := by
    unfold erasureClass? class?
    rw [ht]
  simpa only [Above, class?, he, ht] using ha

theorem Layered.of_above (hl : w.Layered) (hg : w.Grows w')
    (h : ∀ sub super, w'.Above sub super → w.Above sub super) : w'.Layered where
  begun sub super ha := (hl.begun sub super (h sub super ha)).grows hg
  acyclic id hc := hl.acyclic id (TransGen.mono h _ _ hc)

theorem erasureClass?_modifyClass (id : TypeId) (change : ClassInfo → ClassInfo) (other : TypeId) :
    (w.modifyClass id change).erasureClass? other = w.erasureClass? other := by
  have hc : ∀ tgt, ((w.modifyClass id change).class? tgt).isSome = (w.class? tgt).isSome := fun tgt => by
    rw [class?_modifyClass]
    split <;> simp
  simp only [erasureClass?, hc, type_modifyClass]
  by_cases heq : other = id
  · simp only [if_pos heq]
    cases w.type other <;> rfl
  · simp only [if_neg heq]

theorem Above.of_modifyClass (hor : ∀ info, (change info).isCompiled = info.isCompiled)
    (hsup : ∀ info, (change info).supertypes = info.supertypes)
    (h : (w.modifyClass id change).Above sub super) : w.Above sub super := by
  obtain ⟨new, hn, hs, sup, hm, hsu⟩ := h
  rw [erasureClass?_modifyClass] at hsu
  obtain hn | ⟨rfl, old, ho, rfl⟩ := class?_of_modifyClass hn
  · exact ⟨new, hn, hs, sup, hm, hsu⟩
  · exact ⟨old, ho, (hor old).symm.trans hs, sup, hsup old ▸ hm, hsu⟩

theorem Above.of_beginHierarchy (h : (w.beginHierarchy id).Above sub super) : w.Above sub super :=
  Above.of_modifyClass (fun _ => by rfl) (fun _ => by rfl) h

theorem Above.of_endHierarchy (h : (w.endHierarchy id).Above sub super) : w.Above sub super :=
  Above.of_modifyClass (fun _ => by rfl) (fun _ => by rfl) h

theorem Ready.behind_begin (hw : w.Linked) (hf : w.FoundationsCompiled)
    (hr : w.Ready id) : (w.beginHierarchy id).Behind id := by
  intro start hne hp
  obtain heq | ⟨sub, -, -, ha⟩ := ReflTransGen.cases_tail hp
  · exact absurd heq.symm hne
  obtain hb | hn := ha.of_beginHierarchy.joined hw hf
  · exact absurd hb hr.not_begun
  · exact absurd hn hr.declaration

theorem Above.of_class_kept (hw : w.Linked) (hg : w.Grows w')
    (hb : w.Begun sub) (hk : Course.Kept w w' sub) (ha : w'.Above sub super) : w.Above sub super := by
  obtain ⟨info, hi, -⟩ := hb
  obtain ⟨info', hi', hs⟩ := hg.declared sub info hi
  have hso : info.isCompiled = false := by
    obtain ⟨new, hn, hso, -⟩ := id ha
    cases hi'.symm.trans hn
    exact hs.isCompiled.symm.trans hso
  obtain ⟨new, hn, hh⟩ := hk info hi hso
  exact ha.of_kept hw hg hi hn hh.supertypes

theorem Course.above_of_begun (h : Course task stop w w') (hw : w.Sound)
    (hb : w.Begun sub) (ht : task ≠ some (.connect sub)) (ha : w'.Above sub super) : w.Above sub super :=
  ha.of_class_kept hw.linked h.grows hb (h.kept hw hb ht)

theorem ConnectedTo.follows (hw : w.Linked) (h : w.Follows w')
    (hc : w.ConnectedTo sub super) : w'.ConnectedTo sub super := by
  obtain ⟨hen, info, hi, hs, sup, hm, hsu⟩ := hc
  refine ⟨hen.grows h.grows, ?_⟩
  obtain ⟨info', hi', hen⟩ := hen
  cases hi.symm.trans hi'
  obtain ⟨new, hn, hh⟩ := h.kept sub ⟨info, hi, hw.begun sub info hi hen⟩ info hi hs
  obtain ⟨erased, he, hr⟩ := hw.settled hi hs hm
  cases hsu.symm.trans he
  exact ⟨new, hn, hh.isCompiled.trans hs, sup, hh.supertypes ▸ hm, h.grows.erasureClass? he hr⟩

theorem Follows.clear (hw : w.Linked) (hw' : w'.Linked) (h : w.Follows w')
    (hr : w.role start = .declared) (hj : w.Joined start)
    (hno : ¬ ReflTransGen w.ConnectedTo start tgt) (hf : w'.FoundationsCompiled) : w'.Clear tgt start := by
  intro hp
  refine hno ?_
  clear hno
  induction hp using ReflTransGen.head_induction_on with
  | refl => exact .refl
  | @head sub super hst hre ih =>
    obtain ⟨⟨info', hi', he'⟩, ha⟩ := hst
    have hb := hj.begun_of_follows h hr ⟨info', hi', hw'.begun sub info' hi' he'⟩
    have ha := ha.of_class_kept hw h.grows hb (h.kept sub hb)
    have he : w.Ended sub := by
      obtain ⟨info, hi, hs, -⟩ := id ha
      obtain ⟨new, hn, hh⟩ := h.kept sub hb info hi hs
      cases hi'.symm.trans hn
      exact ⟨info, hi, hh.ended ▸ he'⟩
    exact .head ⟨he, ha⟩ (ih (ha.role hw) (ha.joined hw (hf.of_grows h.grows)))

theorem Course.path_of_begun (h : Course none stop w w') (hw : w.Sound) (hl' : w'.Layered)
    (hf : w.FoundationsCompiled) (ht : w.Begun tgt) (hst : w.Begun start)
    (hp : ReflTransGen (fun sub super => sub ≠ tgt ∧ w'.Above sub super) start tgt) :
    ReflTransGen (fun sub super => sub ≠ tgt ∧ w.Above sub super) start tgt := by
  induction hp using ReflTransGen.head_induction_on with
  | refl => exact .refl
  | @head sub super hs hr ih =>
    obtain ⟨hne, ha⟩ := hs
    have ha := h.above_of_begun hw hst (by simp) ha
    refine .head ⟨hne, ha⟩ (ih ?_)
    obtain hb | hn := ha.joined hw.linked hf
    · exact hb
    -- A class without a declaration is never connected, so nothing is above it.
    by_contra hno
    obtain heq | ⟨next, ⟨-, hnex⟩, -⟩ := ReflTransGen.cases_head hr
    · exact hno (heq ▸ ht)
    · exact h.declaration_of_begun hw (ha.role hw.linked) (hl'.begun super next hnex) hno hn

theorem Course.behind (h : Course none none w w') (hw : w.Sound) (hl' : w'.Layered)
    (hf : w.FoundationsCompiled) (hb : w.Begun id) (hbe : w.Behind id) : w'.Behind id := by
  intro start hne hp
  by_cases hs : w.Begun start
  · exact (hbe start hne (h.path_of_begun hw hl' hf hb hs hp)).grows h.grows
  obtain heq | ⟨super, ⟨-, ha⟩, -⟩ := ReflTransGen.cases_head hp
  · exact absurd heq hne
  · exact h.ended_of_begun hw (hl'.begun start super ha) hs

theorem path_avoiding {step : TypeId → TypeId → Prop} (hp : ReflTransGen step start tgt) :
    ReflTransGen (fun sub super => sub ≠ tgt ∧ step sub super) start tgt := by
  induction hp using ReflTransGen.head_induction_on with
  | refl => exact .refl
  | @head sub super hs hr ih =>
    by_cases heq : sub = tgt
    · exact heq ▸ .refl
    · exact .head ⟨heq, hs⟩ ih

theorem Behind.not_path (hb : w.Behind id) (hc : w.Clear id start) : ¬ ReflTransGen w.Above start id := by
  intro hp
  refine hc ?_
  replace hp := path_avoiding hp
  clear hc
  induction hp using ReflTransGen.head_induction_on with
  | refl => exact .refl
  | @head sub super hs hr ih => exact .head ⟨hb sub hs.1 (.head hs hr), hs.2⟩ ih

theorem acyclic_of_new {old new : TypeId → TypeId → Prop} (id : TypeId) (ha : ∀ x, ¬ TransGen old x x)
    (hn : ∀ sub super, new sub super → old sub super ∨ sub = id ∧ ¬ ReflTransGen old super id) (x : TypeId) :
    ¬ TransGen new x x := by
  -- A path of new steps is one of old steps, or it leads to `id` first and away from it last.
  have hsp : ∀ {a b}, TransGen new a b → TransGen old a b ∨
      ReflTransGen old a id ∧ ∃ super, ¬ ReflTransGen old super id ∧ ReflTransGen old super b := by
    intro a b hp
    induction hp with
    | single hst =>
      obtain ho | ⟨rfl, hs⟩ := hn _ _ hst
      · exact .inl (.single ho)
      · exact .inr ⟨.refl, _, hs, .refl⟩
    | tail _ hst ih =>
      obtain ho | ⟨rfl, hs⟩ := hn _ _ hst
      · obtain hp | ⟨hsta, super, hs, hp⟩ := ih
        · exact .inl (hp.tail ho)
        · exact .inr ⟨hsta, super, hs, hp.tail ho⟩
      refine .inr ⟨?_, _, hs, .refl⟩
      obtain hp | ⟨hsta, -⟩ := ih
      · exact hp.to_reflTransGen
      · exact hsta
  intro hc
  obtain ho | ⟨hsta, super, hs, hp⟩ := hsp hc
  · exact ha x ho
  · exact hs (hp.trans hsta)

theorem Above.of_store (hsto : ∀ info, w.class? id = some info → w.Stores id info (change info))
    (h : (w.modifyClass id change).Above sub super) : w.Above sub super ∨
      sub = id ∧ ∃ sup, w.Admits id sup ∧ w.erasureClass? sup = some super := by
  obtain ⟨new, hn, hs, sup, hm, hsu⟩ := h
  rw [erasureClass?_modifyClass] at hsu
  obtain hn | ⟨rfl, old, ho, rfl⟩ := class?_of_modifyClass hn
  · exact .inl ⟨new, hn, hs, sup, hm, hsu⟩
  have hst := hsto old ho
  obtain hm | ha := hst.admits sup hm
  · exact .inl ⟨old, ho, hst.isCompiled.symm.trans hs, sup, hm, hsu⟩
  · exact .inr ⟨rfl, sup, ha, hsu⟩

theorem Admits.not_path {sup : TypeId} (h : w.Admits id sup)
    (hsu : w.erasureClass? sup = some super) (hf : w.FoundationsCompiled)
    (hb : w.Behind id) (hs : ∀ info, w.class? id = some info → info.isCompiled = false) :
    ¬ ReflTransGen w.Above super id := by
  cases h with
  | checked he hr hj hcl =>
    cases hsu.symm.trans he
    exact hb.not_path (hcl hf)
  | foundation hna hd he =>
    cases hsu.symm.trans he
    obtain ⟨info, hi, hc⟩ := hf _ hna super hd
    intro hp
    obtain rfl | ⟨next, ⟨info', hi', hn, -⟩, -⟩ := ReflTransGen.cases_head hp
    · simp [hs info hi] at hc
    · cases hi.symm.trans hi'
      simp [hc] at hn

structure Connecting (w : World) (id : TypeId) : Prop where
  begun : w.Begun id
  source : ∀ info, w.class? id = some info → info.isCompiled = false
  behind : w.Behind id

theorem Connecting.grows (h : w.Connecting id) (hg : w.Grows w') (hb : w'.Behind id) : w'.Connecting id := by
  refine ⟨h.begun.grows hg, fun new hn => ?_, hb⟩
  obtain ⟨info, hi, -⟩ := h.begun
  obtain ⟨info', hi', hk⟩ := hg.declared id info hi
  cases hn.symm.trans hi'
  exact hk.isCompiled.trans (h.source info hi)

theorem Ready.connecting_begin (hw : w.Linked) (hf : w.FoundationsCompiled)
    (hr : w.Ready id) : (w.beginHierarchy id).Connecting id := by
  refine ⟨hr.begun, fun new hn => ?_, hr.behind_begin hw hf⟩
  obtain ⟨info, hi, hs, -⟩ := hr
  rw [beginHierarchy, class?_modifyClass, if_pos rfl, hi] at hn
  cases hn
  exact hs

theorem Layered.store (hl : w.Layered) (hid : w.Connecting id) (hf : w.FoundationsCompiled)
    (hst : ∀ info, w.class? id = some info → w.Stores id info (change info)) :
    (w.modifyClass id change).Layered ∧ (w.modifyClass id change).Behind id := by
  have hg : w.Grows (w.modifyClass id change) := .modifyClass id fun info hi => (hst info hi).toKeptAs
  refine ⟨⟨?_, ?_⟩, ?_⟩
  · intro sub super ha
    obtain ho | ⟨rfl, -⟩ := ha.of_store hst
    · exact (hl.begun sub super ho).grows hg
    · exact hid.begun.grows hg
  · refine acyclic_of_new id hl.acyclic fun sub super ha => ?_
    refine (ha.of_store hst).imp_right fun ⟨heq, sup, had, hs⟩ => ⟨heq, ?_⟩
    exact had.not_path hs hf hid.behind hid.source
  · intro start hne hp
    refine (hid.behind start hne (ReflTransGen.mono ?_ _ _ hp)).grows hg
    rintro sub super ⟨hsu, ha⟩
    exact ⟨hsu, (ha.of_store hst).resolve_right fun h => hsu h.1⟩

theorem Course.layered (h : Course task stop w w') (hw : w.Sound) (hl : w.Layered)
    (hf : w'.FoundationsCompiled) (ht : ∀ id, task = some (.connect id) → w.Connecting id) :
    w'.Layered ∧ (stop = none → ∀ id, task = some (.connect id) → w'.Connecting id) := by
  induction h with
  | halt _ _ ih => exact ⟨(ih hw hl hf ht).1, (by simp)⟩
  | bracket h _ ih =>
    have hb := h.before.toSpares
    have ha := h.after.toSpares
    have hl0 := hl.of_above (.spares hb) fun _ _ => .of_spares hb
    have hl1 := (ih (hw.move (.aside h.before.toAside)) hl0 (hf.of_grows (.spares ha)) (by simp)).1
    exact ⟨hl1.of_above (.spares ha) fun _ _ => .of_spares ha, (by simp)⟩
  | promote _ h ih =>
    have hs := h.aside.toSpares
    have hl1 := (ih hw hl (hf.of_grows (.spares hs)) (by simp)).1
    exact ⟨hl1.of_above (.spares hs) fun _ _ => .of_spares hs, (by simp)⟩
  | @abandon _ w w1 stage deferred h1 ih =>
    have hs := (aside_turn w1 stage deferred).toSpares
    have hl1 := (ih hw hl (hf.of_grows (.spares hs)) ht).1
    exact ⟨hl1.of_above (.spares hs) fun _ _ => .of_spares hs, (by simp)⟩
  | trans h1 h2 ih1 ih2 =>
    obtain ⟨hl1, ht1⟩ := ih1 hw hl (hf.of_grows h2.grows) ht
    exact ih2 (h1.sound hw) hl1 hf (ht1 rfl)
  | advance h1 _ h2 ih1 ih2 =>
    obtain ⟨hl1, -⟩ := ih1 hw hl (hf.of_grows h2.grows) (by simp)
    exact ⟨(ih2 (h1.sound hw) hl1 hf (by simp)).1, (by simp)⟩
  | move h _ => exact ⟨hl.of_above h.grows fun _ _ => .of_move hw.linked h, (by simp)⟩
  | tend h =>
    refine ⟨hl.of_above h.move.grows fun _ _ => .of_move hw.linked h.move, fun _ id heq => ?_⟩
    exact absurd (Option.some.inj heq) (h.ne_connect id)
  | @inside task stop w w' h ih =>
    obtain ⟨hl', -⟩ := ih hw hl hf (by simp)
    refine ⟨hl', ?_⟩
    rintro rfl id ⟨⟩
    have hid := ht id rfl
    exact hid.grows h.grows (h.behind hw hl' (hf.of_grows h.grows) hid.begun hid.behind)
  | serve _ ih => exact ⟨(ih hw hl hf (by simp)).1, (by simp)⟩
  | operate ht' _ ih => exact ⟨(ih hw hl hf (by rcases ht' with rfl | rfl | rfl <;> simp)).1, (by simp)⟩
  | @store w id change hst =>
    have hg : w.Grows (w.modifyClass id change) := .modifyClass id fun info hi => (hst info hi).toKeptAs
    have hid := ht id rfl
    obtain ⟨hl', hbeh⟩ := hl.store hid (hf.of_grows hg) hst
    refine ⟨hl', ?_⟩
    rintro - _ ⟨⟩
    exact hid.grows hg hbeh
  | @connect id w w' hr hin _ ih =>
    have hbe := hl.of_above (grows_beginHierarchy w id) fun _ _ => .of_beginHierarchy
    have hf' := hf.of_grows (grows_endHierarchy w' id)
    have hl' := (ih (hw.beginHierarchy id) hbe hf' (by
      rintro _ ⟨⟩
      exact hr.connecting_begin hw.linked (hf'.of_grows ((grows_beginHierarchy w id).trans hin.grows)))).1
    exact ⟨hl'.of_above (grows_endHierarchy w' id) fun _ _ => .of_endHierarchy, (by simp)⟩
  | @broken _ id w w' hr hin ih =>
    have hbe := hl.of_above (grows_beginHierarchy w id) fun _ _ => .of_beginHierarchy
    exact ⟨(ih (hw.beginHierarchy id) hbe hf (by
      rintro _ ⟨⟩
      exact hr.connecting_begin hw.linked (hf.of_grows ((grows_beginHierarchy w id).trans hin.grows)))).1, (by simp)⟩
  | nest h _ ih =>
    obtain ⟨_, h0, h1⟩ := h.moves
    have hw0 := hw.move h0
    have hl0 := hl.of_above h0.grows fun _ _ => .of_move hw.linked h0
    have hl1 := hl0.of_above h1.grows fun _ _ => .of_move hw0.linked h1
    refine ⟨(ih (hw0.move h1) hl1 hf fun id heq => ?_).1, (by simp)⟩
    exact absurd (Option.some.inj heq) (h.ne_connect id)
  | view h _ _ ih | unfilled h _ ih =>
    have hl1 := hl.of_above (.spares h.spares) fun _ _ => .of_spares h.spares
    exact ⟨(ih (h.sound hw) hl1 hf (by simp)).1, (by simp)⟩

end Bindings.World
