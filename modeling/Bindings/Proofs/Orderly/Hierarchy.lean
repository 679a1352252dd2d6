import Bindings.Proofs.Orderly.Cycles
import Bindings.Proofs.World.Lawful

/-! # Connecting a hierarchy -/

namespace Bindings

open World ClassInfo WellKnown

variable {w w' : World} {info : ClassInfo}

namespace World

variable {erased id iface sup : TypeId} {ifaces : List TypeId} {name : QName}

def Suits (w : World) (id : TypeId) : SupertypeSlot → Prop
  | .superclass => ∃ info, w.class? id = some info ∧ info.isInterface = false ∧
    info.modifiers.isFinal = false
  | .interface => w.IsInterface id

theorem suits_of_objection? {slot : SupertypeSlot} (hr : w.role id = .declared)
    (h : slot.objection? ((w.class? id).any (·.isInterface)) ((w.class? id).any (·.modifiers.isFinal)) =
      none) : w.Suits id slot := by
  obtain ⟨info, hi⟩ := role_eq_declared.1 hr
  rw [hi, Option.any_some, Option.any_some] at h
  cases slot <;> cases hin : info.isInterface <;> cases hf : info.modifiers.isFinal <;>
    simp only [hin, hf, SupertypeSlot.objection?, reduceCtorEq] at h
  · exact ⟨info, hi, hin, hf⟩
  · exact ⟨info, hi, hin⟩
  · exact ⟨info, hi, hin⟩

def Superclass (w : World) (supertype : TypeId) : Prop :=
  ∃ erased, w.erasureClass? supertype = some erased ∧ w.role erased = .declared ∧
    (w.FoundationsFit → w.Extensible erased)

theorem Superclass.lasts (hg : w.Grows w') (hl : w.Lasts w') (h : w.Superclass sup) : w'.Superclass sup := by
  obtain ⟨erased, he, hr, hex⟩ := h
  exact ⟨erased, hg.erasureClass? he hr, hg.role_declared hr, fun hf => (hex (hf.of_lasts hg hl)).lasts hg hl⟩

theorem Superclass.of_suits (he : w.erasureClass? sup = some erased)
    (h : w.Suits erased .superclass) : w.Superclass sup := by
  obtain ⟨info, hi, hin, hf⟩ := h
  exact ⟨erased, he, role_of_class? hi, fun _ => ⟨info, hi, hin, fun h => by simp [hf] at h⟩⟩

theorem Superclass.of_denotes (hn : name = WellKnown.object ∨ name = WellKnown.enumClass)
    (he : w.erasureClass? sup = some erased) (h : w.Denotes name erased) : w.Superclass sup := by
  obtain ⟨info, hi⟩ := role_eq_declared.1 h.role
  refine ⟨erased, he, h.role, fun hf => ⟨info, hi, hf.classes name hn erased info h hi, ?_⟩⟩
  obtain rfl | rfl := hn
  · exact fun _ => .inl h
  · exact fun _ => .inr h

theorem Denotes.erasureClass? (h : w.Denotes name id) : w.erasureClass? id = some id := by
  obtain ⟨info, hi⟩ := role_eq_declared.1 h.role
  rw [World.erasureClass?, class?_eq_some.1 hi]

theorem Denotes.admits (hn : name ∈ foundations) (h : w.Denotes name sup) : w.Admits id sup :=
  .foundation hn h h.erasureClass?

theorem Denotes.root {object : TypeId} (h : w.Denotes WellKnown.object object) (id : TypeId) :
    w.Admits id object ∧ w.Superclass object :=
  ⟨h.admits (by simp [WellKnown.foundations]), .of_denotes (.inl rfl) h.erasureClass? h⟩

structure Interfaces (w : World) (interfaces : List TypeId) : Prop extends w.Implements interfaces where
  wraps : ∀ interface ∈ interfaces, w.Wraps interface

theorem Interfaces.nil (w : World) : w.Interfaces [] := ⟨⟨by simp, .nil⟩, by simp⟩

theorem Interfaces.grounded (h : w.Interfaces ifaces) (hm : iface ∈ ifaces) : w.Grounded iface := by
  obtain ⟨erased, he, info, hi, -⟩ := h.implemented iface hm
  exact .inl ⟨erased, he, role_of_class? hi⟩

theorem Interfaces.lasts (hg : w.Grows w') (hl : w.Lasts w') (h : w.Interfaces ifaces) : w'.Interfaces ifaces where
  toImplements := h.toImplements.lasts hg hl
  wraps iface hm := (h.wraps iface hm).lasts hg hl (h.grounded hm)

theorem Implements.append (h : w.Implements ifaces) (he : w.erasureClass? iface = some erased)
    (hi : w.IsInterface erased) (hn : ∀ earlier ∈ ifaces, w.erasureClass? earlier ≠ some erased) :
    w.Implements (ifaces ++ [iface]) where
  implemented other hm := by
    obtain hm | hm := List.mem_append.1 hm
    · exact h.implemented other hm
    · rw [List.mem_singleton.1 hm]
      exact ⟨erased, he, hi⟩
  distinct := by
    refine List.pairwise_append.2 ⟨h.distinct, List.pairwise_singleton .., fun earlier hm other ho => ?_⟩
    rw [List.mem_singleton.1 ho, he]
    exact hn earlier hm

end World

namespace Query

variable {id object : TypeId}

instance : (markBroken id).Orderly := .modifyState id fun _ => { EditedTo.refl _ with }

instance (kind : ProblemKind) (display : String) : (refuseSupertype id kind display).Orderly := by
  unfold refuseSupertype
  infer_instance

instance : (doneConnecting id).Orderly := .apart fun w => { Apart.refl w with }

theorem checkSupertype_runs (hw : w.Sound) (id : TypeId) {cand : TypeId}
    (hc : w.Refers cand) (display : String) (slot : SupertypeSlot) :
    (checkSupertype id cand display slot).Runs w fun found w' => ∀ sup, found = some sup →
      w'.Admits id sup ∧ sup = cand ∧ ∃ erased, w.erasureClass? cand = some erased ∧ w.Suits erased slot := by
  refine .get ?_
  dsimp only
  split
  · exact .after hw fun _ _ _ _ => .pure (by simp)
  split
  · exact .after hw fun _ _ _ _ => .pure (by simp)
  split
  · next erased he =>
    have hr := hc.1.role he
    split
    · exact .after hw fun _ _ _ _ => .pure (by simp)
    rename_i ho
    refine .modify_bind hw (.apart { Apart.refl w with }) fun hw1 hg1 => ?_
    refine .bind hw1 (closesCycle_runs hw1 id (hg1.role_declared hr)) fun closes w2 hw2 hg2 hcl => ?_
    split
    · exact .after hw2 fun _ _ hw3 _ => .after hw3 fun _ _ hw4 _ => .after hw4 fun _ _ _ _ => .pure (by simp)
    rename_i hclo
    refine .pure ?_
    rintro _ ⟨⟩
    have hg := hg1.trans hg2
    obtain ⟨hj, hcl⟩ := hcl (by simpa using hclo)
    refine ⟨.checked (hg.erasureClass? he hr) (hg.role_declared hr) hj hcl,
      rfl, erased, he, suits_of_objection? hr ?_⟩
    cases hca : slot.objection? _ _ with
    | none => rfl
    | some kind => exact (ho kind hca).elim
  · exact .after hw fun _ _ _ _ => .pure (by simp)

theorem enumSuperclass_runs (hw : w.Sound) (hid : w.role id = .declared) :
    (enumSuperclass id).Runs w fun found w' => ∀ sup, found = some sup → w'.Admits id sup ∧ w'.Superclass sup := by
  refine .bind hw (getType_runs hw enumClass) fun found w1 hw1 hg hf => ?_
  have hn : enumClass ∈ foundations := by simp [foundations]
  split
  · next enumClass =>
    have hd := hf enumClass rfl
    refine .get ?_
    dsimp only
    split
    · have hlt : ∀ other, w1.role other = .declared → other.index < w1.types.size := by
        intro other ho
        exact lt_size_of_role_ne (by simp [ho])
      have hc : Course none none w1 (Edit.parameterizedType enumClass [id] none w1).2 := Edit.Orderly.course w1 hw1
      have hd' := hd.grows hc.grows
      have hk : ∀ other ∈ [id] ++ enumClass :: (none : Option TypeId).toList, other.index < w1.types.size := by
        intro other ho
        simp only [List.cons_append, List.nil_append, Option.toList_none, List.mem_cons,
          List.not_mem_nil, or_false] at ho
        obtain rfl | rfl := ho
        · exact hlt _ (hg.role_declared hid)
        · exact hlt _ hd.role
      have he := parameterizedType_erasureClass? hw1 hk
      refine .map _ (.lift hc ?_)
      rintro _ ⟨⟩
      exact ⟨.foundation hn hd' he, .of_denotes (.inr rfl) he hd'⟩
    refine .pure ?_
    rintro _ ⟨⟩
    exact ⟨hd.admits hn, .of_denotes (.inr rfl) hd.erasureClass? hd⟩
  · exact .pure (by simp)

theorem declaredSuperclass_runs (hw : w.Sound) (id : TypeId) (scope : ScopeId)
    (ho : w.Denotes WellKnown.object object) (ref : Option TypeRef) :
    (declaredSuperclass id scope object ref).Runs w fun sup w' =>
      w'.Admits id sup ∧ w'.Superclass sup := by
  have hr : ∀ {w' : World}, w.Grows w' → w'.Admits id object ∧ w'.Superclass object := fun hg => (ho.grows hg).root id
  cases ref with
  | none => exact .pure (hr (.refl w))
  | some ref =>
    refine .bind hw (typeOfRefIn_runs scope .supertypeNotFound ref hw) fun cand w1 hw1 hg1 hc => ?_
    refine .bind hw1 ((checkSupertype_runs hw1 id hc.refers _ _).follows hw1) fun found w2 _ hg2 hf => .pure ?_
    cases found with
    | none => exact hr (hg1.trans hg2)
    | some sup =>
      obtain ⟨ha, rfl, erased, he, hs⟩ := hf.1 sup rfl
      exact ⟨ha, (Superclass.of_suits he hs).lasts hg2 hf.2.lasts⟩

theorem superclassOf_runs (hw : w.Sound) (hid : w.role id = .declared) (scope : ScopeId)
    (decl : TypeDecl) (ho : w.Denotes WellKnown.object object) :
    (superclassOf id scope decl object).Runs w fun found w' =>
      (found = none → w'.Denotes WellKnown.object id) ∧
      ∀ sup, found = some sup → w'.Admits id sup ∧ w'.Superclass sup := by
  have hr : ∀ {w' : World}, w.Grows w' → w'.Admits id object ∧ w'.Superclass object := fun hg => (ho.grows hg).root id
  unfold superclassOf
  split
  · next heq => exact .pure ⟨fun _ => heq ▸ ho, by simp⟩
  have ho' : (some object = none → w.Denotes WellKnown.object id) ∧ ∀ sup,
      some object = some sup → w.Admits id sup ∧ w.Superclass sup := by
    refine ⟨by simp, ?_⟩
    rintro _ ⟨⟩
    exact hr (.refl w)
  split
  · exact .pure ho'
  · exact .pure ho'
  · refine .bind hw (enumSuperclass_runs hw hid) fun found w1 _ hg hf => .pure ⟨by simp, ?_⟩
    rintro _ ⟨⟩
    cases found with
    | none => exact hr hg
    | some sup => exact hf sup rfl
  refine .map _ ((declaredSuperclass_runs hw id scope ho _).mono ?_)
  refine fun sup w' h => ⟨by simp, ?_⟩
  rintro _ ⟨⟩
  exact h

theorem withAnnotationInterface_runs (hw : w.Sound) (id : TypeId) (kind : ClassKind)
    {ifaces : List TypeId} (hin : w.Interfaces ifaces) :
    (withAnnotationInterface kind ifaces).Runs w fun found w' =>
      (∀ sup ∈ found, sup ∈ ifaces ∨ w'.Admits id sup) ∧
      (w'.FoundationsFit → w'.Implements found) := by
  unfold withAnnotationInterface
  split
  · exact .pure ⟨fun _ h => .inl h, fun _ => hin.toImplements⟩
  refine .bind hw ((getType_runs hw annotationInterface).follows hw) fun found w1 _ hg hf => ?_
  have hin := hin.lasts hg hf.2.lasts
  split
  · next iface =>
    have hd := hf.1 iface rfl
    split
    · exact .pure ⟨fun _ h => .inl h, fun _ => hin.toImplements⟩
    rename_i hn
    refine .pure ⟨fun sup hm => ?_, fun hfi => ?_⟩
    · obtain hm | hm := List.mem_append.1 hm
      · exact .inl hm
      · rw [List.mem_singleton.1 hm]
        exact .inr (hd.admits (by simp [foundations]))
    · obtain ⟨info, hi⟩ := role_eq_declared.1 hd.role
      obtain ⟨hint, hge⟩ := hfi.annotation iface info hd hi
      refine hin.toImplements.append hd.erasureClass? ⟨info, hi, hint⟩ ?_
      intro earlier hm he
      -- An interface that is not generic is spelled in one way only.
      obtain rfl | ⟨info', hi', hwr⟩ := hin.wraps earlier hm iface he
      · exact hn (by simpa using hm)
      · cases hi.symm.trans hi'
        simp [hint, hge] at hwr
  · exact .pure ⟨fun _ h => .inl h, fun _ => hin.toImplements⟩

end Query

namespace World

variable {id : TypeId} {superclass : Option TypeId} {supertypes : List TypeId}

def Holds (w : World) (id : TypeId) (superclass : Option TypeId) (supertypes : List TypeId) : Prop :=
  ∃ info, w.class? id = some info ∧ info.isCompiled = false ∧ info.state.hierarchyBegun ∧
    info.superclass = superclass ∧ supertypes ⊆ info.supertypes

theorem Holds.follows (hf : w.Follows w') (h : w.Holds id superclass supertypes) :
    w'.Holds id superclass supertypes := by
  obtain ⟨info, hi, hs, hb, hsu, hsub⟩ := h
  obtain ⟨info', hi', hh⟩ := hf.kept id ⟨info, hi, hb⟩ info hi hs
  exact ⟨info', hi', hh.isCompiled.trans hs, hh.begun.trans hb, hh.superclass.trans hsu, hh.supertypes ▸ hsub⟩

theorem Holds.store {superclass' : Option TypeId}
    {new : List TypeId} {change : ClassInfo → ClassInfo} (h : w.Holds id superclass supertypes)
    (hch : ∀ info, info.superclass = superclass → (change info).isCompiled = info.isCompiled ∧
      (change info).state = info.state ∧ (change info).superclass = superclass' ∧
      new ⊆ (change info).supertypes) : (w.modifyClass id change).Holds id superclass' new := by
  obtain ⟨info, hi, hs, hb, hsu, -⟩ := h
  obtain ⟨hc, hst, hsu', hsub⟩ := hch info hsu
  refine ⟨change info, ?_, hc.trans hs, by rwa [hst], hsu', hsub⟩
  rw [class?_modifyClass, if_pos rfl, hi]
  rfl

theorem Holds.isSource (h : w.Holds id superclass supertypes) (hi : w.class? id = some info) :
    info.isCompiled = false := by
  obtain ⟨_, hi', hs, -⟩ := h
  cases hi.symm.trans hi'
  exact hs

def HasBounds (w : World) (id : TypeId) : Prop :=
  ∃ info, w.class? id = some info ∧ info.state.variablesConnected

theorem HasBounds.lasts (hl : w.Lasts w') (h : w.HasBounds id) : w'.HasBounds id := by
  obtain ⟨info, hi, hc⟩ := h
  obtain ⟨info', hi', hla⟩ := hl id info hi
  exact ⟨info', hi', hla.variablesConnected hc⟩

end World

namespace Query

variable {β : Type} {id : TypeId} {superclass : Option TypeId} {supertypes : List TypeId}

theorem RunsIn.bind_inside {α : Type} {query : Query α} {next : α → Query β} {mid : α → World → Prop}
    {post : β → World → Prop} (hw : w.Sound) (hh : w.Holds id superclass supertypes) (hq : query.Runs w mid)
    (hn : ∀ a w', w'.Sound → w.Follows w' → w'.Holds id superclass supertypes → mid a w' →
      (next a).RunsIn (some (.connect id)) w' post) : (query >>= next).RunsIn (some (.connect id)) w post :=
  RunsIn.bind hw (.inside (hq.follows hw)) fun a w' hw' _ ⟨hm, hf⟩ => hn a w' hw' hf (hh.follows hf) hm

theorem connectInterfaces_runs (hw : w.Sound) (id : TypeId) (scope : ScopeId)
    {connected : List TypeId} (hh : w.Holds id superclass connected)
    (hin : w.Interfaces connected) (refs : List TypeRef) :
    (connectInterfaces id scope connected refs).RunsIn (some (.connect id)) w
      fun ifaces w' => w'.Holds id superclass ifaces ∧ w'.Interfaces ifaces := by
  induction refs generalizing w connected with
  | nil => exact .pure ⟨hh, hin⟩
  | cons ref rest ih =>
    rw [connectInterfaces]
    refine .bind_inside hw hh (typeOfRefIn_runs scope .supertypeNotFound ref hw) fun cand w1 hw1 hfo1 hh hc => ?_
    refine .bind_inside hw1 hh (checkSupertype_runs hw1 id hc.refers _ _) fun found w2 hw2 hfo2 hh hf => ?_
    have hin2 := hin.lasts (hfo1.grows.trans hfo2.grows) (hfo1.lasts.trans hfo2.lasts)
    split
    · exact ih hw2 hh hin2
    rename_i iface
    obtain ⟨ha, rfl, erased, he, hsui⟩ := hf iface rfl
    refine .get ?_
    dsimp only
    split
    · refine .bind_inside hw2 hh (.of_orderly hw2) fun _ w3 hw3 hfo3 hh _ => ?_
      exact ih hw3 hh (hin2.lasts hfo3.grows hfo3.lasts)
    rename_i hn
    have he2 : w2.erasureClass? iface = some erased := hfo2.grows.erasureClass? he (hc.refers.1.role he)
    have hwr2 := hc.wraps.lasts hfo2.grows hfo2.lasts hc.refers.1
    have hap : w2.Interfaces (connected ++ [iface]) := by
      refine ⟨hin2.toImplements.append he2 (IsInterface.lasts hfo2.lasts hsui)
        fun earlier hm hs => hn ?_, fun other hm => ?_⟩
      · refine List.any_eq_true.2 ⟨earlier, hm, ?_⟩
        rw [hs, he2]
        exact beq_self_eq_true _
      · obtain hm | hm := List.mem_append.1 hm
        · exact hin2.wraps other hm
        · exact List.mem_singleton.1 hm ▸ hwr2
    have ⟨info, hi, hso, _, _, hsub⟩ := hh
    have hst : ∀ info', w2.class? id = some info' →
        w2.Stores id info' { info' with interfaces := connected ++ [iface] } := by
      intro info' hi'
      cases hi.symm.trans hi'
      refine { ClassInfo.EditedTo.refl _ with
        source := hso, enclosing := rfl, sameVariables := rfl, admits := fun sup hm => ?_ }
      simp only [ClassInfo.supertypes, List.mem_append, List.mem_singleton] at hm
      obtain hm | hm | rfl := hm
      · exact .inl (List.mem_append_left _ hm)
      · exact .inl (hsub hm)
      · exact .inr ha
    refine .store_bind hw2 hst fun hw3 => ?_
    refine ih hw3 (hh.store fun info hsu => ⟨rfl, rfl, hsu, ?_⟩) (hap.lasts
      (.modifyClass id fun info hi => (hst info hi).toKeptAs)
      (.modifyClass id fun info hi => (hst info hi).toLastsAs))
    exact List.subset_append_right ..

theorem resolveBounds_runs (hw : w.Sound) (scope : ScopeId) (name : String) (i : Nat)
    (refs : List TypeRef) : (resolveBounds scope name i refs).Runs w fun found w' =>
      (∀ bound ∈ found.1, w'.Knows bound) ∧ ∀ bound ∈ found.2, w'.Knows bound := by
  induction refs generalizing w i with
  | nil => exact .pure (by simp)
  | cons ref rest ih =>
    rw [resolveBounds]
    refine .bind hw (typeOfRef_runs hw scope ref) fun bound w1 hw1 _ hb => .get ?_
    have hr : ∀ (first : Option TypeId × Option TypeId) (w2 : World), w2.Sound → w1.Grows w2 →
        (∀ id, first.1 = some id ∨ first.2 = some id → id = bound) → (do
          let later ← resolveBounds scope name (i + 1) rest
          return (first.1 <|> later.1, first.2.toList ++ later.2) :
          Query (Option TypeId × List TypeId)).Runs w2 fun found w' =>
            (∀ bound ∈ found.1, w'.Knows bound) ∧ ∀ bound ∈ found.2, w'.Knows bound := by
      intro first w2 hw2 hg2 hf
      refine .bind hw2 (ih hw2 (i + 1)) fun later w3 _ hg3 hl => .pure ?_
      have hk := hb.knows.grows (hg2.trans hg3)
      refine ⟨fun id hid => ?_, fun id hid => ?_⟩
      · cases hfs : first.1 with
        | none =>
          rw [hfs] at hid
          exact hl.1 id hid
        | some own =>
          rw [hfs] at hid
          cases hid
          exact hf id (.inl hfs) ▸ hk
      · obtain hid | hid := List.mem_append.1 hid
        · exact hf id (.inr (Option.mem_toList.1 hid)) ▸ hk
        · exact hl.2 id hid
    dsimp only
    split
    · exact .pure_bind (hr (none, none) w1 hw1 (.refl w1) (by simp))
    split
    · exact .pure_bind (hr (none, some bound) w1 hw1 (.refl w1) (by simp [eq_comm]))
    split
    · exact .pure_bind (hr (some bound, none) w1 hw1 (.refl w1) (by simp [eq_comm]))
    · exact .after hw1 fun _ w2 hw2 hg2 => .pure_bind (hr (none, none) w2 hw2 hg2 (by simp))

instance (scope : ScopeId) (params : List TypeParam) (vars : List TypeId) :
    (connectBounds scope params vars).Orderly := by
  refine .forM (h := fun ⟨param, var⟩ => ⟨fun w hw => ?_⟩)
  refine .bind hw (resolveBounds_runs hw scope _ _ _) fun bounds w1 hw1 _ hb => ?_
  exact setBounds_runs hw1 var hb.1 hb.2

theorem connectClassBounds_runs (hw : w.Sound) (hid : w.role id = .declared) (scope : ScopeId)
    (params : List TypeParam) : (connectClassBounds id scope params).Runs w fun _ w' => w'.HasBounds id := by
  refine .get ?_
  obtain ⟨info, hi⟩ := role_eq_declared.1 hid
  rw [hi]
  dsimp only
  split
  · next hc => exact .pure ⟨info, hi, hc⟩
  have hm : (Edit.modifyState id fun state => { state with variablesConnected := true }).Orderly :=
    .modifyState id fun _ => { EditedTo.refl _ with variablesConnected := fun _ => rfl }
  refine .lift_bind hw fun hw1 _ => ?_
  refine ((RunsIn.of_orderly hw1).follows hw1).mono fun _ w2 h => ?_
  refine HasBounds.lasts h.2.lasts ⟨{ info with state := { info.state with variablesConnected := true } }, ?_, rfl⟩
  change (w.modifyClass id _).class? id = _
  rw [class?_modifyClass, if_pos rfl, hi]
  rfl

theorem connectContext_runs (hw : w.Sound) (hid : w.role id = .declared) (scope : ScopeId)
    (unit : UnitId) (decl : TypeDecl) (encl : Option TypeId) :
    (connectContext id scope unit decl encl).Runs w fun _ w' => w'.HasBounds id := by
  unfold connectContext
  refine .get ?_
  split
  · refine .after hw fun _ w1 hw1 hg1 => .after hw1 fun _ w2 hw2 hg2 => ?_
    exact connectClassBounds_runs hw2 ((hg1.trans hg2).role_declared hid) _ _
  · refine .after hw fun _ w1 hw1 hg1 => ?_
    exact connectClassBounds_runs hw1 (hg1.role_declared hid) _ _

theorem connected_of_store {interfaces : List TypeId}
    (hg : w.Grows (w.modifyClass id fun info => { info with interfaces }))
    (hh : w.Holds id superclass supertypes) (hb : w.HasBounds id)
    (hr : superclass = none → w.Denotes object id)
    (hsu : ∀ supertype, superclass = some supertype → w.Superclass supertype)
    (hin : w.FoundationsFit → w.Implements interfaces) :
    (w.modifyClass id fun info => { info with interfaces }).Connected id := by
  obtain ⟨info, hi, -, -, rfl, -⟩ := hh
  obtain ⟨_, hi', hb⟩ := hb
  cases hi.symm.trans hi'
  have hl : w.Lasts (w.modifyClass id fun info => { info with interfaces }) :=
    .modifyClass id fun _ _ => { EditedTo.refl _ with }
  refine ⟨{ info with interfaces }, ?_, hb, fun hf => ?_⟩
  · rw [class?_modifyClass, if_pos rfl, hi]
    rfl
  refine ⟨(hin (hf.of_lasts hg hl)).lasts hg hl, fun hn => ?_⟩
  cases hs : info.superclass with
  | none => exact absurd ((hr hs).grows hg) hn
  | some supertype =>
    obtain ⟨erased, he, -, hex⟩ := (hsu supertype hs).lasts hg hl
    exact ⟨supertype, erased, rfl, he, hex hf⟩

theorem connectSupertypes_runs (hw : w.Sound)
    (hho : w.Holds id superclass []) (scope : ScopeId) (unit : UnitId) (decl : TypeDecl)
    (enclosing : Option TypeId) : (connectSupertypes id scope unit decl enclosing).RunsIn (some (.connect id)) w
      fun _ w' => w'.Connected id := by
  have hid : w.role id = .declared := by
    obtain ⟨info, hi, -⟩ := hho
    exact role_of_class? hi
  refine .bind_inside hw hho (connectContext_runs hw hid _ _ _ _) fun _ w0 hw0 hf0 hho hbo => ?_
  refine .bind_inside hw0 hho (objectType_runs hw0) fun object w1 hw1 hf1 hho ho => ?_
  have hid := (hf0.grows.trans hf1.grows).role_declared hid
  refine .bind_inside hw1 hho (superclassOf_runs hw1 hid scope decl ho) fun superclass w2 hw2 hf2 hho hsup => ?_
  have hbo := (hbo.lasts hf1.lasts).lasts hf2.lasts
  have hst : ∀ info, w2.class? id = some info → w2.Stores id info { info with superclass } := by
    intro info hi
    refine { ClassInfo.EditedTo.refl _ with
      source := hho.isSource hi, enclosing := rfl, sameVariables := rfl
      admits := fun supertype hm => ?_ }
    simp only [ClassInfo.supertypes, List.mem_append, Option.mem_toList] at hm
    obtain hm | hm := hm
    · exact .inr (hsup.2 supertype hm).1
    · exact .inl (List.mem_append_right _ hm)
  have hg3 : w2.Grows (w2.modifyClass id fun info => { info with superclass }) :=
    .modifyClass id fun info hi => (hst info hi).toKeptAs
  have hl3 : w2.Lasts (w2.modifyClass id fun info => { info with superclass }) :=
    .modifyClass id fun info hi => (hst info hi).toLastsAs
  refine .store_bind hw2 hst fun hw3 => ?_
  replace hho : (w2.modifyClass id fun info => { info with superclass }).Holds id superclass [] :=
    hho.store fun info _ => ⟨rfl, rfl, rfl, (by simp)⟩
  refine .bind_inside hw3 hho (.of_orderly hw3) fun _ w4 hw4 hf4 hho _ => ?_
  refine .bind hw4 ((connectInterfaces_runs hw4 id scope hho (.nil w4) _).lasting hw4) ?_
  rintro interfaces w5 hw5 hg5 ⟨⟨hho, hin⟩, hl5⟩
  refine .bind_inside hw5 hho (.of_orderly hw5) fun _ w6 hw6 hf6 hho _ => ?_
  have hin := hin.lasts hf6.grows hf6.lasts
  refine .bind_inside hw6 hho (withAnnotationInterface_runs hw6 id decl.kind hin)
    fun interfaces w7 hw7 hf7 hho hin => .get ?_
  have hg7 := ((((hg3.trans hf4.grows).trans hg5).trans hf6.grows).trans hf7.grows)
  have hl7 := ((((hl3.trans hf4.lasts).trans hl5).trans hf6.lasts).trans hf7.lasts)
  have hst8 : ∀ info, w7.class? id = some info → w7.Stores id info { info with interfaces } := by
    intro info hi
    refine { ClassInfo.EditedTo.refl _ with
      source := hho.isSource hi, enclosing := rfl, sameVariables := rfl
      admits := fun supertype hm => ?_ }
    obtain ⟨info', hi', -, -, -, hsub⟩ := hho
    cases hi.symm.trans hi'
    simp only [ClassInfo.supertypes, List.mem_append] at hm
    obtain hm | hm := hm
    · exact .inl (List.mem_append_left _ hm)
    · exact (hin.1 supertype hm).imp_left fun hm => hsub hm
  have hg8 : w7.Grows (w7.modifyClass id fun info => { info with interfaces }) :=
    .modifyClass id fun info hi => (hst8 info hi).toKeptAs
  have hc := connected_of_store hg8 hho (hbo.lasts hl7) (fun hn => (hsup.1 hn).grows hg7)
    (fun supertype hso => (hsup.2 supertype hso).2.lasts hg7 hl7) hin.2
  refine .store_bind hw7 hst8 fun hw8 => .inside ?_
  have hho : (w7.modifyClass id fun info => { info with interfaces }).Holds id superclass [] :=
    hho.store fun info hsu => ⟨rfl, rfl, hsu, (by simp)⟩
  refine ((RunsIn.of_orderly hw8).follows hw8).mono ?_
  rintro _ w9 ⟨-, hf⟩
  obtain ⟨info, hi, hs, hb, -⟩ := hho
  obtain ⟨info', hi', hh⟩ := hf.kept id ⟨info, hi, hb⟩ info hi hs
  exact hc.lasts hf.grows hf.lasts hi hi' hh.superclass hh.interfaces

theorem connectDeclared_runs (hw : w.Sound) (hre : w.Ready id) (scope : ScopeId)
    (unit : UnitId) (decl : TypeDecl) (encl : Option TypeId) :
    (connectDeclared id scope unit decl encl).Runs w fun _ w' => w'.Begun id := by
  have hw1 := hw.beginHierarchy id
  have hb : (w.beginHierarchy id).Begun id := hre.begun
  obtain ⟨superclass, hh⟩ : ∃ superclass, (w.beginHierarchy id).Holds id superclass [] := by
    obtain ⟨info, hi, hs, -⟩ := hre
    refine ⟨info.superclass, { info with state := { info.state with hierarchyBegun := true } }, ?_,
      hs, rfl, rfl, (by simp)⟩
    rw [beginHierarchy, class?_modifyClass, if_pos rfl, hi]
    rfl
  intro d hd
  obtain ⟨hc, hco⟩ := connectSupertypes_runs hw1 hh scope unit decl encl d hd
  have hst : connectDeclared id scope unit decl encl d w =
      (connectSupertypes id scope unit decl encl >>= fun _ =>
        liftM (Edit.modifyState id fun state => { state with hierarchyEnded := true }))
        d (w.beginHierarchy id) := rfl
  rw [hst]
  refine bind_elim d _ (fun _ w2 hr => ?_) fun _ w2 hr => ?_ <;> rw [hr] at hc hco
  · exact ⟨.broken hre hc, fun _ ha => by cases ha⟩
  · refine ⟨.connect hre hc (hco _ rfl), fun _ _ => ?_⟩
    exact (hb.grows hc.grows).grows (grows_endHierarchy w2 id)

/-- A source class has a scope, so where nothing is declared with a scope nothing is declared. -/
theorem declaration?_of_no_scope (hw : w.Linked) (hi : w.class? id = some info)
    (hno : ∀ scope unit decl, info.scope = some scope → w.declaration? id = some (unit, decl) → False) :
    w.declaration? id = none := by
  refine Option.eq_none_iff_forall_ne_some.2 fun found hd => ?_
  have hd' := hd
  rw [declaration?, hi, Option.bind_eq_bind, Option.bind_some] at hd'
  cases ho : info.origin with
  | compiled => simp [ho] at hd'
  | source unit path =>
    obtain ⟨scope, hs⟩ := Option.isSome_iff_exists.1 (hw.source id info unit path hi ho).2
    exact hno scope found.1 found.2 hs hd

theorem declaration?_of_no_class (hn : ∀ info, w.class? id = some info → False) : w.declaration? id = none := by
  rw [declaration?, Option.eq_none_iff_forall_ne_some.2 hn]
  rfl

theorem connectHierarchy_runs (hw : w.Sound) (id : TypeId) : (connectHierarchy id).Runs w fun _ w' => w'.Joined id := by
  refine .get ?_
  split
  · next info hi =>
    split
    · next hb => exact .pure (.inl ⟨info, hi, hb⟩)
    rename_i hb
    split
    · next scope unit decl _ hd =>
      refine (connectDeclared_runs hw ⟨info, hi, ?_, by simpa using hb, by rw [hd]; rfl⟩
        scope unit decl info.enclosing).mono fun _ _ => .inl
      cases hc : info.isCompiled with
      | false => rfl
      | true => rw [declaration?_of_compiled hi hc] at hd; cases hd
    · next hno => exact .pure (.inr (declaration?_of_no_scope hw.linked hi hno))
  · next hn => exact .pure (.inr (declaration?_of_no_class hn))

instance : (connectHierarchy id).Orderly := .of_runs fun _ hw => connectHierarchy_runs hw id

instance (fuel : Nat) (visited : List TypeId) (seen : List (TypeId × TypeId)) (waiting : List TypeId) :
    (collisionFrom fuel visited seen waiting).Orderly := by
  induction fuel generalizing visited seen waiting with
  | zero => cases waiting <;> rw [collisionFrom] <;> infer_instance
  | succ fuel ih =>
    cases waiting with
    | nil => rw [collisionFrom]; infer_instance
    | cons cur waiting =>
      rw [collisionFrom]
      split
      · infer_instance
      refine .get fun w => ?_
      dsimp only
      split <;> infer_instance

instance : (checkCollisions id).Orderly := by
  refine .get fun w => ?_
  split
  · split
    · infer_instance
    · refine .bind (.lift (.modifyState id fun _ => { EditedTo.refl _ with })) fun _ => .after fun budget => ?_
      refine .after fun collision => ?_
      split <;> infer_instance
  · infer_instance

end Query

end Bindings
