import Bindings.Proofs.Orderly.Hierarchy

/-! # Members -/

namespace Bindings

open World Edit MethodInfo

variable {scope parent : ScopeId} {name selector : String} {type declaring recv : TypeId} {info : ClassInfo}
  {mods : Modifiers}

def LocalInfo.unplaced (info : LocalInfo) : LocalInfo := { info with slot := none }

/-- Only the slots of local variables differ. -/
structure World.SameButSlots (w w' : World) : Prop where
  world : w' = { w with locals := w'.locals }
  size : w'.locals.size = w.locals.size
  unplaced : ∀ var, (w'.localVar var).unplaced = (w.localVar var).unplaced

namespace World.SameButSlots

variable {w w1 w2 : World}

theorem refl (w : World) : w.SameButSlots w := ⟨rfl, rfl, fun _ => rfl⟩

theorem trans (h1 : w.SameButSlots w1) (h2 : w1.SameButSlots w2) : w.SameButSlots w2 :=
  ⟨by rw [h2.world, h1.world], h2.size.trans h1.size, fun var => (h2.unplaced var).trans (h1.unplaced var)⟩

theorem place (h : w.SameButSlots w1) (var : LocalId) (slot : Option Nat) :
    w.SameButSlots (w1.modifyLocal var fun info => { info with slot }) :=
  h.trans ⟨rfl, Array.size_modify, fun _ => read_modify _ _ _ _ fun _ => rfl⟩

end World.SameButSlots

theorem World.placeLocals_same (w : World) (offset : Nat) (ids : List LocalId) :
    w.SameButSlots (w.placeLocals offset ids).2 := by
  induction ids generalizing w offset with
  | nil => exact .refl w
  | cons id rest ih =>
    rw [placeLocals]
    dsimp only
    split
    · exact ((SameButSlots.refl w).place id (some offset)).trans (ih ..)
    · exact ih w offset

theorem World.placeScopes_same (fuel : Nat) (id : ScopeId) (offset : Nat) (w : World) :
    w.SameButSlots (placeScopes fuel id offset w).2 := by
  induction fuel generalizing id offset w with
  | zero => exact .refl w
  | succ fuel ih =>
    rw [placeScopes]
    dsimp only
    have hp := w.placeLocals_same offset (w.scope id).locals
    refine List.foldlRecOn (motive := fun state : Nat × World => w.SameButSlots state.2) _ _ hp ?_
    rintro ⟨top, w1⟩ hw1 child -
    dsimp only
    split
    · exact hw1.trans (ih child _ w1)
    · exact hw1

theorem Edit.declare_apply (w : World) (modifiers : Modifiers) (isArgument : Bool) :
    declare scope name type modifiers isArgument w = (⟨w.locals.size⟩,
      w.declared (if (w.findLocal? scope name).isSome then w.log.add ⟨.duplicateLocal, [name]⟩ else w.log)
        { name, type, modifiers, scope, isArgument, used := isArgument }) := by
  rw [declare, bind_apply, get_apply]
  dsimp only
  split <;> rfl

namespace Edit.Orderly

instance (m : Option MethodId) (isStatic : Bool) (vars : List TypeId) :
    (newMethodScope parent m isStatic vars).Orderly := by
  unfold newMethodScope
  infer_instance

instance : (newBlockScope parent).Orderly := by
  unfold newBlockScope
  infer_instance

instance (isArgument : Bool) : (declare scope name type mods isArgument).Orderly := by
  refine .of_apart fun w => ?_
  rw [declare_apply]
  exact { Apart.refl w with toLevel := .declared _ _ }

instance : (declareLocal scope name type mods).Orderly := by
  unfold declareLocal
  infer_instance

instance : (declareArgument scope name type).Orderly := by
  unfold declareArgument
  infer_instance

instance (id : LocalId) : (markUsed id).Orderly := .apart fun w =>
  { Apart.refl w with
    nested := fun h => h.locals Array.size_modify fun _ => read_modify _ _ _ _ fun _ => rfl }

instance : (placeAllLocals scope).Orderly := .of_apart fun w => by
  have hs : w.SameButSlots (placeAllLocals scope w).2 := placeScopes_same ..
  rw [hs.world]
  exact
    { Apart.refl w with
      nested := fun h => h.locals hs.size fun var => (congrArg LocalInfo.scope (hs.unplaced var) :) }

end Edit.Orderly

namespace Query

section

variable {w : World} {s : Substitution} {src : MethodInfo}

theorem renewBounds_orderly (old new : TypeId) : (renewBounds s old new).OrderlyWhen s.Known := by
  intro w hw hs
  refine .get ?_
  split
  · next info hi =>
    have hsl := knows_bounds hw hi
    have hr : ∀ (classBound : Option TypeId) (w1 : World), w1.Sound → w.Grows w1 →
        (∀ bound ∈ classBound, w1.Knows bound) → (do
          let ifaces ← info.interfaces.mapM (substitute s)
          setBounds new classBound ifaces : Query Unit).Runs w1 fun _ _ => True := by
      intro classBound w1 hw1 hg1 hc
      have hin : ∀ iface ∈ info.interfaces, w1.Knows iface := fun iface hm =>
        (hsl iface (by simp [hm])).grows hg1
      refine .bind hw1 (substituteAll_knows hw1 (Stays.grows hg1 hs) hin) fun ifaces w2 hw2 hg2 hk => ?_
      exact setBounds_runs hw2 new (fun bound hm => (hc bound hm).grows hg2) hk
    dsimp only
    split
    · next first sup _ hsu =>
      split
      · have hk := hsl sup (by simp [hsu])
        exact .bind hw (.toSome (substitute_knows hw hs hk)) fun classBound w1 hw1 hg1 hc => hr classBound w1 hw1 hg1 hc
      · exact .pure_bind (hr none w hw (.refl w) (by simp))
    · exact .pure_bind (hr none w hw (.refl w) (by simp))
  · exact .pure trivial

section

variable (hw : w.Sound)

include hw

theorem renewVariables_runs (hs : s.Known w) (view : MethodId) (vars : List TypeId) :
    (renewVariables view s vars).Runs w fun found w' =>
      found.1.Known w' ∧ ∀ fresh ∈ found.2, ∀ var ∈ fresh, w'.IsVariable var := by
  refine .get ?_
  dsimp only
  split
  · exact .pure ⟨hs, by simp⟩
  refine .bind hw ((newVariables_isVariable hw _ _ _).runs hw) fun fresh w1 hw1 hg1 hf => ?_
  have hs1 : s.Known w1 := Stays.grows hg1 hs
  have hr := hs1.insertAll fun pair (hp : pair ∈ vars.zip fresh) => (hf pair.2 (List.of_mem_zip hp).2).lt_size
  refine .bind hw1 (.of_fact _ hr hw1 (.forM (fun pair => by cases pair; exact renewBounds_orderly _ _) _))
    fun _ w2 _ hg2 _ => .pure ⟨Stays.grows hg2 hr, ?_⟩
  rintro _ ⟨⟩ var hv
  exact (hf var hv).grows hg2

theorem fillView_runs (view : MethodId) {change : MethodInfo → MethodInfo}
    (hu : ∀ info, (change info).upkeep = info.upkeep)
    (hsl : ∀ info, ∀ slot ∈ (change info).slots, w.Knows slot)
    (hv : ∀ info, ∀ var ∈ (change info).typeVariables, var ∈ info.typeVariables ∨ w.IsVariable var) :
    (do
      modify (·.modifyMethod view change)
      noteMethod view
      return view : Query MethodId).Runs w fun _ w' =>
        ∀ slot ∈ w'.held (.method view), w'.MayHold (.method view) slot := by
  set w1 := w.modifyMethod view change with hw1
  have hk : ∀ slot ∈ (w1.method view).slots, w.Knows slot := by
    rw [method_eq, hw1, method?_modifyMethod, if_pos rfl]
    cases w.method? view with
    | none => exact fun slot hs => List.mem_singleton.1 hs ▸ (hw.linked.base .boolean).1
    | some info => exact hsl info
  have hg : ∀ info, w.method? view = some info → (change info).slots ⊆ (w1.method view).slots := by
    intro info hi
    rw [method_eq, hw1, method?_modifyMethod, if_pos rfl, hi]
    exact List.Subset.refl _
  refine fun _ _ => ⟨.apart (aside_modifyMethod_noted view hu hg hk hv), ?_⟩
  intro _ _ slot hs
  change slot ∈ (w1.noteReferrers (.method view) (w1.method view).slots).held (.method view) at hs
  rw [(noteReferrers_notesMore (.method view) (w1.method view).slots).same] at hs
  have hm := held_method_subset view hs
  exact mayHold_noteReferrers (hk slot hm) hm

theorem opensView_addMethod (m : MethodId) (recv : TypeId) : w.OpensView ⟨w.methods.size⟩ (w.addMethod
      { w.method m with declaring := recv, origin := .view m recv }).2 :=
  ⟨{ w.method m with declaring := recv, origin := .view m recv }, m, recv, rfl, hw.knows_method m, rfl, rfl, rfl⟩

theorem convert_bind {β : Type} {post : β → World → Prop} (fact : World → Prop)
    [Stays fact] (hfa : fact w) {f : TypeId → Query TypeId}
    (hf : ∀ w, w.Sound → fact w → ∀ id, w.Knows id → (f id).Runs w fun res w' => w'.Knows res)
    (hs : ∀ slot ∈ src.slots, w.Knows slot)
    {next : List TypeId → TypeId → List TypeId → Query β}
    (hn : ∀ params res thrown w', w'.Sound → fact w' →
      (∀ slot ∈ params ++ res :: thrown, w'.Knows slot) → (next params res thrown).Runs w' post) :
    (do
      let params ← src.params.mapM f
      let res ← f src.result
      let thrown ← src.thrown.mapM f
      next params res thrown).Runs w post := by
  have hp : ∀ param ∈ src.params, w.Knows param := fun param hm => hs param (by simp [hm])
  have hr : w.Knows src.result := hs _ (by simp)
  have ht : ∀ type ∈ src.thrown, w.Knows type := fun type hm => hs type (by simp [hm])
  refine .bind hw (.mapM_each fact hf hw hfa hp) fun params w1 hw1 hg1 hp1 => ?_
  have hfa1 : fact w1 := Stays.grows hg1 hfa
  refine .bind hw1 (hf w1 hw1 hfa1 _ (hr.grows hg1)) fun res w2 hw2 hg2 hr2 => ?_
  have hg := hg1.trans hg2
  refine .bind hw2 (.mapM_each fact hf hw2 (Stays.grows hg2 hfa1)
    fun type hm => (ht type hm).grows hg) fun thrown w3 hw3 hg3 ht3 => ?_
  refine hn params res thrown w3 hw3 (Stays.grows (hg2.trans hg3) hfa1) fun slot hsl => ?_
  rw [List.mem_append, List.mem_cons] at hsl
  obtain hsl | rfl | hsl := hsl
  · exact (hp1 slot hsl).grows (hg2.trans hg3)
  · exact hr2.grows hg3
  · exact ht3 slot hsl

theorem eraseView_runs (view : MethodId) (hs : ∀ slot ∈ src.slots, w.Knows slot) : (do
      eraseView view src
      noteMethod view
      return view : Query MethodId).Runs w fun _ w' =>
        ∀ slot ∈ w'.held (.method view), w'.MayHold (.method view) slot := by
  simp only [eraseView, bind_assoc]
  exact convert_bind hw (fun _ => True) trivial (fun _ hw _ _ => rawErasure_knows hw) hs
    fun _ _ _ _ hw1 _ hk => fillView_runs hw1 view (fun _ => rfl) (fun _ => hk) (by simp)

theorem substituteView_runs (hs : s.Known w) (view : MethodId) (hso : ∀ slot ∈ src.slots, w.Knows slot) :
    (do
      substituteView view src s
      noteMethod view
      return view : Query MethodId).Runs w fun _ w' =>
        ∀ slot ∈ w'.held (.method view), w'.MayHold (.method view) slot := by
  simp only [substituteView, bind_assoc]
  refine .bind hw (renewVariables_runs hw hs view _) fun found w1 hw1 hg ⟨hf, hfr⟩ => ?_
  obtain ⟨s', renewed⟩ := found
  refine convert_bind hw1 (fun w => s'.Known w ∧ ∀ fresh ∈ renewed, ∀ var ∈ fresh, w.IsVariable var)
    ⟨hf, hfr⟩ (fun _ hw hs _ => substitute_knows hw hs.1)
    (fun slot hsl => (hso slot hsl).grows hg) fun _ _ _ _ hw2 ⟨_, hfr⟩ hk => ?_
  refine fillView_runs hw2 view (fun _ => rfl) (fun _ => hk) fun info var hv => ?_
  cases renewed with
  | none => exact .inl hv
  | some fresh => exact .inr (hfr fresh rfl var hv)

end

end

instance (m : MethodId) : (methodView recv m).Orderly where
  runs w hw := by
    refine .get ?_
    dsimp only
    split
    · exact .pure trivial
    split
    · exact .pure trivial
    have ho := opensView_addMethod hw m recv
    refine .view_bind ho ?_
    have hw1 := ho.sound hw
    have hso := hw.knows_method m
    refine .modify_bind hw1 (.apart { Apart.refl (w.addMethod _).2 with }) fun hw2 _ => ?_
    refine .bind hw2 (substitutionFor_known hw2 recv) fun s w3 hw3 hg3 hs => ?_
    have hso3 : ∀ slot ∈ (w.method m).slots, w3.Knows slot := fun slot hsl => Knows.grows hg3 (hso slot hsl)
    split
    · exact (eraseView_runs hw3 _ hso3).mono fun _ _ h => ⟨trivial, h⟩
    · exact (substituteView_runs hw3 hs _ hso3).mono fun _ _ h => ⟨trivial, h⟩

instance (field : FieldId) : (fieldView recv field).Orderly where
  runs w hw := by
    refine .get ?_
    have hv : ∀ (type : TypeId) (w1 : World), w1.Knows type → (do
        let view ← newField { w.field field with type, declaring := recv, base? := some field }
        modify (·.modifyCaches fun caches =>
          { caches with fieldViews := caches.fieldViews.insert (recv, field) view })
        modify (·.noteReferrers (.field view) [type])
        return view : Query FieldId).Runs w1 fun _ _ => True := fun type w1 ht _ _ =>
      ⟨.apart (aside_addField_noted _ (fun _ _ => rfl) ht), fun _ _ => trivial⟩
    dsimp only
    split
    · exact .pure trivial
    split
    · exact .pure trivial
    refine .bind hw (substitutionFor_known hw recv) fun s w1 hw1 hg1 hs => ?_
    have ht := (hw.knows_field field).grows hg1
    split
    · exact .bind hw1 (rawErasure_knows hw1 ht) fun type w2 _ _ hk => hv type w2 hk
    · exact .bind hw1 (substitute_knows hw1 hs ht) fun type w2 _ _ hk => hv type w2 hk

instance (names : List String) (decls : List FieldDecl) : (buildFields declaring scope info names decls).Orderly := by
  induction decls generalizing names with
  | nil => rw [buildFields]; infer_instance
  | cons decl rest ih =>
    rw [buildFields]
    split
    · infer_instance
    refine ⟨fun w hw => .bind hw (typeOfRef_runs hw scope _) fun type w1 hw1 _ ht => ?_⟩
    refine .course_bind hw1 (.apart (aside_addField (ht.mayHold _))) fun hw2 _ => ?_
    exact .of_orderly hw2

theorem buildParam_runs {w : World} (hw : w.Sound) (scope : ScopeId) (param : ParamDecl) :
    (buildParam scope param).Runs w fun id w' => w'.Grounded id :=
  .bind hw (typeOfRef_runs hw scope _) fun _ _ hw1 _ ht => .lift_bind hw1 fun _ hg => .pure (ht.grows hg)

instance (classScope : ScopeId) (inInterface : Bool) (decl : MethodDecl) :
    (buildSourceMethod declaring classScope inInterface decl).Orderly := by
  refine .get fun w => .after fun id => ?_
  have hf : ∀ (result : Query TypeId) (scope : ScopeId) (vars params : List TypeId) (w : World),
      w.Sound → (∀ param ∈ params, w.Grounded param) → (∀ var ∈ vars, w.IsVariable var) →
      result.Runs w (fun id w' => w'.Grounded id) → (do
        let result ← result
        let thrown ← decl.thrown.mapM (typeOfRef scope)
        modify (·.modifyMethod id fun info => { info with params, result, thrown, typeVariables := vars })
        return id : Query MethodId).Runs w fun _ _ => True := by
    intro result scope vars params w hw hp hva hr
    refine .bind hw hr fun type w1 hw1 hg1 ht => ?_
    refine .bind hw1 (.mapM (fun _ => True) (fun ref _ _ hw _ => typeOfRef_runs hw scope ref)
      hw1 trivial) fun thrown w2 hw2 hg2 hth => ?_
    refine .modify_bind hw2 (.apart (aside_modifyMethod id (fun _ => rfl) (fun _ slot hs =>
      Grounded.mayHold ?_ _) fun _ var hv => .inr ((hva var hv).grows (hg1.trans hg2))))
      fun _ _ => .pure trivial
    simp only [slots, List.mem_append, List.mem_cons] at hs
    obtain hs | rfl | hs := hs
    · exact (hp slot hs).grows (hg1.trans hg2)
    · exact ht.grows hg2
    · exact hth slot hs
  refine ⟨fun w hw => ?_⟩
  have hd := (newVariables_isVariable hw (.method id) 0 (decl.typeParams.map (·.name))).runs hw
  have hn : (pure [] : Query (List TypeId)).Runs w fun vars w' => ∀ var ∈ vars, w'.IsVariable var := .pure (by simp)
  dsimp only
  split <;>
  · refine .bind hw (by assumption) fun vars w1 hw1 _ hva => ?_
    refine .after hw1 fun scope w2 hw2 hg2 => .modify_bind hw2 (.apart { Apart.refl w2 with }) fun hw3 hg3 => ?_
    refine .after hw3 fun _ w4 hw4 hg4 => ?_
    refine .bind hw4 (.mapM (fun _ => True) (fun param _ _ hw _ => buildParam_runs hw scope param)
      hw4 trivial) fun params w5 hw5 hg5 hp => ?_
    have hva5 : ∀ var ∈ vars, w5.IsVariable var := fun var hv =>
      (hva var hv).grows (hg2.trans (hg3.trans (hg4.trans hg5)))
    split
    · next ref _ =>
      exact hf (typeOfRef scope ref) scope vars params w5 hw5 hp hva5 (typeOfRef_runs hw5 scope ref)
    · exact hf (pure _) scope vars params w5 hw5 hp hva5 (.pure (hw5.linked.grounded_base .void))

instance (id : MethodId) : (erasedParams id).Orderly := by
  unfold erasedParams
  infer_instance

instance (erased : List TypeId) (methods : List MethodId) : (isRepeated selector erased methods).Orderly := by
  unfold isRepeated
  infer_instance

instance (built : List MethodId)
    (decls : List MethodDecl) : (buildMethods declaring scope info built decls).Orderly := by
  induction decls generalizing built with
  | nil => rw [buildMethods]; infer_instance
  | cons decl rest ih => rw [buildMethods]; infer_instance

instance (decl : TypeDecl) : (defaultConstructor declaring info decl).Orderly := by
  have hn : ∀ mods, (newMethod { bareMethod declaring WellKnown.constructor mods with
      origin := .defaultConstructor }).Orderly := fun mods =>
    .newMethod fun slot hs => ⟨.void, by simpa [bareMethod] using hs⟩
  unfold defaultConstructor
  infer_instance

theorem enumMethods_orderly (declaring : TypeId) (info : ClassInfo) :
    (enumMethods declaring info).OrderlyWhen (·.role declaring = .declared) := by
  intro w hw hr
  unfold enumMethods
  split
  · exact .pure trivial
  have ha := arrayType_grounded hw hr 1
  refine .lift_bind hw fun hw1 hg1 => ?_
  refine .course_bind hw1 (.apart (aside_addMethod_grounded fun slot hs => ?_)) fun hw2 hg2 => ?_
  · obtain rfl := List.mem_singleton.1 hs
    exact ha
  refine .bind hw2 (getType_runs hw2 _) fun found w3 hw3 hg3 hf => ?_
  split
  · exact .pure trivial
  rename_i string
  refine .course_bind hw3 (.apart (aside_addMethod_grounded fun slot hs => ?_)) fun _ _ => .pure trivial
  have hg := (hg1.trans hg2).trans hg3
  obtain rfl | hs := List.mem_cons.1 hs
  · exact .inl (.of_role (hf slot rfl).role)
  · obtain rfl := List.mem_singleton.1 hs
    exact .inl (.of_role (hg.role_declared hr))

end Query

namespace World

variable {w w' : World} {id : TypeId}

def IsSource (w : World) (id : TypeId) : Prop :=
  ∃ info, w.class? id = some info ∧ info.isCompiled = false

theorem IsSource.grows (hg : w.Grows w') (h : w.IsSource id) : w'.IsSource id := by
  obtain ⟨info, hi, hs⟩ := h
  obtain ⟨info', hi', hk⟩ := hg.declared id info hi
  exact ⟨info', hi', hk.isCompiled.trans hs⟩

instance : Stays (·.IsSource id) := ⟨.grows⟩

theorem IsSource.role (h : w.IsSource id) : w.role id = .declared := by
  obtain ⟨info, hi, -⟩ := h
  exact role_of_class? hi

end World

namespace Query

variable {w : World} {id : TypeId}

theorem storeMembers_orderly (id : TypeId) (fields : List FieldId) (methods : List MethodId) :
    (liftM (modifyClass id fun info => { info with fields, methods }) : Query Unit).OrderlyWhen (·.IsSource id) := by
  refine .lift fun w _ hid => ?_
  obtain ⟨info, hi, hs⟩ := hid
  refine .amend id _ (fun info' hi' => ?_) fun _ _ _ hsl => .inl hsl
  cases hi.symm.trans hi'
  exact
    { ClassInfo.EditedTo.refl _ with
      sameFields := fun h => by simp [hs] at h
      sameMethods := fun h => by simp [hs] at h }

theorem buildDeclaredMembers_leaves (hw : w.Sound) (hid : w.IsSource id) (scope : ScopeId)
    (info : ClassInfo) (decl : TypeDecl) : (buildDeclaredMembers id scope info decl).Leaves w (·.Built id) := by
  have hm : (modifyState id fun state => { state with membersBuilt := true }).Orderly :=
    .modifyState id fun _ => { ClassInfo.EditedTo.refl _ with membersBuilt := fun _ => rfl }
  have hbu : (do
      let fields ← buildFields id scope info [] decl.fields
      let methods ← buildMethods id scope info [] decl.methods
      let constructor ← defaultConstructor id info decl
      let ofEnum ← enumMethods id info
      modifyClass id fun info =>
        { info with fields, methods := methods ++ constructor ++ ofEnum } : Query Unit).OrderlyWhen
          (·.IsSource id) := by
    refine .after fun _ => .after fun _ => .after fun _ => ?_
    refine .bind (fun w hw hid => enumMethods_orderly id info w hw hid.role) fun _ => ?_
    exact storeMembers_orderly id _ _
  refine .lift_bind hw fun hw1 hg1 => ?_
  have hb : (modifyState id (fun state => { state with membersBuilt := true }) w).2.Built id := by
    obtain ⟨info, hi, -⟩ := hid
    refine ⟨{ info with state := { info.state with membersBuilt := true } }, ?_, rfl⟩
    change (w.modifyClass id _).class? id = _
    rw [class?_modifyClass, if_pos rfl, hi]
    rfl
  have hr : ∀ query : Query Unit, query.OrderlyWhen (·.IsSource id) →
      query.Leaves (modifyState id (fun state => { state with membersBuilt := true }) w).2 (·.Built id) := by
    intro query hq d hd
    obtain ⟨hc, -⟩ := hq _ hw1 (hid.grows hg1) d hd
    exact ⟨hc, hb.lasts (hc.lasts hw1)⟩
  dsimp only
  split
  · exact hr _ (.after fun _ => hbu)
  · exact hr _ hbu

theorem buildSourceMembers_runs (hw : w.Sound) (id : TypeId) :
    (buildSourceMembers id).Runs w fun _ w' => w'.Built id ∨ w'.declaration? id = none := by
  refine .get ?_
  split
  · next info hi =>
    split
    · next hdo =>
      refine .pure ?_
      obtain hb | hc := Bool.or_eq_true .. ▸ hdo
      · exact .inl ⟨info, hi, hb⟩
      · exact .inr (declaration?_of_compiled hi hc)
    rename_i hdo
    split
    · have hs : info.isCompiled = false := by
        simp only [Bool.or_eq_true, not_or, Bool.not_eq_true] at hdo
        exact hdo.2
      exact (buildDeclaredMembers_leaves hw ⟨info, hi, hs⟩ _ info _).runs.mono fun _ _ => .inl
    · next hno => exact .pure (.inr (declaration?_of_no_scope hw.linked hi hno))
  · next hn => exact .pure (.inr (declaration?_of_no_class hn))

instance : (buildSourceMembers id).Orderly := .of_runs fun _ hw => buildSourceMembers_runs hw id

instance : (ensureMembers id).Orderly where
  runs w hw := by
    refine .get ?_
    split
    · next info hi =>
      split
      · next hc => exact (completeMembers_runs hw ⟨info, hi, hc⟩).mono fun _ _ _ => trivial
      split
      · exact .of_orderly hw
      · exact .pure trivial
    · exact .pure trivial

instance (fuel : Nat) : (methodsFrom fuel id).Orderly := by
  induction fuel generalizing id with
  | zero => rw [methodsFrom]; infer_instance
  | succ fuel ih =>
    rw [methodsFrom]
    refine .after fun id => .get fun w => ?_
    split <;> infer_instance

instance : (methods id).Orderly := by
  unfold methods
  infer_instance

instance (fuel : Nat) : (fieldsFrom fuel id).Orderly := by
  induction fuel generalizing id with
  | zero => rw [fieldsFrom]; infer_instance
  | succ fuel ih =>
    rw [fieldsFrom]
    refine .after fun id => .get fun w => ?_
    split <;> infer_instance

instance : (fields id).Orderly := by
  unfold fields
  infer_instance

instance : (methodsNamed id selector).Orderly := by
  refine .after fun id => .get fun w => ?_
  split <;> infer_instance

instance : (declaredField id name).Orderly := by
  unfold declaredField
  infer_instance

end Query

end Bindings
