import Bindings.Proofs.Replay.Keeps

/-! # Compiled classes -/

namespace Bindings

open World Edit

variable {ifaces interfaces : List TypeId} {name : QName} {info : ClassInfo} {classBound : Option TypeId}
  {vars : List TypeId} {file : ClassFile}

namespace Edit.Orderly

instance newVariables (owner : VariableOwner) (rank : Nat) (names : List String) :
    (Edit.newVariables owner rank names).Orderly := by
  induction names generalizing rank with
  | nil => rw [Edit.newVariables]; infer_instance
  | cons name names ih =>
    rw [Edit.newVariables]
    exact .bind ⟨fun _ _ => .add _ (.variableLike rfl (fun _ hf => by cases hf) nofun)
      fun _ hs => (by cases hs), fun _ => rfl⟩ fun _ => inferInstance

end Edit.Orderly

def SignatureContext.Known (context : SignatureContext) (w : World) : Prop :=
  ∀ pair ∈ context, w.Knows pair.2

instance (ctx : SignatureContext) : Stays ctx.Known := ⟨fun hg h pair hp => (h pair hp).grows hg⟩

section

variable {w : World}

theorem innerOfSig_knows (hw : w.Sound) (ctx : SignatureContext) (name : String) {cur : TypeId}
    (h : w.Knows cur) (inner : List InnerSig) :
    (innerOfSig ctx name cur inner).Gives w fun id w' => w'.Knows id := by
  induction inner generalizing w name cur with
  | nil =>
    rw [innerOfSig]
    exact h
  | cons first rest ih =>
    obtain ⟨simple, args⟩ := first
    rw [innerOfSig]
    refine .bind hw (typeOrPlaceholder_knows hw _) fun member w1 hw1 _ hm => ?_
    refine .after hw1 fun world w2 hw2 hg2 => ?_
    have hb : ∀ encl : Option TypeId, (do
        let args ← argumentsOfSig ctx member 0 args
        let member ← parameterizedType member args encl
        innerOfSig ctx (name ++ "$" ++ simple) member rest).Gives w2 fun id w' => w'.Knows id := fun encl =>
      .after hw2 fun args w3 hw3 _ =>
        .bind hw3 (parameterizedType_knows hw3 ..) fun member w4 hw4 _ hm => ih hw4 _ hm
    dsimp only
    split <;> split <;> first | exact hb _ | exact ih hw2 _ (hm.grows hg2)

theorem typeOfSig_knows (hw : w.Sound) {ctx : SignatureContext} (hc : ctx.Known w) (sig : TypeSig) :
    (typeOfSig ctx sig).Gives w fun id w' => w'.Knows id := by
  cases sig with
  | base base =>
    rw [typeOfSig]
    exact (hw.linked.base base).1
  | array comp =>
    rw [typeOfSig]
    exact .bind hw (typeOfSig_knows hw hc comp) fun comp w1 hw1 _ hco => arrayType_knows hw1 hco 1
  | «variable» name =>
    rw [typeOfSig]
    split
    · next var hv =>
      obtain ⟨pair, hp, rfl⟩ := Option.map_eq_some_iff.1 hv
      exact hc pair (List.mem_reverse.1 (List.mem_of_find?_eq_some hp))
    · exact newMissing_knows ..
  | classType name args inner =>
    rw [typeOfSig]
    refine .bind hw (typeOrPlaceholder_knows hw _) fun outer w1 hw1 _ ho => ?_
    refine .after hw1 fun world w2 hw2 hg2 => ?_
    split
    · refine .after hw2 fun args w3 hw3 _ => ?_
      refine .bind hw3 (parameterizedType_knows hw3 ..) fun outer w4 hw4 _ ho => ?_
      exact innerOfSig_knows hw4 ctx name ho inner
    · exact innerOfSig_knows hw2 ctx name (ho.grows hg2) inner

instance (name : String) (rank : Nat) (owner : VariableOwner) : (newType (.variable { name, rank, owner })).Orderly :=
  ⟨fun _ _ => .add _ (.variableLike rfl (fun _ hf => by cases hf) nofun) fun _ hs => (by cases hs), fun _ => rfl⟩

theorem newVariables_isVariable (hw : w.Sound) (owner : VariableOwner) (rank : Nat) (names : List String) :
    (newVariables owner rank names).Gives w fun vars w' => ∀ var ∈ vars, w'.IsVariable var := by
  induction names generalizing w rank with
  | nil =>
    rw [newVariables]
    rintro _ ⟨⟩
  | cons name names ih =>
    rw [newVariables]
    have hn : (newType (.variable { name, rank, owner })).Gives w fun var w' => w'.IsVariable var :=
      isVariable_iff.2 ⟨{ name, rank, owner }, type_addType_new ..⟩
    refine .bind hw hn fun first w1 hw1 _ hf => ?_
    refine .bind hw1 (ih hw1 (rank + 1)) fun rest w2 hw2 hg2 hr => ?_
    rintro var (_ | ⟨_, hv⟩)
    · exact hf.grows hg2
    · exact hr var hv

end

theorem VariableInfo.slots_boundBy (info : VariableInfo) (classBound : Option TypeId) (object : TypeId)
    (interfaces : List TypeId) :
    VariableInfo.slots { info with
      firstBound := classBound <|> interfaces.head?
      superclass := some (classBound.getD object)
      interfaces } ⊆ interfaces ++ [classBound.getD object] := by
  intro slot hs
  cases classBound with
  | none =>
    have hf : ∀ {slot}, interfaces.head? = some slot → slot ∈ interfaces := List.mem_of_mem_head?
    simp at hs ⊢
    grind
  | some bound =>
    simp at hs ⊢
    grind

namespace World

def withBounds (w : World) (var : TypeId) (classBound : Option TypeId) (interfaces : List TypeId)
    (object : TypeId) : World :=
  (w.modifyType var <| .mapVariable fun info =>
    { info with
      firstBound := classBound <|> interfaces.head?
      superclass := some (classBound.getD object)
      interfaces }).noteReferrers (.type var) (interfaces ++ [classBound.getD object])

theorem Course.withBounds (var : TypeId) {object : TypeId}
    (hk : ∀ bound ∈ interfaces ++ [classBound.getD object], w.Knows bound) :
    Course none none w (w.withBounds var classBound interfaces object) := by
  refine Course.bound_noted var ?_ ?_ hk
  · intro info
    cases info with
    | «variable» info =>
      refine .inr ⟨rfl, rfl, rfl, fun first hf => ?_⟩
      cases classBound with
      | none => exact List.mem_append_right _ (List.mem_of_mem_head? hf)
      | some bound => exact List.mem_append_left _ (Option.mem_toList.2 hf)
    | _ => exact .inl rfl
  · intro slot hs
    cases ht : w.type var with
    | «variable» info =>
      rw [ht] at hs
      exact .inr (VariableInfo.slots_boundBy info classBound object interfaces hs)
    | _ => exact .inl (by rwa [ht] at hs)

end World

namespace Query

variable {w : World}

theorem setBounds_runs (hw : w.Sound) (var : TypeId)
    (hc : ∀ bound ∈ classBound, w.Knows bound) (hi : ∀ bound ∈ ifaces, w.Knows bound) :
    (setBounds var classBound ifaces).Runs w fun _ _ => True := by
  refine .bind hw (objectType_runs hw) fun object w1 hw1 hg ho => ?_
  refine .edit_modify (Course.withBounds var fun slot hs => ?_) trivial
  obtain hs | hs := List.mem_append.1 hs
  · exact (hi slot hs).grows hg
  rw [List.mem_singleton.1 hs]
  cases classBound with
  | none => exact ho.knows
  | some bound => exact (hc bound rfl).grows hg

instance (fuel : Nat) (seen : List TypeId) (id : TypeId) : (enclosingChain fuel seen id).Orderly := by
  induction fuel generalizing seen id with
  | zero => rw [enclosingChain]; infer_instance
  | succ fuel ih =>
    rw [enclosingChain]
    refine .after fun id => .get fun w => ?_
    split
    · split
      · infer_instance
      · split <;> infer_instance
    · infer_instance

theorem signatureContext_runs (hw : w.Sound) (id : TypeId) :
    (signatureContext id).Runs w fun ctx w' => ctx.Known w' := by
  refine .fuel fun budget => .after hw fun chain w' _ _ => .get ?_
  refine .pure fun pair hp => ?_
  obtain ⟨outer, -, hp⟩ := List.mem_flatMap.1 hp
  obtain ⟨var, -, hv⟩ := List.mem_filterMap.1 hp
  obtain ⟨info, hi, rfl⟩ := Option.map_eq_some_iff.1 hv
  exact lt_size_of_type_ne fun ht => by simp [ht] at hi

section

variable {ctx : SignatureContext}

theorem typeOfSig_runs (hw : w.Sound) (hc : ctx.Known w) (sig : TypeSig) :
    (liftM (typeOfSig ctx sig) : Query TypeId).Runs w fun id w' => w'.Knows id :=
  (typeOfSig_knows hw hc sig).runs hw

theorem typesOfSigs_runs (hw : w.Sound) (hc : ctx.Known w) (sigs : List TypeSig) :
    (sigs.mapM fun sig => (liftM (typeOfSig ctx sig) : Query TypeId)).Runs w fun ids w' => ∀ id ∈ ids, w'.Knows id :=
  .mapM ctx.Known (fun sig _ _ hw hc => typeOfSig_runs hw hc sig) hw hc

theorem namedTypes_runs (hw : w.Sound) (names : List String) :
    (names.mapM fun name => (liftM (typeOrPlaceholder (.ofInternal name)) : Query TypeId)).Runs w
      fun ids w' => ∀ id ∈ ids, w'.Knows id :=
  .mapM (fun _ => True) (fun _ _ _ hw _ => (typeOrPlaceholder_knows hw _).runs hw) hw trivial

theorem bindBounds_orderly (param : ParamSig) (var : TypeId) : (bindBounds ctx param var).OrderlyWhen ctx.Known := by
  intro w hw hco
  refine .bind hw (.optionMapM fun bound _ => typeOfSig_runs hw hco bound) fun classBound w1 hw1 hg1 hc => ?_
  have hco1 := Stays.grows hg1 hco
  refine .bind hw1 (typesOfSigs_runs hw1 hco1 _) fun ifaces w2 hw2 hg2 hi => ?_
  exact setBounds_runs hw2 var (fun bound hm => (hc bound hm).grows hg2) hi

theorem bindAllBounds_orderly (params : List ParamSig) (vars : List TypeId) :
    (bindAllBounds ctx params vars).OrderlyWhen ctx.Known :=
  .forM (fun ⟨param, var⟩ => bindBounds_orderly param var) _

end

instance (error : SignatureError) : (reportCorrupted name error).Orderly := by
  unfold reportCorrupted
  infer_instance

instance : (classSignature info).Orderly := by
  unfold classSignature
  split
  · infer_instance
  · split <;> infer_instance

variable {w : World} {id : TypeId}

theorem storeSuperclass_runs (hid : w.IsCompiled id) {superclass : Option TypeId}
    (hk : ∀ sup ∈ superclass, w.Knows sup) : (do
      modifyClass id fun info => { info with superclass }
      modify (·.noteReferrers (.type id) superclass.toList) : Query Unit).RunsIn
        (some (.read id .superclass)) w fun _ _ => True := by
  refine .edit_modify (Course.fill_noted hid (.superclass superclass) (.inl rfl) ?_) trivial
  exact fun slot hs => hk slot (Option.mem_toList.1 hs)

theorem storeInterfaces_runs (hid : w.IsCompiled id) (hk : ∀ sup ∈ interfaces, w.Knows sup) : (do
      modify (·.noteReferrers (.type id) interfaces)
      modifyClass id fun info => { info with interfaces } : Query Unit).RunsIn
        (some (.read id .interfaces)) w fun _ _ => True :=
  .edit_modify (Course.noted_fill hid (.interfaces interfaces) (.inr rfl) hk) trivial

theorem completeSuperclass_runs (hw : w.Sound) (id : TypeId) :
    (completeSuperclass id).Runs w fun _ w' => w.IsCompiled id → w'.IsRead id .superclass := by
  refine .read_part .superclass hw (fun info hi hp => ⟨info, hi, hw.linked.pending id info hi (.inl hp)⟩)
    fun info hu hw1 hg1 => ?_
  refine .bind hw1 (.of_orderly hw1) fun sig w2 hw2 hg2 _ => ?_
  have hid2 := hu.isCompiled.grows (hg1.trans hg2)
  split
  · refine .bind hw2 (.inside (signatureContext_runs hw2 id)) fun ctx w3 hw3 hg3 hc => ?_
    refine .bind hw3 (.inside (.toSome (typeOfSig_runs hw3 hc _))) fun sup w4 _ hg4 hk => ?_
    exact storeSuperclass_runs (hid2.grows (hg3.trans hg4)) hk
  refine .bind hw2 (.inside (.optionMapM fun name _ => (typeOrPlaceholder_knows hw2 _).runs hw2))
    fun sup w3 _ hg3 hk => ?_
  exact storeSuperclass_runs (hid2.grows hg3) hk

instance : (completeSuperclass id).Orderly := ⟨fun _ hw => (completeSuperclass_runs hw id).mono fun _ _ _ => trivial⟩

theorem completeInterfaces_runs (hw : w.Sound) (id : TypeId) :
    (completeInterfaces id).Runs w fun _ w' => w.IsCompiled id → w'.IsRead id .interfaces := by
  refine .read_part .interfaces hw (fun info hi hp => ⟨info, hi, hw.linked.pending id info hi (.inr hp)⟩)
    fun info hu hw1 hg1 => ?_
  refine .bind hw1 (.of_orderly hw1) fun sig w2 hw2 hg2 _ => ?_
  have hid2 := hu.isCompiled.grows (hg1.trans hg2)
  split
  · refine .bind hw2 (.inside (signatureContext_runs hw2 id)) fun ctx w3 hw3 hg3 hc => ?_
    exact .bind hw3 (.inside (typesOfSigs_runs hw3 hc _)) fun ifaces w4 _ hg4 hk =>
      storeInterfaces_runs (hid2.grows (hg3.trans hg4)) hk
  · exact .bind hw2 (.inside (namedTypes_runs hw2 _)) fun ifaces w3 _ hg3 hk =>
      storeInterfaces_runs (hid2.grows hg3) hk

instance : (completeInterfaces id).Orderly := ⟨fun _ hw => (completeInterfaces_runs hw id).mono fun _ _ _ => trivial⟩

theorem newField_runs {info : FieldInfo} (h : w.Knows info.type) : (do
      let id ← newField info
      modify (·.noteReferrers (.field id) [info.type])
      return id : Query FieldId).Runs w fun _ _ => True := fun _ _ =>
  ⟨.apart (aside_addField_noted id (fun _ _ => rfl) h), fun _ _ => trivial⟩

section

variable {ctx : SignatureContext}

theorem buildField_orderly (decl : TypeId) (name : QName) (field : CompiledField) :
    (buildField decl name ctx field).OrderlyWhen ctx.Known := by
  intro w hw hc
  refine .get ?_
  split
  · exact .bind hw (typeOfSig_runs hw hc _) fun type w1 _ _ hk => newField_runs hk
  · refine .after hw fun _ w1 hw1 _ => ?_
    exact .bind hw1 ((newMissing_knows w1 _ _ _).runs hw1) fun type w2 _ _ hk => newField_runs hk

instance (m : CompiledMethod) : (methodSignature name m).Orderly := by
  refine .get fun w => ?_
  split
  · split <;> infer_instance
  · infer_instance

theorem fillMethod_runs (id : MethodId) {params thrown : List TypeId} {result : TypeId}
    (hp : ∀ param ∈ params, w.Knows param) (hr : w.Knows result)
    (ht : ∀ exception ∈ thrown, w.Knows exception) (hva : ∀ var ∈ vars, w.IsVariable var) : (do
      modify (·.modifyMethod id fun info => { info with params, result, thrown, typeVariables := vars })
      modify (·.noteReferrers (.method id) (params ++ result :: thrown)) : Query Unit).Runs w
        fun _ _ => True := by
  refine .edit_modify (.apart ?_) trivial
  refine aside_modifyMethod_noted id (fun _ => rfl) (fun _ _ => List.Subset.refl _) ?_ fun _ var hv => .inr (hva var hv)
  intro slot hs
  obtain hs | hs := List.mem_append.1 hs
  · exact hp slot hs
  obtain rfl | hs := List.mem_cons.1 hs
  · exact hr
  · exact ht slot hs

theorem known_append (hc : ctx.Known w) (names : List String)
    (hv : ∀ var ∈ vars, w.Knows var) : (ctx ++ names.zip vars).Known w := by
  intro pair hp
  obtain hp | hp := List.mem_append.1 hp
  · exact hc pair hp
  · exact hv pair.2 (List.of_mem_zip hp).2

theorem bindMethod_orderly (id : MethodId) (m : CompiledMethod) (sig : MethodSig) :
    (bindMethod id ctx m sig).OrderlyWhen ctx.Known := by
  intro w hw hc
  refine .bind hw ((newVariables_isVariable hw _ _ _).runs hw) fun vars w1 hw1 hg1 hva => ?_
  have hc1 := known_append (Stays.grows hg1 hc) (sig.typeParams.map (·.name)) fun var hv => (hva var hv).lt_size
  refine .bind hw1 (bindAllBounds_orderly _ _ w1 hw1 hc1) fun _ w2 hw2 hg2 _ => ?_
  have hc2 := Stays.grows hg2 hc1
  refine .bind hw2 (typesOfSigs_runs hw2 hc2 _) fun params w3 hw3 hg3 hp => ?_
  have hc3 := Stays.grows hg3 hc2
  refine .bind hw3 (typeOfSig_runs hw3 hc3 _) fun result w4 hw4 hg4 hr => ?_
  have hc4 := Stays.grows hg4 hc3
  have hf := fun (thrown : List TypeId) (w5 : World) (hg5 : w4.Grows w5)
    (ht : ∀ exception ∈ thrown, w5.Knows exception) =>
    fillMethod_runs id (fun param hpa => (hp param hpa).grows (hg4.trans hg5))
      (hr.grows hg5) ht fun var hv => (hva var hv).grows (hg2.trans (hg3.trans (hg4.trans hg5)))
  dsimp only
  split
  · exact .bind hw4 (namedTypes_runs hw4 _) fun thrown w5 _ hg5 ht => hf thrown w5 hg5 ht
  · exact .bind hw4 (typesOfSigs_runs hw4 hc4 _) fun thrown w5 _ hg5 ht => hf thrown w5 hg5 ht

instance (decl : TypeId) (selector : String) (mods : Modifiers) : (newMethod (bareMethod decl selector mods)).Orderly :=
  .newMethod fun slot hs => ⟨.void, by simpa [bareMethod] using hs⟩

theorem buildMethod_orderly (decl : TypeId) (name : QName) (m : CompiledMethod) :
    (buildMethod decl name ctx m).OrderlyWhen ctx.Known := by
  refine .after fun id => .after fun sig => ?_
  split
  · exact .bind (bindMethod_orderly _ _ _) fun _ => .of_orderly
  · exact .of_orderly

end

instance : (buildMembers id name file).Orderly where
  runs w hw := by
    refine .bind hw (signatureContext_runs hw id) fun ctx w1 hw1 hg1 hc => ?_
    have hf := fun fields => Query.OrderlyWhen.mapM
      (fun field => buildField_orderly id name field) fields w1 hw1 hc
    refine .bind hw1 (hf _) fun fields w2 hw2 hg2 _ => ?_
    have hm := fun methods => Query.OrderlyWhen.mapM
      (fun m => buildMethod_orderly id name m) methods w2 hw2 (Stays.grows hg2 hc)
    exact .bind hw2 (hm _) fun _ _ _ _ _ => .pure trivial

theorem completeMembers_runs (hw : w.Sound) (hid : w.IsCompiled id) :
    (completeMembers id).Runs w fun _ w' => w'.IsRead id .members := by
  refine .mono (.read_part .members hw (fun _ _ _ => hid) fun info hu hw1 hg1 => ?_) fun _ _ hr => hr hid
  split
  · refine .bind hw1 (.of_orderly hw1) fun ⟨fields, methods⟩ w2 _ hg2 _ => ?_
    refine .tend (.fill (.members fields methods) ?_ ?_ ?_) trivial
    · exact hu.isCompiled.grows (hg1.trans hg2)
    · exact fun _ hs => by cases hs
    · exact fun _ h => by cases h
  · exact .pure trivial

end Query

namespace World

variable {w w' : World}

namespace Bare

variable {id : TypeId}

theorem of_push (ht : w'.types = w.types.push (.declared info)) (h : info.typeVariables = []) :
    w'.Bare ⟨w.types.size⟩ :=
  ⟨info, by rw [class?, type_of_push ht, if_pos rfl]; rfl, h⟩

theorem swapPlaceholder {hole : TypeId} (tgt : TypeId) (hp : w.type hole = .placeholder name none) (h : w.Bare id) :
    (w.swapPlaceholder hole tgt).Bare id := by
  obtain ⟨info, hi, hb⟩ := h
  have hne : id ≠ hole := by
    rintro rfl
    rw [class?, hp] at hi
    cases hi
  rw [Bare, class?, type_swapPlaceholder hp, if_neg hne]
  split
  · exact ⟨_, TypeInfo.class?_swap.2 ⟨info, hi, rfl⟩, hb⟩
  · exact ⟨info, hi, hb⟩

theorem registerType (pkg : PackageId) (simple : String) (other : TypeId) (h : w.Bare id) :
    (registerType pkg simple other w).2.Bare id := by
  refine registerType_elim w pkg simple other (fun _ => h) fun existing name hp => ?_
  exact swapPlaceholder (w := w.list pkg simple other) other hp h

theorem newVariables (owner : VariableOwner) (rank : Nat) (names : List String) (h : w.Bare id) :
    (newVariables owner rank names w).2.Bare id := by
  induction names generalizing w rank with
  | nil => exact h
  | cons name names ih =>
    refine ih (rank + 1) (w := (w.addType (.variable { name, rank, owner })).2) ?_
    obtain ⟨info, hi, hb⟩ := h
    exact ⟨info, by rwa [class?, type_addType_of_lt _ (lt_size_of_class? hi)], hb⟩

end Bare

end World

namespace Query

variable {w : World} {id : TypeId}

/-- The class has its type variables before anything is asked. -/
theorem usableSignature_founds (hw : w.Sound) (hid : w.Bare id) (name : QName) (file : ClassFile) :
    ∃ w1, Course (some (.found id)) none w w1 ∧ w1.classPath = w.classPath ∧
      Runs (fun d _ => usableSignature id name file d w) w1 fun _ _ => True := by
  by_cases h : ∃ text sig, file.signature = some text ∧ w.options.generics = true ∧ ClassSig.parse text = .ok sig
  · obtain ⟨text, sig, hs, hg, hp⟩ := h
    let made := Edit.newVariables (.type id) 0 (sig.typeParams.map (·.name))
    have hc : Course (some (.found id)) none w (made w).2 := (Orderly.course w hw).inside
    have hc1 := hc.trans (.tend (.endow (.inl rfl) (hid.newVariables ..) (newVariables_isVariable hw _ _ _)))
    have hw1 := hc1.sound hw
    refine ⟨_, hc1, (inferInstance : made.Orderly).classPath w, fun d hd => ?_⟩
    have hr : ((signatureContext id >>= fun ctx =>
        bindAllBounds ctx sig.typeParams (made w).1) >>= fun _ => pure (some text)).Runs _ fun _ _ => True :=
      .bind hw1 (.bind hw1 (signatureContext_runs hw1 id) fun ctx w2 hw2 _ hk =>
        bindAllBounds_orderly _ _ w2 hw2 hk) fun _ _ _ _ _ => .pure trivial
    dsimp only
    rw [usableSignature, get_bind_apply, hs, hg]
    dsimp only
    rw [hp]
    exact hr d hd
  have hr : (usableSignature id name file).Runs w fun _ _ => True := by
    refine .get ?_
    split
    · next text hs hg =>
      split
      · next sig hp => exact absurd ⟨text, sig, hs, hg, hp⟩ h
      · exact .after hw fun _ _ _ _ => .pure trivial
    · exact .pure trivial
  exact ⟨w, (Course.refl w).inside, rfl, hr⟩

theorem newClass_runs (hw : w.Sound) (hn : info.IsNew w) (hf : info.Fits w)
    (hk : ∀ slot ∈ info.slots, w.Knows slot) (hi : info.IsUnread) (hv : info.typeVariables = [])
    (hs : size ≤ w.types.size) : (do
      let id ← newType (.declared info)
      modify (·.noteReferrers (.type id) info.slots)
      registerType info.package info.key id
      return id : Edit TypeId).RunsIn none w fun id w' =>
        size ≤ id.index ∧ w'.Bare id ∧ w'.ListsClass info.package info.key := by
  have hno := aside_noteReferrers (w.addType (.declared info)).2 (.type ⟨w.types.size⟩) info.slots
  have ha : (w.addType (.declared info)).2.Registered := hw.registered.addType (by simp [TypeInfo.role]) rfl
  have hr := role_of_push hno.types
  refine ⟨.arrive_noted hn hf hk hi, ?_, hs, ?_, ?_⟩
  · exact (Quiet.registerType _ _ hr).classPath.trans hno.classPath
  · exact Bare.registerType _ _ _ (.of_push hno.types hv)
  · exact listsClass_registerType (ha.spares hno.toSpares) (Nat.lt_of_lt_of_eq hf.package hno.packageCount.symm) _ hr

theorem enterClass_runs (hw : w.Sound) (file : ClassFile) {pkg : PackageId}
    (hp : w.packageNamed? file.qname.parent = some pkg) (hr : ¬ w.ListsClass pkg file.qname.simple) :
    (enterClass file pkg).RunsIn none w fun id w' =>
      w.types.size ≤ id.index ∧ w'.Bare id ∧ w'.ListsClass pkg file.qname.simple := by
  have he : (file.enclosing.mapM fun outer => typeOrPlaceholder (.ofInternal outer)).RunsIn
      none w fun encl w' => (∀ slot ∈ encl.toList, w'.Knows slot) ∧
        (w'.ListsClass pkg file.qname.simple → w.ListsClass pkg file.qname.simple) := by
    cases file.enclosing with
    | none =>
      rw [Option.mapM_none]
      exact .pure ⟨by simp, id⟩
    | some outer =>
      rw [Option.mapM_some]
      have hg : (typeOrPlaceholder (.ofInternal outer)).Gives w fun id w' => w'.Knows id ∧
          (w'.ListsClass pkg file.qname.simple → w.ListsClass pkg file.qname.simple) :=
        ⟨typeOrPlaceholder_knows hw _, listsClass_of_typeOrPlaceholder⟩
      refine .bind (.of_gives hw hg) fun id _ _ ⟨hk, hli⟩ => .pure ⟨?_, hli⟩
      rintro _ (_ | ⟨_, ⟨⟩⟩)
      exact hk
  refine .bind he fun encl w1 hc1 ⟨hs, hli⟩ => ?_
  have hw1 := hc1.sound hw
  obtain ⟨hlt, hn⟩ := hw1.registered.tree.packageNamed?_iff.1 (hc1.grows.named _ _ hp)
  refine newClass_runs hw1 (.compiled rfl rfl rfl rfl) ⟨rfl, hlt, fun hno => ?_, fun hl => ?_⟩ hs
    ⟨rfl, rfl, rfl, rfl, rfl, rfl⟩ rfl hc1.grows.size
  · exact (hn.symm ▸ QName.parent_child_simple hno).symm
  · exact hr (hli hl)

theorem createClass_registers (hw : w.Sound) (file : ClassFile) :
    (createClass file).Registers w fun w' => ∃ id, w'.Lists file.qname id := by
  have hcr : (createPackage file.qname.parent).RunsIn none w fun pkg w' =>
      w'.packageNamed? file.qname.parent = some pkg :=
    .of_gives hw (packageNamed?_createPackage hw.registered.tree _).1
  refine .edit_bind hcr fun pkg w1 hc1 hp => .get ?_
  have hw1 := hc1.sound hw
  split
  · next known hk =>
    obtain ⟨he, hcl⟩ := Option.filter_eq_some_iff.1 hk
    refine .now ⟨known, pkg, hp, he, ?_⟩ (.pure trivial)
    exact role_eq_declared.2 (Option.isSome_iff_exists.1 hcl)
  rename_i hn
  have hro : ¬ w1.ListsClass pkg file.qname.simple := by
    rintro ⟨known, hk, hr⟩
    obtain ⟨info, hi⟩ := role_eq_declared.1 hr
    simp [hk, hi] at hn
  obtain ⟨hc2, hp2, hfr, hb, hl⟩ := enterClass_runs hw1 file hp hro
  obtain ⟨w3, hc3, hp3, hr⟩ := usableSignature_founds (hc2.sound hw1) hb file.qname file
  have hc : Course none none w1 w3 := .nest (.found hfr) (hc2.inside.trans hc3)
  exact .of_course hw1 hc (hp3.trans hp2) ((hl.grows hc3.grows).exists_lists (hc.grows.named _ _ hp)) hr
    fun _ => .bind (.lift (.modifyClass _ fun _ => { ClassInfo.EditedTo.refl _ with })) fun _ => inferInstance

instance : (createClass file).Orderly := ⟨fun _ hw => (createClass_registers hw file).runs⟩

end Query

end Bindings
