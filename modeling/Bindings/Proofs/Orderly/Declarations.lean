import Bindings.Proofs.Orderly.Compiled
import Bindings.Proofs.World.Duplicates

/-! # Declarations -/

namespace Bindings

open World Edit

variable {α β : Type} {name : String}

namespace World

variable {w w' : World} {id : TypeId} {unit : UnitId} {path : List Nat} {src : SourceUnit}

def Childless (w : World) (id : TypeId) (unit : UnitId) (path : List Nat) : Prop :=
  ∃ info, w.class? id = some info ∧ info.origin = .source unit path ∧ info.members = []

theorem isDuplicate_iff {pkg : PackageId} : w.isDuplicate pkg none name ↔ w.ListsClass pkg name := by
  refine (Option.any_eq_true ..).trans (exists_congr fun known => and_congr_right fun _ => ?_)
  rw [role_eq_declared, Option.isSome_iff_exists]

def Hosts (w : World) (place : Place) : Prop :=
  (place.enclosing = none → ∃ name, w.packageNamed? name = some place.package) ∧
    w.LiesIn place.scope place.package ∧ ∀ outer ∈ place.enclosing, w.SourceIn outer place.package

theorem Hosts.course {place : Place} {task : Option Task} {stop : Option Halt} (h : w.Hosts place)
    (hc : Course task stop w w') : w'.Hosts place := by
  obtain ⟨hn, hl, he⟩ := h
  refine ⟨fun hno => ?_, hl.of_scopes hc.level.scope, fun outer ho => (he outer ho).grows hc.grows⟩
  obtain ⟨name, hna⟩ := hn hno
  exact ⟨name, hc.grows.named _ _ hna⟩

theorem Childless.declaredAt (h : w.Childless id unit path) : w.DeclaredAt id unit path := by
  obtain ⟨info, hi, ho, -⟩ := h
  exact ⟨info, hi, ho⟩

theorem Childless.same (hs : w.SameMembers w' id) (h : w.Childless id unit path) : w'.Childless id unit path := by
  obtain ⟨info, hi, ho, hm⟩ := h
  obtain ⟨info', hi', ho', hm'⟩ := hs info hi (ClassInfo.isCompiled_of_source ho)
  exact ⟨info', hi', ho'.trans ho, hm'.trans hm⟩

structure Forming (w : World) (unit : UnitId) (source : SourceUnit) : Prop where
  sound : w.Sound
  known : unit.index < w.units.size
  stage : (w.unit unit).stage = .typesBuilt
  source : w.sources.find? unit = some source

theorem Forming.course (hw : w.Forming unit src) (h : Course (some (.form unit)) none w w') : w'.Forming unit src := by
  obtain ⟨hst, hs⟩ := h.frame.unit unit hw.known (by simp) (by simp)
  exact ⟨h.sound hw.sound, hw.known.trans_le h.frame.units, hst.trans hw.stage, hs.trans hw.source⟩

theorem OpensUnit.forming (h : w.OpensUnit unit src w') (hw : w.Sound) :
    w'.Forming unit src := by
  have hso := hw.move (.aside h.aside)
  obtain ⟨info, -, hs, -, rfl, rfl⟩ := h
  refine ⟨hso, ?_, ?_, ?_⟩
  · exact Nat.lt_of_lt_of_eq (Nat.lt_succ_self _) (Array.size_push ..).symm
  · rw [unit_push (w := w) rfl, if_pos rfl, hs]
  · rw [Table.find?_insert, if_pos rfl]

end World

namespace Edit.RunsIn

variable {w : World}

theorem inside_same {task : Task} {edit : Edit α} {post : α → World → Prop}
    (h : edit.RunsIn none w post) (hw : w.Sound) :
    edit.RunsIn (some task) w fun a w' => post a w' ∧ ∀ id, w.SameMembers w' id :=
  ⟨h.1.inside, h.2.1, h.2.2, h.1.sameMembers hw⟩

theorem leavesLog {task : Option Task} {edit : Edit α} {post : α → World → Prop} (h : edit.RunsIn task w post)
    (hl : edit.LeavesLog) : edit.RunsIn task w fun a w' => post a w' ∧ w'.log = w.log := ⟨h.1, h.2.1, h.2.2, hl w⟩

theorem form_bind {unit : UnitId} {src : SourceUnit} {change : World → World} {next : Unit → Edit β}
    {post : β → World → Prop}
    (ho : w.OpensUnit unit src (change w)) (hp : (change w).classPath = w.classPath)
    (h : (next ()).RunsIn (some (.form unit)) (change w) post) : (modify change >>= next).RunsIn none w post :=
  ⟨.nest (.form ho) h.1, h.2.1.trans hp, h.2.2⟩

end Edit.RunsIn

section

variable {w : World} {place : Place} {src : SourceUnit}

theorem newListedClass_runs (hw : w.Forming place.unit src) {info : ClassInfo}
    (hd : src.Declares place.path info) (ho : info.origin = .source place.unit place.path)
    (he : ∀ outer ∈ info.enclosing, w.SourceIn outer info.package) (hsc : info.scope.isSome)
    (hst : info.state = {}) (hn : info.supertypes = []) (hm : info.members = [])
    (hv : info.typeVariables = []) (hf : info.isListed → info.Fits w) :
    (newListedClass info).RunsIn (some (.form place.unit)) w fun id w' =>
      id = ⟨w.types.size⟩ ∧ w'.Bare id ∧ w'.SourceIn id info.package ∧ w'.Childless id place.unit place.path ∧
        (∀ other, w.SameMembers w' other) ∧ (info.isListed → w'.ListsClass info.package info.key) := by
  obtain ⟨hq, hg⟩ := quiet_newListedClass w info
  have hs : ∀ other, SameMembers _ _ other := fun other => .quiet hg hq
  have hb : (w.addType (.declared info)).2.Bare ⟨w.types.size⟩ := .of_push rfl hv
  have hi : (w.addType (.declared info)).2.class? ⟨w.types.size⟩ = some info := by rw [class?, type_addType_new]; rfl
  have hc : (w.addType (.declared info)).2.Childless ⟨w.types.size⟩ place.unit place.path := ⟨info, hi, ho, hm⟩
  have hid : (newListedClass info w).1 = ⟨w.types.size⟩ := by
    rw [newListedClass, bind_apply]
    dsimp only
    split <;> rfl
  refine ⟨.tend (.declare ho hw.known hsc hst hn hm hw.source hd he hf hv), hq.classPath, ?_⟩
  rw [hid]
  refine ⟨rfl, ?_, .grows hg ⟨info, hi, ClassInfo.isCompiled_of_source ho, rfl⟩, hc.same (hs _),
    fun other => (SameMembers.addType w _ other).trans (hs other), fun hl => ?_⟩
  · rw [newListedClass, bind_apply]
    dsimp only
    split
    · exact hb.registerType ..
    · exact hb
  · rw [newListedClass_eq w (ClassInfo.isCompiled_of_source ho), if_pos hl]
    exact listsClass_arrival hw.sound.registered (hf hl)

theorem declareVariables_runs (hw : w.Sound) {id : TypeId} {unit : UnitId} {path : List Nat} (hb : w.Bare id)
    (hd : w.DeclaredAt id unit path) (typeParams : List TypeParam) :
    (declareVariables id typeParams).RunsIn (some (.form unit)) w fun _ w' => ∀ other, w.SameMembers w' other := by
  have hs : ∀ (u : World) vars other, u.SameMembers (u.modifyClass id ({ · with typeVariables := vars })) other :=
    fun _ _ _ => .modifyClass id fun _ _ _ _ => ⟨rfl, rfl⟩
  refine .get ?_
  dsimp only
  split
  · have hg : (newVariables (.type id) 0 (typeParams.map (·.name))).Gives w fun vars w' =>
        w'.Bare id ∧ ∀ var ∈ vars, w'.IsVariable var :=
      ⟨hb.newVariables .., newVariables_isVariable hw _ _ _⟩
    refine .bind (.inside_same (.of_gives hw hg) hw) fun vars w1 hc ⟨⟨hb, hv⟩, hs1⟩ => ?_
    exact ⟨.tend (.endow (.inr ⟨unit, path, rfl, hd.grows hc.grows⟩) hb hv), rfl,
      fun other => (hs1 other).trans (hs w1 vars other)⟩
  · exact ⟨.tend (.endow (.inr ⟨unit, path, rfl, hd⟩) hb (by simp)), rfl, hs w []⟩

theorem newSourceClass_runs (hw : w.Forming place.unit src) {kind : ClassKind}
    (hd : ∃ decl, src.typeAt? place.path = some decl ∧ decl.name = name ∧ decl.kind = kind)
    (hh : w.Hosts place) (hr : place.enclosing = none → ¬ w.ListsClass place.package name)
    (mods : Modifiers) (typeParams : List TypeParam) :
    (newSourceClass place name kind mods typeParams).RunsIn (some (.form place.unit)) w
      fun made w' => w.class? made.1 = none ∧ w'.Childless made.1 place.unit place.path ∧
        (w'.LiesIn made.2 place.package ∧ w'.SourceIn made.1 place.package) ∧
        (∀ other, w.SameMembers w' other) ∧ (place.enclosing = none → w'.ListsClass place.package name) := by
  refine .get (.bind (newListedClass_runs hw hd rfl hh.2.2 rfl rfl rfl rfl rfl fun hl => ?_) ?_)
  · have hn : place.enclosing = none := Option.isNone_iff_eq_none.1 hl
    obtain ⟨outer, ho⟩ := hh.1 hn
    refine ⟨hl, (hw.sound.registered.tree.packageNamed?_iff.1 ho).1, fun _ => ?_, hr hn⟩
    rw [declaredName, hn]
    rfl
  rintro _ w1 hc1 ⟨rfl, hb, hso, hch, hs1, hli⟩
  have hw1 := hw.course hc1
  have hl := (hh.course hc1).2.1
  have hle : w1.Level (w1.addScope { kind := .type ⟨w.types.size⟩, parent := some place.scope }).2 := by
    refine .addScope _ _ ?_
    rintro _ ⟨⟩
    exact ⟨_, _, hso, rfl, hl⟩
  have hsc : (newScope { kind := .type ⟨w.types.size⟩, parent := some place.scope }).RunsIn none w1 fun scope w2 =>
      w2.LiesIn scope place.package ∧ w2.Bare ⟨w.types.size⟩ :=
    ⟨.apart (.addScope hle), rfl, .inner (by rw [Orderly.scope_newScope]) (hl.of_scopes hle.scope), hb⟩
  refine .bind (.inside_same hsc hw1.sound) ?_
  rintro scope w2 hc2 ⟨⟨hl2, hb2⟩, hs2⟩
  have hch2 := hch.same (hs2 _)
  refine .bind (declareVariables_runs (hw1.course hc2).sound hb2 hch2.declaredAt typeParams) fun _ w3 hc3 hs3 => ?_
  refine .pure ⟨?_, hch2.same (hs3 _), ⟨hl2.of_scopes hc3.level.scope, .grows hc3.grows (.grows hc2.grows hso)⟩,
    fun other => ((hs1 other).trans (hs2 other)).trans (hs3 other), fun hn => ?_⟩
  · have hv : w.type ⟨w.types.size⟩ = .base .void := type_of_size_le (Nat.le_refl _)
    exact congrArg TypeInfo.class? hv
  · exact (hli (Option.isNone_iff_eq_none.2 hn)).grows (hc2.grows.trans hc3.grows)

end

section

variable {src : SourceUnit}

mutual

theorem buildType_runs : ∀ (decl : TypeDecl) (place : Place) {w : World},
    w.Forming place.unit src → src.typeAt? place.path = some decl → w.Hosts place → w.Sites src place →
    (buildType place decl).RunsIn (some (.form place.unit)) w fun built w' =>
      (∀ id ∈ built, w'.DeclaredAt id place.unit place.path) ∧ (∀ id, w.SameMembers w' id) ∧
        (place.enclosing = none → w'.ListsClass place.package decl.name) ∧
        w.DealsWith w' place.unit src (place.path <+: ·)
  | .mk name kind mods typeParams _ _ _ _ members, place, w, hw, hd, hh, hsi => by
    rw [buildType]
    refine .get ?_
    split
    · next hdu =>
      refine .bind (.inside_same (.of_orderly hw.sound) hw.sound) ?_
      rintro - w1 hc1 ⟨⟨-, hre⟩, hs⟩
      refine .pure ⟨by simp, hs, fun hno => ?_, hre ▸ .reported hw.sound.registered hsi hd⟩
      exact (isDuplicate_iff.1 (hno ▸ hdu)).grows hc1.grows
    rename_i hdu
    have hr : place.enclosing = none → ¬ w.ListsClass place.package name := fun hno hl =>
      hdu (hno ▸ isDuplicate_iff.2 hl)
    refine .bind ((newSourceClass_runs hw ⟨_, hd, rfl, rfl⟩ hh hr mods typeParams).leavesLog
      (leavesLog_newSourceClass _ _ _ _ _)) ?_
    rintro ⟨id, scope⟩ w1 hc1 ⟨⟨hn, hch, ⟨hli, hso⟩, hs1, hl⟩, hlo⟩
    have hme := buildMemberTypes_runs members { place with scope, enclosing := some id } id 0
      (hw.course hc1) hd ⟨by rintro ⟨⟩, hli, by simpa using hso⟩ rfl rfl
      hch.declaredAt (by
        obtain ⟨info, hi, -, hni⟩ := hch
        intro info' hi' member hm
        cases hi.symm.trans hi'
        simp [hni] at hm)
    refine .bind hme fun _ w2 hc2 ⟨hs2, ha⟩ => .pure ⟨?_, fun other => ?_,
      fun hno => (hl hno).grows hc2.grows, .trans (.declared hlo hch.declaredAt) ha hc2.grows ?_⟩
    · rintro _ ⟨⟩
      exact hch.declaredAt.grows hc2.grows
    · by_cases heq : other = id
      · subst heq
        intro info hi
        cases hn.symm.trans hi
      · exact (hs1 other).trans (hs2 other heq)
    · rintro _ ⟨_ | ⟨pos, tail⟩, rfl⟩
      · exact .inl (List.append_nil _)
      · exact .inr ⟨pos, Nat.zero_le _, tail, rfl⟩

theorem buildMemberTypes_runs : ∀ (decls : List TypeDecl) (place : Place) (id : TypeId) (i : Nat)
    {w : World} {outer : TypeDecl}, w.Forming place.unit src → src.typeAt? place.path = some outer →
    w.Hosts place → place.enclosing = some id → outer.members.drop i = decls → w.DeclaredAt id place.unit place.path →
    (∀ info, w.class? id = some info → ∀ member ∈ info.members,
      ∃ pos < i, w.DeclaredAt member place.unit (place.path ++ [pos])) →
    (buildMemberTypes place id i decls).RunsIn (some (.form place.unit)) w fun _ w' =>
      (∀ other, other ≠ id → w.SameMembers w' other) ∧ w.DealsWith w' place.unit src fun path =>
        ∃ pos ≥ i, ∃ tail, path = place.path ++ pos :: tail
  | [], place, id, i, w, outer, hw, hd, hh, hec, hde, hid, hme => by
    rw [buildMemberTypes]
    refine .pure ⟨fun other _ => .spares { Apart.refl w with }, [], rfl, ?_⟩
    rintro _ ⟨pos, hle, tail, rfl⟩ hs
    have hn := List.getElem?_eq_none ((List.drop_eq_nil_iff.1 hde).trans hle)
    rw [SourceUnit.typeAt?_append hd, TypeDecl.memberAt?_cons, hn] at hs
    cases hs
  | decl :: rest, place, id, i, w, outer, hw, hd, hh, hec, hde, hid, hme => by
    rw [buildMemberTypes]
    have hat : src.typeAt? (place.path ++ [i]) = some decl := by
      have hf : (outer.members.drop i)[0]? = some decl := by rw [hde]; rfl
      rw [List.getElem?_drop, Nat.add_zero] at hf
      rw [SourceUnit.typeAt?_append hd, TypeDecl.memberAt?_cons, hf]
      rfl
    have hr : outer.members.drop (i + 1) = rest := by rw [← List.tail_drop, hde]; rfl
    have hsi : w.Sites src { place with path := place.path ++ [i] } := by
      refine ⟨fun hno => (by cases hno.symm.trans hec), fun outer ho => ?_⟩
      cases hec.symm.trans ho
      rwa [List.dropLast_concat]
    have hsp : ∀ path, (∃ pos ≥ i, ∃ tail, path = place.path ++ pos :: tail) →
        place.path ++ [i] <+: path ∨ ∃ pos ≥ i + 1, ∃ tail, path = place.path ++ pos :: tail := by
      rintro _ ⟨pos, hle, tail, rfl⟩
      obtain rfl | hlt := Nat.eq_or_lt_of_le hle
      · exact .inl ⟨tail, by simp⟩
      · exact .inr ⟨pos, hlt, tail, rfl⟩
    refine .bind (buildType_runs decl { place with path := place.path ++ [i] } hw hat hh hsi) ?_
    rintro built w1 hc1 ⟨hb, hs1, -, ha1⟩
    have hw1 := hw.course hc1
    have hid1 := hid.grows hc1.grows
    have hme1 : ∀ info, w1.class? id = some info → ∀ member ∈ info.members,
        ∃ pos < i, w1.DeclaredAt member place.unit (place.path ++ [pos]) := by
      intro info1 hi1 member hm
      obtain ⟨info, hi, hor⟩ := hid
      obtain ⟨_, hi1', -, hs⟩ := hs1 id info hi (ClassInfo.isCompiled_of_source hor)
      cases hi1.symm.trans hi1'
      obtain ⟨pos, hlt, hat⟩ := hme info hi member (hs ▸ hm)
      exact ⟨pos, hlt, hat.grows hc1.grows⟩
    dsimp only
    split
    · next member =>
      have hm := hb member rfl
      have hn : ∀ info, w1.class? id = some info → ∀ other ∈ info.members,
          ¬ w1.DeclaredAt other place.unit (place.path ++ [i]) := by
        intro info hi other ho hs
        obtain ⟨pos, hlt, hat⟩ := hme1 info hi other ho
        have heq := (hat.unique hs).2
        simp only [List.append_cancel_left_eq, List.cons.injEq, and_true] at heq
        exact Nat.lt_irrefl _ (heq ▸ hlt)
      have hen : (modifyClass id fun info => { info with members := info.members ++ [member] }).RunsIn
          (some (.form place.unit)) w1 fun _ w2 =>
            w2 = w1.modifyClass id fun info => { info with members := info.members ++ [member] } :=
        ⟨.tend (.enclose hw1.stage hid1 hm hn), rfl, rfl⟩
      refine .bind hen ?_
      rintro - w2 hc2 hw2
      have hme2 : ∀ info, w2.class? id = some info → ∀ other ∈ info.members,
          ∃ pos < i + 1, w2.DeclaredAt other place.unit (place.path ++ [pos]) := by
        intro info2 hi2 other ho
        rw [hw2, class?_modifyClass, if_pos rfl] at hi2
        obtain ⟨info1, hi1, rfl⟩ := Option.map_eq_some_iff.1 hi2
        obtain ho | ho := List.mem_append.1 ho
        · obtain ⟨pos, hlt, hat⟩ := hme1 info1 hi1 other ho
          exact ⟨pos, Nat.lt_succ_of_lt hlt, hat.grows hc2.grows⟩
        · rw [List.mem_singleton.1 ho]
          exact ⟨i, Nat.lt_succ_self _, hm.grows hc2.grows⟩
      have hid2 := hid1.grows hc2.grows
      have ha2 := ha1.trans (.declared (by rw [hw2]; rfl) hid2) hc2.grows fun _ => .inl
      refine .mono (buildMemberTypes_runs rest place id (i + 1) (hw1.course hc2) hd ((hh.course hc1).course hc2)
        hec hr hid2 hme2) fun _ w3 hc3 ⟨hs3, ha3⟩ => ⟨fun other hne => ?_, ha2.trans ha3 hc3.grows hsp⟩
      have hs2 : w1.SameMembers w2 other := hw2 ▸ .modifyClass id fun _ _ heq => absurd heq hne
      exact ((hs1 other).trans hs2).trans (hs3 other hne)
    refine .mono (buildMemberTypes_runs rest place id (i + 1) hw1 hd (hh.course hc1) hec hr hid1 ?_)
      fun _ w2 hc2 ⟨hs2, ha2⟩ => ⟨fun other hne => (hs1 other).trans (hs2 other hne), ha1.trans ha2 hc2.grows hsp⟩
    intro info hi member hm
    obtain ⟨pos, hlt, hat⟩ := hme1 info hi member hm
    exact ⟨pos, Nat.lt_succ_of_lt hlt, hat⟩

end

theorem buildTypes_runs (place : Place) (decls : List TypeDecl) (i : Nat) {w : World}
    (hw : w.Forming place.unit src) (he : place.enclosing = none)
    (hd : src.types.drop i = decls) (hh : w.Hosts place)
    (hp : w.packageNamed? src.package = some place.package) :
    (buildTypes place i decls).RunsIn (some (.form place.unit)) w fun ids w' =>
      (∀ id ∈ ids, ∃ pos ≥ i, w'.DeclaredAt id place.unit [pos]) ∧
      (ids.Pairwise fun a b => ∀ path, w'.DeclaredAt a place.unit path → ¬ w'.DeclaredAt b place.unit path) ∧
      (∀ decl ∈ decls, w'.ListsClass place.package decl.name) ∧
      w.DealsWith w' place.unit src fun path => ∃ pos ≥ i, ∃ tail, path = pos :: tail := by
  induction decls generalizing i w with
  | nil =>
    rw [buildTypes]
    refine .pure ⟨by simp, .nil, by simp, [], rfl, ?_⟩
    rintro _ ⟨pos, hle, tail, rfl⟩ hs
    rw [SourceUnit.typeAt?, List.getElem?_eq_none ((List.drop_eq_nil_iff.1 hd).trans hle)] at hs
    cases hs
  | cons decl rest ih =>
    rw [buildTypes]
    have hat : src.typeAt? [i] = some decl := by
      have hf : (src.types.drop i)[0]? = some decl := by rw [hd]; rfl
      rw [List.getElem?_drop, Nat.add_zero] at hf
      rw [SourceUnit.typeAt?, hf]
      rfl
    have hr : src.types.drop (i + 1) = rest := by rw [← List.tail_drop, hd]; rfl
    have hsi : w.Sites src { place with path := [i] } := ⟨fun _ => ⟨rfl, hp⟩, by simp [he]⟩
    refine .bind (buildType_runs decl { place with path := [i] } hw hat hh hsi) ?_
    rintro built w1 hc1 ⟨hb, -, hl, ha1⟩
    refine .bind (ih (i + 1) (hw.course hc1) hr (hh.course hc1) (hc1.grows.named _ _ hp)) ?_
    rintro ids w2 hc2 ⟨hi, hdi, hl2, ha2⟩
    have hb2 := fun id hid => (hb id hid).grows hc2.grows
    refine .pure ⟨fun id hid => ?_, List.pairwise_append.2 ⟨?_, hdi, ?_⟩,
      List.forall_mem_cons.2 ⟨(hl he).grows hc2.grows, hl2⟩, ha1.trans ha2 hc2.grows ?_⟩
    · obtain hid | hid := List.mem_append.1 hid
      · exact ⟨i, Nat.le_refl _, hb2 id (Option.mem_toList.1 hid)⟩
      · obtain ⟨pos, hle, hat⟩ := hi id hid
        exact ⟨pos, Nat.le_of_succ_le hle, hat⟩
    · cases built <;> simp
    · intro first hf second hs path hp hp'
      obtain ⟨pos, hle, hat⟩ := hi second hs
      obtain ⟨-, rfl⟩ := (hb2 first (Option.mem_toList.1 hf)).unique hp
      obtain ⟨-, heq⟩ := hat.unique hp'
      cases heq
      exact absurd hle (Nat.not_succ_le_self _)
    · rintro _ ⟨pos, hle, tail, rfl⟩
      obtain rfl | hlt := Nat.eq_or_lt_of_le hle
      · exact .inl ⟨tail, rfl⟩
      · exact .inr ⟨pos, hlt, tail, rfl⟩

end

theorem buildUnit_runs {w : World} (hw : w.Sound) (src : SourceUnit) : (buildUnit src).RunsIn none w fun unit w' =>
      (w.units.size ≤ unit.index ∧ unit.index < w'.units.size) ∧
        (∀ name, declares src.package src.types name → ∃ id, w'.Lists name id) ∧
        w'.sources.find? unit = some src ∧ w.DealsWith w' unit src fun _ => True := by
  have hcr : (createPackage src.package).RunsIn none w fun package w' =>
      w'.packageNamed? src.package = some package :=
    .of_gives hw (packageNamed?_createPackage hw.registered.tree _).1
  refine .bind (hcr.leavesLog (leavesLog_createPackage _)) fun package w1 hc1 ⟨hp, hlo⟩ => .get ?_
  have hw1 := hc1.sound hw
  have hn : w.units.size ≤ w1.units.size := hc1.grows.units
  generalize hu : (⟨w1.units.size⟩ : UnitId) = unit
  refine .bind (.of_orderly hw1) ?_
  rintro scope w2 hc2 ⟨hsc, hw2⟩
  have hli : w2.LiesIn scope package := by
    rw [hsc, hw2]
    refine ⟨[], .unit ?_ (congrArg Scope.kind (Orderly.scope_newScope ..)) (by rw [Orderly.scope_newScope])⟩
    exact Nat.lt_of_lt_of_eq (Nat.lt_succ_self w1.scopes.size)
      (Level.size_addScope { kind := .unit unit package, parent := none }).symm
  have hu2 : unit = ⟨w2.units.size⟩ := by rw [← hu, hw2]; rfl
  have ho : w2.OpensUnit unit src { w2 with
      units := w2.units.push { file := src.file, package, scope }
      sources := w2.sources.insert unit src
      pendingUnits := w2.pendingUnits ++ [unit] } := ⟨_, rfl, rfl, rfl, hu2, rfl⟩
  have hf := ho.forming (hc2.sound hw1)
  refine .form_bind ho rfl ?_
  have hp2 := (Grows.spares ho.aside.toSpares).named _ _ (hc2.grows.named _ _ hp)
  refine .bind (buildTypes_runs { unit, package, scope, enclosing := none, path := [] } src.types 0
    hf rfl rfl ⟨fun _ => ⟨_, hp2⟩, hli, by simp⟩ hp2) ?_
  rintro types w3 hc3 ⟨ht, hdi, hl, reports, hre, ha⟩
  have hf3 := hf.course hc3
  have hte : w3.Tends (.form unit) (w3.modifyUnit unit fun info => { info with types }) := by
    refine .list hf3.stage (fun id hid => ?_) hdi
    obtain ⟨pos, -, hat⟩ := ht id hid
    exact ⟨pos, hat⟩
  refine ⟨.tend hte, rfl, ⟨hu ▸ hn, ?_⟩, fun name ⟨hpa, decl, hd, hna⟩ => ?_, hf3.source, reports, ?_, ?_⟩
  · exact Nat.lt_of_lt_of_eq hf3.known (size_modifyUnit ..).symm
  · have hp3 := hc3.grows.named _ _ hp2
    have hs : name.simple = decl.name := by rw [QName.simple, hna]; rfl
    rw [hpa] at hp2 hp3
    have hg := hte.move.grows
    exact ((hs ▸ hl decl hd : w3.ListsClass package name.simple).grows hg).exists_lists (hg.named _ _ hp3)
  · exact hre.trans (by rw [hw2, ← hlo]; rfl)
  · rintro (_ | ⟨first, tail⟩) - hs
    · cases hs
    · exact (ha _ ⟨first, Nat.zero_le _, tail, rfl⟩ hs).grows hte.move.grows (.refl _)

end Bindings
