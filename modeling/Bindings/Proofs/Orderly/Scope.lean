import Bindings.Proofs.Orderly.Types
import Bindings.Proofs.World.Retyped

/-! # Names in scope -/

namespace Bindings

open TypeInfo World Edit

variable {mods : Modifiers} {recv found encl : Option TypeId} {scope : ScopeId} {name : String}
  {ref : TypeRef} {decl : TypeId} {missing : ProblemKind}

namespace World

variable {w w' : World} {id : TypeId}

def Nameable (w : World) (id : TypeId) : Prop :=
  w.role id = .declared ∨ id.index < w.types.size ∧ (w.type id).isVariableLike

theorem Nameable.grows (hg : w.Grows w') (h : w.Nameable id) : w'.Nameable id := h.imp hg.role_declared fun ⟨hlt, h⟩ =>
    ⟨Nat.lt_of_lt_of_le hlt hg.size, isVariableLike_iff.2 (hg.sort id hlt ▸ isVariableLike_iff.1 h)⟩

theorem Nameable.grounded (h : w.Nameable id) : w.Grounded id :=
  h.imp .of_role fun ⟨hlt, h⟩ => ⟨hlt, isClassless_of_isVariableLike h⟩

def Wrappable (w : World) (id : TypeId) : Prop :=
  ∃ info, w.class? id = some info ∧ (info.isGeneric ∨ info.isInterface = false)

theorem Wrappable.lasts (hl : w.Lasts w') (h : w.Wrappable id) : w'.Wrappable id := by
  obtain ⟨info, hi, h⟩ := h
  obtain ⟨info', hi', hla⟩ := hl id info hi
  exact ⟨info', hi', h.imp hla.isGeneric hla.isInterface.trans⟩

def Wraps (w : World) (id : TypeId) : Prop :=
  ∀ erased, w.erasureClass? id = some erased → id = erased ∨ w.Wrappable erased

theorem Wraps.of_classless (h : (w.type id).isClassless) : w.Wraps id := by
  intro erased he
  cases ht : w.type id <;> simp [erasureClass?, ht, isClassless, sort] at he h

theorem Nameable.wraps (h : w.Nameable id) : w.Wraps id := by
  obtain hr | ⟨-, hl⟩ := h
  · intro erased he
    obtain ⟨info, hi⟩ := role_eq_declared.1 hr
    rw [erasureClass?, class?_eq_some.1 hi] at he
    exact .inl (Option.some.inj he)
  · exact .of_classless (isClassless_of_isVariableLike hl)

theorem Grounded.erasureClass?_of_grows {erased : TypeId} (hg : w.Grows w') (h : w.Grounded id)
    (he : w'.erasureClass? id = some erased) : w.erasureClass? id = some erased := by
  obtain ⟨settled, hs, hr⟩ | ⟨hlt, hc⟩ := h
  · exact hs.trans ((hg.erasureClass? hs hr).symm.trans he)
  · rw [← hg.isClassless hlt] at hc
    cases ht : w'.type id <;> simp [erasureClass?, ht, isClassless, sort] at he hc

theorem Wraps.lasts (hg : w.Grows w') (hl : w.Lasts w') (hid : w.Grounded id)
    (h : w.Wraps id) : w'.Wraps id := fun erased he =>
  (h erased (hid.erasureClass?_of_grows hg he)).imp_right (.lasts hl)

/-- Types all of whose parts are as a reference can name them: arguments are as many as the class has type
variables, they and bounds are no base types, and with generics no generic class stands without arguments. -/
inductive Proper (w : World) : TypeId → Prop
  | simple {id : TypeId} : w.Knows id → (w.type id).sort ∉ [.classBased, .array, .wildcard] → Proper w id
  | declared {id : TypeId} {info : ClassInfo} : w.class? id = some info →
    (w.options.generics → info.typeVariables = []) → Proper w id
  | array {id leaf : TypeId} {dimensions : UInt32} : w.type id = .array leaf dimensions → Proper w leaf → Proper w id
  | wildcard {id : TypeId} {info : WildcardInfo} : w.type id = .wildcard info →
    (∀ generic ∈ info.generic, w.role generic = .declared) →
    (∀ bound ∈ info.bound.toList ++ info.otherBounds, w.base? bound = none) →
    (∀ bound ∈ info.bound.toList ++ info.otherBounds, Proper w bound) → Proper w id
  | parameterized {id generic : TypeId} {arguments : List TypeId} {enclosing : Option TypeId} {info : ClassInfo} :
    w.type id = .parameterized generic arguments enclosing → w.class? generic = some info →
    arguments.length = info.typeVariables.length → (info.isGeneric ∨ info.isInterface = false) →
    (∀ argument ∈ arguments, w.base? argument = none) →
    (∀ part ∈ arguments ++ enclosing.toList, Proper w part) → Proper w id
  | raw {id generic : TypeId} {enclosing : Option TypeId} {info : ClassInfo} :
    w.type id = .raw generic enclosing → w.class? generic = some info → info.isGeneric →
    (∀ outer ∈ enclosing, Proper w outer) → Proper w id

def IsArgument (w : World) (id : TypeId) : Prop := w.base? id = none ∧ w.Proper id

namespace Proper

variable (h : w.Proper id)

include h

theorem grounded : w.Grounded id := by
  cases h with
  | simple hk hs => exact .inr ⟨hk, by simp_all [isClassless]⟩
  | declared hi _ => exact .inl (.of_role (role_of_class? hi))
  | array ht _ | wildcard ht _ _ _ => exact .inr ⟨lt_size_of_type_ne (by rw [ht]; simp), by rw [ht]; rfl⟩
  | parameterized ht hi _ _ _ _ | raw ht hi _ _ => exact .inl ⟨_, by rw [erasureClass?, ht], role_of_class? hi⟩

theorem leaf {leaf : TypeId} {dims : UInt32} (ht : w.type id = .array leaf dims) :
    w.Proper leaf := by
  cases h with
  | simple _ hs => simp [ht, sort] at hs
  | declared hi _ =>
    rw [class?, ht] at hi
    cases hi
  | array ht' hl =>
    cases ht.symm.trans ht'
    exact hl
  | wildcard ht' _ _ _ | parameterized ht' _ _ _ _ _ | raw ht' _ _ _ => cases ht.symm.trans ht'

theorem refers : w.Refers id := ⟨h.grounded, fun _ _ ht => (h.leaf ht).grounded⟩

theorem wraps : w.Wraps id := by
  cases h with
  | simple _ hs => exact .of_classless (by simp_all [isClassless])
  | declared hi _ => exact Nameable.wraps (.inl (role_of_class? hi))
  | array ht _ | wildcard ht _ _ _ => exact .of_classless (by rw [ht]; rfl)
  | parameterized ht hi _ hwr _ _ =>
    intro erased he
    rw [erasureClass?, ht] at he
    exact .inr (Option.some.inj he ▸ ⟨_, hi, hwr⟩)
  | raw ht hi hg _ =>
    intro erased he
    rw [erasureClass?, ht] at he
    exact .inr (Option.some.inj he ▸ ⟨_, hi, .inl hg⟩)

theorem course (hc : Course none none w w') (hw : w.Sound) : w'.Proper id := by
  have hg := hc.grows
  have ht : ∀ {other type}, w.type other = type → type.isConstructed →
      (∀ part ∈ type.components, w.Grounded part) → w'.type other = type := by
    rintro other _ rfl
    exact hc.type_eq hw
  induction h with
  | simple hk hso => exact .simple (hk.grows hg) (by rwa [hg.sort _ hk])
  | declared hi hn =>
    obtain ⟨_, hi', hv, -⟩ := hc.class_kept hw hi
    exact .declared hi' fun hge => hv.trans (hn (hc.level.options ▸ hge))
  | array hid hl ih => exact .array (ht hid rfl (by simpa using hl.grounded)) ih
  | wildcard hid hge hb hp ih =>
    refine .wildcard (ht hid rfl fun part hm => ?_) (fun generic hm => hg.role_declared (hge generic hm))
      (fun bound hm => hg.base?_eq_none (hp bound hm).grounded.knows (hb bound hm)) ih
    rw [components, List.append_assoc, List.mem_append, Option.mem_toList] at hm
    exact hm.elim (fun hm => .inl (.of_role (hge part hm))) fun hm => (hp part hm).grounded
  | parameterized hid hi hn hwr hb hp ih =>
    obtain ⟨_, hi', hv, hl⟩ := hc.class_kept hw hi
    refine .parameterized (ht hid rfl fun part hm => ?_) hi' (hn.trans (by rw [hv]))
      (hwr.imp hl.isGeneric hl.isInterface.trans) (fun arg hm =>
        hg.base?_eq_none (hp arg (List.mem_append_left _ hm)).grounded.knows (hb arg hm)) ih
    rw [components, List.mem_append, List.mem_cons] at hm
    obtain hm | rfl | hm := hm
    · exact (hp part (List.mem_append_left _ hm)).grounded
    · exact .inl (.of_role (role_of_class? hi))
    · exact (hp part (List.mem_append_right _ hm)).grounded
  | raw hid hi hn hp ih =>
    obtain ⟨_, hi', -, hl⟩ := hc.class_kept hw hi
    refine .raw (ht hid rfl fun part hm => ?_) hi' (hl.isGeneric hn) ih
    rw [components, List.mem_cons, Option.mem_toList] at hm
    obtain rfl | hm := hm
    · exact .inl (.of_role (role_of_class? hi))
    · exact (hp part hm).grounded

end Proper

theorem IsArgument.course (h : w.IsArgument id) (hc : Course none none w w') (hw : w.Sound) : w'.IsArgument id :=
  ⟨hc.grows.base?_eq_none h.2.grounded.knows h.1, h.2.course hc hw⟩

end World

namespace Query

variable {w : World} {id : TypeId}

instance (accessing : TypeId) : (receiverAllowed mods accessing recv).Orderly := by
  unfold receiverAllowed
  split
  · infer_instance
  split
  · infer_instance
  · refine .get fun w => ?_
    split <;> infer_instance

instance (fuel : Nat) (accessing : Option TypeId) : (protectedAccess decl mods recv fuel accessing).Orderly := by
  induction fuel generalizing accessing with
  | zero => cases accessing <;> rw [protectedAccess] <;> infer_instance
  | succ fuel ih =>
    cases accessing <;> rw [protectedAccess] <;> infer_instance

instance : (canSeeMember decl mods scope recv).Orderly := by
  unfold canSeeMember
  dsimp only
  split
  · infer_instance
  · refine .after fun decl => .get fun w => ?_
    split <;> infer_instance

instance : (canSeeType id scope).Orderly := by
  refine .after fun id => .get fun w => ?_
  dsimp only
  split
  · split
    · split <;> infer_instance
    · infer_instance
  · infer_instance

section

variable {search : List TypeId → TypeId → Query (Hit TypeId × List TypeId)}

theorem mergeHits_runs (hs : ∀ seen id w, w.Sound → (search seen id).Runs w fun res w' =>
      ∀ member, res.1 = .one member → w'.role member = .declared)
    (hw : w.Sound) (seen : List TypeId) (ids : List TypeId)
    (hf : ∀ member, found = some member → w.role member = .declared) :
    (mergeHits search seen found ids).Runs w fun res w' =>
      ∀ member, res.1 = .one member → w'.role member = .declared := by
  induction ids generalizing w seen found with
  | nil =>
    rw [mergeHits]
    refine .pure fun member hm => hf member ?_
    cases found with
    | none => cases hm
    | some earlier =>
      cases hm
      rfl
  | cons id rest ih =>
    rw [mergeHits]
    refine .bind hw (hs seen id w hw) fun ⟨hit, seen⟩ w' hw' hg hh => ?_
    have hf' : ∀ member, found = some member → w'.role member = .declared := fun member h =>
      hg.role_declared (hf member h)
    cases hit with
    | none => exact ih hw' seen hf'
    | ambiguous member => exact .pure (by simp)
    | one member =>
      have hm : ∀ other, some member = some other → w'.role other = .declared := by
        rintro _ ⟨⟩
        exact hh member rfl
      dsimp only
      split
      · split
        · exact ih hw' seen hm
        · exact .pure (by simp)
      · exact ih hw' seen hm

end

theorem memberTypeFrom_runs (hw : w.Sound) (name : String) (fuel : Nat) (seen : List TypeId) (id : TypeId) :
    (memberTypeFrom name fuel seen id).Runs w fun res w' =>
      ∀ member, res.1 = .one member → w'.role member = .declared := by
  induction fuel generalizing w seen id with
  | zero => exact .giveUp
  | succ fuel ih =>
    rw [memberTypeFrom]
    refine .get ?_
    split
    · next erased _ =>
      split
      · exact .pure (by simp)
      refine .bind hw (directMemberType_runs hw erased name) fun found w1 hw1 _ hf => ?_
      split
      · next member =>
        refine .pure ?_
        rintro _ ⟨⟩
        obtain ⟨⟨inner, hi, -⟩, -⟩ := hf member rfl
        exact role_of_class? hi
      · refine .after hw1 fun above w2 hw2 _ => ?_
        exact mergeHits_runs (fun seen id w hw => ih hw seen id) hw2 _ _ (by simp)
    · exact .pure (by simp)

theorem memberTypeInHierarchy_runs (hw : w.Sound) (id : TypeId) (name : String) :
    (memberTypeInHierarchy id name).Runs w fun hit w' =>
      ∀ member, hit = .one member → w'.role member = .declared := by
  refine .after hw fun fuel w1 hw1 _ => ?_
  exact .bind hw1 (memberTypeFrom_runs hw1 name fuel [] id) fun res w2 _ _ h => .pure h

instance : (memberTypeInHierarchy id name).Orderly := .of_runs fun _ hw => memberTypeInHierarchy_runs hw id name

theorem findMemberType_runs (hw : w.Sound) (scope : ScopeId) (recv : TypeId) (name : String) :
    (findMemberType scope recv name).RunsIn (some .mark) w fun _ _ => True := by
  refine .bind hw (.of_orderly hw) fun recv w1 hw1 _ _ => ?_
  refine .bind hw1 (hasNoMemberTypes_runs hw1 recv) fun none w2 hw2 _ _ => ?_
  split
  · exact .pure trivial
  · refine .bind hw2 (.of_orderly hw2) fun hit w3 hw3 _ _ => ?_
    split <;> exact .of_orderly hw3

theorem declaresStaticMember_runs (hw : w.Sound) (hid : w.IsCompiled id) (name : String) :
    (declaresStaticMember id name).Runs w fun _ _ => True := by
  refine .bind hw (completeMembers_runs hw hid) fun _ w1 hw1 _ _ => .get ?_
  split
  · dsimp only
    split
    · exact .pure trivial
    · exact .after hw1 fun _ _ _ _ => .get (.pure trivial)
  · exact .pure trivial

end Query

def World.HasImports (w : World) (table : ImportTable) : Prop :=
  table.begun ∧ ∀ simple id, table.single.find? simple = some id → w.role id = .declared

theorem World.HasImports.grows {w w' : World} {table : ImportTable} (hg : w.Grows w')
    (h : w.HasImports table) : w'.HasImports table :=
  ⟨h.1, fun simple id hid => hg.role_declared (h.2 simple id hid)⟩

namespace Query

variable {w : World} {gen id : TypeId} {table : ImportTable} {unit : UnitId} {vars : List TypeId}
  {search : TypeSearch}

theorem importSingle_runs (hw : w.Sound) (unit : UnitId) (name : QName) (ht : w.HasImports table) :
    (importSingle unit name table).Runs w fun table w' => w'.HasImports table := by
  refine .bind hw (getType_runs hw name) fun found w1 hw1 hg hf => ?_
  have ht := ht.grows hg
  split
  · exact .lift_bind hw1 fun _ hg => .pure (ht.grows hg)
  rename_i id
  refine .get ?_
  dsimp only
  split
  · exact .lift_bind hw1 fun _ hg => .pure (ht.grows hg)
  split
  · exact .lift_bind hw1 fun _ hg => .pure (ht.grows hg)
  refine .pure ⟨ht.1, fun simple other ho => ?_⟩
  rw [Table.find?_insert] at ho
  split at ho
  · cases ho
    exact (hf id rfl).role
  · exact ht.2 simple other ho

theorem importOnDemand_runs (hw : w.Sound) (name : QName) (ht : w.HasImports table) :
    (importOnDemand name table).Runs w fun table w' => w'.HasImports table := by
  refine .lift_bind hw fun hw1 hg1 => ?_
  have ht := ht.grows hg1
  split
  · exact .pure ht
  refine .after hw1 fun found w2 hw2 hg2 => ?_
  have ht := ht.grows hg2
  split
  · exact .pure ht
  · exact .lift_bind hw2 fun _ hg => .pure (ht.grows hg)

theorem importStaticSingle_runs (hw : w.Sound) (name : QName) (ht : w.HasImports table) :
    (importStaticSingle name table).Runs w fun table w' => w'.HasImports table := by
  refine .after hw fun found w1 hw1 hg1 => ?_
  have ht := ht.grows hg1
  split
  · exact .lift_bind hw1 fun _ hg => .pure (ht.grows hg)
  refine .get ?_
  dsimp only
  split
  · next hc =>
    refine .bind hw1 (declaresStaticMember_runs hw1 (isCompiled_of_any hc) _) fun declares w2 hw2 hg2 _ => ?_
    have ht := ht.grows hg2
    split
    · exact .lift_bind hw2 fun _ hg => .pure (ht.grows hg)
    · exact .pure ht
  · exact .pure ht

theorem importStaticOnDemand_runs (hw : w.Sound) (name : QName) (ht : w.HasImports table) :
    (importStaticOnDemand name table).Runs w fun table w' => w'.HasImports table := by
  refine .after hw fun found w1 hw1 hg1 => ?_
  have ht := ht.grows hg1
  split
  · exact .pure ht
  · exact .lift_bind hw1 fun _ hg => .pure (ht.grows hg)

theorem importOne_runs (hw : w.Sound) (unit : UnitId) (declared : Import) (ht : w.HasImports table) :
    (importOne unit table declared).Runs w fun table w' => w'.HasImports table := by
  unfold importOne
  split
  · exact importSingle_runs hw unit _ ht
  · exact importOnDemand_runs hw _ ht
  · exact importStaticSingle_runs hw _ ht
  · exact importStaticOnDemand_runs hw _ ht

instance : (importImplicit unit table).Orderly := by
  refine .after fun pkg => ?_
  split <;> infer_instance

theorem importImplicit_gives (hw : w.Sound) (unit : UnitId) (ht : w.HasImports table) :
    (importImplicit unit table).Gives w fun table w' => w'.HasImports table := by
  refine .after hw fun pkg w1 _ hg => ?_
  have ht := ht.grows hg
  split
  · exact ht
  · refine .get ?_
    split <;> exact ht

def storeImports (unit : UnitId) (source : SourceUnit) : Query Unit := do
  let table ← source.imports.foldlM (importOne unit) { begun := true }
  let table ← importImplicit unit table
  modify (·.modifyUnit unit fun info => { info with imports := table })

theorem storeImports_runs (hw : w.Sound) (unit : UnitId) (src : SourceUnit) :
    (storeImports unit src).RunsIn (some (.imports unit)) w fun _ w' =>
      unit.index < w'.units.size → (w'.unit unit).imports.begun := by
  have he : w.HasImports { begun := true } := ⟨rfl, fun _ _ h => by cases h⟩
  refine .bind hw (.inside (.foldlM (fun table declared w hw => importOne_runs hw unit declared) hw
    src.imports he)) fun table w1 hw1 _ ht => ?_
  refine .bind hw1 (.inside (Gives.runs hw1 (importImplicit_gives hw1 unit ht))) fun table w2 hw2 _ ht => ?_
  refine fun _ _ => ⟨.tend (.store ht.1 ht.2), fun _ _ hu => ?_⟩
  have hlt : unit.index < w2.units.size := Nat.lt_of_lt_of_eq hu (size_modifyUnit w2 unit _)
  have hs := unit_modifyUnit_self (fun info => { info with imports := table }) hlt
  exact (congrArg (·.imports.begun) hs).trans ht.1

theorem resolveImports_of_begun (d : Demand) (h : (w.unit unit).imports.begun) :
    resolveImports unit d w = (.ok (), w) := by
  rw [resolveImports, Query.bind_ok d w rfl, if_pos h]
  rfl

theorem resolveImports_of_not_begun (d : Demand) (h : (w.unit unit).imports.begun = false) : resolveImports unit d w =
      ((w.sources.find? unit).elim (pure ()) (storeImports unit) : Query Unit) d (w.beginImports unit) := by
  rw [resolveImports, Query.bind_ok d w rfl, if_neg (by simp [h]), Query.bind_ok d w rfl]
  cases w.sources.find? unit <;> rfl

theorem resolveImports_runs (hw : w.Sound) (unit : UnitId) : (resolveImports unit).Runs w fun _ w' =>
    unit.index < w'.units.size → (w'.unit unit).imports.begun := by
  intro d hd
  cases hb : (w.unit unit).imports.begun with
  | true =>
    rw [resolveImports_of_begun d hb]
    exact ⟨.refl w, fun _ _ _ => hb⟩
  | false =>
    have ho : Opens (.imports unit) w (w.beginImports unit) := .imports hb
    obtain ⟨_, h0, h1⟩ := ho.moves
    have hw1 := (hw.move h0).move h1
    have hr : ((w.sources.find? unit).elim (pure ()) (storeImports unit) : Query Unit).RunsIn
        (some (.imports unit)) (w.beginImports unit) fun _ w' =>
          unit.index < w'.units.size → (w'.unit unit).imports.begun := by
      cases w.sources.find? unit with
      | some src => exact storeImports_runs hw1 unit src
      | none =>
        refine .pure fun hu => ?_
        rw [beginImports, size_modifyUnit] at hu
        rw [beginImports, unit_modifyUnit_self _ hu]
    obtain ⟨hc, hp⟩ := hr d hd
    rw [← resolveImports_of_not_begun d hb] at hc hp
    exact ⟨.nest ho hc, hp⟩

instance : (resolveImports unit).Orderly := .of_runs fun _ hw => resolveImports_runs hw unit

theorem onDemandType_runs (hw : w.Sound) (name : String) (imported : OnDemandImport) :
    (onDemandType name imported).Runs w fun found w' => ∀ id, found = some id → w'.role id = .declared := by
  cases imported with
  | package pkg => exact .get ((getType_runs hw _).mono fun found w' hf id hid => (hf id hid).role)
  | type id =>
    refine .bind hw (memberTypeInHierarchy_runs hw id name) fun hit w' _ _ hh => ?_
    split
    · next member =>
      refine .pure ?_
      rintro _ ⟨⟩
      exact hh member rfl
    · exact .pure (by simp)

theorem searchOnDemand_runs (hw : w.Sound) (scope : ScopeId) (name : String)
    (hidden : Option TypeId) (imps : List OnDemandImport)
    (hf : ∀ id, found = some id → w.role id = .declared) :
    (searchOnDemand scope name found hidden imps).Runs w fun res w' =>
      ∀ id, res = .found id → w'.role id = .declared := by
  induction imps generalizing w found hidden with
  | nil =>
    rw [searchOnDemand.eq_def]
    dsimp only
    split
    · next id =>
      refine .pure ?_
      rintro _ ⟨⟩
      exact hf id rfl
    all_goals exact .pure fun _ h => by cases h
  | cons first rest ih =>
    rw [searchOnDemand]
    refine .bind hw (onDemandType_runs hw name first) fun cand w1 hw1 hg1 hc => ?_
    split
    · exact ih hw1 hidden fun id hid => hg1.role_declared (hf id hid)
    rename_i cand
    refine .after hw1 fun visible w2 hw2 hg2 => ?_
    have hf' : ∀ id, found = some id → w2.role id = .declared := fun id hid =>
      (hg1.trans hg2).role_declared (hf id hid)
    split
    · exact ih hw2 _ hf'
    split
    · split
      · exact ih hw2 hidden hf'
      · exact .pure fun _ h => by cases h
    refine ih hw2 hidden ?_
    rintro _ ⟨⟩
    exact hg2.role_declared (hc cand rfl)

theorem resolveTypeInUnit_runs (hw : w.Sound) (unit : UnitId) (scope : ScopeId) (name : String)
    (hidden : Option TypeId) : (resolveTypeInUnit unit scope name hidden).Runs w fun res w' =>
      ∀ id, res = .found id → w'.role id = .declared := by
  refine .after hw fun _ w1 hw1 _ => .get ?_
  dsimp only
  split
  · next own ho =>
    refine .pure ?_
    rintro _ ⟨⟩
    have ha := List.find?_some ho
    obtain ⟨info, hi, -⟩ := (Option.any_eq_true ..).1 ha
    exact role_of_class? hi
  split
  · next imported him =>
    refine .pure ?_
    rintro _ ⟨⟩
    exact hw1.linked.imports unit name imported him
  refine .bind hw1 (getType_runs hw1 _) fun found w2 hw2 _ hf => ?_
  split
  · next id =>
    refine .pure ?_
    rintro _ ⟨⟩
    exact (hf id rfl).role
  · exact .get (searchOnDemand_runs hw2 scope name hidden _ (by simp))

theorem nameable_of_namedVariable? {var : TypeId} (h : w.namedVariable? vars name = some var) : w.Nameable var := by
  have ha := List.find?_some h
  obtain ⟨info, hi, -⟩ := (Option.any_eq_true ..).1 ha
  have ht : w.type var = .variable info := by cases ht : w.type var <;> simp_all
  refine .inr ⟨lt_size_of_type_ne (by simp [ht]), by rw [ht]; rfl⟩

theorem declaredType_runs (hw : w.Sound) (id : TypeId) (name : String) :
    (declaredType id name).Runs w fun found w' => ∀ id, found = some id → w'.Nameable id := by
  refine .get ?_
  dsimp only
  split
  · next var hv =>
    refine .pure ?_
    rintro _ ⟨⟩
    exact nameable_of_namedVariable? hv
  refine (directMemberType_runs hw id name).mono fun found w' hf member hm => ?_
  obtain ⟨⟨inner, hi, -⟩, -⟩ := hf member hm
  exact .inl (role_of_class? hi)

def TypeStep.Names (w : World) : TypeStep → Prop
  | .done resolution => ∀ id, resolution = .found id → w.Nameable id
  | .more search => ∀ id, search.inherited = some id → w.Nameable id

theorem searchClass_runs (hw : w.Sound) (scope : ScopeId) (name : String) (id : TypeId)
    (hs : ∀ id, search.inherited = some id → w.Nameable id) :
    (searchClass scope name id search).Runs w fun step w' => step.Names w' := by
  refine .bind hw (declaredType_runs hw id name) fun found w1 hw1 hg1 hf => ?_
  split
  · next direct =>
    have hd : ∀ id, Resolution.found direct = .found id → w1.Nameable id := by
      rintro _ ⟨⟩
      exact hf direct rfl
    split
    · split
      · exact .pure hd
      · exact .pure fun _ h => by cases h
    · exact .pure hd
  refine .get ?_
  dsimp only
  split
  · exact .pure fun id hid => (hs id hid).grows hg1
  refine .bind hw1 (memberTypeInHierarchy_runs hw1 id name) fun hit w2 hw2 hg2 hh => ?_
  have hg2 := hg1.trans hg2
  split
  · exact .pure fun id hid => (hs id hid).grows hg2
  · exact .pure fun _ h => by cases h
  rename_i member
  refine .after hw2 fun visible w3 hw3 hg3 => ?_
  split
  · refine .pure ?_
    rintro _ ⟨⟩
    exact .inl (hg3.role_declared (hh member rfl))
  · exact .pure fun id hid => (hs id hid).grows (hg2.trans hg3)

theorem searchChain_runs (hw : w.Sound) (scope : ScopeId) (name : String)
    (chain : List ScopeId) (hse : ∀ id, search.inherited = some id → w.Nameable id) :
    (searchChain scope name search chain).Runs w fun res w' =>
      ∀ id, res = .found id → w'.Nameable id := by
  have hi : ∀ {w : World} {search : TypeSearch} {hit : TypeId},
      (∀ id, search.inherited = some id → w.Nameable id) → search.inherited = some hit →
      ∀ id, Resolution.found hit = .found id → w.Nameable id := by
    rintro w search hit hse hh _ ⟨⟩
    exact hse hit hh
  induction chain generalizing w search with
  | nil =>
    rw [searchChain]
    split
    · next hit hh => exact .pure (hi hse hh)
    · exact .pure fun _ h => by cases h
  | cons id outer ih =>
    rw [searchChain]
    refine .get ?_
    split
    · exact ih hw hse
    · split
      · next var _ hv =>
        refine .pure ?_
        rintro _ ⟨⟩
        exact nameable_of_namedVariable? hv
      · exact ih hw hse
    · next type _ =>
      refine .bind hw (searchClass_runs hw scope name type hse) fun step w1 hw1 _ hs => ?_
      split
      · exact .pure hs
      · exact ih hw1 hs
    split
    · next hit hh => exact .pure (hi hse hh)
    · refine (resolveTypeInUnit_runs hw _ scope name _).mono fun res w' h id hid => ?_
      exact .inl (h id hid)

theorem resolveType_runs (hw : w.Sound) (scope : ScopeId) (name : String) :
    (resolveType scope name).Runs w fun res w' => ∀ id, res = .found id → w'.Nameable id :=
  .get (searchChain_runs hw scope name _ (by simp))

instance : (resolveType scope name).Orderly := .of_runs fun _ hw => resolveType_runs hw scope name

theorem locateInPackage_runs (hw : w.Sound) (scope : ScopeId) (dotted : String) (pkg : QName)
    (segs : List String) : (locateInPackage scope dotted pkg segs).Runs w fun res w' =>
      ∀ located, res = .ok located → w'.Nameable located.2.1 := by
  induction segs generalizing w pkg with
  | nil => exact .pure (by simp)
  | cons seg rest ih =>
    rw [locateInPackage]
    refine .bind hw (getType_runs hw _) fun found w1 hw1 _ hf => ?_
    split
    · next id =>
      refine .after hw1 fun visible w2 hw2 hg => ?_
      split
      · refine .pure ?_
        rintro _ ⟨⟩
        exact .inl (hg.role_declared (hf id rfl).role)
      · exact .pure (by simp)
    refine .lift_bind hw1 fun hw2 _ => ?_
    split
    · exact ih hw2 _
    · exact .pure (by simp)

theorem locatedHit_ok {dotted : String} {hit : Hit TypeId} {member : TypeId}
    (h : locatedHit dotted hit = .ok member) : hit = .one member := by
  cases hit with
  | one found => cases h; rfl
  | ambiguous found => cases h
  | none => cases h

theorem locateMember_runs (hw : w.Sound) (dotted : String) (outer : TypeId) (name : String) :
    (locateMember dotted outer name).Runs w fun res w' => ∀ member, res = .ok member → w'.Nameable member := by
  refine .get ?_
  dsimp only
  split
  · refine .bind hw (directMemberType_runs hw outer name) fun found w1 hw1 _ hf => ?_
    refine .pure_bind (.pure fun member hm => ?_)
    cases found with
    | none => cases locatedHit_ok hm
    | some found =>
      cases locatedHit_ok hm
      obtain ⟨⟨inner, hi, -⟩, -⟩ := hf _ rfl
      exact .inl (role_of_class? hi)
  · refine .bind hw (memberTypeInHierarchy_runs hw outer name) fun hit w1 _ _ hh => ?_
    exact .pure fun member hm => .inl (hh member (locatedHit_ok hm))

theorem locateMembers_runs (hw : w.Sound) (scope : ScopeId) (dotted : String) (outer : TypeId)
    (segs : List String) : (locateMembers scope dotted outer segs).Runs w fun res w' =>
      ∀ members, res = .ok members → ∀ id ∈ members, w'.Nameable id := by
  induction segs generalizing w outer with
  | nil =>
    refine .pure ?_
    rintro _ ⟨⟩ id ⟨⟩
  | cons seg rest ih =>
    rw [locateMembers]
    refine .bind hw (locateMember_runs hw dotted outer seg) fun res w1 hw1 _ hre => ?_
    split
    · exact .pure (by simp)
    rename_i member
    refine .after hw1 fun visible w2 hw2 hg2 => ?_
    split
    · exact .pure (by simp)
    refine .bind hw2 (ih hw2 member) fun res w3 _ hg3 hr => ?_
    split
    · exact .pure (by simp)
    rename_i members
    refine .pure ?_
    rintro _ ⟨⟩ id hid
    obtain rfl | hid := List.mem_cons.1 hid
    · exact (hre _ rfl).grows (hg2.trans hg3)
    · exact hr members rfl id hid

theorem locateHead_runs (hw : w.Sound) (scope : ScopeId) (dotted first : String) (rest : List String) :
    (locateHead scope dotted first rest).Runs w fun res w' =>
      ∀ located, res = .ok located → w'.Nameable located.2.1 := by
  refine .bind hw (resolveType_runs hw scope first) fun resolution w1 hw1 _ hf => ?_
  split
  · next id =>
    refine .pure ?_
    rintro _ ⟨⟩
    exact hf id rfl
  split
  · exact .pure (by simp)
  refine .lift_bind hw1 fun hw2 _ => ?_
  split
  · exact .pure (by simp)
  · exact locateInPackage_runs hw2 scope dotted _ rest

theorem locateType_runs (hw : w.Sound) (scope : ScopeId) (names : List String) :
    (locateType scope names).Runs w fun res w' =>
      ∀ located, res = .ok located → ∀ id ∈ located.types, w'.Nameable id := by
  unfold locateType
  dsimp only
  split
  · exact .pure (by simp)
  rename_i first rest
  refine .bind hw (locateHead_runs hw scope _ first rest) fun res w1 hw1 _ hh => ?_
  split
  · exact .pure (by simp)
  rename_i packageSegments id rest
  refine .bind hw1 (locateMembers_runs hw1 scope _ id rest) fun res w2 _ hg hm => ?_
  split
  · exact .pure (by simp)
  rename_i members
  refine .pure ?_
  rintro _ ⟨⟩ other ho
  obtain rfl | ho := List.mem_cons.1 ho
  · exact (hh _ rfl).grows hg
  · exact hm members rfl other ho

instance (names : List String) : (locateType scope names).Orderly := .of_runs fun _ hw => locateType_runs hw scope names

instance (name : QName) : (resolveQualifiedType scope name).Orderly := by
  refine .after fun res => ?_
  split
  · infer_instance
  · split <;> infer_instance

instance (display : String) (reason : Reason) : (reportReference scope display reason missing).Orderly := by
  unfold reportReference
  infer_instance

instance : (withoutArguments id vars encl).Orderly := by
  unfold withoutArguments
  split
  · infer_instance
  · split <;> infer_instance

instance : (checkOrDefer id).Orderly where
  runs w hw := by
    refine .get ?_
    split
    · next hd =>
      refine .of_modify (.apart { Apart.refl w with deferred := ?_ }) trivial
      rw [hd]
      rfl
    · exact .of_orderly hw

theorem newMissing_proper (w : World) (name : QName) (reason : Reason) (closest : Option TypeId) :
    (newMissing name reason closest).Gives w fun id w' => w'.Proper id := by
  have ht : (newMissing name reason closest w).2.type
      (newMissing name reason closest w).1 = .missing name reason closest :=
    type_addType_new ..
  exact .simple (lt_size_of_type_ne (by rw [ht]; nofun)) (by simp [ht, sort])

theorem arrayType_proper (hw : w.Sound) {comp : TypeId} (h : w.Proper comp) (dims : UInt32) :
    (arrayType comp dims).Gives w fun id w' => w'.Proper id := by
  have hc : Course none none w (arrayType comp dims w).2 := Orderly.course w hw
  obtain ⟨leaf, hl, ha⟩ := arrayType_cases w comp dims
  have hp : w.Proper leaf := by
    obtain ⟨rfl, -⟩ | ⟨inner, ht⟩ := hl
    · exact h
    · exact h.leaf ht
  rw [Gives]
  obtain ha | ⟨total, -, ha⟩ := ha <;> rw [ha] at hc ⊢
  · exact hp
  · exact .array (arrayOf_type hw hp.grounded.knows total) (hp.course hc hw)

theorem wildcard_argument (hw : w.Sound) (info : WildcardInfo) (hn : info.kind = .unbounded → info.bound = none)
    (hg : ∀ generic ∈ info.generic, w.role generic = .declared)
    (hb : ∀ bound ∈ info.bound.toList ++ info.otherBounds, w.IsArgument bound) :
    (wildcard info.generic info.rank info.bound info.otherBounds info.kind).Gives w fun id w' => w'.IsArgument id := by
  have hc : Course none none w (wildcard info.generic info.rank info.bound info.otherBounds info.kind w).2 :=
    Orderly.course w hw
  have ht := wildcard_type hw hn (fun generic hm => lt_size_of_role_ne (by rw [hg generic hm]; nofun))
    fun bound hm => (hb bound hm).2.grounded.knows
  exact ⟨by rw [World.base?, ht]; rfl, .wildcard ht (fun generic hm => hc.grows.role_declared (hg generic hm))
    (fun bound hm => ((hb bound hm).course hc hw).1) fun bound hm => ((hb bound hm).course hc hw).2⟩

theorem wildcard_runs (hw : w.Sound) {generic : TypeId} {bound : Option TypeId} (hg : w.role generic = .declared)
    (rank : Nat) (hb : ∀ id, bound = some id → w.IsArgument id) (kind : WildcardKind) :
    (some <$> liftM (Edit.wildcard (some generic) rank bound [] kind) : Query (Option TypeId)).Runs w fun found w' =>
      ∀ id, found = some id → w'.IsArgument id := by
  have he : wildcard (some generic) rank bound [] kind =
      wildcard (some generic) rank (if kind = .unbounded then none else bound) [] kind := by
    cases kind <;> simp [Edit.wildcard]
  have ha := wildcard_argument hw ⟨some generic, rank, if kind = .unbounded then none else bound, [], kind⟩
    (fun hk => if_pos hk) (by simpa using hg) (by
      intro id hm
      rw [List.append_nil, Option.mem_toList] at hm
      split at hm
      · cases hm
      · exact hb id hm)
  rw [he]
  refine .map _ (.lift (Orderly.course w hw) ?_)
  rintro _ ⟨⟩
  exact ha

section

variable {info : ClassInfo} (hw : w.Sound) (hi : w.class? id = some info) (he : ∀ outer ∈ encl, w.Proper outer)

include hw hi he

theorem rawType_proper (hg : info.isGeneric) : (rawType id encl).Gives w fun id w' => w'.Proper id := by
  have hc : Course none none w (rawType id encl w).2 := Orderly.course w hw
  obtain ⟨_, hi', -, hl⟩ := hc.class_kept hw hi
  exact .raw (rawType_type hw (lt_size_of_class? hi) encl fun outer ho => (he outer ho).grounded.knows) hi'
    (hl.isGeneric hg) fun outer ho => (he outer ho).course hc hw

theorem parameterizedType_proper {args : List TypeId} (hn : args.length = info.typeVariables.length)
    (ha : ∀ arg ∈ args, w.IsArgument arg) (hwr : info.isGeneric ∨ info.isInterface = false) :
    (parameterizedType id args encl).Gives w fun id w' => w'.Proper id := by
  have hc : Course none none w (parameterizedType id args encl w).2 := Orderly.course w hw
  obtain ⟨_, hi', hv, hl⟩ := hc.class_kept hw hi
  have hp : ∀ part ∈ args ++ encl.toList, w.Proper part := fun part hm =>
    (List.mem_append.1 hm).elim (fun hm => (ha part hm).2) fun hm => he part (Option.mem_toList.1 hm)
  exact .parameterized (parameterizedType_type hw (lt_size_of_class? hi) fun part hm => (hp part hm).grounded.knows)
    hi' (hn.trans (by rw [hv])) (hwr.imp hl.isGeneric hl.isInterface.trans)
    (fun arg hm => ((ha arg hm).course hc hw).1) fun part hm => (hp part hm).course hc hw

theorem withoutArguments_proper (hh : encl.isSome → info.isInterface = false) :
    (withoutArguments id info.typeVariables encl).Gives w fun id w' => w'.Proper id := by
  unfold withoutArguments
  split
  · next hg => exact rawType_proper hw hi he (by simpa [ClassInfo.isGeneric] using hg)
  rename_i hv
  have hv : info.typeVariables = [] := by simpa using hv
  cases encl with
  | none => exact .declared hi fun _ => hv
  | some outer => exact parameterizedType_proper hw hi he (by rw [hv]) (by simp) (.inr (hh rfl))

end

theorem isInterface_of_enclosing {cur : Option TypeId} {info : ClassInfo} (hi : w.class? id = some info)
    (h : (enclosingParameterized? w cur id).isSome) : info.isInterface = false := by
  obtain ⟨outer, ho⟩ := Option.isSome_iff_exists.1 h
  have hf := (Option.filter_eq_some_iff.1 ho).2
  split at hf
  · simp only [World.isStaticType, hi, Option.any_some, Bool.not_eq_true', Bool.or_eq_false_iff] at hf
    exact hf.1.2
  · cases hf

theorem rejectBase_runs (hw : w.Sound) (h : w.Proper id) (reference : TypeRef) :
    (rejectBase reference id).Runs w fun found w' => ∀ arg, found = some arg → w'.IsArgument arg := by
  refine .get ?_
  split
  · exact .after hw fun _ _ _ _ => .pure nofun
  rename_i hb
  refine .pure ?_
  rintro _ ⟨⟩
  exact ⟨by simpa using hb, h⟩

mutual

theorem typeOfRefIn_runs (scope : ScopeId) (missing : ProblemKind) : ∀ (ref : TypeRef) {w : World}, w.Sound →
      (typeOfRefIn scope missing ref).Runs w fun id w' => w'.Proper id
  | .base kind, w, hw => by
    rw [typeOfRefIn]
    obtain ⟨hk, hs⟩ := hw.linked.base kind
    exact .pure (.simple hk (by simp [hs]))
  | .array comp dims, w, hw => by
    rw [typeOfRefIn]
    refine .bind hw (typeOfRefIn_runs scope missing comp hw) fun id w1 hw1 _ hid => .get ?_
    split
    · exact .pure hid
    · exact (arrayType_proper hw1 hid dims).runs hw1
  | .named segs, w, hw => by
    rw [typeOfRefIn]
    refine .bind hw (locateType_runs hw scope _) fun res w1 hw1 _ hl => ?_
    split
    · refine .after hw1 fun _ w2 hw2 _ => ?_
      exact (newMissing_proper ..).runs hw2
    rename_i located
    refine .bind hw1 (applySegments_runs scope _ segs located.packageSegments hw1
      (hl located rfl) (by simp)) fun applied w2 hw2 _ ha => ?_
    split
    · next id => exact .pure (ha id rfl)
    · exact (newMissing_proper ..).runs hw2

theorem applySegments_runs (scope : ScopeId) (display : String) :
    ∀ (segs : List RefSegment) (skip : Nat) {types : List TypeId} {cur : Option TypeId}
      {w : World}, w.Sound → (∀ id ∈ types, w.Nameable id) → (∀ id, cur = some id → w.Proper id) →
      (applySegments scope display types cur skip segs).Runs w fun found w' =>
        ∀ id, found = some id → w'.Proper id
  | [], _, _, _, _, _, _, hc => by
    rw [applySegments]
    exact .pure hc
  | .segment _ args :: rest, skip, types, cur, w, hw, ht, hc => by
    rw [applySegments.eq_def]
    dsimp only
    split
    · exact applySegments_runs scope display rest _ hw ht hc
    · exact .pure hc
    rename_i id types
    have hid := ht id List.mem_cons_self
    have ht : ∀ id ∈ types, w.Nameable id := fun other ho => ht other (List.mem_cons_of_mem _ ho)
    refine .get ?_
    split
    · next hv =>
      refine applySegments_runs scope display rest 0 hw ht ?_
      rintro _ ⟨⟩
      refine .simple hid.grounded.knows ?_
      obtain h | ⟨_, _, h⟩ := isVariableLike_iff.1 hv <;> simp [h]
    rename_i hn
    obtain ⟨info, hi⟩ := World.role_eq_declared.1 (hid.resolve_right fun h => hn h.2)
    refine .bind hw (applyArguments_runs scope display args hw hi (fun outer ho =>
      hc outer (Option.filter_eq_some_iff.1 ho).1) (isInterface_of_enclosing hi)) fun applied w1 hw1 hg ha => ?_
    refine applySegments_runs scope display rest 0 hw1 (fun other ho => (ht other ho).grows hg) ?_
    rintro _ ⟨⟩
    exact ha

theorem applyArguments_runs (scope : ScopeId) (display : String) :
    ∀ (args : Option (List TypeArg)) {id : TypeId} {encl : Option TypeId} {w : World} {info : ClassInfo},
      w.Sound → w.class? id = some info → (∀ outer ∈ encl, w.Proper outer) →
      (encl.isSome → info.isInterface = false) →
      (applyArguments scope display id encl args).Runs w fun applied w' => w'.Proper applied
  | none, id, encl, w, info, hw, hi, he, hh => by
    rw [applyArguments]
    refine .get ?_
    split
    · next hn => exact .pure (.declared hi fun hg => by simp [hg] at hn)
    · rw [hi]
      exact (withoutArguments_proper hw hi he hh).runs hw
  | some args, id, encl, w, info, hw, hi, he, hh => by
    rw [applyArguments]
    refine .get ?_
    rw [hi]
    dsimp only [Option.map_some, Option.getD_some]
    split
    · next hn => exact .pure (.declared hi fun hg => by simp [hg] at hn)
    split
    · exact (withoutArguments_proper hw hi he hh).runs hw
    split
    · next hv =>
      have hp : w.Proper id := .declared hi fun _ => by simpa using hv
      exact .bind hw (RunsIn.of_orderly hw).courses fun _ _ _ _ hc => .pure (hp.course hc.2 hw)
    next hv =>
    have hg : info.isGeneric := by simpa [ClassInfo.isGeneric] using hv
    split
    · refine .bind hw (RunsIn.of_orderly hw).courses fun _ w1 hw1 _ ⟨_, hc⟩ => ?_
      obtain ⟨_, hi1, -, hl⟩ := hc.class_kept hw hi
      exact (rawType_proper hw1 hi1 (fun outer ho => (he outer ho).course hc hw) (hl.isGeneric hg)).runs hw1
    rename_i hn
    refine .bind hw (argumentsOfRefs_runs scope args id 0 hw (role_of_class? hi)).courses fun res w1 hw1 _ h => ?_
    obtain ⟨hr, hc⟩ := h
    obtain ⟨_, hi1, hv1, hl⟩ := hc.class_kept hw hi
    have he1 := fun outer ho => (he outer ho).course hc hw
    split
    · exact (rawType_proper hw1 hi1 he1 (hl.isGeneric hg)).runs hw1
    rename_i args
    obtain ⟨hle, ha⟩ := hr args rfl
    have hp := parameterizedType_proper hw1 hi1 he1 (by rw [hle, hv1]; exact not_not.1 hn) ha
      (.inl (hl.isGeneric hg))
    refine .lift_bind hw1 fun hw2 _ => ?_
    exact .bind hw2 (RunsIn.of_orderly hw2).courses fun _ _ _ _ hc => .pure (hp.course hc.2 hw2)

theorem argumentsOfRefs_runs (scope : ScopeId) :
    ∀ (arguments : List TypeArg) (generic : TypeId) (rank : Nat) {w : World}, w.Sound → w.role generic = .declared →
      (argumentsOfRefs scope generic rank arguments).Runs w fun found w' => ∀ ids, found = some ids →
        ids.length = arguments.length ∧ ∀ id ∈ ids, w'.IsArgument id
  | [], generic, rank, w, hw, hr => by
    rw [argumentsOfRefs]
    refine .pure ?_
    rintro _ ⟨⟩
    exact ⟨rfl, nofun⟩
  | argument :: rest, generic, rank, w, hw, hr => by
    rw [argumentsOfRefs]
    refine .bind hw (argumentOfRef_runs scope argument generic rank hw hr) fun first w1 hw1 hg hf => ?_
    split
    · exact .pure nofun
    rename_i first
    refine .bind hw1 (argumentsOfRefs_runs scope rest generic (rank + 1) hw1 (hg.role_declared hr)).courses
      fun others w2 _ _ ⟨ho, hc⟩ => .pure fun ids h => ?_
    obtain ⟨others, rfl, rfl⟩ := Option.map_eq_some_iff.1 h
    obtain ⟨hle, ha⟩ := ho others rfl
    exact ⟨congrArg (· + 1) hle, List.forall_mem_cons.2 ⟨(hf first rfl).course hc hw1, ha⟩⟩

theorem argumentOfRef_runs (scope : ScopeId) :
    ∀ (arg : TypeArg) (generic : TypeId) (rank : Nat) {w : World}, w.Sound → w.role generic = .declared →
      (argumentOfRef scope generic rank arg).Runs w fun found w' => ∀ id, found = some id → w'.IsArgument id
  | .type reference, generic, rank, w, hw, hr => by
    rw [argumentOfRef]
    exact .bind hw (typeOfRefIn_runs scope .undefinedType reference hw) fun id w1 hw1 _ hid =>
      rejectBase_runs hw1 hid reference
  | .wildcard kind none, generic, rank, w, hw, hr => by
    rw [argumentOfRef]
    exact wildcard_runs hw hr rank (by simp) kind
  | .wildcard kind (some reference), generic, rank, w, hw, hr => by
    rw [argumentOfRef]
    refine .bind hw (typeOfRefIn_runs scope .undefinedType reference hw) fun id w1 hw1 hg1 hid => ?_
    refine .bind hw1 (rejectBase_runs hw1 hid reference) fun bound w2 hw2 hg2 hb => ?_
    split
    · exact .pure nofun
    · next bound =>
      exact wildcard_runs hw2 (hg2.role_declared (hg1.role_declared hr)) rank hb kind

end

theorem typeOfRef_runs (hw : w.Sound) (scope : ScopeId) (ref : TypeRef) :
    (typeOfRef scope ref).Runs w fun id w' => w'.Grounded id :=
  (typeOfRefIn_runs scope .undefinedType ref hw).mono fun _ _ h => h.grounded

instance : (typeOfRef scope ref).Orderly := .of_runs fun _ hw => typeOfRef_runs hw scope ref

end Query

end Bindings
