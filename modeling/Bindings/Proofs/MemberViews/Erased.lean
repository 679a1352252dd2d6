import Bindings.Proofs.Erasure
import Bindings.Proofs.MemberViews.Hiding
import Bindings.Proofs.Stops

/-!
# Members of raw types

The types of a member that is seen through a raw receiver are erased, and stay so
(`Reachable.rawView_erased`). A type that is built on a placeholder shows the class that comes in for it
(`raw_view_shows_generic_class`).
-/

open Relation

namespace Bindings

open Query Edit World

namespace TypeInfo

def showsErased : TypeInfo → Bool
  | base _ | missing .. | raw .. => true
  | declared info => !info.isGeneric
  | _ => false

def isUnerased : TypeInfo → Bool
  | parameterized .. | «variable» _ | capture _ | array .. | placeholder .. => true
  | _ => false

end TypeInfo

namespace World

variable {w u v : World} {id : TypeId}

def showsErased (w : World) (id : TypeId) : Bool := (w.type (w.leafOf id)).showsErased

/-- What the type is, or is an array of, is no type variable, no parameterized type and no placeholder, and
no class that had type parameters already in the first world. -/
structure ErasedSince (u v : World) (id : TypeId) : Prop where
  erased : (v.type (v.leafOf (v.follow id))).isUnerased = false
  notGeneric : (u.class? (v.leafOf (v.follow id))).any (·.isGeneric) = false

theorem showsErased_of_type (hn : (w.type id).isArray = false) (h : (w.type id).showsErased) :
    w.showsErased id := by
  rw [showsErased, leafOf_eq_self hn]
  exact h

theorem showsErased_of_isErased (h : w.isErased id)
    (hg : (w.class? (w.leafOf id)).any (·.isGeneric) = false) : w.showsErased id := by
  rw [isErased] at h
  rw [class?] at hg
  rw [showsErased]
  cases ht : w.type (w.leafOf id) with
  | declared info =>
    rw [ht] at hg
    exact congrArg not hg
  | _ => rw [ht] at h; first | rfl | cases h

theorem any_isGeneric_of_showsErased (h : (w.type id).showsErased) : (w.class? id).any (·.isGeneric) = false := by
  rw [class?]
  cases ht : w.type id with
  | declared info =>
    rw [ht] at h
    simpa [TypeInfo.showsErased] using h
  | _ => rfl

theorem Keeps.showsErased (h : w.Keeps u) (hw : w.Sound) (hid : w.Knows id) : u.showsErased id = w.showsErased id := by
  rw [World.showsErased, World.showsErased, h.leafOf hid]
  obtain ht | ⟨old, new, ho, hn, hr⟩ := h.type_cases (knows_leafOf hw hid)
  · rw [ht]
  · rw [ho, hn, TypeInfo.showsErased, hr.same]
    rfl

theorem Grows.not_isUnerased (h : u.Grows v) (hid : u.Knows id) (hsh : (u.type id).showsErased) :
    (v.type id).isUnerased = false := by
  cases ht : u.type id with
  | base kind =>
    have hs := h.sort id hid
    rw [ht] at hs
    cases ht' : v.type id <;> first | rfl | (rw [ht'] at hs; cases hs)
  | missing name reason =>
    have hr := h.missing id (by rw [role, ht]; rfl)
    rw [role] at hr
    cases ht' : v.type id <;> first | rfl | (rw [ht'] at hr; cases hr)
  | raw gen encl =>
    obtain ⟨stem, -, hk⟩ := h.stem id (.raw gen) gen (by rw [ht]; rfl) rfl
    obtain ⟨_, ht'⟩ := TypeInfo.cacheKey?_eq_raw.1 hk
    rw [ht']
    rfl
  | declared info =>
    obtain ⟨info', hi', -⟩ := h.declared id info (class?_eq_some.2 ht)
    rw [class?_eq_some.1 hi']
    rfl
  | _ => rw [ht] at hsh; cases hsh

theorem not_isPlaceholder_of_not_isUnerased (h : (v.type id).isUnerased = false) :
    (v.type id).isPlaceholder = false := by
  cases ht : v.type id <;> first | rfl | (rw [ht] at h; cases h)

theorem Becomes.of_not_isUnerased {tgt : TypeId} (h : v.Becomes id tgt)
    (hn : (v.type id).isUnerased = false) : tgt = id := by
  obtain heq | ⟨_, ⟨_, hr⟩, -⟩ := ReflTransGen.cases_head h
  · exact heq.symm
  rw [role, TypeInfo.role_eq_placeholder] at hr
  rw [hr] at hn
  cases hn

theorem Grows.erasedSince (h : u.Grows v) (hu : u.Sound) (hid : u.Knows id) (hsh : u.showsErased id) :
    u.ErasedSince v id := by
  rw [showsErased] at hsh
  have hl := h.not_isUnerased (knows_leafOf hu hid) hsh
  have hs : v.leafOf (v.follow id) = u.leafOf id := by
    cases ht : u.type id with
    | array leaf dims =>
      rw [leafOf_of_array ht] at hl ⊢
      obtain ⟨stem, hb, hk⟩ := h.stem id (.array leaf) leaf (by rw [ht]; rfl) rfl
      rw [CacheKey.swap, TypeId.swap, if_pos rfl] at hk
      obtain ⟨_, ht'⟩ := TypeInfo.cacheKey?_eq_array.1 hk
      rw [follow_of_not_placeholder (by rw [ht']; rfl), leafOf_of_array ht', hb.of_not_isUnerased hl]
    | _ =>
      have hse : u.leafOf id = id := leafOf_eq_self (by rw [ht]; rfl)
      rw [hse] at hl ⊢
      rw [follow_of_not_placeholder (not_isPlaceholder_of_not_isUnerased hl), leafOf_eq_self]
      cases ht' : v.type id <;> first | rfl | (rw [ht'] at hl; cases hl)
  refine ⟨by rw [hs]; exact hl, ?_⟩
  rw [hs]
  exact any_isGeneric_of_showsErased hsh

def ShownErased (w : World) (id : TypeId) : Prop := w.Knows id ∧ (w.BuiltOnClass id → w.showsErased id)

theorem ShownErased.keeps (h : w.ShownErased id) (hw : w.Sound) (hk : w.Keeps u) : u.ShownErased id := by
  refine ⟨hk.knows h.1, fun hb => ?_⟩
  rw [hk.showsErased hw h.1]
  exact h.2 (hk.builtOnClass hw (hk.leafOf h.1) hb)

theorem ShownErased.of_types (h : w.ShownErased id) (hty : u.types = w.types) : u.ShownErased id := by
  have ht : ∀ id, u.type id = w.type id := fun id => by rw [type, hty, type]
  have hl : ∀ id, u.leafOf id = w.leafOf id := fun id => by rw [leafOf, ht, leafOf]
  rw [ShownErased, Knows, hty, showsErased, hl, ht]
  refine ⟨h.1, fun hb => h.2 fun other gen hg hs => ?_⟩
  have hc := hb other gen (by rwa [ht]) (by rwa [hl, hl])
  rwa [class?, ht] at hc

theorem ShownErased.addField (h : w.ShownErased id) {info : FieldInfo} (ht : info.type = id)
    (change : Caches → Caches) :
    let u := ((w.addField info).2.modifyCaches change).noteReferrers (.field ⟨w.fields.size⟩) [id]
    u.ShownErased (u.field ⟨w.fields.size⟩).type := by
  intro u
  have hs : u.types = w.types ∧ u.fields = (w.addField info).2.fields := by
    change (noteReferrers _ _ _).types = _ ∧ (noteReferrers _ _ _).fields = _
    rw [(noteReferrers_notesMore _ _).same]
    exact ⟨rfl, rfl⟩
  have hf : (u.field ⟨w.fields.size⟩).type = id := by
    rw [World.field, hs.2, ← ht]
    simp [World.addField]
  rw [hf]
  exact h.of_types hs.1

end World

namespace Query

variable {w : World} {id : TypeId}

theorem rawErasure_shown (hw : w.Sound) (hid : w.Knows id) :
    (rawErasure id).Runs w fun shown u => u.ShownErased shown := by
  refine .bind hw (erasureWithin_erased hw (maxErasureDepth + 1) hid) ?_
  rintro erased w1 hw1 - ⟨hkn, he⟩
  refine .get ?_
  -- The raw type is new, and nothing is asked about what else is built on the class.
  have hr : ∀ {gen : TypeId}, w1.Knows gen →
      (rawType gen none w1).2.Knows (rawType gen none w1).1 ∧
        (rawType gen none w1).2.type (rawType gen none w1).1 = .raw gen none := by
    intro gen hg
    have ht := rawType_type hw1 hg none nofun
    exact ⟨lt_size_of_type_ne (by rw [ht]; nofun), ht⟩
  split
  · next info ht =>
    split
    · obtain ⟨hn, hsh⟩ := hr hkn
      refine .lift (Orderly.course w1 hw1) ⟨hn, fun _ => ?_⟩
      exact showsErased_of_type (by rw [hsh]; rfl) (by rw [hsh]; rfl)
    rename_i hg
    refine .pure ⟨hkn, fun _ => showsErased_of_type (by rw [ht]; rfl) ?_⟩
    rw [ht]
    simpa [TypeInfo.showsErased] using hg
  · next leaf dims ht =>
    have hl : w1.Knows leaf := hw1.wellBuilt.known erased leaf (by simp [ht])
    split
    · obtain ⟨hn, hsh⟩ := hr hl
      refine .lift_bind hw1 fun hw2 _ => ?_
      refine .lift (Orderly.course _ hw2) ⟨arrayType_knows hw2 hn dims, fun _ => ?_⟩
      have hk : (rawType leaf none w1).2.Keeps (arrayType (rawType leaf none w1).1 dims
        (rawType leaf none w1).2).2 := (Furthering.furthers _ hw2).toKeeps
      have ha := arrayType_leafOf hw2 hn dims
      rw [leafOf_eq_self (by rw [hsh]; rfl)] at ha
      rw [showsErased, ha, hk.type_eq hn (by rw [class?, hsh]; rfl), hsh]
      rfl
    rename_i hg
    refine .pure ⟨hkn, fun hb => showsErased_of_isErased (he hb) ?_⟩
    rw [leafOf_of_array ht]
    simpa using hg
  rename_i hc ha
  refine .pure ⟨hkn, fun hb => showsErased_of_isErased (he hb) ?_⟩
  have hs : w1.leafOf erased = erased := by
    refine leafOf_eq_self ?_
    cases ht : w1.type erased <;> first | rfl | exact absurd ht (ha _ _)
  rw [hs, class?]
  cases ht : w1.type erased <;> first | rfl | exact absurd ht (hc _)

theorem substitutionFor_of_raw {receiver generic : TypeId} {enclosing : Option TypeId}
    (ht : w.type receiver = .raw generic enclosing) :
    (substitutionFor receiver).Settles w fun s x => s.raw = true ∧ x = w := by
  refine .fuel fun budget => ?_
  cases budget with
  | zero =>
    intro fuel s w1 hru
    cases hru
  | succ budget =>
    have he : ∀ d, substitutionForFrom (budget + 1) receiver d w = (.ok { raw := true }, w) := by
      intro d
      have hre : resolved receiver d w = (.ok receiver, w) :=
        resolved_eq_self d fun name pending hr => by
          rw [role, ht] at hr
          cases hr
      rw [substitutionForFrom, bind_ok d w hre, get_bind_apply, ht]
      rfl
    intro fuel s w1 hru
    rw [he] at hru
    cases hru
    exact ⟨fun d _ => he d, rfl, rfl⟩

theorem rawErasure_settles (hw : w.Sound) (hr : w.object.isSome) (hid : w.Knows id) :
    (rawErasure id).Settles w fun shown u => u.Sound ∧ w.Keeps u ∧ u.ShownErased shown :=
  ((rawErasure_replays hw hr hid).runs (rawErasure_shown hw hid)).settles.mono
    fun _ _ h => ⟨h.1, h.2.1.toKeeps, h.2.2⟩

theorem eraseAll_settles (hw : w.Sound) (hr : w.object.isSome) {ids : List TypeId} (hi : ∀ id ∈ ids, w.Knows id) :
    (ids.mapM rawErasure).Settles w fun shown u => u.Sound ∧ w.Keeps u ∧ shown.length = ids.length ∧
      ∀ id ∈ shown, u.ShownErased id := by
  induction ids generalizing w with
  | nil =>
    rw [List.mapM_nil]
    exact .pure ⟨hw, .refl w, rfl, by simp⟩
  | cons id rest ih =>
    rw [List.mapM_cons]
    refine (rawErasure_settles hw hr (hi id (.head _))).bind ?_
    rintro shown w1 ⟨hw1, hk1, hs⟩
    refine (ih hw1 (hk1.object ▸ hr) fun id hid => hk1.knows (hi id (.tail _ hid))).bind ?_
    rintro results w2 ⟨hw2, hk2, hl, hre⟩
    refine .pure ⟨hw2, hk1.trans hk2, congrArg (· + 1) hl, ?_⟩
    exact List.forall_mem_cons.2 ⟨hs.keeps hw1 hk2, hre⟩

structure EraseTo (source view : MethodInfo) : Prop where
  params : view.params.length = source.params.length
  thrown : view.thrown.length = source.thrown.length
  typeVariables : view.typeVariables = []

theorem eraseView_settles (hw : w.Sound) (hr : w.object.isSome) {view : MethodId} {src info : MethodInfo}
    (hi : w.method? view = some info) (hs : ∀ slot ∈ src.slots, w.Knows slot) :
    (eraseView view src).Settles w fun _ u => EraseTo src (u.method view) ∧
      ∀ slot ∈ (u.method view).slots, u.ShownErased slot := by
  rw [MethodInfo.slots, List.forall_mem_append, List.forall_mem_cons] at hs
  obtain ⟨hp, hre, ht⟩ := hs
  refine (eraseAll_settles hw hr hp).bind ?_
  rintro params w1 ⟨hw1, hk1, hl, hp⟩
  refine (rawErasure_settles hw1 (hk1.object ▸ hr) (hk1.knows hre)).bind ?_
  rintro res w2 ⟨hw2, hk2, hre⟩
  have hk := hk1.trans hk2
  refine (eraseAll_settles hw2 (hk.object ▸ hr) fun id hid => hk.knows (ht id hid)).bind ?_
  rintro thrown w3 ⟨hw3, hk3, hl', ht⟩
  have hi3 : w3.method? view = some info := by
    rw [method?, (hk.trans hk3).same]
    exact hi
  refine .lift ?_
  have hv : ∀ change, (w3.modifyMethod view change).method view = change info := fun change => by
    rw [method_eq, method?_modifyMethod, if_pos rfl, hi3]
    rfl
  change EraseTo src ((w3.modifyMethod view _).method view) ∧
    ∀ slot ∈ ((w3.modifyMethod view _).method view).slots, (w3.modifyMethod view _).ShownErased slot
  rw [hv]
  refine ⟨⟨hl, hl', rfl⟩, ?_⟩
  rw [MethodInfo.slots, List.forall_mem_append, List.forall_mem_cons]
  exact ⟨fun id hid => ((hp id hid).keeps hw1 (hk2.trans hk3)).of_types rfl,
    (hre.keeps hw2 hk3).of_types rfl, fun id hid => (ht id hid).of_types rfl⟩

section

variable {recv gen : TypeId} {encl : Option TypeId}

theorem methodView_settles (hw : w.Sound) (hf : w.Formed) (hr : w.object.isSome)
    (hre : w.type recv = .raw gen encl) {m : MethodId}
    (hst : (w.method m).isStatic = false) (hn : w.caches.methodViews.find? (recv, m) = none) :
    (methodView recv m).Settles w fun view u => EraseTo (w.method m) (u.method view) ∧
      ∀ slot ∈ (u.method view).slots, u.ShownErased slot := by
  have ha := along_withView hw hf recv m
  refine .get ?_
  dsimp only
  rw [hst, if_neg Bool.false_ne_true, hn]
  refine .lift_bind (.lift_bind (Settles.bind (w := w.withView recv m) (substitutionFor_of_raw hre) ?_))
  rintro s _ ⟨hs, rfl⟩
  rw [hs, if_pos rfl]
  refine (eraseView_settles ha.sound hr (w.method?_withView recv m) (hw.knows_method m)).bind ?_
  rintro _ x ⟨he, hslo⟩
  obtain ⟨ht, hm⟩ := noteMethod_same ⟨w.methods.size⟩ x
  have hv : (noteMethod ⟨w.methods.size⟩ x).2.method ⟨w.methods.size⟩ = x.method ⟨w.methods.size⟩ := by
    rw [method, hm, method]
  refine .lift_bind (.pure ⟨hv.symm ▸ he, fun slot hsl => ?_⟩)
  exact (hslo slot (hv ▸ hsl)).of_types ht

theorem fieldView_settles (hw : w.Sound) (hr : w.object.isSome) (hre : w.type recv = .raw gen encl) {field : FieldId}
    (hst : (w.field field).isStatic = false) (hn : w.caches.fieldViews.find? (recv, field) = none) :
    (fieldView recv field).Settles w fun view u => u.ShownErased (u.field view).type := by
  refine .get ?_
  dsimp only
  rw [hst, if_neg Bool.false_ne_true, hn]
  refine (substitutionFor_of_raw hre).bind ?_
  rintro s _ ⟨hs, rfl⟩
  rw [hs, if_pos rfl]
  refine (rawErasure_settles hw hr (hw.knows_field field)).bind ?_
  rintro type x ⟨-, -, hsh⟩
  exact .lift_bind (.lift_bind (.lift_bind (.pure (hsh.addField rfl _))))

end

end Query

namespace World

variable {w u : World}

theorem ShownErased.erasedSince {id : TypeId} (h : u.ShownErased id) (hu : u.Reachable) (hb : u.BuiltOnClass id) :
    u.showsErased id ∧ ∀ v, ReflTransGen Step u v → u.ErasedSince v id :=
  ⟨h.2 hb, fun _ hl => (hu.later hl).2.erasedSince hu.sound h.1 (h.2 hb)⟩

theorem Reachable.rawView_erased (h : w.Reachable) (hroot : w.object.isSome) {receiver generic : TypeId}
    {enclosing : Option TypeId} (hreceiver : w.type receiver = .raw generic enclosing) (d : Demand) :
    (∀ method view, (w.method method).isStatic = false →
      w.caches.methodViews.find? (receiver, method) = none →
      (methodView receiver method (.idle d.fuel) w).1 = .ok view →
      ∃ u, methodView receiver method d w = (.ok view, u) ∧
        EraseTo (w.method method) (u.method view) ∧
        ∀ type ∈ (u.method view).slots, u.BuiltOnClass type →
          u.showsErased type ∧ ∀ v, ReflTransGen Step u v → u.ErasedSince v type) ∧
    (∀ field view, (w.field field).isStatic = false →
      w.caches.fieldViews.find? (receiver, field) = none →
      (fieldView receiver field (.idle d.fuel) w).1 = .ok view →
      ∃ u, fieldView receiver field d w = (.ok view, u) ∧
        (u.BuiltOnClass (u.field view).type → u.showsErased (u.field view).type ∧
          ∀ v, ReflTransGen Step u v → u.ErasedSince v (u.field view).type)) := by
  constructor
  · intro method view hstatic hnew hmade
    have hrun : methodView receiver method (.idle d.fuel) w =
        (.ok view, (methodView receiver method (.idle d.fuel) w).2) := by rw [← hmade, Prod.mk.eta]
    obtain ⟨hends, herases, hslots⟩ :=
      methodView_settles h.sound h.formed hroot hreceiver hstatic hnew _ _ _ hrun
    have hreachable : (methodView receiver method (.idle d.fuel) w).2.Reachable :=
      h.step ⟨.methodView receiver method, fun _ => true, d.fuel + 1, (discard_world ..).symm⟩
    exact ⟨_, hends d rfl, herases, fun type htype hbuilt => (hslots type htype).erasedSince hreachable hbuilt⟩
  · intro field view hstatic hnew hmade
    have hrun : fieldView receiver field (.idle d.fuel) w =
        (.ok view, (fieldView receiver field (.idle d.fuel) w).2) := by rw [← hmade, Prod.mk.eta]
    obtain ⟨hends, hshown⟩ := fieldView_settles h.sound hroot hreceiver hstatic hnew _ _ _ hrun
    have hreachable : (fieldView receiver field (.idle d.fuel) w).2.Reachable :=
      h.step ⟨.fieldView receiver field, fun _ => true, d.fuel + 1, (discard_world ..).symm⟩
    exact ⟨_, hends d rfl, fun hbuilt => hshown.erasedSince hreachable hbuilt⟩

def rawCellClassPath : ClassPath := .ofClasses
  [.generic "p/Box",
   { ClassFile.generic "p/Cell" with
     fields := [{ name := "box", descriptor := "Lp/Box;", signature := "Lp/Box<TT;>;" }]
     methods :=
       [{ selector := "boxes", descriptor := "(Ljava/lang/Object;)[Lp/Box;", signature := "(TT;)[Lp/Box<TT;>;" }] }]

def rawCellOperations : List Operation :=
  [.getType ⟨["p", "Cell"]⟩, .fields ⟨10⟩, .methods ⟨10⟩, .rawType ⟨10⟩ none]

def rawCellWorld : World := (initial {} rawCellClassPath {}).after rawCellOperations

def loadedCellWorld : World := rawCellWorld.after [.getType ⟨["p", "Box"]⟩]

theorem reachable_loadedCellWorld : loadedCellWorld.Reachable :=
  ((Reachable.initial {} rawCellClassPath {}).after _).after _

theorem rawView_erased_cell :
    loadedCellWorld.type ⟨17⟩ = .raw ⟨10⟩ none ∧
      (loadedCellWorld.method ⟨0⟩).slots = [⟨11⟩, ⟨16⟩] ∧ (loadedCellWorld.field ⟨0⟩).type = ⟨15⟩ ∧
      loadedCellWorld.IsVariable ⟨11⟩ ∧ loadedCellWorld.type ⟨16⟩ = .array ⟨15⟩ 1 ∧
      loadedCellWorld.type ⟨15⟩ = .parameterized ⟨18⟩ [⟨11⟩] none ∧
      (∃ u, methodView ⟨17⟩ ⟨0⟩ .standard loadedCellWorld = (.ok ⟨1⟩, u) ∧
        EraseTo (loadedCellWorld.method ⟨0⟩) (u.method ⟨1⟩) ∧
        ∀ type ∈ (u.method ⟨1⟩).slots,
          u.showsErased type ∧ ∀ v, ReflTransGen Step u v → u.ErasedSince v type) ∧
      ∃ u, fieldView ⟨17⟩ ⟨0⟩ .standard loadedCellWorld = (.ok ⟨1⟩, u) ∧
        u.showsErased (u.field ⟨1⟩).type ∧ ∀ v, ReflTransGen Step u v → u.ErasedSince v (u.field ⟨1⟩).type := by
  have hread : loadedCellWorld.type ⟨17⟩ = .raw ⟨10⟩ none ∧
      (loadedCellWorld.type ⟨11⟩).sort = .typeVariable ∧ loadedCellWorld.object.isSome = true ∧
      (loadedCellWorld.method ⟨0⟩).isStatic = false ∧ (loadedCellWorld.field ⟨0⟩).isStatic = false ∧
      loadedCellWorld.caches.methodViews.find? (⟨17⟩, ⟨0⟩) = none ∧
      loadedCellWorld.caches.fieldViews.find? (⟨17⟩, ⟨0⟩) = none ∧
      (methodView ⟨17⟩ ⟨0⟩ (.idle Demand.standard.fuel) loadedCellWorld).1 = .ok ⟨1⟩ ∧
      (fieldView ⟨17⟩ ⟨0⟩ (.idle Demand.standard.fuel) loadedCellWorld).1 = .ok ⟨1⟩ ∧
      (methodView ⟨17⟩ ⟨0⟩ .standard loadedCellWorld).2.isBuiltOnClasses = true ∧
      (fieldView ⟨17⟩ ⟨0⟩ .standard loadedCellWorld).2.isBuiltOnClasses = true := by decide +kernel
  obtain ⟨hreceiver, hvar, hroot, hstatic, hstatic', hnew, hnew', hmade, hmade', hbuilt, hbuilt'⟩ := hread
  obtain ⟨hmethods, hfields⟩ := reachable_loadedCellWorld.rawView_erased hroot hreceiver .standard
  refine ⟨hreceiver, by decide +kernel, by decide +kernel, hvar, by decide +kernel, by decide +kernel, ?_, ?_⟩
  · obtain ⟨u, hrun, herases, hshown⟩ := hmethods ⟨0⟩ ⟨1⟩ hstatic hnew hmade
    rw [hrun] at hbuilt
    exact ⟨u, hrun, herases, fun type htype => hshown type htype (builtOnClass_of_test hbuilt)⟩
  · obtain ⟨u, hrun, hshown⟩ := hfields ⟨0⟩ ⟨1⟩ hstatic' hnew' hmade'
    rw [hrun] at hbuilt'
    exact ⟨u, hrun, hshown (builtOnClass_of_test hbuilt')⟩

/-- A field of a raw type is seen with the placeholder that its type is built on. When the class is loaded, the
field has the bare generic class. -/
theorem raw_view_shows_generic_class :
    rawCellWorld.Undisturbed ∧ rawCellWorld.type ⟨17⟩ = .raw ⟨10⟩ none ∧
      (rawCellWorld.class? ⟨10⟩).map (·.fields) = some [⟨0⟩] ∧ (rawCellWorld.field ⟨0⟩).isStatic = false ∧
      let made := fieldView ⟨17⟩ ⟨0⟩ .standard rawCellWorld
      made.1 = .ok ⟨1⟩ ∧ made.2.isPending (made.2.field ⟨1⟩).type ∧
        let later := made.2.after [.getType ⟨["p", "Box"]⟩]
        ((later.class? (later.field ⟨1⟩).type).any (·.isGeneric)) ∧
          (later.class? (later.follow (made.2.field ⟨1⟩).type)).any (·.isGeneric) :=
  ⟨(Undisturbed.initial {} rawCellClassPath {}).after (by decide +kernel), by decide +kernel⟩

end World

end Bindings
