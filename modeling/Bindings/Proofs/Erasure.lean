import Bindings.Proofs.Substitution

/-! # Erasure -/

namespace Bindings

open TypeInfo World Query Edit

variable {leaf : TypeId} {dims : UInt32}

namespace TypeInfo

def isPlain : TypeInfo → Bool
  | base _ | declared _ | missing .. => true
  | _ => false

def generic? : TypeInfo → Option TypeId
  | parameterized generic _ _ | raw generic _ => some generic
  | _ => none

theorem generic?_ne_declared {info : TypeInfo} {gen : TypeId} (h : info.generic? = some gen) : info.class? = none := by
  cases info <;> first | rfl | cases h

end TypeInfo

namespace World

variable {w u : World} {id : TypeId}

def leafOf (w : World) (id : TypeId) : TypeId :=
  match w.type id with
  | .array leaf _ => leaf
  | _ => id

def isErased (w : World) (id : TypeId) : Bool := (w.type (w.leafOf id)).isPlain

def BuiltOnClass (w : World) (id : TypeId) : Prop :=
  ∀ other generic, (w.type other).generic? = some generic → w.leafOf generic = w.leafOf id →
    (w.class? generic).isSome

theorem leafOf_of_array (h : w.type id = .array leaf dims) : w.leafOf id = leaf := by rw [leafOf, h]

theorem leafOf_eq_self (h : (w.type id).isArray = false) : w.leafOf id = id := by
  rw [leafOf]
  split
  · next ht =>
    rw [ht] at h
    cases h
  · rfl

theorem leafOf_of_class? {info : ClassInfo} (h : w.class? id = some info) : w.leafOf id = id :=
  leafOf_eq_self (by rw [class?_eq_some.1 h]; rfl)

theorem knows_leafOf (hw : w.Sound) (hid : w.Knows id) : w.Knows (w.leafOf id) := by
  rw [leafOf]
  split
  · next leaf _ ht => exact hw.wellBuilt.known id leaf (by simp [ht])
  · exact hid

theorem leafOf_leafOf (hw : w.Sound) : w.leafOf (w.leafOf id) = w.leafOf id := by
  cases ht : w.type id with
  | array leaf dims => rw [leafOf_of_array ht, leafOf_eq_self (hw.wellBuilt.leaf id leaf dims ht)]
  | _ =>
    have hs : w.leafOf id = id := leafOf_eq_self (by rw [ht]; rfl)
    rw [hs, hs]

theorem isErased_of_plain (h : (w.type id).isPlain) : w.isErased id := by
  rw [isErased, leafOf_eq_self (by cases ht : w.type id <;> first | rfl | (rw [ht] at h; cases h))]
  exact h

theorem isErased_of_class? (h : (w.class? (w.leafOf id)).isSome) : w.isErased id := by
  obtain ⟨info, hi⟩ := Option.isSome_iff_exists.1 h
  rw [isErased, class?_eq_some.1 hi]
  rfl

theorem isErased_of_generic? (other : TypeId) (h : (w.type other).generic? = some id) (hb : w.BuiltOnClass id) :
    w.isErased id := by
  have hc := hb other id h rfl
  obtain ⟨info, hi⟩ := Option.isSome_iff_exists.1 hc
  exact isErased_of_class? (by rwa [leafOf_of_class? hi])

def isBuiltOnClasses (w : World) : Bool := w.types.all fun info => info.generic?.all fun gen => (w.class? gen).isSome

theorem builtOnClass_of_test (h : w.isBuiltOnClasses) : w.BuiltOnClass id := by
  intro other gen hg _
  have ho : w.Knows other := lt_size_of_type_ne fun hv => by
    rw [hv] at hg
    cases hg
  have ht : w.type other = w.types[other.index] := by
    rw [type, Array.getD_eq_getD_getElem?, Array.getElem?_eq_getElem ho, Option.getD_some]
  have hte := Array.all_eq_true.1 h other.index ho
  rw [← ht, hg] at hte
  exact hte

theorem Keeps.leafOf (h : w.Keeps u) (hid : w.Knows id) : u.leafOf id = w.leafOf id := by
  rw [World.leafOf, World.leafOf]
  obtain ht | ⟨_, _, ho, hn, -⟩ := h.type_cases hid
  · rw [ht]
  · rw [ho, hn]

theorem Keeps.isPlain (h : w.Keeps u) (hid : w.Knows id) : (u.type id).isPlain = (w.type id).isPlain := by
  obtain ht | ⟨_, _, ho, hn, -⟩ := h.type_cases hid
  · rw [ht]
  · rw [ho, hn]
    rfl

theorem Keeps.builtOnClass (hw : w.Sound) (h : w.Keeps u) {id' : TypeId} (hl : u.leafOf id' = w.leafOf id)
    (hb : u.BuiltOnClass id') : w.BuiltOnClass id := by
  intro other gen hg hs
  have ho : w.Knows other := lt_size_of_type_ne fun hv => by
    rw [hv] at hg
    cases hg
  have hk : w.Knows gen := hw.wellBuilt.known other gen (by
    cases ht : w.type other <;> rw [ht] at hg <;> cases hg <;> simp)
  have ht := h.type_eq ho (generic?_ne_declared hg)
  rw [← h.class?_isSome hk]
  exact hb other gen (by rwa [ht]) (by rw [h.leafOf hk, hs, hl])

end World

namespace Query

variable {w : World} {id : TypeId}

theorem arrayType_leafOf (hw : w.Sound) {comp : TypeId} (hc : w.Knows comp) (dims : UInt32) :
    (arrayType comp dims).Gives w fun array u => u.leafOf array = w.leafOf comp := by
  obtain ⟨leaf, hl, ha⟩ := arrayType_cases w comp dims
  have hs : leaf = w.leafOf comp := by
    obtain ⟨rfl, hn⟩ | ⟨inner, ht⟩ := hl
    · exact (leafOf_eq_self hn).symm
    · exact (leafOf_of_array ht).symm
  rw [Gives]
  obtain ha | ⟨total, -, ha⟩ := ha <;> rw [ha]
  · rw [hs, leafOf_leafOf hw]
  · rw [leafOf_of_array (arrayOf_type hw (hs ▸ knows_leafOf hw hc) total), hs]

theorem erasureWithin_erased (hw : w.Sound) (depth : Nat) (hid : w.Knows id) :
    (erasureWithin depth id).Runs w fun erased u => u.Knows erased ∧ (u.BuiltOnClass erased → u.isErased erased) := by
  have ho : ∀ w1 : World, w1.Sound → objectType.Runs w1 fun erased u =>
      u.Knows erased ∧ (u.BuiltOnClass erased → u.isErased erased) := by
    refine fun w1 hw1 => (objectType_runs hw1).mono fun object u hd => ⟨hd.knows, fun _ => ?_⟩
    obtain ⟨info, hi⟩ := World.role_eq_declared.1 hd.role
    exact World.isErased_of_plain (by rw [World.class?_eq_some.1 hi]; rfl)
  induction depth generalizing w id with
  | zero =>
    rw [erasureWithin]
    exact .after hw fun _ w1 hw1 _ => ho w1 hw1
  | succ depth ih =>
    rw [erasureWithin]
    refine .bind hw (resolved_runs hw id) fun tgt w1 hw1 hg1 hs => .get ?_
    have hta : w1.Knows tgt := by
      obtain ⟨-, rfl⟩ | ⟨name, hr⟩ := hs
      · exact hid.grows hg1
      · obtain hr | hr := hw1.registered.role_target hr <;> exact World.lt_size_of_role_ne (by rw [hr]; simp)
    have hkn := hw1.wellBuilt.known tgt
    have hp : (w1.type tgt).isPlain → (pure tgt : Query TypeId).Runs w1 fun erased u =>
        u.Knows erased ∧ (u.BuiltOnClass erased → u.isErased erased) := fun hp =>
      .pure ⟨hta, fun _ => World.isErased_of_plain hp⟩
    dsimp only
    split
    · next ht => exact hp (by rw [ht]; rfl)
    · next ht => exact hp (by rw [ht]; rfl)
    · next ht => exact hp (by rw [ht]; rfl)
    · next name pending ht =>
      exact absurd (role_eq_placeholder.2 ht) (hs.ne_placeholder hw1.registered name pending)
    · next gen _ _ ht =>
      exact .pure ⟨hkn gen (by simp [ht]), World.isErased_of_generic? tgt (by rw [ht]; rfl)⟩
    · next gen _ ht =>
      exact .pure ⟨hkn gen (by simp [ht]), World.isErased_of_generic? tgt (by rw [ht]; rfl)⟩
    · next leaf dims ht =>
      refine .bind hw1 (ih hw1 (hkn leaf (by simp [ht]))) ?_
      rintro erased w2 hw2 - ⟨he, hen⟩
      have hk : w2.Keeps (arrayType erased dims w2).2 := (Furthering.furthers w2 hw2).toKeeps
      have hl := arrayType_leafOf hw2 he dims
      refine .lift (Orderly.course w2 hw2) ⟨arrayType_knows hw2 he dims, fun hbu => ?_⟩
      rw [World.isErased, hl, hk.isPlain (World.knows_leafOf hw2 he)]
      exact hen (hk.builtOnClass hw2 hl hbu)
    all_goals
      split
      · next bound hb => exact ih hw1 (hw1.stocked (.type tgt) bound (mem_slots_of_erasureBound? hb))
      · exact ho w1 hw1

theorem arrayType_found (hw : w.Sound) (hf : w.Formed) (ht : w.type id = .array leaf dims) :
    (Edit.arrayType leaf dims w).1 = id ∧ w.Alike (Edit.arrayType leaf dims w).2 := by
  have hn : dims ≠ 0 := by
    have hn := hf.normal id
    rwa [ht] at hn
  have hk : w.Knows leaf := hw.wellBuilt.known id leaf (by simp [ht])
  have hr : Edit.arrayType leaf dims w = Edit.arrayOf leaf dims w := by
    have hl := hw.wellBuilt.leaf id leaf dims ht
    rw [Edit.arrayType, Edit.bind_apply, Edit.get_apply]
    dsimp only
    split
    · next hi =>
      rw [hi] at hl
      cases hl
    · rw [if_neg hn]
  rw [hr]
  refine found_of_interns (arrayOf_interns leaf dims) hw ?_ ht
  rintro comp (_ | ⟨_, ⟨⟩⟩)
  exact hk

theorem erasure_of_isErased (hw : w.Sound) (hfo : w.Formed) (h : w.isErased id) (d : Demand) :
    ∃ u, erasure id d w = (.ok id, u) ∧ w.Alike u := by
  have hp : ∀ (depth : Nat) (leaf : TypeId), (w.type leaf).isPlain →
      erasureWithin (depth + 1) leaf d w = (.ok leaf, w) := by
    intro depth leaf hl
    have hre : resolved leaf d w = (.ok leaf, w) := resolved_eq_self d fun name pending hr => by
      rw [World.role, role_eq_placeholder] at hr
      rw [hr] at hl
      cases hl
    rw [erasureWithin, bind_ok d w hre, get_bind_apply]
    cases ht : w.type leaf <;> first | rfl | (rw [ht] at hl; cases hl)
  by_cases ha : (w.type id).isArray
  · obtain ⟨leaf, dimensions, ht⟩ : ∃ leaf dimensions, w.type id = .array leaf dimensions := by
      cases ht : w.type id <;> first | exact ⟨_, _, rfl⟩ | (rw [ht] at ha; cases ha)
    rw [World.isErased, World.leafOf_of_array ht] at h
    have hre : resolved id d w = (.ok id, w) := resolved_eq_self d fun name pending hr => by
      rw [World.role, ht] at hr
      cases hr
    obtain ⟨hf, hal⟩ := arrayType_found hw hfo ht
    refine ⟨(arrayType leaf dimensions w).2, ?_, hal⟩
    rw [erasure, erasureWithin, bind_ok d w hre, get_bind_apply, ht]
    dsimp only
    rw [bind_ok d w (show erasureWithin maxErasureDepth leaf d w = _ from hp 15 leaf h), ← hf]
    rfl
  · rw [World.isErased, World.leafOf_eq_self (by simpa using ha)] at h
    exact ⟨w, hp maxErasureDepth id h, .refl w⟩

end Query

namespace World

variable {w u : World}

/-- An erasure is a base type, a class, a missing type or an array of one of these, and its own erasure. It
is so unless a type was built on what is no class. -/
theorem Reachable.erasure_erased (h : w.Reachable) {id erased : TypeId} (hid : w.Knows id)
    {d : Demand} (hd : d.Orderly) (hrun : erasure id d w = (.ok erased, u))
    (hbuilt : u.BuiltOnClass erased) :
    u.isErased erased ∧ ∀ d, ∃ v, erasure erased d u = (.ok erased, v) ∧ u.Alike v := by
  obtain ⟨hcourse, hends⟩ := erasureWithin_erased h.sound (maxErasureDepth + 1) hid d hd
  rw [erasure] at hrun
  rw [hrun] at hcourse hends
  have herased := (hends erased rfl).2 hbuilt
  exact ⟨herased, erasure_of_isErased (hcourse.sound h.sound) (hcourse.formed h.sound h.formed) herased⟩

def boxFieldClassPath : ClassPath := .ofClasses
  [.generic "p/Box",
   { ClassFile.generic "p/Cell" with
     fields := [{ name := "box", descriptor := "Lp/Box;", signature := "Lp/Box<TT;>;" },
       { name := "boxes", descriptor := "[Lp/Box;", signature := "[Lp/Box<TT;>;" }] }]

def boxFieldOperations : List Operation := [.getType ⟨["p", "Cell"]⟩, .fields ⟨10⟩]

def boxFieldWorld : World := (initial {} boxFieldClassPath {}).after boxFieldOperations

def loadedFieldWorld : World := boxFieldWorld.after [.getType ⟨["p", "Box"]⟩]

theorem erasure_erased_boxes :
    loadedFieldWorld.type ⟨16⟩ = .array ⟨15⟩ 1 ∧ loadedFieldWorld.type ⟨15⟩ = .parameterized ⟨17⟩ [⟨11⟩] none ∧
      let made := erasure ⟨16⟩ .standard loadedFieldWorld
      made.1 = .ok ⟨19⟩ ∧ made.2.isErased ⟨19⟩ ∧
        ∀ d, ∃ v, erasure ⟨19⟩ d made.2 = (.ok ⟨19⟩, v) ∧ made.2.Alike v := by
  have hread : loadedFieldWorld.types.size = 19 ∧
      (erasure ⟨16⟩ .standard loadedFieldWorld).1 = .ok ⟨19⟩ ∧
      (erasure ⟨16⟩ .standard loadedFieldWorld).2.isBuiltOnClasses = true := by decide +kernel
  obtain ⟨hsize, hmade, hbuilt⟩ := hread
  have hreachable : loadedFieldWorld.Reachable := ((Reachable.initial {} boxFieldClassPath {}).after _).after _
  have hid : loadedFieldWorld.Knows ⟨16⟩ := Nat.lt_of_lt_of_eq (by decide) hsize.symm
  exact ⟨by decide +kernel, by decide +kernel, hmade,
    hreachable.erasure_erased hid Demand.orderly_standard (run_standard hmade) (builtOnClass_of_test hbuilt)⟩

/-- The erasure of a type that is built on a placeholder is the placeholder, and the erasure of that is the
class. -/
theorem erasure_is_pending :
    boxFieldWorld.Undisturbed ∧ boxFieldWorld.type ⟨15⟩ = .parameterized ⟨14⟩ [⟨11⟩] none ∧
      let made := erasure ⟨15⟩ .standard boxFieldWorld
      made.1 = .ok ⟨14⟩ ∧ made.2.isPending ⟨14⟩ ∧ made.2.isErased ⟨14⟩ = false ∧
        (erasure ⟨14⟩ .standard made.2).1 = .ok ⟨17⟩ :=
  ⟨(Undisturbed.initial {} boxFieldClassPath {}).after (by decide +kernel), by decide +kernel⟩

end World

end Bindings
