import Bindings.Placeholder
import Mathlib.Data.List.Basic

/-! # Reading after writing -/

namespace Bindings

open TypeInfo World

variable {test : TypeInfo → Bool}

theorem TypeInfo.class?_eq_some {type : TypeInfo} {info : ClassInfo} :
    type.class? = some info ↔ type = .declared info := by
  cases type <;> simp

theorem TypeInfo.class?_mapClass (change : ClassInfo → ClassInfo) (type : TypeInfo) :
    (type.mapClass change).class? = type.class?.map change := by
  cases type <;> rfl

section

variable {α β : Type} (array : Array α) (i j : Nat) (default : α)

theorem getD_push (a : α) : (array.push a).getD i default = if i = array.size then a else array.getD i default := by
  simp only [Array.getD_eq_getD_getElem?, Array.getElem?_push]
  split <;> rfl

theorem getD_modify (change : α → α) : (array.modify i change).getD j default =
      if j = i ∧ i < array.size then change (array.getD j default) else array.getD j default := by
  simp only [Array.getD_eq_getD_getElem?, Array.getElem?_modify]
  by_cases hlt : i < array.size <;> by_cases heq : i = j
  · subst heq
    simp [hlt]
  · simp [heq, Ne.symm heq]
  · subst heq
    simp [hlt]
  · simp [heq, Ne.symm heq]

theorem read_modify {read : α → β} {change : α → α} (h : ∀ a, read (change a) = read a) :
    read ((array.modify i change).getD j default) = read (array.getD j default) := by
  rw [getD_modify]
  split
  · exact h _
  · rfl

variable {array i default}

theorem lt_size_of_read (prop : α → Prop) (h : prop (array.getD i default)) (hd : ¬ prop default) : i < array.size := by
  by_contra hge
  rw [Array.getD_eq_getD_getElem?, Array.getElem?_eq_none (Nat.le_of_not_lt hge)] at h
  exact hd h

theorem modify_of_size_le (change : α → α) (h : array.size ≤ i) : array.modify i change = array := by
  refine Array.ext_getElem? fun j => ?_
  rw [Array.getElem?_modify]
  split
  · subst j
    rw [Array.getElem?_eq_none h]
    rfl
  · rfl

end

namespace World

variable {w : World} {change : TypeInfo → TypeInfo} {comp id : TypeId} {info : ClassInfo} {ref : Referrer}
  {w' : World}

theorem class?_eq_some : w.class? id = some info ↔ w.type id = .declared info := TypeInfo.class?_eq_some

theorem type_of_size_le (h : w.types.size ≤ id.index) : w.type id = .base .void := by
  rw [type, Array.getD_eq_getD_getElem?, Array.getElem?_eq_none h]
  rfl

theorem lt_size_of_type_ne (h : w.type id ≠ .base .void) : id.index < w.types.size := by
  by_contra hge
  exact h (type_of_size_le (Nat.le_of_not_lt hge))

theorem lt_size_of_class? (h : w.class? id = some info) : id.index < w.types.size :=
  lt_size_of_type_ne (by rw [class?_eq_some.1 h]; simp)

theorem type_eq_getElem (h : id.index < w.types.size) : w.type id = w.types[id.index] := by
  rw [type, Array.getD_eq_getD_getElem?, Array.getElem?_eq_getElem h, Option.getD_some]

theorem type_addType (info : TypeInfo) (id : TypeId) :
    (w.addType info).2.type id = if id.index = w.types.size then info else w.type id := getD_push ..

theorem type_addType_of_lt (info : TypeInfo) (h : id.index < w.types.size) :
    (w.addType info).2.type id = w.type id := by
  rw [type_addType, if_neg (Nat.ne_of_lt h)]

theorem type_addType_new (info : TypeInfo) : (w.addType info).2.type ⟨w.types.size⟩ = info := by
  rw [type_addType, if_pos rfl]

theorem type_modifyType (hv : change (.base .void) = .base .void) (other : TypeId) :
    (w.modifyType id change).type other = if other = id then change (w.type other) else w.type other := by
  rw [type, modifyType, getD_modify]
  by_cases hlt : id.index < w.types.size
  · simp [hlt, TypeId.ext_iff, type]
  rw [if_neg fun h => hlt h.2]
  split
  · next heq => rw [← type, heq, type_of_size_le (Nat.le_of_not_lt hlt), hv]
  · rfl

theorem read_modifyType (read : TypeInfo → α) (hv : change (.base .void) = .base .void)
    (hr : ∀ info, read (change info) = read info) (other : TypeId) :
    read ((w.modifyType id change).type other) = read (w.type other) := by
  rw [type_modifyType hv]
  split
  · exact hr _
  · rfl

theorem type_modifyClass (id : TypeId) (change : ClassInfo → ClassInfo) (other : TypeId) :
    (w.modifyClass id change).type other = if other = id then (w.type other).mapClass change else w.type other := by
  rw [modifyClass, type_modifyType rfl]

theorem class?_modifyClass (id : TypeId) (change : ClassInfo → ClassInfo) (other : TypeId) :
    (w.modifyClass id change).class? other = if other = id then (w.class? other).map change else w.class? other := by
  rw [class?, type_modifyClass]
  split
  · exact class?_mapClass ..
  · rfl

theorem class?_of_modifyClass {other : TypeId} {change : ClassInfo → ClassInfo} {new : ClassInfo}
    (h : (w.modifyClass id change).class? other = some new) :
    w.class? other = some new ∨ other = id ∧ ∃ old, w.class? id = some old ∧ change old = new := by
  rw [class?_modifyClass] at h
  split at h
  · next heq =>
    subst heq
    exact .inr ⟨rfl, Option.map_eq_some_iff.1 h⟩
  · exact .inl h

def countTypes (w : World) (test : TypeInfo → Bool) : Nat := w.types.countP test

theorem countTypes_addType (test : TypeInfo → Bool) (info : TypeInfo) :
    (w.addType info).2.countTypes test = w.countTypes test + if test info then 1 else 0 :=
  Array.countP_push

theorem countP_modify_of_lt {types : List TypeInfo} {i : Nat} (change : TypeInfo → TypeInfo)
    (test : TypeInfo → Bool) (h : i < types.length) :
    (types.modify i change).countP test + (if test types[i] then 1 else 0) =
      types.countP test + if test (change types[i]) then 1 else 0 := by
  have hm : types.modify i change = types.set i (change types[i]) := by
    rw [List.modify_eq_set_getElem?, List.getElem?_eq_getElem h]
    rfl
  rw [hm, List.countP_set h]
  have hp : test types[i] = true → 0 < types.countP test := fun ht =>
    List.countP_pos_iff.2 ⟨_, List.getElem_mem h, ht⟩
  split <;> rename_i ht
  · have := hp ht
    omega
  · omega

theorem countTypes_modifyType_of_lt (change : TypeInfo → TypeInfo)
    (test : TypeInfo → Bool) (h : id.index < w.types.size) :
    (w.modifyType id change).countTypes test + (if test (w.type id) then 1 else 0) =
      w.countTypes test + if test (change (w.type id)) then 1 else 0 := by
  have hlt : id.index < w.types.toList.length := by simpa using h
  have := countP_modify_of_lt change test hlt
  simpa [countTypes, modifyType, type_eq_getElem h, ← Array.countP_toList] using this

theorem countTypes_modifyType (hs : test (change (w.type id)) = test (w.type id)) :
    (w.modifyType id change).countTypes test = w.countTypes test := by
  by_cases h : id.index < w.types.size
  · have := countTypes_modifyType_of_lt change test h
    rw [hs] at this
    omega
  · rw [countTypes, modifyType, modify_of_size_le _ (Nat.le_of_not_lt h), countTypes]

@[simp] theorem size_modifyType (id : TypeId) (change : TypeInfo → TypeInfo) :
    (w.modifyType id change).types.size = w.types.size :=
  Array.size_modify

structure NotesMore (w w' : World) : Prop where
  same : w' = { w with referrers := w'.referrers }
  noted : ∀ id, w.noted id ⊆ w'.noted id

theorem NotesMore.refl (w : World) : w.NotesMore w := ⟨rfl, fun _ => List.Subset.refl _⟩

theorem NotesMore.trans {w1 w2 : World} (h1 : w.NotesMore w1) (h2 : w1.NotesMore w2) : w.NotesMore w2 := by
  refine ⟨?_, fun id => List.Subset.trans (h1.noted id) (h2.noted id)⟩
  rw [h2.same, h1.same]

theorem NotesMore.type (h : w.NotesMore w') (id : TypeId) : w'.type id = w.type id := by
  rw [h.same]
  rfl

theorem NotesMore.isPending (h : w.NotesMore w') (id : TypeId) : w'.isPending id = w.isPending id := by
  rw [h.same]
  rfl

theorem noteReferrer_notesMore (ref : Referrer) (comp : TypeId) : w.NotesMore (noteReferrer ref w comp) := by
  rw [noteReferrer]
  split
  · refine ⟨rfl, fun id => ?_⟩
    simp only [noted, Table.find?_insert]
    split
    · next h =>
      subst h
      simp
    · exact List.Subset.refl _
  · exact .refl w

theorem mem_noted_noteReferrer (h : w.isPending comp) : ref ∈ (noteReferrer ref w comp).noted comp := by
  rw [noteReferrer, h]
  split
  · simp [noted]
  · next hn => simpa using hn

theorem noteReferrers_notesMore (ref : Referrer) (comps : List TypeId) : w.NotesMore (w.noteReferrers ref comps) := by
  induction comps generalizing w with
  | nil => exact .refl w
  | cons comp comps ih => exact (noteReferrer_notesMore ref comp).trans ih

theorem mem_noted_noteReferrers {comps : List TypeId} (hm : comp ∈ comps) (h : w.isPending comp) :
    ref ∈ (w.noteReferrers ref comps).noted comp := by
  induction comps generalizing w with
  | nil => cases hm
  | cons first comps ih =>
    have hmo := noteReferrer_notesMore (w := w) ref first
    obtain rfl | hm := List.mem_cons.1 hm
    · exact (noteReferrers_notesMore ref comps).noted _ (mem_noted_noteReferrer h)
    · exact ih hm (by rw [hmo.isPending, h])

end World

theorem TypeId.swap_swap (src tgt id : TypeId) :
    TypeId.swap src tgt (TypeId.swap src tgt id) = TypeId.swap src tgt id := by
  grind [TypeId.swap]

theorem TypeInfo.swap_swap (src target : TypeId) (type : TypeInfo) :
    (type.swap src target).swap src target = type.swap src target := by
  have hc : TypeId.swap src target ∘ TypeId.swap src target = TypeId.swap src target :=
    funext (TypeId.swap_swap src target)
  cases type <;> simp [swap, TypeId.swap_swap, hc]

namespace World

variable {w : World} {hole tgt : TypeId} {name : QName} {α : Type}

theorem foldl_patch_with (referrers : List Referrer) : ∃ types methods fields,
      referrers.foldl (patch hole tgt) w = { w with types, methods, fields } := by
  induction referrers generalizing w with
  | nil => exact ⟨w.types, w.methods, w.fields, rfl⟩
  | cons ref referrers ih =>
    obtain ⟨types, methods, fields, h⟩ := ih (w := patch hole tgt w ref)
    rw [List.foldl_cons, h]
    cases ref <;> exact ⟨types, methods, fields, rfl⟩

theorem type_patch (ref : Referrer) (id : TypeId) : (patch hole tgt w ref).type id =
      if ref = .type id then (w.type id).swap hole tgt else w.type id := by
  cases ref with
  | type holder =>
    rw [patch, type_modifyType rfl]
    simp only [Referrer.type.injEq, eq_comm]
  | field holder => rfl
  | method holder => rfl

theorem size_patch (ref : Referrer) : (patch hole tgt w ref).types.size = w.types.size := by
  cases ref <;> simp [patch, modifyField, modifyMethod]

theorem size_foldl_patch (referrers : List Referrer) :
    (referrers.foldl (patch hole tgt) w).types.size = w.types.size := by
  induction referrers generalizing w with
  | nil => rfl
  | cons ref referrers ih => rw [List.foldl_cons, ih, size_patch]

theorem read_foldl_patch (read : World → α) (swap : α → α) (ref : Referrer) (hi : ∀ a, swap (swap a) = swap a)
    (hp : ∀ w other, read (patch hole tgt w other) =
      if other = ref then swap (read w) else read w) (referrers : List Referrer) :
    read (referrers.foldl (patch hole tgt) w) = if ref ∈ referrers then swap (read w) else read w := by
  induction referrers generalizing w with
  | nil => simp
  | cons first referrers ih =>
    rw [List.foldl_cons, ih, hp]
    simp only [List.mem_cons, eq_comm (a := ref)]
    by_cases hf : first = ref <;> by_cases hr : ref ∈ referrers <;> simp [hf, hr, hi]

theorem type_foldl_patch (referrers : List Referrer) (id : TypeId) : (referrers.foldl (patch hole tgt) w).type id =
      if .type id ∈ referrers then (w.type id).swap hole tgt else w.type id :=
  read_foldl_patch (·.type id) (.swap hole tgt) (.type id)
    (swap_swap hole tgt) (fun w other => type_patch (w := w) other id) referrers

theorem swapPlaceholder_pending (h : w.type hole = .placeholder name none) : w.swapPlaceholder hole tgt =
      (w.noted hole).foldl (patch hole tgt) (w.settle hole tgt) := by
  rw [swapPlaceholder, h]

theorem swapPlaceholder_with (tgt : TypeId) (h : w.type hole = .placeholder name none) :
    ∃ types methods fields, w.swapPlaceholder hole tgt = { w.settle hole tgt with types, methods, fields } := by
  rw [swapPlaceholder_pending h]
  exact foldl_patch_with _

theorem modifiers_patch (ref : Referrer) (id : FieldId) :
    ((patch hole tgt w ref).field id).modifiers = (w.field id).modifiers := by
  cases ref with
  | field holder => exact read_modify _ _ _ _ fun _ => rfl
  | type | method => rfl

theorem modifiers_swapPlaceholder (h : w.type hole = .placeholder name none) (id : FieldId) :
    ((w.swapPlaceholder hole tgt).field id).modifiers = (w.field id).modifiers := by
  rw [swapPlaceholder_pending h]
  exact List.foldlRecOn (motive := fun w' : World => (w'.field id).modifiers = (w.field id).modifiers) _ _ rfl
    fun w' hw' ref _ => (modifiers_patch ref id).trans hw'

theorem typeVariables_patch (ref : Referrer) (id : MethodId) :
    ((patch hole tgt w ref).method id).typeVariables = (w.method id).typeVariables := by
  cases ref with
  | method holder => exact read_modify _ _ _ _ fun _ => rfl
  | type | field => rfl

section

variable (h : w.type hole = .placeholder name none)

include h

theorem typeVariables_swapPlaceholder (id : MethodId) :
    ((w.swapPlaceholder hole tgt).method id).typeVariables = (w.method id).typeVariables := by
  rw [swapPlaceholder_pending h]
  exact List.foldlRecOn (motive := fun w' : World => (w'.method id).typeVariables = (w.method id).typeVariables) _ _ rfl
    fun w' hw' ref _ => (typeVariables_patch ref id).trans hw'

theorem size_swapPlaceholder :
    (w.swapPlaceholder hole tgt).types.size = w.types.size := by
  rw [swapPlaceholder_pending h, size_foldl_patch]
  exact size_modifyType ..

theorem type_settle (id : TypeId) : (w.settle hole tgt).type id =
      if id = hole then .placeholder name (some tgt) else w.type id := by
  have hr : (w.settle hole tgt).type id = (w.modifyType hole (.setTarget tgt)).type id := rfl
  rw [hr, type_modifyType rfl]
  split
  · next hid => rw [hid, h, setTarget]
  · rfl

theorem type_swapPlaceholder (id : TypeId) :
    (w.swapPlaceholder hole tgt).type id = if id = hole then .placeholder name (some tgt)
      else if .type id ∈ w.noted hole then (w.type id).swap hole tgt else w.type id := by
  rw [swapPlaceholder_pending h, type_foldl_patch, type_settle h]
  by_cases hid : id = hole
  · simp [hid, swap]
  · simp [hid]

end

theorem read_swapPlaceholder (read : TypeInfo → α) (h : w.type hole = .placeholder name none)
    (hr : ∀ info : TypeInfo, read (info.swap hole tgt) = read info) (id : TypeId) :
    read ((w.swapPlaceholder hole tgt).type id) =
      if id = hole then read (.placeholder name (some tgt)) else read (w.type id) := by
  rw [type_swapPlaceholder h]
  split
  · rfl
  split
  · exact hr _
  · rfl

theorem countTypes_swapPlaceholder (h : w.type hole = .placeholder name none)
    (ht : ∀ info : TypeInfo, test (info.swap hole tgt) = test info) :
    (w.swapPlaceholder hole tgt).countTypes test = (w.modifyType hole (.setTarget tgt)).countTypes test := by
  have hp : ∀ (referrers : List Referrer) (w : World),
      (referrers.foldl (patch hole tgt) w).countTypes test = w.countTypes test := by
    intro referrers
    induction referrers with
    | nil => exact fun _ => rfl
    | cons ref referrers ih =>
      intro w
      rw [List.foldl_cons, ih]
      cases ref with
      | type id => exact countTypes_modifyType (ht _)
      | field id => rfl
      | method id => rfl
  rw [swapPlaceholder_pending h, hp]
  rfl

end World

end Bindings
