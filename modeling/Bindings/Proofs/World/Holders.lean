import Bindings.Proofs.World.Growth

/-! # Holders of placeholders -/

namespace Bindings

def ClassInfo.supertypes (info : ClassInfo) : List TypeId :=
  info.superclass.toList ++ info.interfaces

def ClassInfo.slots (info : ClassInfo) : List TypeId := info.supertypes ++ info.enclosing.toList

@[simp] def VariableInfo.slots (info : VariableInfo) : List TypeId :=
  info.firstBound.toList ++ info.superclass.toList ++ info.interfaces

@[simp] def CaptureInfo.slots (info : CaptureInfo) : List TypeId := info.upperBounds ++ info.lowerBound.toList

@[simp] def TypeInfo.slots : TypeInfo → List TypeId
  | declared info => info.slots
  | .variable info => info.slots
  | capture info => info.slots
  | info => info.components

@[simp] def MethodInfo.slots (info : MethodInfo) : List TypeId := info.params ++ info.result :: info.thrown

def TypeInfo.isCapture : TypeInfo → Bool
  | capture _ => true
  | _ => false

inductive Upkeep where
  | atOnce
  | whenFilled
  | never
  deriving DecidableEq, Repr

def TypeInfo.upkeep (info : TypeInfo) : Upkeep := if info.isCapture then .never else .atOnce

def MethodInfo.upkeep (info : MethodInfo) : Upkeep :=
  match info.origin with
  | .arrayClone => .never
  | .view .. => .whenFilled
  | _ => .atOnce

section

variable {src tgt : TypeId}

theorem TypeInfo.slots_swap (info : TypeInfo) : (info.swap src tgt).slots = info.slots.map (.swap src tgt) := by
  cases info <;>
    simp [swap, ClassInfo.slots, ClassInfo.supertypes, Option.toList_map]

theorem TypeInfo.upkeep_swap (info : TypeInfo) : (info.swap src tgt).upkeep = info.upkeep := by
  cases info <;> rfl

theorem TypeInfo.slots_of_isConstructed {info : TypeInfo} (h : info.isConstructed) : info.slots = info.components := by
  cases info <;> first | rfl | cases h

theorem MethodInfo.slots_swap (info : MethodInfo) : (info.swap src tgt).slots = info.slots.map (.swap src tgt) := by
  simp [swap]

theorem notMem_map_swap (hne : tgt ≠ src) (slots : List TypeId) : src ∉ slots.map (.swap src tgt) := by
  intro hm
  obtain ⟨old, -, ho⟩ := List.mem_map.1 hm
  rw [TypeId.swap] at ho
  split at ho
  · exact hne ho
  · contradiction

end

namespace World

variable {w w' : World} {comps : List TypeId} {exempt : Referrer → Prop} {id : TypeId} {ref : Referrer}
  {w1 w2 : World}

def Knows (w : World) (id : TypeId) : Prop := id.index < w.types.size

theorem Knows.grows (hg : w.Grows w') (h : w.Knows id) : w'.Knows id := Nat.lt_of_lt_of_le h hg.size

theorem Denotes.knows {name : QName} (h : w.Denotes name id) : w.Knows id := lt_size_of_role_ne (by rw [h.role]; simp)

def method? (w : World) (id : MethodId) : Option MethodInfo := w.methods[id.index]?

def field? (w : World) (id : FieldId) : Option FieldInfo := w.fields[id.index]?

theorem method_eq (id : MethodId) : w.method id = (w.method? id).getD default := by
  rw [method, Array.getD_eq_getD_getElem?, method?]

theorem field_eq (id : FieldId) : w.field id = (w.field? id).getD default := by
  rw [field, Array.getD_eq_getD_getElem?, field?]

def held (w : World) : Referrer → List TypeId
  | .type id => (w.type id).slots
  | .field id => ((w.field? id).map (·.type)).toList
  | .method id => ((w.method? id).map (·.slots)).getD []

theorem held_method_subset (id : MethodId) : w.held (.method id) ⊆ (w.method id).slots := by
  rw [held, method_eq]
  cases w.method? id with
  | none => exact List.nil_subset _
  | some info => exact List.Subset.refl _

def upkeep (w : World) : Referrer → Upkeep
  | .type id => (w.type id).upkeep
  | .field _ => .atOnce
  | .method id => ((w.method? id).map (·.upkeep)).getD .atOnce

def Stocked (w : World) : Prop := ∀ referrer, ∀ slot ∈ w.held referrer, w.Knows slot

/-- A referrer may hold a type of the world, and a pending placeholder if it is noted for it or never
is. -/
def MayHold (w : World) (referrer : Referrer) (id : TypeId) : Prop :=
  w.Knows id ∧ (w.isPending id → referrer ∈ w.noted id ∨ w.upkeep referrer = .never)

/-- Whatever holds a pending placeholder is noted for it, except for what is never noted and some of what
is still to be filled in. -/
def Traced (w : World) (exempt : Referrer → Prop) : Prop :=
  ∀ referrer, ∀ slot ∈ w.held referrer, w.isPending slot →
    referrer ∈ w.noted slot ∨ w.upkeep referrer = .never ∨
      w.upkeep referrer = .whenFilled ∧ exempt referrer

theorem Traced.mono {exempt' : Referrer → Prop} (hw : w.Traced exempt)
    (h : ∀ ref, exempt ref → exempt' ref) : w.Traced exempt' :=
  fun ref slot hs hp => (hw ref slot hs hp).imp_right (.imp_right (.imp_right (h ref)))

structure Minds (w w' : World) : Prop where
  size : w.types.size ≤ w'.types.size
  pending : ∀ id, w.Knows id → w'.isPending id → w.isPending id ∧ w.noted id ⊆ w'.noted id
  upkeep : ∀ referrer, w.upkeep referrer ≠ .atOnce → w'.upkeep referrer = w.upkeep referrer

structure Watches (w w' : World) : Prop extends w.Minds w' where
  held : ∀ referrer, ∀ slot ∈ w'.held referrer, slot ∈ w.held referrer ∨ w'.MayHold referrer slot

theorem MayHold.minds (h : w.MayHold ref id) (hmi : w.Minds w') : w'.MayHold ref id := by
  refine ⟨Nat.lt_of_lt_of_le h.1 hmi.size, fun hp => ?_⟩
  obtain ⟨hp, hn⟩ := hmi.pending id h.1 hp
  refine (h.2 hp).imp (fun hm => hn hm) fun hne => ?_
  rw [hmi.upkeep ref (by simp [hne]), hne]

theorem Minds.trans (h1 : w.Minds w1) (h2 : w1.Minds w2) : w.Minds w2 where
  size := Nat.le_trans h1.size h2.size
  pending id hid hp := by
    obtain ⟨hp, hn2⟩ := h2.pending id (Nat.lt_of_lt_of_le hid h1.size) hp
    obtain ⟨hp, hn1⟩ := h1.pending id hid hp
    exact ⟨hp, List.Subset.trans hn1 hn2⟩
  upkeep ref hu := by
    have hs := h1.upkeep ref hu
    rw [h2.upkeep ref (hs ▸ hu), hs]

theorem Watches.trans (h1 : w.Watches w1) (h2 : w1.Watches w2) : w.Watches w2 where
  toMinds := h1.toMinds.trans h2.toMinds
  held ref slot hs := by
    obtain hm | hn := h2.held ref slot hs
    · exact (h1.held ref slot hm).imp_right (·.minds h2.toMinds)
    · exact .inr hn

theorem Watches.stocked (h : w.Watches w') (hw : w.Stocked) : w'.Stocked := by
  intro ref slot hs
  obtain ho | hn := h.held ref slot hs
  · exact Nat.lt_of_lt_of_le (hw ref slot ho) h.size
  · exact hn.1

theorem Watches.traced (h : w.Watches w') (hst : w.Stocked) (hw : w.Traced exempt) : w'.Traced exempt := by
  intro ref slot hs hp
  obtain ho | hn := h.held ref slot hs
  · obtain ⟨hp, hno⟩ := h.pending slot (hst ref slot ho) hp
    obtain hm | hne | ⟨hl, he⟩ := hw ref slot ho hp
    · exact .inl (hno hm)
    · exact .inr (.inl (by rw [h.upkeep ref (by simp [hne]), hne]))
    · exact .inr (.inr ⟨by rw [h.upkeep ref (by simp [hl]), hl], he⟩)
  · exact (hn.2 hp).imp_right .inl

theorem mayHold_noteReferrers (hid : w.Knows id) (hm : id ∈ comps) : (w.noteReferrers ref comps).MayHold ref id := by
  have hmo := noteReferrers_notesMore (w := w) ref comps
  refine ⟨?_, fun hp => .inl (mem_noted_noteReferrers hm (hmo.isPending id ▸ hp))⟩
  rw [hmo.same]
  exact hid

theorem noteReferrers_comm (change : World → World) (ref : Referrer)
    (hr : ∀ w table, change { w with referrers := table } = { change w with referrers := table })
    (hs : (change w).referrers = w.referrers)
    (hp : ∀ id ∈ comps, (change w).isPending id = w.isPending id) :
    (change w).noteReferrers ref comps = change (w.noteReferrers ref comps) := by
  induction comps generalizing w with
  | nil => rfl
  | cons comp comps ih =>
    have hst : noteReferrer ref (change w) comp = change (noteReferrer ref w comp) := by
      rw [noteReferrer, noteReferrer, hp comp (.head _), noted, noted, hs]
      split
      · exact (hr w _).symm
      · rfl
    have hm := noteReferrer_notesMore (w := w) ref comp
    have hn := hr w (noteReferrer ref w comp).referrers
    rw [noteReferrers, List.foldl_cons, hst]
    refine ih ?_ fun id hid => ?_
    · rw [hm.same]
      exact (congrArg World.referrers hn).trans rfl
    · rw [hm.isPending, ← hp id (.tail _ hid), hm.same]
      exact (congrArg (World.isPending · id) hn).trans rfl

section

variable {hole tgt : TypeId} {name : QName}

theorem isPending_iff : w.isPending id ↔ ∃ name, w.type id = .placeholder name none := by
  rw [isPending]
  cases w.type id with
  | placeholder name tgt => cases tgt <;> simp
  | _ => simp

theorem method?_modifyMethod (id : MethodId) (change : MethodInfo → MethodInfo) (other : MethodId) :
    (w.modifyMethod id change).method? other =
      if id = other then (w.method? other).map change else w.method? other := by
  cases id
  cases other
  simp [method?, modifyMethod, Array.getElem?_modify]

theorem field?_modifyField (id : FieldId) (change : FieldInfo → FieldInfo) (other : FieldId) :
    (w.modifyField id change).field? other = if id = other then (w.field? other).map change else w.field? other := by
  cases id
  cases other
  simp [field?, modifyField, Array.getElem?_modify]

theorem held_patch (other referrer : Referrer) : (patch hole tgt w other).held referrer =
      if other = referrer then (w.held referrer).map (.swap hole tgt) else w.held referrer := by
  cases referrer with
  | type id =>
    rw [held, held, type_patch]
    split
    · exact TypeInfo.slots_swap _
    · rfl
  | field id =>
    cases other with
    | field other =>
      simp only [held, patch, field?_modifyField, Referrer.field.injEq]
      split
      · cases w.field? id <;> rfl
      · rfl
    | type | method => rfl
  | method id =>
    cases other with
    | method other =>
      simp only [held, patch, method?_modifyMethod, Referrer.method.injEq]
      split
      · cases w.method? id with
        | none => rfl
        | some info => exact MethodInfo.slots_swap info
      · rfl
    | type | field => rfl

theorem upkeep_patch (other referrer : Referrer) : (patch hole tgt w other).upkeep referrer = w.upkeep referrer := by
  cases referrer with
  | type id =>
    rw [upkeep, upkeep, type_patch]
    split
    · exact TypeInfo.upkeep_swap _
    · rfl
  | field id => rfl
  | method id =>
    cases other with
    | method other =>
      simp only [upkeep, patch, method?_modifyMethod]
      split
      · cases w.method? id <;> rfl
      · rfl
    | type | field => rfl

theorem held_swapPlaceholder (hp : w.type hole = .placeholder name none) (referrer : Referrer) :
    (w.swapPlaceholder hole tgt).held referrer = if referrer ∈ w.noted hole then (w.held referrer).map (.swap hole tgt)
      else w.held referrer := by
  have hs : (w.settle hole tgt).held referrer = w.held referrer := by
    cases referrer with
    | type id =>
      rw [held, held, type_settle hp]
      split
      · next heq => rw [heq, hp]; rfl
      · rfl
    | field | method => rfl
  rw [swapPlaceholder_pending hp, ← hs]
  refine read_foldl_patch (·.held referrer) (List.map (.swap hole tgt)) referrer ?_ ?_ _
  · intro slots
    rw [List.map_map]
    exact List.map_congr_left fun id _ => TypeId.swap_swap hole tgt id
  · exact fun w other => held_patch other referrer

theorem upkeep_swapPlaceholder (hp : w.type hole = .placeholder name none) (referrer : Referrer) :
    (w.swapPlaceholder hole tgt).upkeep referrer = w.upkeep referrer := by
  have hs : (w.settle hole tgt).upkeep referrer = w.upkeep referrer := by
    cases referrer with
    | type id =>
      rw [upkeep, upkeep, type_settle hp]
      split
      · next heq => rw [heq, hp]; rfl
      · rfl
    | field | method => rfl
  rw [swapPlaceholder_pending hp, ← hs]
  exact List.foldlRecOn (motive := fun w' : World => w'.upkeep referrer = _) _ _ rfl
    fun w' hw' other _ => (upkeep_patch other referrer).trans hw'

theorem watches_swapPlaceholder (hp : w.type hole = .placeholder name none)
    (hlt : w.Knows tgt) (ht : w.isPending tgt = false) :
    w.Watches (w.swapPlaceholder hole tgt) where
  size := Nat.le_of_eq (size_swapPlaceholder hp).symm
  pending id _ hid := by
    rw [WellBuilt.isPending_swap hp, Bool.and_eq_true, decide_eq_true_eq] at hid
    obtain ⟨types, methods, fields, hw⟩ := swapPlaceholder_with tgt hp
    refine ⟨hid.1, ?_⟩
    simp [World.noted, hw, World.settle, hid.2]
  upkeep ref _ := upkeep_swapPlaceholder hp ref
  held ref slot hs := by
    rw [held_swapPlaceholder hp] at hs
    split at hs
    · obtain ⟨old, ho, rfl⟩ := List.mem_map.1 hs
      rw [TypeId.swap]
      split
      · refine .inr ⟨?_, fun h => ?_⟩
        · rw [Knows, size_swapPlaceholder hp]
          exact hlt
        · simp [WellBuilt.isPending_swap hp, ht] at h
      · exact .inl ho
    · exact .inl hs

end

end World

end Bindings
