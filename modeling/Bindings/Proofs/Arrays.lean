import Bindings.Proofs.Erasure

/-!
# Arrays

A type is told by its leaf and its dimensions, and building an array adds to the dimensions.
-/

namespace Bindings

open TypeInfo World Edit

variable {w u : World} {id other comp : TypeId} {dims : UInt32}

namespace World

def dimsOf (w : World) (id : TypeId) : UInt32 :=
  match w.type id with
  | .array _ dimensions => dimensions
  | _ => 0

theorem type_of_dimsOf (h : w.dimsOf id ≠ 0) : w.type id = .array (w.leafOf id) (w.dimsOf id) := by
  cases ht : w.type id with
  | array leaf dims => rw [leafOf, dimsOf, ht]
  | _ => simp [dimsOf, ht] at h

theorem Formed.leafOf_eq_self (hf : w.Formed) (h : w.dimsOf id = 0) : w.leafOf id = id := by
  cases ht : w.type id with
  | array leaf dims =>
    have hn := hf.normal id
    rw [ht] at hn
    rw [dimsOf, ht] at h
    exact absurd h hn
  | _ => rw [leafOf, ht]

theorem dimsOf_leafOf (hw : w.Sound) (id : TypeId) : w.dimsOf (w.leafOf id) = 0 := by
  by_contra hne
  have ht := type_of_dimsOf hne
  have hl := hw.wellBuilt.leaf _ _ _ ht
  rw [leafOf_leafOf hw, ht] at hl
  cases hl

theorem Keeps.dimsOf (h : w.Keeps u) (hid : w.Knows id) : u.dimsOf id = w.dimsOf id := by
  rw [World.dimsOf, World.dimsOf]
  obtain ht | ⟨_, _, ho, hn, -⟩ := h.type_cases hid
  · rw [ht]
  · rw [ho, hn]

theorem eq_of_dimsOf (hw : w.Sound) (hf : w.Formed) (hl : w.leafOf id = w.leafOf other)
    (hd : w.dimsOf id = w.dimsOf other) : id = other := by
  by_cases hz : w.dimsOf id = 0
  · rw [← hf.leafOf_eq_self hz, hl, hf.leafOf_eq_self (hd ▸ hz)]
  have ht := type_of_dimsOf hz
  refine hw.wellBuilt.unique id other (by rw [ht]; rfl) ?_
  rw [ht, type_of_dimsOf (hd ▸ hz), hl, hd]

end World

theorem arrayType_dimsOf (hw : w.Sound) (hc : w.Knows comp) (dims : UInt32) :
    (arrayType comp dims).Gives w fun array u => u.dimsOf array = w.dimsOf comp + dims := by
  have ha : arrayType comp dims w = (if w.dimsOf comp + dims = 0 then pure (w.leafOf comp)
      else arrayOf (w.leafOf comp) (w.dimsOf comp + dims) : Edit TypeId) w := by
    rw [arrayType, Edit.bind_apply, Edit.get_apply]
    cases ht : w.type comp with
    | array leaf inner => rw [leafOf, World.dimsOf, ht]
    | _ => rw [leafOf, World.dimsOf, ht, UInt32.zero_add]
  rw [Gives, ha]
  split
  · next hz => exact (dimsOf_leafOf hw comp).trans hz.symm
  · rw [World.dimsOf, arrayOf_type hw (knows_leafOf hw hc)]

structure World.Extended (w : World) (leaf : TypeId) (dims : UInt32) (id : TypeId) (u : World) : Prop where
  sound : u.Sound
  formed : u.Formed
  keeps : w.Keeps u
  knows : u.Knows id
  leafOf : u.leafOf id = leaf
  dimsOf : u.dimsOf id = dims

theorem arrayType_extended (hw : w.Sound) (hf : w.Formed) (hc : w.Knows comp) (dims : UInt32) :
    (arrayType comp dims).Gives w (w.Extended (w.leafOf comp) (w.dimsOf comp + dims)) :=
  have hco : Course none none w (arrayType comp dims w).2 := Orderly.course w hw
  ⟨hco.sound hw, hco.formed hw hf, (Furthering.furthers w hw).toKeeps, arrayType_knows hw hc dims,
    Query.arrayType_leafOf hw hc dims, arrayType_dimsOf hw hc dims⟩

/-- A type with that leaf and those dimensions is there already, so it is the one that is given. -/
theorem arrayType_eq (hw : w.Sound) (hf : w.Formed) (hc : w.Knows comp) (hid : w.Knows id)
    (hl : w.leafOf id = w.leafOf comp) (hd : w.dimsOf id = w.dimsOf comp + dims) :
    (arrayType comp dims w).1 = id := by
  have h := arrayType_extended hw hf hc dims
  refine eq_of_dimsOf h.sound h.formed ?_ ?_
  · rw [h.leafOf, h.keeps.leafOf hid, hl]
  · rw [h.dimsOf, h.keeps.dimsOf hid, hd]

theorem arrayComponent_extended (hw : w.Sound) (hf : w.Formed) (hid : w.Knows id) (hd : w.dimsOf id ≠ 0) :
    (Query.arrayComponent id).Gives w fun res u => ∃ comp, res = some comp ∧
      w.Extended (w.leafOf id) (w.dimsOf id - 1) comp u := by
  have h := arrayType_extended hw hf (knows_leafOf hw hid) (w.dimsOf id - 1)
  rw [dimsOf_leafOf hw, leafOf_leafOf hw, UInt32.zero_add] at h
  rw [Gives, Query.arrayComponent, Edit.bind_apply, Edit.get_apply, type_of_dimsOf hd]
  exact ⟨_, rfl, h⟩

/-- Building an array of an array gives the very type that all dimensions at once give, whichever is built first, and
the component of an array is the type with one dimension less. -/
theorem World.Reachable.arrayType_flattens (h : w.Reachable) (hid : w.Knows id) :
    (∀ a b : UInt32,
      (let inner := arrayType id a w
       let outer := arrayType inner.1 b inner.2
       (arrayType id (a + b) outer.2).1 = outer.1) ∧
      (let whole := arrayType id (a + b) w
       let inner := arrayType id a whole.2
       (arrayType inner.1 b inner.2).1 = whole.1)) ∧
    ∀ d : UInt32, 1 ≤ d → (w.dimsOf id).toNat + d.toNat < 2 ^ 32 →
      (let array := arrayType id d w
       let component := Query.arrayComponent array.1 array.2
       component.1 = some (arrayType id (d - 1) component.2).1) ∧
      (let less := arrayType id (d - 1) w
       let array := arrayType id d less.2
       (Query.arrayComponent array.1 array.2).1 = some less.1) := by
  have hw := h.sound
  have hf := h.formed
  refine ⟨fun a b => ⟨?_, ?_⟩, fun d hd hlt => ?_⟩
  · have h1 := arrayType_extended hw hf hid a
    have h2 := arrayType_extended h1.sound h1.formed h1.knows b
    have hk := h1.keeps.trans h2.keeps
    refine arrayType_eq h2.sound h2.formed (hk.knows hid) h2.knows ?_ ?_
    · rw [h2.leafOf, h1.leafOf, hk.leafOf hid]
    · rw [h2.dimsOf, h1.dimsOf, hk.dimsOf hid, UInt32.add_assoc]
  · have h1 := arrayType_extended hw hf hid (a + b)
    have h2 := arrayType_extended h1.sound h1.formed (h1.keeps.knows hid) a
    refine arrayType_eq h2.sound h2.formed h2.knows (h2.keeps.knows h1.knows) ?_ ?_
    · rw [h2.leafOf, h2.keeps.leafOf h1.knows, h1.leafOf, h1.keeps.leafOf hid]
    · rw [h2.dimsOf, h2.keeps.dimsOf h1.knows, h1.dimsOf, h1.keeps.dimsOf hid, UInt32.add_assoc]
  · have hn : w.dimsOf id + d ≠ 0 := by
      intro hz
      have := congrArg UInt32.toNat hz
      rw [UInt32.toNat_add, Nat.mod_eq_of_lt hlt] at this
      simp [UInt32.le_iff_toNat_le] at this hd
      omega
    have hsub : w.dimsOf id + d - 1 = w.dimsOf id + (d - 1) := by
      rw [UInt32.sub_eq_add_neg, UInt32.sub_eq_add_neg, UInt32.add_assoc]
    constructor
    · have h1 := arrayType_extended hw hf hid d
      obtain ⟨component, hc, h2⟩ := arrayComponent_extended h1.sound h1.formed h1.knows (by rwa [h1.dimsOf])
      have hk := h1.keeps.trans h2.keeps
      refine hc.trans (congrArg some (arrayType_eq h2.sound h2.formed (hk.knows hid) h2.knows ?_ ?_).symm)
      · rw [h2.leafOf, h1.leafOf, hk.leafOf hid]
      · rw [h2.dimsOf, h1.dimsOf, hk.dimsOf hid, hsub]
    · have h1 := arrayType_extended hw hf hid (d - 1)
      have h2 := arrayType_extended h1.sound h1.formed (h1.keeps.knows hid) d
      have hd2 : (arrayType id d (arrayType id (d - 1) w).2).2.dimsOf _ = w.dimsOf id + d :=
        h2.dimsOf.trans (by rw [h1.keeps.dimsOf hid])
      obtain ⟨component, hc, h3⟩ := arrayComponent_extended h2.sound h2.formed h2.knows (by rwa [hd2])
      have hk := h2.keeps.trans h3.keeps
      refine hc.trans (congrArg some (eq_of_dimsOf h3.sound h3.formed ?_ ?_))
      · rw [h3.leafOf, h2.leafOf, h1.keeps.leafOf hid, hk.leafOf h1.knows, h1.leafOf]
      · rw [h3.dimsOf, hd2, hk.dimsOf h1.knows, h1.dimsOf, hsub]

/-- The array was built on a placeholder of its leaf. -/
theorem arrayType_flattens_item :
    itemWorld.type ⟨11⟩ = .placeholder ⟨["p", "Item"]⟩ (some ⟨13⟩) ∧ itemWorld.type ⟨12⟩ = .array ⟨13⟩ 1 ∧
      (let inner := arrayType ⟨12⟩ 1 itemWorld
       let outer := arrayType inner.1 1 inner.2
       (arrayType ⟨12⟩ 2 outer.2).1 = outer.1) ∧
      (let array := arrayType ⟨12⟩ 1 itemWorld
       let component := Query.arrayComponent array.1 array.2
       component.1 = some (arrayType ⟨12⟩ 0 component.2).1) := by
  have hread : 12 < itemWorld.types.size ∧ itemWorld.dimsOf ⟨12⟩ = 1 := by decide +kernel
  obtain ⟨hknown, hdims⟩ := hread
  have hitem := @World.Reachable.arrayType_flattens itemWorld ⟨12⟩ reachable_itemWorld hknown
  exact ⟨by decide +kernel, by decide +kernel, (hitem.1 1 1).1, (hitem.2 1 (by decide) (by rw [hdims]; decide)).1⟩

end Bindings
