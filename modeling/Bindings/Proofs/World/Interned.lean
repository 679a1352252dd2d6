import Bindings.Constructed
import Bindings.Proofs.World.Reading

/-! # Constructed types are unique -/

namespace Bindings

open TypeInfo

variable {id : TypeId} {ids : List TypeId}

inductive CacheKey where
  | array (leaf : TypeId)
  | parameterized (generic : TypeId)
  | raw (generic : TypeId)
  | wildcard (generic : Option TypeId)
  deriving DecidableEq

def CacheKey.swap (source target : TypeId) : CacheKey → CacheKey
  | array leaf => array (.swap source target leaf)
  | parameterized generic => parameterized (.swap source target generic)
  | raw generic => raw (.swap source target generic)
  | wildcard generic => wildcard (generic.map (.swap source target))

def Caches.listed (caches : Caches) : CacheKey → List TypeId
  | .array leaf => (caches.arrays.find? leaf).getD []
  | .parameterized generic => (caches.parameterized.find? generic).getD []
  | .raw generic => (caches.raw.find? generic).getD []
  | .wildcard generic => (caches.wildcards.find? generic).getD []

namespace TypeInfo

def cacheKey? : TypeInfo → Option CacheKey
  | array leaf _ => some (.array leaf)
  | parameterized generic _ _ => some (.parameterized generic)
  | raw generic _ => some (.raw generic)
  | wildcard info => some (.wildcard info.generic)
  | _ => none

def isConstructed (info : TypeInfo) : Bool := info.cacheKey?.isSome

def isArray : TypeInfo → Bool
  | array .. => true
  | _ => false

def IsNormal : TypeInfo → Prop
  | array _ dimensions => dimensions ≠ 0
  | wildcard info => info.kind = .unbounded → info.bound = none
  | «variable» info => ∀ first ∈ info.firstBound, first ∈ info.superclass.toList ++ info.interfaces
  | _ => True

@[simp] def components : TypeInfo → List TypeId
  | array leaf _ => [leaf]
  | parameterized generic arguments enclosing => arguments ++ generic :: enclosing.toList
  | raw generic enclosing => generic :: enclosing.toList
  | wildcard info => info.generic.toList ++ info.bound.toList ++ info.otherBounds
  | _ => []

end TypeInfo

structure World.Interned (w : World) : Prop where
  unique : ∀ a b, (w.type a).isConstructed → w.type a = w.type b → a = b
  listed : ∀ id key, (w.caches.listed key).count id = if (w.type id).cacheKey? = some key then 1 else 0
  leaf : ∀ id leaf dimensions, w.type id = .array leaf dimensions → (w.type leaf).isArray = false
  misses : w.stats.cacheMisses = w.countTypes isConstructed

/-- Constructed types are made once, out of known types, and hold no pending placeholder without
being noted. -/
structure World.WellBuilt (w : World) : Prop extends w.Interned where
  known : ∀ id component, component ∈ (w.type id).components → component.index < w.types.size
  noted : ∀ id component, component ∈ (w.type id).components → w.isPending component →
    .type id ∈ w.noted component

def TypeInfo.SameBuild (a b : TypeInfo) : Prop :=
  b = a ∨ a.isConstructed = false ∧ b.isConstructed = false

namespace TypeInfo.SameBuild

variable {a b : TypeInfo}

theorem cacheKey? (h : a.SameBuild b) : b.cacheKey? = a.cacheKey? := by
  obtain rfl | ⟨ha, hb⟩ := h
  · rfl
  · simp only [isConstructed, Option.isSome_eq_false_iff, Option.isNone_iff_eq_none] at ha hb
    rw [ha, hb]

theorem isConstructed (h : a.SameBuild b) : b.isConstructed = a.isConstructed := by
  simp only [TypeInfo.isConstructed, h.cacheKey?]

theorem eq_of_isConstructed (h : a.SameBuild b) (hb : b.isConstructed) : b = a := by
  obtain rfl | ⟨-, hb'⟩ := h
  · rfl
  · rw [hb'] at hb
    cases hb

end TypeInfo.SameBuild

theorem TypeInfo.components_eq_nil {info : TypeInfo} (h : info.isConstructed = false) : info.components = [] := by
  cases info <;> simp_all [isConstructed, cacheKey?]

theorem TypeInfo.isPending_eq_false {info : TypeInfo} (h : info.isConstructed) : info.isPending = false := by
  cases info <;> simp_all [isConstructed, cacheKey?]

theorem TypeInfo.isArray_eq_false {info : TypeInfo} (h : info.isConstructed = false) : info.isArray = false := by
  cases info <;> simp_all [isConstructed, cacheKey?, isArray]

theorem TypeInfo.SameBuild.components {a b : TypeInfo} (h : a.SameBuild b) : b.components = a.components := by
  obtain rfl | ⟨ha, hb⟩ := h
  · rfl
  · rw [components_eq_nil ha, components_eq_nil hb]

theorem TypeInfo.SameBuild.isArray {a b : TypeInfo} (h : a.SameBuild b) : b.isArray = a.isArray := by
  obtain rfl | ⟨ha, hb⟩ := h
  · rfl
  · rw [isArray_eq_false ha, isArray_eq_false hb]

namespace World.WellBuilt

variable {w w' : World}

theorem congr (h : w.WellBuilt) (ht : ∀ id, (w.type id).SameBuild (w'.type id) := by exact fun _ => .inl rfl)
    (hs : w.types.size ≤ w'.types.size := by exact Nat.le_refl _)
    (hc : w'.countTypes isConstructed = w.countTypes isConstructed := by rfl)
    (hp : ∀ id, id.index < w.types.size → w'.isPending id → w.isPending id := by exact fun _ _ h => h)
    (hl : ∀ key, w'.caches.listed key = w.caches.listed key := by exact fun _ => rfl)
    (hmi : w'.stats.cacheMisses = w.stats.cacheMisses := by rfl)
    (hn : ∀ id, w.noted id ⊆ w'.noted id := by exact fun _ => List.Subset.refl _) : w'.WellBuilt where
  unique a b ha hab := by
    have hb : (w'.type b).isConstructed := hab ▸ ha
    rw [(ht a).isConstructed] at ha
    refine h.unique a b ha ?_
    rw [← (ht a).eq_of_isConstructed (by rwa [(ht a).isConstructed]), ← (ht b).eq_of_isConstructed hb, hab]
  listed id key := by rw [hl, h.listed, (ht id).cacheKey?]
  leaf id leaf dims hid := by
    have hco : (w'.type id).isConstructed := by rw [hid]; rfl
    rw [(ht leaf).isArray]
    exact h.leaf id leaf dims (by rw [← (ht id).eq_of_isConstructed hco, hid])
  misses := by rw [hmi, hc, h.misses]
  known id comp hm := Nat.lt_of_lt_of_le (h.known id comp (by rwa [← (ht id).components])) hs
  noted id comp hm hpe := by
    rw [(ht id).components] at hm
    have hlt := h.known id comp hm
    exact hn _ (h.noted id comp hm (hp comp hlt hpe))

end World.WellBuilt

namespace World

variable {w w' : World} {info : TypeInfo}

structure Builds (w w' : World) (info : TypeInfo) (key : CacheKey) : Prop where
  cacheKey : info.cacheKey? = some key
  known : ∀ component ∈ info.components, component.index < w.types.size
  isNew : ∀ id ∈ w.caches.listed key, w.type id ≠ info
  leaf : ∀ leaf dimensions, info = .array leaf dimensions →
    (w.type leaf).isArray = false ∨ ∃ id inner, w.type id = .array leaf inner
  normal : info.IsNormal
  same : w' = { w with
    types := w'.types, caches := w'.caches, stats := w'.stats, referrers := w'.referrers }
  resolutions : w'.stats.placeholderResolutions = w.stats.placeholderResolutions
  types : w'.types = w.types.push info
  listed : ∀ other, w'.caches.listed other =
    if other = key then w.caches.listed key ++ [⟨w.types.size⟩] else w.caches.listed other
  misses : w'.stats.cacheMisses = w.stats.cacheMisses + 1
  noted : ∀ id, w.noted id ⊆ w'.noted id
  notes : ∀ component ∈ info.components, w.isPending component →
    .type ⟨w.types.size⟩ ∈ w'.noted component
  stats : w'.stats = { w.stats with cacheMisses := w'.stats.cacheMisses }

theorem Builds.isConstructed {key : CacheKey} (h : w.Builds w' info key) : info.isConstructed := by
  rw [TypeInfo.isConstructed, h.cacheKey]
  rfl

theorem type_of_push (h : w'.types = w.types.push info) (id : TypeId) :
    w'.type id = if id.index = w.types.size then info else w.type id := by
  rw [← type_addType]
  simp only [World.type, h, World.addType]

theorem isPending_of_push (h : w'.types = w.types.push info) (hi : info.isPending = false)
    (id : TypeId) (hp : w'.isPending id) : w.isPending id := by
  rw [World.isPending, type_of_push h] at hp
  split at hp
  · rw [hi] at hp
    cases hp
  · exact hp

namespace WellBuilt

variable {key : CacheKey}

theorem type_ne_of_isNew (h : w.WellBuilt) (hb : w.Builds w' info key) (id : TypeId) : w.type id ≠ info := by
  intro heq
  have hc := h.listed id key
  rw [heq, hb.cacheKey, if_pos rfl] at hc
  exact hb.isNew id (List.count_pos_iff.1 (by omega)) heq

theorem count_new (h : w.WellBuilt) (key : CacheKey) : (w.caches.listed key).count ⟨w.types.size⟩ = 0 := by
  have hv : w.type ⟨w.types.size⟩ = .base .void := type_of_size_le (Nat.le_refl _)
  rw [h.listed, hv]
  rfl

theorem leaf_of_builds (h : w.WellBuilt) (hb : w.Builds w' info key)
    {leaf : TypeId} {dims : UInt32} (hi : info = .array leaf dims) :
    (w.type leaf).isArray = false := by
  obtain hl | ⟨id, inner, hid⟩ := hb.leaf leaf dims hi
  · exact hl
  · exact h.leaf id leaf inner hid

theorem build (h : w.WellBuilt) (hbu : w.Builds w' info key) : w'.WellBuilt := by
  have ht := type_of_push hbu.types
  have hs : w'.types.size = w.types.size + 1 := by rw [hbu.types, Array.size_push]
  have hp : ∀ id, w'.isPending id → w.isPending id :=
    isPending_of_push hbu.types (isPending_eq_false hbu.isConstructed)
  -- A component lies below the new type, so it reads as before.
  have hb : ∀ {id : TypeId}, id.index < w.types.size → w'.type id = w.type id := fun hlt => by
    rw [ht, if_neg (Nat.ne_of_lt hlt)]
  refine { unique := ?_, listed := ?_, leaf := ?_, misses := ?_, known := ?_, noted := ?_ }
  · intro a b ha hab
    rw [ht, ht b] at hab
    rw [ht] at ha
    split at hab <;> split at hab <;> rename_i hia hib
    · exact TypeId.ext (hia.trans hib.symm)
    · exact absurd hab.symm (h.type_ne_of_isNew hbu b)
    · exact absurd hab (h.type_ne_of_isNew hbu a)
    · rw [if_neg hia] at ha
      exact h.unique a b ha hab
  · intro id other
    rw [hbu.listed, ht]
    by_cases hid : id.index = w.types.size
    · obtain rfl : id = ⟨w.types.size⟩ := TypeId.ext hid
      by_cases ho : other = key
      · simp [ho, h.count_new key, hbu.cacheKey]
      · simp [ho, h.count_new other, hbu.cacheKey, Ne.symm ho]
    have hne : (⟨w.types.size⟩ : TypeId) ≠ id := fun heq => hid (by rw [← heq])
    by_cases ho : other = key
    · simp [ho, hid, List.count_append, h.listed, hne]
    · simp [ho, hid, h.listed]
  · intro id leaf dims hid
    rw [ht] at hid
    split at hid
    · have hlt := hbu.known leaf (by simp [hid])
      rw [hb hlt]
      exact h.leaf_of_builds hbu hid
    have hlt := h.known id leaf (by simp [hid])
    rw [hb hlt]
    exact h.leaf id leaf dims hid
  · have hc := countTypes_addType (w := w) isConstructed info
    rw [hbu.isConstructed, if_pos rfl] at hc
    rw [hbu.misses, h.misses, ← hc]
    simp only [World.countTypes, World.addType, hbu.types]
  · intro id comp hm
    rw [hs]
    rw [ht] at hm
    split at hm
    · exact Nat.lt_succ_of_lt (hbu.known comp hm)
    · exact Nat.lt_succ_of_lt (h.known id comp hm)
  · intro id comp hm hpe
    rw [ht] at hm
    split at hm
    · next hid =>
      obtain rfl : id = ⟨w.types.size⟩ := TypeId.ext hid
      exact hbu.notes comp hm (hp comp hpe)
    · exact hbu.noted _ (h.noted id comp hm (hp comp hpe))

end WellBuilt

end World

theorem TypeId.swap_of_ne {src tgt : TypeId} (h : id ≠ src) : TypeId.swap src tgt id = id := if_neg h

theorem TypeId.swap_back {src tgt : TypeId} (h : id ≠ tgt) : TypeId.swap tgt src (TypeId.swap src tgt id) = id := by
  grind [TypeId.swap]

theorem TypeId.map_swap_of_notMem {src : TypeId} (tgt : TypeId)
    (h : src ∉ ids) : ids.map (TypeId.swap src tgt) = ids := by
  have hs : ∀ id ∈ ids, TypeId.swap src tgt id = id := fun id hid => TypeId.swap_of_ne fun heq => h (heq ▸ hid)
  rw [List.map_congr_left hs, List.map_id']

theorem TypeId.map_swap_back (src : TypeId) {tgt : TypeId} (h : tgt ∉ ids) :
    (ids.map (TypeId.swap src tgt)).map (TypeId.swap tgt src) = ids := by
  have hb : ∀ id ∈ ids, (TypeId.swap tgt src ∘ TypeId.swap src tgt) id = id := fun id hid =>
    TypeId.swap_back fun heq => h (heq ▸ hid)
  rw [List.map_map, List.map_congr_left hb, List.map_id']

namespace TypeInfo

variable {src tgt : TypeId} {info : TypeInfo}

theorem cacheKey?_swap : (info.swap src tgt).cacheKey? = info.cacheKey?.map (CacheKey.swap src tgt) := by
  cases info <;> rfl

theorem class?_swap {new : ClassInfo} :
    (info.swap src tgt).class? = some new ↔ ∃ old, info.class? = some old ∧ { old with
        superclass := old.superclass.map (.swap src tgt)
        interfaces := old.interfaces.map (.swap src tgt)
        enclosing := old.enclosing.map (.swap src tgt) } = new := by
  cases info <;> simp [swap]

theorem isConstructed_swap : (info.swap src tgt).isConstructed = info.isConstructed := by
  rw [isConstructed, cacheKey?_swap, Option.isSome_map, isConstructed]

theorem isArray_swap : (info.swap src tgt).isArray = info.isArray := by cases info <;> rfl

theorem isPending_swap : (info.swap src tgt).isPending = info.isPending := by cases info <;> rfl

theorem components_swap : (info.swap src tgt).components = info.components.map (.swap src tgt) := by
  cases info with
  | parameterized gen args encl => cases encl <;> simp [swap]
  | raw gen encl => cases encl <;> simp [swap]
  | wildcard info =>
    obtain ⟨gen, rank, bound, otherBounds, kind⟩ := info
    cases gen <;> cases bound <;> simp [swap]
  | _ => rfl

theorem swap_of_notMem (hi : info.isConstructed) (h : src ∉ info.components) : info.swap src tgt = info := by
  cases info with
  | array leaf dims => simp_all [swap, TypeId.swap_of_ne, Ne.symm]
  | parameterized gen args encl =>
    simp only [components, List.mem_append, List.mem_cons, not_or] at h
    obtain ⟨ha, hg, he⟩ := h
    cases encl <;> simp_all [swap, TypeId.swap_of_ne, TypeId.map_swap_of_notMem, Ne.symm]
  | raw gen encl => cases encl <;> simp_all [swap, TypeId.swap_of_ne, Ne.symm]
  | wildcard info =>
    obtain ⟨gen, rank, bound, otherBounds, kind⟩ := info
    cases gen <;> cases bound <;> simp_all [swap, TypeId.swap_of_ne, TypeId.map_swap_of_notMem, Ne.symm]
  | base | declared | «variable» | capture | placeholder | missing => cases hi

theorem swap_back (hi : info.isConstructed) (h : tgt ∉ info.components) : (info.swap src tgt).swap tgt src = info := by
  cases info with
  | array leaf dims => simp_all [swap, TypeId.swap_back, Ne.symm]
  | parameterized gen args encl =>
    simp only [components, List.mem_append, List.mem_cons, not_or] at h
    obtain ⟨ha, hg, he⟩ := h
    cases encl <;> simp_all [swap, TypeId.swap_back, TypeId.map_swap_back, Ne.symm, -List.map_map]
  | raw gen encl => cases encl <;> simp_all [swap, TypeId.swap_back, Ne.symm]
  | wildcard info =>
    obtain ⟨gen, rank, bound, otherBounds, kind⟩ := info
    cases gen <;> cases bound <;>
      simp_all [swap, TypeId.swap_back, TypeId.map_swap_back, Ne.symm, -List.map_map]
  | base | declared | «variable» | capture | placeholder | missing => cases hi

end TypeInfo

variable {key : CacheKey} {src : TypeId}

theorem Table.getD_find?_moveList {κ α : Type} [DecidableEq κ] {src tgt : κ}
    (h : tgt ≠ src) (table : Table κ (List α)) (key : κ) : ((table.moveList src tgt).find? key).getD [] =
      if key = tgt then (table.find? tgt).getD [] ++ (table.find? src).getD [] else if key = src then []
      else (table.find? key).getD [] := by
  rw [Table.moveList]
  cases hs : table.find? src with
  | none =>
    by_cases ht : key = tgt
    · simp [ht]
    · by_cases hk : key = src <;> simp [ht, hk, hs, Ne.symm h]
  | some moved =>
    by_cases ht : key = tgt
    · simp [ht, h]
    · by_cases hk : key = src <;> simp [ht, hk, Ne.symm h]

def CacheKey.stem? : CacheKey → Option TypeId
  | array leaf => some leaf
  | parameterized generic => some generic
  | raw generic => some generic
  | wildcard generic => generic

theorem TypeInfo.mem_components_of_stem? {info : TypeInfo}
    (hk : info.cacheKey? = some key) (hs : key.stem? = some id) : id ∈ info.components := by
  cases info <;> simp only [cacheKey?, Option.some.injEq, reduceCtorEq] at hk <;> subst hk <;>
    simp_all [CacheKey.stem?]

theorem CacheKey.swap_of_stem? (tgt : TypeId) (h : key.stem? ≠ some src) : key.swap src tgt = key := by
  cases key with
  | wildcard gen => cases gen <;> simp_all [swap, stem?, TypeId.swap]
  | _ => simp_all [swap, stem?, TypeId.swap]

theorem CacheKey.swap_self (id : TypeId) (key : CacheKey) : key.swap id id = key := by
  have hs : TypeId.swap id id = fun other => other := funext fun other => by
    rw [TypeId.swap]
    split
    · next heq => exact heq.symm
    · rfl
  cases key <;> simp [swap, hs]

theorem CacheKey.swap_stem? (tgt : TypeId) (h : key.stem? = some src) : (key.swap src tgt).stem? = some tgt ∧
      ∀ other, (key.swap src tgt).swap tgt other = key.swap src other := by
  cases key with
  | wildcard gen => cases gen <;> simp_all [swap, stem?, TypeId.swap]
  | _ => simp_all [swap, stem?, TypeId.swap]

theorem CacheKey.swap_eq_iff {tgt : TypeId} {other : CacheKey}
    (hk : key.stem? ≠ some tgt) (hne : tgt ≠ src) : key.swap src tgt = other ↔
      if other.stem? = some tgt then key = other.swap tgt src
      else other.stem? ≠ some src ∧ key = other := by
  cases key with
  | wildcard gen => cases gen <;> cases other <;> grind [CacheKey.swap, CacheKey.stem?, TypeId.swap]
  | _ => cases other <;> grind [CacheKey.swap, CacheKey.stem?, TypeId.swap]

theorem Caches.listed_moveLists {tgt : TypeId} (hne : tgt ≠ src) (caches : Caches) (key : CacheKey) :
    (caches.moveLists src tgt).listed key =
      if key.stem? = some tgt then caches.listed key ++ caches.listed (key.swap tgt src)
      else if key.stem? = some src then [] else caches.listed key := by
  have hs : (some tgt : Option TypeId) ≠ some src := by simpa using hne
  cases key with
  | array | parameterized | raw =>
    simp only [listed, moveLists, Table.getD_find?_moveList hne]
    grind [CacheKey.stem?, CacheKey.swap, TypeId.swap, listed]
  | wildcard gen =>
    simp only [listed, moveLists, Table.getD_find?_moveList hs]
    grind [CacheKey.stem?, CacheKey.swap, TypeId.swap, listed]

namespace World

variable {w : World} {hole tgt : TypeId} {name : QName}

structure IsFresh (w : World) (target : TypeId) : Prop where
  lt : target.index < w.types.size
  notMem : ∀ id, target ∉ (w.type id).components
  isConstructed : (w.type target).isConstructed = false
  isPending : (w.type target).isPending = false

namespace WellBuilt

theorem type_swap_of_isConstructed (h : w.WellBuilt)
    (hp : w.type hole = .placeholder name none) (hid : (w.type id).isConstructed) :
    (w.swapPlaceholder hole tgt).type id = (w.type id).swap hole tgt := by
  have hne : id ≠ hole := by
    rintro rfl
    rw [hp] at hid
    cases hid
  rw [type_swapPlaceholder hp, if_neg hne]
  split
  · rfl
  rename_i hn
  refine (swap_of_notMem hid fun hm => hn ?_).symm
  exact h.noted id hole hm (by rw [World.isPending, hp]; rfl)

theorem isConstructed_swap (tgt : TypeId) (hp : w.type hole = .placeholder name none) (id : TypeId) :
    ((w.swapPlaceholder hole tgt).type id).isConstructed = (w.type id).isConstructed := by
  rw [read_swapPlaceholder _ hp fun _ => TypeInfo.isConstructed_swap]
  split
  · next hid => rw [hid, hp]; rfl
  · rfl

theorem isArray_swap (hp : w.type hole = .placeholder name none) (id : TypeId) :
    ((w.swapPlaceholder hole tgt).type id).isArray = (w.type id).isArray := by
  rw [read_swapPlaceholder _ hp fun _ => TypeInfo.isArray_swap]
  split
  · next hid => rw [hid, hp]; rfl
  · rfl

theorem isPending_swap (hp : w.type hole = .placeholder name none) (id : TypeId) :
    (w.swapPlaceholder hole tgt).isPending id = (w.isPending id && decide (id ≠ hole)) := by
  rw [World.isPending, read_swapPlaceholder _ hp fun _ => TypeInfo.isPending_swap]
  split
  · next hid => simp [hid]
  · next hid => simp [hid, World.isPending]

section

variable (h : w.WellBuilt) (hp : w.type hole = .placeholder name none)

include h hp

theorem cacheKey?_swap (id : TypeId) :
    ((w.swapPlaceholder hole tgt).type id).cacheKey? = (w.type id).cacheKey?.map (CacheKey.swap hole tgt) := by
  cases hid : (w.type id).isConstructed with
  | true => rw [h.type_swap_of_isConstructed hp hid, TypeInfo.cacheKey?_swap]
  | false =>
    have ha := isConstructed_swap tgt hp id
    rw [hid] at ha
    simp only [isConstructed, Option.isSome_eq_false_iff, Option.isNone_iff_eq_none] at hid ha
    rw [ha, hid]
    rfl

theorem count_listed_swap (hf : w.IsFresh tgt)
    (id : TypeId) (key : CacheKey) : ((w.caches.moveLists hole tgt).listed key).count id =
      if ((w.swapPlaceholder hole tgt).type id).cacheKey? = some key then 1 else 0 := by
  have hne : tgt ≠ hole := by
    rintro rfl
    have := hf.isPending
    rw [hp] at this
    cases this
  have hst : ∀ {own : CacheKey}, (w.type id).cacheKey? = some own → own.stem? ≠ some tgt :=
    fun ho hst => hf.notMem id (mem_components_of_stem? ho hst)
  rw [Caches.listed_moveLists hne, h.cacheKey?_swap hp]
  cases ho : (w.type id).cacheKey? with
  | none =>
    have hz : ∀ key, (w.caches.listed key).count id = 0 := fun key => by rw [h.listed, ho]; rfl
    split
    · simp [hz]
    · split <;> simp [hz]
  | some own =>
    have hc : ∀ key, (w.caches.listed key).count id = if own = key then 1 else 0 := fun key => by
      simp only [h.listed, ho, Option.some.injEq]
    simp only [Option.map_some, Option.some.injEq, CacheKey.swap_eq_iff (hst ho) hne]
    split
    · next ht =>
      have hn : own ≠ key := fun heq => hst ho (heq ▸ ht)
      rw [List.count_append, hc, hc, if_neg hn, Nat.zero_add]
    split
    · next hs => simp [hs]
    · next hs => simp [hs, hc]

theorem mem_components_swap {comp : TypeId}
    (hm : comp ∈ ((w.swapPlaceholder hole tgt).type id).components) :
    comp = tgt ∨ comp ∈ (w.type id).components ∧ comp ≠ hole := by
  cases hid : (w.type id).isConstructed with
  | true =>
    rw [h.type_swap_of_isConstructed hp hid, components_swap, List.mem_map] at hm
    obtain ⟨old, ho, rfl⟩ := hm
    rw [TypeId.swap]
    split
    · exact .inl rfl
    · next hne => exact .inr ⟨ho, hne⟩
  | false =>
    rw [← isConstructed_swap tgt hp] at hid
    rw [components_eq_nil hid] at hm
    cases hm

theorem swapPlaceholder
    (hf : w.IsFresh tgt) : (w.swapPlaceholder hole tgt).WellBuilt := by
  obtain ⟨types, methods, fields, hw⟩ := swapPlaceholder_with tgt hp
  have hc := isConstructed_swap tgt hp
  refine { unique := ?_, listed := ?_, leaf := ?_, misses := ?_, known := ?_, noted := ?_ }
  · intro a b ha hab
    have hb : ((w.swapPlaceholder hole tgt).type b).isConstructed := hab ▸ ha
    rw [hc] at ha hb
    rw [h.type_swap_of_isConstructed hp ha, h.type_swap_of_isConstructed hp hb] at hab
    refine h.unique a b ha ?_
    rw [← swap_back ha (hf.notMem a), hab, swap_back hb (hf.notMem b)]
  · intro id key
    rw [← h.count_listed_swap hp hf, hw]
    rfl
  · intro id leaf dims hid
    have hbe : (w.type id).isConstructed := by rw [← hc, hid]; rfl
    rw [h.type_swap_of_isConstructed hp hbe] at hid
    rw [isArray_swap hp]
    cases hi : w.type id <;> rw [hi] at hid <;> simp only [swap, array.injEq, reduceCtorEq] at hid
    next old _ =>
    rw [← hid.1, TypeId.swap]
    split
    · exact isArray_eq_false hf.isConstructed
    · exact h.leaf id old _ hi
  · rw [countTypes_swapPlaceholder hp fun _ => TypeInfo.isConstructed_swap,
      countTypes_modifyType (by rw [hp]; rfl), ← h.misses, hw]
    rfl
  · intro id comp hm
    rw [size_swapPlaceholder hp]
    obtain rfl | ⟨ho, -⟩ := h.mem_components_swap hp hm
    · exact hf.lt
    · exact h.known id comp ho
  · intro id comp hm hpe
    rw [isPending_swap hp, Bool.and_eq_true] at hpe
    obtain rfl | ⟨ho, hne⟩ := h.mem_components_swap hp hm
    · rw [World.isPending, hf.isPending] at hpe
      cases hpe.1
    · have := h.noted id comp ho hpe.1
      simpa [World.noted, hw, World.settle, hne] using this

end

end WellBuilt

end World

end Bindings
