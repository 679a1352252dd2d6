import Bindings.Proofs.Terms.Basic
import Bindings.Proofs.World.Formed

/-!
# Handles and their terms

Every handle can be written out as a term (`World.term`), and handles without placeholders that have the same
term are the same (`Formed.term_inj`).
-/

open Relation

namespace Bindings

open TypeInfo Term

variable {list list' : List α} {a b : Option α} {leaf other : TypeId} {good : TypeInfo → Prop}

namespace TypeInfo

def symbol? : TypeInfo → Option Symbol
  | parameterized generic _ enclosing => some (.parameterized generic enclosing.isSome)
  | wildcard info => some (.wildcard info.generic info.rank info.kind info.bound.isSome)
  | _ => none

@[simp] def parts : TypeInfo → List TypeId
  | parameterized _ arguments enclosing => arguments ++ enclosing.toList
  | array leaf _ => [leaf]
  | wildcard info => info.bound.toList ++ info.otherBounds
  | _ => []

def isAtomic : TypeInfo → Bool
  | parameterized .. | array .. | wildcard _ | placeholder .. => false
  | _ => true

def isPlaceholder : TypeInfo → Bool
  | placeholder .. => true
  | _ => false

variable {info : TypeInfo} {name : Symbol} {α : Type}

theorem isPending_of_isPlaceholder (h : info.isPlaceholder = false) : info.isPending = false := by
  cases info with
  | placeholder => cases h
  | _ => rfl

theorem parts_of_isAtomic (h : info.isAtomic) : info.parts = [] := by cases info <;> first | rfl | cases h

theorem kinds (info : TypeInfo) : (∃ leaf dims, info = .array leaf dims) ∨
    (∃ name, info.symbol? = some name) ∨ info.isAtomic ∨ ∃ name tgt, info = .placeholder name tgt := by
  cases info <;> simp [symbol?, isAtomic]

theorem parts_subset_components : info.parts ⊆ info.components := by
  intro part hp
  cases info <;> simp_all
  tauto

theorem isConstructed_of_mem_parts {part : TypeId} (h : part ∈ info.parts) : info.isConstructed := by
  cases info <;> first | rfl | cases h

theorem isConstructed_of_symbol? (h : info.symbol? = some name) : info.isConstructed := by
  cases info <;> first | rfl | cases h

theorem append_toList_inj (hs : a.isSome = b.isSome)
    (h : list ++ a.toList = list' ++ b.toList) : list = list' ∧ a = b := by
  cases a <;> cases b <;> simp_all

theorem toList_append_inj (hs : a.isSome = b.isSome)
    (h : a.toList ++ list = b.toList ++ list') : a = b ∧ list = list' := by
  cases a <;> cases b <;> simp_all

theorem eq_of_symbol? {other : TypeInfo} (hi : info.symbol? = some name)
    (ho : other.symbol? = some name) (hp : info.parts = other.parts) : info = other := by
  cases info with
  | parameterized gen args encl =>
    cases other with
    | parameterized generic' arguments' enclosing' =>
      cases hi
      simp only [symbol?, Option.some.injEq, Symbol.parameterized.injEq] at ho
      obtain ⟨rfl, rfl⟩ := append_toList_inj ho.2.symm hp
      rw [ho.1]
    | wildcard => cases hi; cases ho
    | _ => cases ho
  | wildcard wild =>
    cases other with
    | wildcard wildcard' =>
      obtain ⟨gen, rank, bound, others, kind⟩ := wild
      obtain ⟨generic', rank', bound', others', kind'⟩ := wildcard'
      cases hi
      simp only [symbol?, Option.some.injEq, Symbol.wildcard.injEq] at ho
      obtain ⟨rfl, rfl⟩ := toList_append_inj ho.2.2.2.symm hp
      rw [ho.1, ho.2.1, ho.2.2.1]
    | parameterized => cases hi; cases ho
    | _ => cases ho
  | _ => cases hi

end TypeInfo

namespace World

variable {w u : World} {id : TypeId}

def rank (w : World) (id : TypeId) : Nat := if (w.type id).isConstructed then id.index + 1 else 0

def termFrom (w : World) : Nat → TypeId → Term
  | 0, id => .atom (w.follow id) 0
  | fuel + 1, id =>
    match w.type id with
    | .array leaf dimensions => (termFrom w fuel leaf).raise dimensions
    | info =>
      match info.symbol? with
      | some name => (symbol name 0).apply (info.parts.map (termFrom w fuel))
      | none => .atom (w.follow id) 0

def term (w : World) (id : TypeId) : Term := w.termFrom (w.rank id) id

namespace Formed

variable {name : Symbol} {part : TypeId} (hw : w.Formed)

include hw

theorem rank_lt (h : part ∈ (w.type id).parts) : w.rank part < w.rank id := by
  rw [rank, rank, if_pos (isConstructed_of_mem_parts h)]
  split
  · next hc =>
    exact Nat.succ_lt_succ (hw.order id part (parts_subset_components h) hc)
  · exact Nat.succ_pos _

theorem induction {motive : TypeId → Prop}
    (step : ∀ id, (∀ part ∈ (w.type id).parts, motive part) → motive id) (id : TypeId) : motive id := by
  generalize hr : w.rank id = rank
  induction rank using Nat.strongRecOn generalizing id with
  | ind rank ih => exact step id fun part hp => ih _ (hr ▸ hw.rank_lt hp) part rfl

theorem termFrom_eq : ∀ {fuel : Nat}, w.rank id ≤ fuel → w.termFrom fuel id = w.term id := by
  refine hw.induction (motive := fun id => ∀ {fuel}, w.rank id ≤ fuel → w.termFrom fuel id = w.term id) ?_ id
  intro id ih fuel hf
  rw [term]
  cases hr : w.rank id with
  | zero =>
    have hn : (w.type id).isConstructed = false := by
      by_contra hc
      rw [rank, if_pos (by simpa using hc)] at hr
      cases hr
    cases fuel with
    | zero => rfl
    | succ fuel =>
      rw [termFrom, termFrom]
      cases ht : w.type id <;> first | rfl | (rw [ht] at hn; cases hn)
  | succ rank =>
    obtain ⟨fuel, rfl⟩ := Nat.exists_eq_succ_of_ne_zero (n := fuel) (by omega)
    have hs : ∀ part ∈ (w.type id).parts, w.termFrom fuel part = w.termFrom rank part := by
      intro part hp
      have hlt := hw.rank_lt hp
      rw [ih part hp (by omega), ih part hp (by omega)]
    rw [termFrom, termFrom]
    split
    · next leaf _ ht => rw [hs leaf (by simp [ht])]
    · rw [List.map_congr_left hs]

theorem term_array {dims : UInt32}
    (h : w.type id = .array leaf dims) : w.term id = (w.term leaf).raise dims := by
  have hr : w.rank leaf < w.rank id := hw.rank_lt (by simp [h])
  obtain ⟨rank, hid⟩ := Nat.exists_eq_succ_of_ne_zero (Nat.ne_zero_of_lt hr)
  rw [term, hid, termFrom, h]
  dsimp only
  rw [hw.termFrom_eq (by omega)]

theorem term_symbol (h : (w.type id).symbol? = some name) :
    w.term id = (symbol name 0).apply ((w.type id).parts.map w.term) := by
  have hpa : ∀ part ∈ (w.type id).parts, w.termFrom id.index part = w.term part := fun part hp => by
    have hlt := hw.rank_lt hp
    rw [rank, rank, if_pos (isConstructed_of_symbol? h)] at hlt
    exact hw.termFrom_eq (by rw [rank]; omega)
  rw [term, rank, if_pos (isConstructed_of_symbol? h), termFrom]
  split
  · next ht =>
    rw [ht] at h
    cases h
  rw [h]
  dsimp only
  rw [List.map_congr_left hpa]

theorem mentions_part (hn : (w.type id).symbol? = some name)
    {vars : List TypeId} (h : (w.term id).mentions vars = false)
    (hp : part ∈ (w.type id).parts) : (w.term part).mentions vars = false := by
  rw [hw.term_symbol hn, mentions_apply, Bool.or_eq_false_iff, List.any_eq_false] at h
  exact eq_false_of_ne_true (h.2 _ (List.mem_map_of_mem hp))

end Formed

theorem term_atomic (h : (w.type id).isAtomic) : w.term id = .atom id 0 := by
  have hf : w.follow id = id := by
    rw [follow]
    split
    · next ht =>
      rw [ht] at h
      cases h
    · rfl
  rw [term]
  cases w.rank id with
  | zero => rw [termFrom, hf]
  | succ fuel =>
    rw [termFrom, hf]
    cases ht : w.type id <;> first | rfl | (rw [ht] at h; cases h)

theorem term_placeholder {name : QName} {tgt : Option TypeId} (h : w.type id = .placeholder name tgt) :
    w.term id = .atom (tgt.getD id) 0 := by
  rw [term, rank, h, if_neg (by simp [isConstructed, cacheKey?]), termFrom, follow, h]
  cases tgt <;> rfl

theorem Formed.term_cases (hw : w.Formed) (hb : w.WellBuilt) (id : TypeId) :
    (∃ leaf dimensions, w.type id = .array leaf dimensions ∧ dimensions ≠ 0 ∧
      (w.term id).dimensions = dimensions ∧ w.term id = (w.term leaf).raise dimensions) ∨ (w.term id).dimensions = 0 ∧
      ((∃ name, (w.type id).symbol? = some name ∧
        w.term id = (symbol name 0).apply ((w.type id).parts.map w.term)) ∨
      ((w.type id).isAtomic ∧ w.term id = .atom id 0) ∨
      ∃ name tgt, w.type id = .placeholder name tgt ∧ w.term id = .atom (tgt.getD id) 0) := by
  have hf : ∀ id, (w.type id).isArray = false → (w.term id).dimensions = 0 := by
    intro id hn
    obtain ⟨_, _, ht⟩ | ⟨name, hna⟩ | ha | ⟨_, _, ht⟩ := (w.type id).kinds
    · rw [ht] at hn
      cases hn
    · rw [hw.term_symbol hna, dimensions_apply]
      rfl
    · rw [term_atomic ha]
      rfl
    · rw [term_placeholder ht]
      rfl
  obtain ⟨leaf, dimensions, ht⟩ | ⟨name, hna⟩ | ha | ⟨name, tgt, ht⟩ := (w.type id).kinds
  · have hte := hw.term_array ht
    have hno := hw.normal id
    rw [ht] at hno
    refine .inl ⟨leaf, dimensions, ht, hno, ?_, hte⟩
    rw [hte, dimensions_raise, hf leaf (hb.leaf id leaf dimensions ht), UInt32.zero_add]
  · have hte := hw.term_symbol hna
    refine .inr ⟨?_, .inl ⟨name, hna, hte⟩⟩
    rw [hte, dimensions_apply]
    rfl
  · have hte := term_atomic ha
    exact .inr ⟨by rw [hte]; rfl, .inr (.inl ⟨ha, hte⟩)⟩
  · have hte := term_placeholder ht
    exact .inr ⟨by rw [hte]; rfl, .inr (.inr ⟨name, tgt, ht, hte⟩)⟩

theorem Formed.cost_lt (hw : w.Formed) (hb : w.WellBuilt) {part : TypeId} (h : part ∈ (w.type id).parts) :
    (w.term part).cost < (w.term id).cost := by
  obtain ⟨leaf, dims, ht, hp, hd, hte⟩ | ⟨-, ⟨name, -, hte⟩ | ⟨ha, -⟩ | ⟨_, _, ht, -⟩⟩ := hw.term_cases hb id
  · rw [ht, parts, List.mem_singleton] at h
    rw [hte, dimensions_raise] at hd
    have hf : (w.term leaf).dimensions = 0 := (UInt32.add_left_inj dims).1 (hd.trans (UInt32.zero_add _).symm)
    rw [h, hte, cost_raise hf hp]
    exact Nat.lt_succ_self _
  · rw [hte]
    exact cost_lt_apply (List.mem_map_of_mem h)
  · rw [parts_of_isAtomic ha] at h
    cases h
  · rw [ht] at h
    cases h

def Contains (w : World) : TypeId → TypeId → Prop :=
  ReflTransGen fun id part => part ∈ (w.type id).parts

theorem Formed.mentions_contains (hw : w.Formed) {part : TypeId} {vars : List TypeId}
    (h : (w.term id).mentions vars = false) (hp : w.Contains id part) : (w.term part).mentions vars = false := by
  induction hp with
  | refl => exact h
  | @tail whole part _ hp ih =>
    obtain ⟨leaf, dims, ht⟩ | ⟨name, hn⟩ | ha | ⟨_, _, ht⟩ := (w.type whole).kinds
    · rw [ht, parts, List.mem_singleton] at hp
      rwa [hp, ← mentions_raise vars dims, ← hw.term_array ht]
    · exact hw.mentions_part hn ih hp
    · rw [parts_of_isAtomic ha] at hp
      cases hp
    · rw [ht] at hp
      cases hp

theorem Formed.cost_contains (hw : w.Formed) (hb : w.WellBuilt) {part : TypeId} (hp : w.Contains id part) :
    (w.term part).cost ≤ (w.term id).cost := by
  induction hp with
  | refl => exact Nat.le_refl _
  | tail _ hp ih => exact Nat.le_trans (Nat.le_of_lt (hw.cost_lt hb hp)) ih

def Throughout (w : World) (good : TypeInfo → Prop) (id : TypeId) : Prop :=
  ∀ part, w.Contains id part → good (w.type part)

theorem throughout_iff :
    w.Throughout good id ↔ good (w.type id) ∧ ∀ part ∈ (w.type id).parts, w.Throughout good part := by
  constructor
  · exact fun h => ⟨h id .refl, fun part hp inner hi => h inner (.head hp hi)⟩
  · rintro ⟨hid, hpa⟩ inner hi
    obtain rfl | ⟨part, hp, hi⟩ := ReflTransGen.cases_head hi
    · exact hid
    · exact hpa part hp inner hi

def Solid (w : World) (id : TypeId) : Prop := w.Throughout (fun info => info.isPlaceholder = false) id

def isSolid (w : World) : Nat → TypeId → Bool
  | 0, _ => false
  | depth + 1, id => !(w.type id).isPlaceholder && (w.type id).parts.all (w.isSolid depth)

theorem solid_of_test {depth : Nat} (h : w.isSolid depth id) : w.Solid id := by
  induction depth generalizing id with
  | zero => cases h
  | succ depth ih =>
    simp only [isSolid, Bool.and_eq_true, Bool.not_eq_true', List.all_eq_true] at h
    exact throughout_iff.2 ⟨h.1, fun part hp => ih (h.2 part hp)⟩

def Loaded (w : World) (id : TypeId) : Prop := w.Throughout (fun info => info.isPending = false) id

theorem Solid.loaded (h : w.Solid id) : w.Loaded id := fun part hp => isPending_of_isPlaceholder (h part hp)

theorem map_inj_of_mem {α β : Type} {f : α → β} {list list' : List α}
    (hi : ∀ a ∈ list, ∀ b ∈ list', f a = f b → a = b) (h : list.map f = list'.map f) : list = list' := by
  induction list generalizing list' with
  | nil => exact (List.map_eq_nil_iff.1 h.symm).symm
  | cons a rest ih =>
    cases list' with
    | nil => cases h
    | cons b rest' =>
      obtain ⟨hh, ht⟩ := List.cons.inj h
      rw [hi a (.head _) b (.head _) hh, ih (fun a ha b hb => hi a (.tail _ ha) b (.tail _ hb)) ht]

theorem Formed.term_inj (hw : w.Formed) (hbu : w.WellBuilt) (hid : w.Solid id)
    (ho : w.Solid other) (h : w.term id = w.term other) : id = other := by
  revert other
  refine hw.induction (motive := fun id => w.Solid id → ∀ {other}, w.Solid other →
    w.term id = w.term other → id = other) ?_ id hid
  intro id ih hid other ho heq
  obtain ⟨hid, hp⟩ := throughout_iff.1 hid
  obtain ⟨ho, hp'⟩ := throughout_iff.1 ho
  have hpl : ∀ {id name tgt}, (w.type id).isPlaceholder = false →
      w.type id ≠ .placeholder name tgt := fun hn ht => by
    rw [ht] at hn
    cases hn
  rcases hw.term_cases hbu other with ⟨leaf', dims', ht', hpo', hd', hte'⟩ |
    ⟨hd', ⟨name', hna', hte'⟩ | ⟨-, hte'⟩ | ⟨_, _, ht', -⟩⟩
  · obtain ⟨leaf, dims, ht, -, hd, hte⟩ | ⟨hd, -⟩ := hw.term_cases hbu id
    · obtain rfl : dims = dims' := by rw [← hd, heq, hd']
      rw [hte, hte'] at heq
      have hm : leaf ∈ (w.type id).parts := by simp [ht]
      have hm' : leaf' ∈ (w.type other).parts := by simp [ht']
      have hl := ih leaf hm (hp leaf hm) (hp' leaf' hm') (raise_inj heq)
      exact hbu.unique id other (by rw [ht]; rfl) (by rw [ht, ht', hl])
    · exact absurd (by rw [← hd', ← heq, hd]) hpo'
  · obtain ⟨_, _, -, hpo, hd, -⟩ | ⟨-, ⟨name, hna, hte⟩ | ⟨-, hte⟩ | ⟨_, _, ht, -⟩⟩ := hw.term_cases hbu id
    · exact absurd (by rw [← hd, heq, hd']) hpo
    · rw [hte, hte'] at heq
      obtain ⟨rfl, hma⟩ := symbol_apply_inj heq
      have hs : (w.type id).parts = (w.type other).parts :=
        map_inj_of_mem (fun a ha b hb => ih a ha (hp a ha) (hp' b hb)) hma
      exact hbu.unique id other (isConstructed_of_symbol? hna) (eq_of_symbol? hna hna' hs)
    · have hr := congrArg root heq
      rw [hte, hte', root_apply] at hr
      cases hr
    · exact absurd ht (hpl hid)
  · obtain ⟨_, _, -, hpo, hd, -⟩ | ⟨-, ⟨name, hna, hte⟩ | ⟨-, hte⟩ | ⟨_, _, ht, -⟩⟩ := hw.term_cases hbu id
    · exact absurd (by rw [← hd, heq, hd']) hpo
    · have hr := congrArg root heq
      rw [hte, hte', root_apply] at hr
      cases hr
    · rw [hte, hte'] at heq
      exact (atom.inj heq).1
    · exact absurd ht (hpl hid)
  · exact absurd ht' (hpl ho)

theorem Formed.eq_of_term_eq_atom (hw : w.Formed) (hb : w.WellBuilt)
    (h : w.term id = .atom leaf 0) (hn : ∀ name, w.type id ≠ .placeholder name (some leaf)) : id = leaf := by
  obtain ⟨_, _, -, hp, hd, -⟩ | ⟨-, ⟨_, -, hte⟩ | ⟨-, hte⟩ | ⟨name, tgt, ht, hte⟩⟩ := hw.term_cases hb id
  · rw [h] at hd
    exact absurd hd.symm hp
  · have hr := congrArg root (hte.symm.trans h)
    rw [root_apply] at hr
    cases hr
  · exact (atom.inj (hte.symm.trans h)).1
  have hta : tgt.getD id = leaf := (atom.inj (hte.symm.trans h)).1
  cases tgt with
  | none => exact hta
  | some tgt =>
    obtain rfl : tgt = leaf := hta
    exact absurd ht (hn name)

structure Respells (w u : World) : Prop where
  size : w.types.size ≤ u.types.size
  type : ∀ id, w.Knows id → u.type id = w.type id ∨ (w.type id).isAtomic ∧ (u.type id).isAtomic

namespace Respells

theorem parts (h : w.Respells u) (hid : w.Knows id) : (u.type id).parts = (w.type id).parts := by
  obtain hs | ⟨ho, hn⟩ := h.type id hid
  · rw [hs]
  · rw [parts_of_isAtomic ho, parts_of_isAtomic hn]

theorem term (h : w.Respells u) (hw : w.Formed) (hb : w.WellBuilt) (hu : u.Formed) (hid : w.Knows id) :
    u.term id = w.term id := by
  refine hw.induction (motive := fun id => w.Knows id → u.term id = w.term id) ?_ id hid
  intro id ih hid
  have hpa : ∀ part ∈ (w.type id).parts, u.term part = w.term part := fun part hp =>
    ih part hp (hb.known id part (parts_subset_components hp))
  obtain hs | ⟨ho, hn⟩ := h.type id hid
  · obtain ⟨leaf, dims, ht⟩ | ⟨name, hna⟩ | ha | ⟨name, tgt, ht⟩ := (w.type id).kinds
    · rw [hw.term_array ht, hu.term_array (hs.trans ht), hpa leaf (by simp [ht])]
    · rw [hw.term_symbol hna, hu.term_symbol (hs ▸ hna), hs, List.map_congr_left hpa]
    · rw [term_atomic ha, term_atomic (hs ▸ ha)]
    · rw [term_placeholder ht, term_placeholder (hs.trans ht)]
  · rw [term_atomic ho, term_atomic hn]

theorem throughout (h : w.Respells u) (hb : w.WellBuilt)
    (ha : ∀ info : TypeInfo, info.isAtomic → good info) (hid : w.Knows id) (hg : w.Throughout good id) :
    u.Throughout good id := by
  intro part hp
  suffices hk : w.Knows part ∧ w.Contains id part by
    obtain hs | ⟨-, hn⟩ := h.type part hk.1
    · exact hs ▸ hg part hk.2
    · exact ha _ hn
  induction hp with
  | refl => exact ⟨hid, .refl⟩
  | tail _ hp ih =>
    obtain ⟨hk, hc⟩ := ih
    rw [h.parts hk] at hp
    exact ⟨hb.known _ _ (parts_subset_components hp), hc.tail hp⟩

end Respells

variable {name : QName} {tgt : TypeId}

theorem Registered.type_target (h : w.Registered) (hid : w.type id = .placeholder name (some tgt)) :
    (∃ info, w.type tgt = .declared info) ∨ ∃ name reason closest, w.type tgt = .missing name reason closest := by
  have hr := h.role_target (TypeInfo.role_eq_placeholder.2 hid)
  rw [role] at hr
  cases ht : w.type tgt <;> simp_all [TypeInfo.role]

theorem Registered.not_isVariable_target (h : w.Registered)
    (hid : w.type id = .placeholder name (some tgt)) : ¬ w.IsVariable tgt := by
  intro hv
  rcases h.type_target hid with ⟨_, ht⟩ | ⟨_, _, _, ht⟩ <;> simp [IsVariable, ht, sort] at hv

section

variable {vars : List TypeId} (hva : ∀ var ∈ vars, w.IsVariable var)

include hva

theorem not_contains_of_not_isVariable (ho : ¬ w.IsVariable other) : vars.contains other = false := by
  rw [List.contains_eq_mem, decide_eq_false_iff_not]
  exact fun hm => ho (hva other hm)

theorem mentionsFrom_placeholder (hr : w.Registered)
    (ht : w.type id = .placeholder name (some tgt)) (fuel : Nat) : w.mentionsFrom vars fuel id = false := by
  have hid : vars.contains id = false := not_contains_of_not_isVariable hva (by simp [IsVariable, ht, sort])
  have hta := not_contains_of_not_isVariable hva (hr.not_isVariable_target ht)
  cases fuel with
  | zero => exact hid
  | succ fuel =>
    rw [mentionsFrom, ht, hid, Bool.false_or]
    dsimp only
    cases fuel with
    | zero => exact hta
    | succ fuel =>
      rw [mentionsFrom, hta, Bool.false_or]
      rcases hr.type_target ht with ⟨_, h⟩ | ⟨_, _, _, h⟩ <;> rw [h]

theorem Formed.mentionsFrom_eq (hw : w.Formed) (hr : w.Registered) {fuel : Nat}
    (hf : w.rank id ≤ fuel) : w.mentionsFrom vars fuel id = (w.term id).mentions vars := by
  refine hw.induction (motive := fun id => ∀ fuel, w.rank id ≤ fuel →
    w.mentionsFrom vars fuel id = (w.term id).mentions vars) ?_ id fuel hf
  intro id ih fuel hf
  have hn : ¬ w.IsVariable id → vars.contains id = false := not_contains_of_not_isVariable hva
  have han : ∀ (f : Nat) (list : List TypeId), list ⊆ (w.type id).parts → w.rank id ≤ f + 1 →
      list.any (w.mentionsFrom vars f) = (list.map w.term).any (Term.mentions vars) := by
    intro f list hs hf
    rw [List.any_map, Bool.eq_iff_iff, List.any_eq_true, List.any_eq_true]
    refine exists_congr fun part => and_congr_right fun hp => ?_
    have hlt := hw.rank_lt (hs hp)
    rw [ih part (hs hp) f (by omega)]
    rfl
  have hc : (w.type id).isConstructed → ∃ f, fuel = f + 1 := fun h => by
    rw [rank, if_pos h] at hf
    exact ⟨fuel - 1, by omega⟩
  cases ht : w.type id with
  | array leaf dims =>
    obtain ⟨f, rfl⟩ := hc (by rw [ht]; rfl)
    have hl := han f [leaf] (by simp [ht]) hf
    simp only [List.any_cons, List.any_nil, Bool.or_false, List.map_cons, List.map_nil] at hl
    rw [mentionsFrom, ht, hn (by simp [IsVariable, ht, sort]), hw.term_array ht, mentions_raise]
    exact hl
  | parameterized gen args encl =>
    obtain ⟨f, rfl⟩ := hc (by rw [ht]; rfl)
    have ha := han f args (by simp [ht]) hf
    have he := han f encl.toList (by simp [ht]) hf
    rw [mentionsFrom, ht, hn (by simp [IsVariable, ht, sort]), hw.term_symbol (congrArg symbol? ht), ht,
      mentions_apply, parts, List.map_append, List.any_append, ← ha, ← he]
    cases encl <;> simp
  | wildcard info =>
    obtain ⟨f, rfl⟩ := hc (by rw [ht]; rfl)
    have hb := han f info.bound.toList (by simp [ht]) hf
    have ho := han f info.otherBounds (by simp [ht]) hf
    rw [mentionsFrom, ht, hn (by simp [IsVariable, ht, sort]), hw.term_symbol (congrArg symbol? ht), ht,
      mentions_apply, parts, List.map_append, List.any_append, ← hb, ← ho]
    obtain ⟨_, _, bound, _, _⟩ := info
    cases bound <;> simp
  | placeholder name tgt =>
    rw [term_placeholder ht, Term.mentions]
    cases tgt with
    | none => cases fuel <;> simp [mentionsFrom, ht]
    | some tgt =>
      rw [mentionsFrom_placeholder hva hr ht, Option.getD_some,
        not_contains_of_not_isVariable hva (hr.not_isVariable_target ht)]
  | base | declared | raw | «variable» | capture | missing =>
    rw [term_atomic (by rw [ht]; rfl), Term.mentions]
    cases fuel <;> simp [mentionsFrom, ht]

theorem Formed.mentions_eq (hw : w.Formed) (hr : w.Registered) (hid : w.Knows id) :
    w.mentions vars id = (w.term id).mentions vars := by
  refine hw.mentionsFrom_eq hva hr ?_
  rw [rank]
  split
  · exact Nat.succ_le_succ (Nat.le_of_lt hid)
  · exact Nat.zero_le _

end

end World

end Bindings
