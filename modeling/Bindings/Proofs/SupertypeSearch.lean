import Mathlib.Order.WellFoundedSet
import Mathlib.Tactic.Ring
import Bindings.Proofs.MemberViews.Erased
import Bindings.Proofs.Subclasses

/-!
# Searching supertypes as types and as classes

`isSubclassOf` walks over classes, `asSuperType` over types whose arguments are filled in or erased on the way.
Neither filling in nor erasing changes the class of a type, so both walks meet the same classes, and both
answer alike (`Reachable.asSuperType_iff_isSubclassOf`).
-/

open Relation

namespace Bindings

open World Query Term

variable {s : Substitution}

namespace Term

variable {term : Term} {σ : TypeId → Term} {bound : Nat}

theorem cost_raise_le (more : UInt32) : (term.raise more).cost ≤ term.cost + 1 := by
  induction term with
  | atom | symbol =>
    simp only [raise, cost]
    split <;> omega
  | app _ _ ih =>
    simp only [raise, cost]
    omega

theorem cost_subst (h : ∀ id, (σ id).cost ≤ bound) : (term.subst σ).cost < (term.cost + 1) * (bound + 2) := by
  have hp : ∀ cost, bound + 2 ≤ (cost + 1) * (bound + 2) := fun cost =>
    Nat.le_mul_of_pos_left (bound + 2) (Nat.succ_pos cost)
  induction term with
  | atom id dims =>
    have hr : ((σ id).raise dims).cost ≤ (σ id).cost + 1 := cost_raise_le dims
    have hid := h id
    have hp := hp (atom id dims).cost
    rw [subst]
    omega
  | symbol name dims =>
    have ho : (symbol name dims).cost ≤ 1 := by
      rw [cost]
      split <;> omega
    have hp := hp (symbol name dims).cost
    rw [subst]
    omega
  | app function arg ihf iha =>
    have hs : ((app function arg).cost + 1) * (bound + 2) =
        (function.cost + 1) * (bound + 2) + (arg.cost + 1) * (bound + 2) := by
      rw [cost]
      ring
    rw [subst, hs, cost]
    omega

end Term

/-! ## The class of a type with arguments filled in -/

theorem Substitution.Maps.erasureClass? {u v : World} {id res erased : TypeId}
    (hu : u.Sound) (hformed : u.Formed) (huv : u.Onward v) (h : s.Maps u id res v)
    (hvar : ∀ var type, s.get? var = some type → u.IsVariable var) (hid : u.erasureClass? id = some erased) :
    v.erasureClass? res = some erased := by
  have ha : ∀ leaf, u.term id = .atom leaf 0 → u.erasureClass? leaf = some erased →
      v.erasureClass? res = some erased := by
    intro leaf hte hle
    have hg : s.get? leaf = none := Option.eq_none_iff_forall_ne_some.2 fun type hg => by
      obtain ⟨info, hva⟩ := World.isVariable_iff.1 (hvar leaf type hg)
      simp [World.erasureClass?, hva] at hle
    have hre : v.term res = .atom leaf 0 := by
      rw [h.term, hte, subst, raise_zero, Substitution.terms, hg]
      rfl
    have hl : v.erasureClass? leaf = some erased := by
      rwa [huv.keeps.erasureClass? hu (World.lt_size_of_type_ne fun hv => by simp [World.erasureClass?, hv] at hle)]
    by_cases hs : ∃ name, v.type res = .placeholder name (some leaf)
    · obtain ⟨name, ht⟩ := hs
      obtain ⟨info, hc⟩ | ⟨_, _, _, hm⟩ := huv.sound.registered.type_target ht
      · simpa [World.erasureClass?, ht, hc, World.class?] using hl
      · simp [World.erasureClass?, hm] at hl
    · rw [huv.formed.eq_of_term_eq_atom huv.sound.wellBuilt hre (not_exists.1 hs)]
      exact hl
  cases ht : u.type id with
  | declared | raw => exact ha id (World.term_atomic (by rw [ht]; rfl)) hid
  | placeholder name tgt =>
    cases tgt with
    | none => simp [World.erasureClass?, ht] at hid
    | some tgt =>
      refine ha tgt (World.term_placeholder ht) ?_
      obtain ⟨info, hc⟩ | ⟨_, _, _, hm⟩ := hu.registered.type_target ht
      · simpa [World.erasureClass?, ht, hc, World.class?] using hid
      · simp [World.erasureClass?, ht, hm, World.class?] at hid
  | parameterized gen args encl =>
    have hn : (u.type id).symbol? = some (.parameterized gen encl.isSome) := by rw [ht]; rfl
    have hte := h.term
    rw [hformed.term_symbol hn, subst_apply, subst] at hte
    have hr := congrArg root hte
    have hd := congrArg dimensions hte
    rw [root_apply] at hr
    rw [dimensions_apply] at hd
    rcases huv.formed.term_cases huv.sound.wellBuilt res with ⟨_, _, -, hp, hd', -⟩ |
      ⟨-, ⟨name, hn', hte'⟩ | ⟨-, hte'⟩ | ⟨_, _, -, hte'⟩⟩
    · exact absurd (hd'.symm.trans hd) hp
    · rw [hte', root_apply] at hr
      cases hr
      cases ht' : v.type res with
      | parameterized generic' arguments' enclosing' =>
        rw [ht', TypeInfo.symbol?, Option.some.injEq, Symbol.parameterized.injEq] at hn'
        simpa [World.erasureClass?, ht, ht', hn'.1] using hid
      | _ =>
        rw [ht'] at hn'
        cases hn'
    all_goals
      rw [hte'] at hr
      cases hr
  | _ => simp [World.erasureClass?, ht] at hid

/-! ## Places of the search -/

namespace World

variable {w u v : World} {bound bound' : Nat} {id erased : TypeId}

/-- A type that a search which began in `w` comes to in a later world: its class, and a bound for taking the
type apart. -/
structure Place (w u : World) (bound : Nat) (id erased : TypeId) : Prop where
  isClass : (w.class? (w.follow erased)).isSome
  erasure : u.erasureClass? id = some erased
  loaded : u.Loaded id
  cost : (u.term id).cost ≤ bound

theorem follow_of_class? (h : (w.class? id).isSome) : w.follow id = id := by
  obtain ⟨info, hi⟩ := Option.isSome_iff_exists.1 h
  rw [follow, class?_eq_some.1 hi]

namespace Place

theorem knows (h : w.Place u bound id erased) : u.Knows id :=
  lt_size_of_type_ne fun hv => by simpa [erasureClass?, hv] using h.erasure

theorem onward (hu : u.Sound) (hformed : u.Formed) (huv : u.Onward v) (hle : bound ≤ bound')
    (h : w.Place u bound id erased) : w.Place v bound' id erased where
  isClass := h.isClass
  erasure := (huv.keeps.erasureClass? hu h.knows).trans h.erasure
  loaded := huv.loaded hu h.knows h.loaded
  cost := (huv.term hu hformed h.knows).symm ▸ h.cost.trans hle

theorem of_atomic (hc : (w.class? erased).isSome) (ha : (u.type id).isAtomic)
    (he : u.erasureClass? id = some erased) : w.Place u bound id erased where
  isClass := (follow_of_class? hc).symm ▸ hc
  erasure := he
  loaded := by
    refine throughout_iff.2 ⟨?_, fun part hp => ?_⟩
    · cases ht : u.type id <;> first | rfl | (rw [ht] at ha; cases ha)
    · rw [TypeInfo.parts_of_isAtomic ha] at hp
      cases hp
  cost := by
    rw [term_atomic ha]
    exact Nat.zero_le _

theorem of_class (hu : w.Keeps u) (hc : (w.class? erased).isSome) : w.Place u bound erased erased := by
  obtain ⟨info, hi⟩ := Option.isSome_iff_exists.1 hc
  obtain ⟨new, hn, -⟩ := hu.class? hi
  rw [class?_eq_some] at hn
  exact .of_atomic hc (by rw [hn]; rfl) (by rw [erasureClass?, hn])

/-- What the type is, or what it stands for. -/
inductive Shape (u : World) (id erased : TypeId) : Prop
  | declared {info : ClassInfo} : (∀ d, resolved id d u = (.ok erased, u)) → u.type erased = .declared info →
    Shape u id erased
  | parameterized {arguments : List TypeId} {enclosing : Option TypeId} :
    (∀ d, resolved id d u = (.ok id, u)) → u.type id = .parameterized erased arguments enclosing →
    Shape u id erased
  | raw {enclosing : Option TypeId} : (∀ d, resolved id d u = (.ok id, u)) →
    u.type id = .raw erased enclosing → Shape u id erased

theorem shape (h : w.Place u bound id erased) : Shape u id erased := by
  have he := h.erasure
  have hr : ∀ d, resolved id d u = (.ok (u.follow id), u) := fun d =>
    resolved_eq_follow d (throughout_iff.1 h.loaded).1
  have hp : (u.type id).isPlaceholder = false → ∀ d, resolved id d u = (.ok id, u) := fun hp d =>
    (hr d).trans (by rw [follow_of_not_placeholder hp])
  cases ht : u.type id with
  | declared info =>
    obtain rfl : id = erased := by simpa [erasureClass?, ht] using he
    exact .declared (hp (by rw [ht]; rfl)) ht
  | parameterized gen args encl =>
    obtain rfl : gen = erased := by simpa [erasureClass?, ht] using he
    exact .parameterized (hp (by rw [ht]; rfl)) ht
  | raw gen encl =>
    obtain rfl : gen = erased := by simpa [erasureClass?, ht] using he
    exact .raw (hp (by rw [ht]; rfl)) ht
  | placeholder name tgt =>
    cases tgt with
    | none => simp [erasureClass?, ht] at he
    | some tgt =>
      obtain ⟨hc, rfl⟩ : _ ∧ tgt = erased := by simpa [erasureClass?, ht] using he
      obtain ⟨info, hi⟩ := Option.isSome_iff_exists.1 hc
      exact .declared (fun d => (hr d).trans (by rw [follow, ht])) (class?_eq_some.1 hi)
  | _ => simp [erasureClass?, ht] at he

end Place

end World

namespace Query

open World (Place)

variable {w u : World} {d : Demand} {bound cap : Nat} {id erased : TypeId}

theorem rawType_place (hu : w.Onward u) (hc : (w.class? erased).isSome) :
    (liftM (Edit.rawType erased none) : Query TypeId).Delivers d u fun raw v =>
      u.Onward v ∧ w.Place v bound raw erased := by
  have hs : w.Place u bound erased erased := .of_class hu.keeps hc
  have ht := rawType_type hu.sound hs.knows none nofun
  refine .lift ⟨.of_edit _ (Edit.Furthering.furthers u hu.sound).toKeeps hu.sound hu.formed,
    .of_atomic hc (by rw [ht]; rfl) ?_⟩
  exact rawType_erasureClass? hu.sound hs.knows

theorem rawErasure_place (hu : w.Onward u) (h : w.Place u cap id erased) (hc : (w.class? erased).isSome) :
    (rawErasure id).Delivers d u fun shown v => u.Onward v ∧ w.Place v bound shown erased := by
  have hs : w.Place u bound erased erased := .of_class hu.keeps hc
  have hre : u.Onward u := .refl hu.sound hu.formed
  have he : erasure id d u = (.ok erased, u) := by
    rw [erasure, erasureWithin]
    cases h.shape with
    | declared hr ht | parameterized hr ht | raw hr ht => rw [bind_ok d u (hr d), get_bind_apply, ht]; rfl
  refine .step he (.get ?_)
  obtain ⟨info, hi⟩ := Option.isSome_iff_exists.1 hc
  obtain ⟨new, hn, -⟩ := hu.keeps.class? hi
  rw [class?_eq_some.1 hn]
  exact .ite (fun _ => rawType_place hu hc) fun _ => .pure ⟨hre, hs⟩

/-- What filling in the arguments of a type of some cost costs in the end, if the supertypes of classes cost no
more than the cap. -/
def grow (cap bound : Nat) : Nat := (cap + 1) * (bound + 2)

theorem le_grow : bound + 2 ≤ grow cap bound := Nat.le_mul_of_pos_left _ (Nat.succ_pos _)

theorem cap_lt_grow : cap < grow cap bound := Nat.le_mul_of_pos_right _ (Nat.succ_pos _)

theorem substitute_place {recv : TypeId} {v : World} (hw : w.Sound) (hformed : w.Formed)
    (hu : w.Onward u) (huv : u.Onward v) (hs : s.Arises u recv) (hrec : u.Loaded recv)
    (hco : (u.term recv).cost ≤ bound) (h : w.Place w cap id erased) (hc : (w.class? erased).isSome)
    (hf : cap < d.fuel) :
    (substitute s id).Delivers d v fun res x => v.Onward x ∧ w.Place x (grow cap bound) res erased := by
  have hid : w.Place u cap id erased := h.onward hw hformed hu (Nat.le_refl _)
  cases hra : s.raw with
  | true =>
    obtain ⟨fuel, hf⟩ := Nat.exists_eq_succ_of_ne_zero (Nat.ne_zero_of_lt hf)
    have hl : w.Place v (grow cap bound) id erased := h.onward hw hformed (hu.trans huv) (Nat.le_of_lt cap_lt_grow)
    have hre : v.Onward v := .refl huv.sound huv.formed
    have hse : w.Place v (grow cap bound) erased erased := .of_class (hu.trans huv).keeps hc
    rw [substitute, Substitution.isEmpty, hra, Bool.not_true, Bool.and_false, if_neg Bool.false_ne_true]
    refine .fuel ?_
    rw [hf, substituteFrom]
    cases hl.shape with
    | declared hr ht =>
      refine .step (hr d) (.get ?_)
      rw [ht]
      exact .pure ⟨hre, hse⟩
    | parameterized hr ht =>
      refine .step (hr d) (.get ?_)
      rw [ht, hra]
      exact rawType_place (hu.trans huv) hc
    | raw hr ht =>
      refine .step (hr d) (.get ?_)
      rw [ht]
      exact .pure ⟨hre, hl⟩
  | false =>
    refine (substitute_delivers hu.sound hu.formed hs.known hra hs.isVariable hid.knows hid.loaded
      (hid.cost.trans_lt hf) huv).mono ?_
    rintro res x ⟨hvx, hm⟩
    have hte : ∀ var, (s.terms u var).cost ≤ bound := by
      intro var
      rw [Substitution.terms]
      cases hg : s.get? var with
      | none => exact Nat.zero_le _
      | some type => exact (hu.formed.cost_contains hu.sound.wellBuilt (hs.within var type hg)).trans hco
    refine ⟨hvx, h.isClass, hm.erasureClass? hu.sound hu.formed (huv.trans hvx) hs.isVariable hid.erasure, ?_, ?_⟩
    · exact hm.throughout _ TypeInfo.isLoose_loaded hid.loaded fun var type hg part hp =>
        hrec part ((hs.within var type hg).trans hp)
    · rw [hm.term]
      refine (Nat.le_of_lt (cost_subst hte)).trans ?_
      exact Nat.mul_le_mul_right _ (Nat.succ_le_succ hid.cost)

/-! ## The supertypes of a place -/

section

variable (hw : w.Sound) (hformed : w.Formed) (hloaded : w.FullyLoaded)
  (hsettled : ∀ id super, w.Inherits id super → w.Settled super)
  (hcap : ∀ id, w.Knows id → (w.term id).cost ≤ cap)

include hloaded hsettled hcap

theorem parent_place (hid : w.Inherits id erased) :
    ∃ base, w.erasureClass? erased = some base ∧ (w.class? base).isSome ∧ w.Place w cap erased base := by
  obtain ⟨base, hb, hr⟩ := hsettled id erased hid
  have hk : w.Knows erased := lt_size_of_type_ne fun hv => by simp [erasureClass?, hv] at hb
  have hc : (w.class? base).isSome := Option.isSome_iff_exists.2 (role_eq_declared.1 hr)
  refine ⟨base, hb, hc, ?_, hb, fun part _ => hloaded.done part, hcap erased hk⟩
  rwa [follow_of_class? hc]

omit hsettled hcap

include hw hformed

/-- Both lists of supertypes are seen through one view, which does not change classes. -/
theorem supertypes_view (hu : w.Onward u) (h : w.Place u bound id erased) (hf : grow cap bound < d.fuel) :
    ∃ view : TypeId → Query TypeId,
      superclass id d u = ((((w.class? (w.follow erased)).bind (·.superclass)).map w.follow).mapM view) d u ∧
      superInterfaces id d u =
        (((((w.class? (w.follow erased)).map (·.interfaces)).getD []).map w.follow).mapM view) d u ∧
      ∀ super base, w.Place w cap super base → (w.class? base).isSome → ∀ v, u.Onward v →
        (view super).Delivers d v fun res x => v.Onward x ∧ w.Place x (grow cap bound) res base := by
  have hb := @le_grow bound cap
  have hca := @cap_lt_grow bound cap
  obtain ⟨fuel, hf'⟩ : ∃ fuel, d.fuel = fuel + 2 := ⟨d.fuel - 2, by omega⟩
  obtain ⟨info, hi⟩ := Option.isSome_iff_exists.1 h.isClass
  obtain ⟨new, hn, hkn, hsu, hin⟩ := hu.keeps.supertypes hw hi (hloaded.known _ info hi)
  have hrea : ∀ stored ∈ new.supertypes, resolved stored d u = (.ok (w.follow stored), u) := by
    intro stored hst
    have hk : w.Knows stored := hw.stocked (.type (w.follow erased)) stored (by
      rw [held, class?_eq_some.1 hi]
      rw [ClassInfo.supertypes, hsu, hin] at hst
      exact List.mem_append_left _ hst)
    rw [resolved_eq_follow d (by rw [hu.keeps.isPending hk, hloaded.done]), hu.keeps.follow hk]
  have hse : resolved erased d u = (.ok (w.follow erased), u) := by
    have hk : w.Knows erased := by
      by_contra hun
      simp [follow, class?, type_of_not_knows hun] at hi
    rw [resolved_eq_follow d (by rw [hu.keeps.isPending hk, hloaded.done]), hu.keeps.follow hk]
  have hfi := superclassFrom_known hse hn hkn hrea (Nat.succ_ne_zero fuel)
  have hres := superInterfacesFrom_known hse hn hkn hrea (Nat.succ_ne_zero fuel)
  rw [hi, Option.bind_some, Option.map_some, Option.getD_some, ← hsu, ← hin]
  cases h.shape with
  | declared hre ht =>
    have hre := (hre d).trans ((resolved_apply (class?_eq_some.2 ht) d).symm.trans hse)
    refine ⟨pure, ?_, ?_, fun super base hp _ v huv => .pure ⟨.refl huv.sound huv.formed, ?_⟩⟩
    · rw [superclass_known hre hn hkn hrea (by omega), optionMapM_self fun _ _ => rfl]
    · rw [superInterfaces_known hre hn hkn hrea (by omega), mapM_self fun _ _ => rfl]
    · exact hp.onward hw hformed (hu.trans huv) (Nat.le_of_lt hca)
  | parameterized hre ht =>
    obtain ⟨s, hr, hs⟩ := substitutionForFrom_arises hu.sound hu.formed h.loaded
      (h.cost.trans_lt (by omega : bound < d.fuel))
    change substitutionFor id d u = _ at hr
    refine ⟨substitute s, ?_, ?_, fun super base hp hc v huv => substitute_place hw hformed hu huv hs h.loaded
      h.cost hp hc (by omega)⟩
    · change superclassFrom d.fuel id d u = _
      rw [hf', superclassFrom, bind_ok d u (hre d), get_bind_apply, ht]
      dsimp only
      rw [bind_ok d u hfi]
      cases new.superclass.map w.follow with
      | none => rfl
      | some super =>
        dsimp only
        rw [bind_ok d u hr, Option.mapM_some]
    · change superInterfacesFrom d.fuel id d u = _
      rw [hf', superInterfacesFrom, bind_ok d u (hre d), get_bind_apply, ht]
      dsimp only
      rw [bind_ok d u hres, bind_ok d u hr]
  | raw hre ht =>
    refine ⟨rawErasure, ?_, ?_, fun super base hp hc v huv =>
      rawErasure_place (hu.trans huv) (hp.onward hw hformed (hu.trans huv) (Nat.le_refl _)) hc⟩
    · change superclassFrom d.fuel id d u = _
      rw [hf', superclassFrom, bind_ok d u (hre d), get_bind_apply, ht]
      dsimp only
      rw [bind_ok d u hfi]
      cases new.superclass.map w.follow with
      | none => rfl
      | some super => rw [Option.mapM_some]
    · change superInterfacesFrom d.fuel id d u = _
      rw [hf', superInterfacesFrom, bind_ok d u (hre d), get_bind_apply, ht]
      dsimp only
      rw [bind_ok d u hres]

include hsettled hcap

theorem supertypes_places (hu : w.Onward u) (h : w.Place u bound id erased) (hf : grow cap bound < d.fuel) :
    (supertypes id).Delivers d u fun results v =>
      u.Onward v ∧ results.Forall₂ (w.Place v (grow cap bound)) (w.erasedParents erased) := by
  let good (super res : TypeId) (v : World) : Prop :=
    ∃ base, w.erasureClass? super = some base ∧ w.Place v (grow cap bound) res base
  have hg : ∀ {super res v x}, u.Onward v → v.Onward x → good super res v → good super res x := by
    rintro super res v x huv hvx ⟨base, hb, hp⟩
    exact ⟨base, hb, hp.onward huv.sound huv.formed hvx (Nat.le_refl _)⟩
  have hv : ∀ v, u.Onward v → ∀ view : TypeId → Query TypeId,
      (∀ super base, w.Place w cap super base → (w.class? base).isSome → ∀ x, v.Onward x →
        (view super).Delivers d x fun res y => x.Onward y ∧ w.Place y (grow cap bound) res base) →
      ∀ super ∈ w.parents (w.follow erased), ∀ x, v.Onward x →
        (view super).Delivers d x fun res y => x.Onward y ∧ good super res y := by
    intro v huv view hv super hs x hvx
    obtain ⟨base, hb, hc, hp⟩ := parent_place hloaded hsettled hcap hs
    exact (hv super base hp hc x hvx).mono fun res y ⟨hxy, hres⟩ => ⟨hxy, base, hb, hres⟩
  have hre : u.Onward u := .refl hu.sound hu.formed
  obtain ⟨view, hsu, -, hv1⟩ := supertypes_view hw hformed hloaded hu h hf
  have hv1 := hv u hre view hv1
  rw [parents_eq] at hv1
  refine .bind (.congr hsu (.optionMapM good hre fun super hs =>
    hv1 super (List.mem_append_left _ (Option.mem_toList.2 hs)) u hre)) ?_
  rintro superclass v ⟨huv, hfi, -⟩
  have hvr : v.Onward v := .refl huv.sound huv.formed
  obtain ⟨view, -, hi, hv2⟩ := supertypes_view hw hformed hloaded (hu.trans huv)
    (h.onward hu.sound hu.formed huv (Nat.le_refl _)) hf
  have hv2 := hv v huv view hv2
  rw [parents_eq] at hv2
  refine .bind (.congr hi (.mapM good (fun x hx => .refl hx.sound hx.formed) .trans
    (fun hvx => hg (huv.trans hvx)) hvr fun super hs => hv2 super (List.mem_append_right _ hs))) ?_
  rintro ifaces x ⟨hvx, hr⟩
  refine .pure ⟨huv.trans hvx, ?_⟩
  have ha : (w.parents (w.follow erased)).Forall₂ (good · · x) (superclass.toList ++ ifaces) := by
    rw [parents_eq]
    exact List.rel_append (hfi.imp fun _ _ => hg huv hvx) hr
  rw [erasedParents]
  generalize w.parents (w.follow erased) = parents at ha
  generalize superclass.toList ++ ifaces = results at ha ⊢
  induction ha with
  | nil => exact .nil
  | cons hg _ ih =>
    obtain ⟨base, hb, hp⟩ := hg
    rw [List.filterMap_cons_some hb]
    exact .cons hp ih

/-- The walk over types meets the classes that a walk over classes would meet. It ends because the tree of all
ways up is finite: `size` bounds the part of it above each class. -/
theorem walkFrom_places {tgt : TypeId} {size : TypeId → Nat}
    (hsi : ∀ id, ((w.erasedParents id).map size).sum < size id) {steps fuel : Nat}
    {seen waiting passed classes : List TypeId} (hu : w.Onward u)
    (hv : seen.Forall₂ (w.Place u bound) passed) (hwa : waiting.Forall₂ (w.Place u bound) classes)
    (hc : Covered w.erasedParents (· == tgt) passed classes) (hste : (classes.map size).sum ≤ steps)
    (hwal : steps ≤ fuel) (hf : (grow cap)^[steps] bound < d.fuel) :
    (walkFrom .breadthFirst (fun cur => return (← get).erasureClass? cur == some tgt)
      (fun cur => some <$> supertypes cur) fuel seen waiting).Delivers d u fun found v =>
        (∀ super ∈ found, v.erasureClass? super = some tgt) ∧
          (found.isSome ↔ ∃ start ∈ classes, Leads w.erasedParents (· == tgt) start) := by
  induction steps generalizing fuel seen waiting passed classes bound u with
  | zero =>
    cases hwa with
    | nil =>
      rw [walkFrom]
      exact .pure ⟨nofun, by simp⟩
    | @cons _ erased _ classes =>
      have hpo := hsi erased
      rw [List.map_cons, List.sum_cons] at hste
      omega
  | succ steps ih =>
    obtain ⟨fuel, rfl⟩ := Nat.exists_eq_succ_of_ne_zero (Nat.ne_zero_of_lt hwal)
    rw [Function.iterate_succ_apply] at hf
    have hgr : bound ≤ grow cap bound := (Nat.le_add_right _ 2).trans le_grow
    have hri : grow cap bound ≤ (grow cap)^[steps] (grow cap bound) :=
      Function.id_le_iterate_of_id_le (fun n => (Nat.le_add_right n 2).trans le_grow) steps _
    have hl : ∀ {list classes : List TypeId} {v : World}, u.Onward v → list.Forall₂ (w.Place u bound) classes →
        list.Forall₂ (w.Place v (grow cap bound)) classes := fun huv hli =>
      hli.imp fun _ _ => Place.onward hu.sound hu.formed huv hgr
    have href : u.Onward u := .refl hu.sound hu.formed
    cases hwa with
    | nil =>
      rw [walkFrom]
      exact .pure ⟨nofun, by simp⟩
    | @cons cur erased waiting classes hcu hre =>
      have hpo := hsi erased
      rw [List.map_cons, List.sum_cons] at hste
      rw [walkFrom]
      refine .get (.ite (fun hg => .pure ⟨?_, ?_⟩) fun hn => .ite (fun hse => ?_) fun _ => ?_)
      · rintro _ ⟨⟩
        simpa using hg
      · have hg : (erased == tgt) = true := by simpa [hcu.erasure] using hg
        exact ⟨fun _ => ⟨erased, .head _, erased, .refl, hg⟩, fun _ => rfl⟩
      · have hm : erased ∈ passed := by
          obtain ⟨other, ho, hp⟩ := exists_of_mem_forall₂ hv.flip (List.contains_iff_mem.1 hse)
          cases hp.erasure.symm.trans hcu.erasure
          exact ho
        refine (ih hu (hl href hv) (hl href hre) (hc.skip hm) (by omega) (by omega) hf).mono ?_
        rintro found v ⟨hfo, hs⟩
        exact ⟨hfo, hs.trans (hc.exists_skip hm)⟩
      · have hn : (erased == tgt) = false := by simpa [hcu.erasure] using hn
        obtain ⟨results, v, hr, huv, hres⟩ := supertypes_places hw hformed hloaded hsettled hcap hu hcu
          (hri.trans_lt hf)
        have hvi : (some <$> supertypes cur : Query (Option (List TypeId))) d u = (.ok (some results), v) := by
          rw [map_eq_bind, bind_ok d u hr]
          rfl
        refine .step hvi ?_
        have hmem_iff : ∀ place, place ∈ classes ++ w.erasedParents erased ↔
            place ∈ w.erasedParents erased ∨ place ∈ classes := fun place => by rw [List.mem_append, or_comm]
        refine (ih (hu.trans huv) (.cons (hcu.onward hu.sound hu.formed huv hgr) (hl huv hv))
          (List.rel_append (hl huv hre) hres) (hc.visit hn hmem_iff) ?_ (by omega) hf).mono ?_
        · rw [List.map_append, List.sum_append]
          omega
        rintro found v ⟨hfo, hs⟩
        have hle : Leads w.erasedParents (· == tgt) erased ↔
            ∃ other ∈ w.erasedParents erased, Leads w.erasedParents (· == tgt) other := leads_iff hn
        refine ⟨hfo, hs.trans ?_⟩
        simp only [hmem_iff, List.mem_cons, or_and_right, exists_or, exists_eq_left, hle]

end

end Query

namespace World

variable {w : World}

theorem erasureClass?_follow (hw : w.Registered) (id : TypeId) :
    w.erasureClass? (w.follow id) = w.erasureClass? id := by
  rw [follow]
  split
  · next tgt ht =>
    obtain ⟨info, hc⟩ | ⟨_, _, _, hm⟩ := hw.type_target ht
    · simp [erasureClass?, ht, hc, class?]
    · simp [erasureClass?, ht, hm, class?]
  · rfl

theorem exists_size {next : TypeId → List TypeId} (h : WellFounded fun super id => super ∈ next id) :
    ∃ size : TypeId → Nat, ∀ id, ((next id).map size).sum < size id := by
  let size : TypeId → Nat := h.fix fun id size => 1 + ((next id).attach.map fun super => size super.1 super.2).sum
  refine ⟨size, fun id => ?_⟩
  have hs : size id = 1 + ((next id).attach.map fun super => size super.1).sum := h.fix_eq _ id
  rw [hs, List.attach_map_val]
  exact Nat.lt_add_of_pos_left Nat.one_pos

theorem wellFounded_stepsTo (hw : w.Sound) (h : ∀ id, ¬ TransGen w.StepsTo id id) :
    WellFounded fun super id => super ∈ w.erasedParents id := by
  let above (super id : TypeId) : Prop := TransGen w.StepsTo id super
  have htr : IsTrans TypeId above := ⟨fun _ _ _ h1 h2 => h2.trans h1⟩
  have hir : Std.Irrefl above := ⟨h⟩
  have ho : IsStrictOrder TypeId above := {}
  have hf : {id : TypeId | id.index < w.types.size}.Finite :=
    (Set.finite_lt_nat w.types.size).preimage fun a _ b _ hi => by cases a; cases b; cases hi; rfl
  have hwf := Set.wellFoundedOn_iff.1 (hf.wellFoundedOn : Set.WellFoundedOn _ above)
  refine Subrelation.wf (fun {super id} hs => ⟨.single hs, ?_, ?_⟩) hwf
  · obtain ⟨_, -, he⟩ := List.mem_filterMap.1 hs
    exact knows_erasureClass? hw he
  · by_contra hu
    have ht := type_of_not_knows hu
    simp [erasedParents, parents, follow, class?, ht] at hs

theorem Reachable.asSuperType_iff_isSubclassOf {t c erased : TypeId} (h : w.Reachable) (hloaded : w.FullyLoaded)
    (hsettled : ∀ id super, w.Inherits id super → w.Settled super) (hac : ∀ id, ¬ TransGen w.StepsTo id id)
    (ht : w.erasureClass? t = some erased) (he : w.role (w.follow erased) = .declared)
    (hc : (w.class? c).isSome) (ho : w.isObject c = false) :
    ∃ budget, ∀ d : Demand, budget ≤ d.fuel → ∃ answer found v,
      isSubclassOf t c d w = (.ok answer, w) ∧ asSuperType t c d w = (.ok found, v) ∧
      (∀ super ∈ found, v.erasureClass? super = some c) ∧ (found.isSome ↔ answer = true) := by
  have hw := h.sound
  have hformed := h.formed
  obtain ⟨size, hsi⟩ := exists_size (wellFounded_stepsTo hw hac)
  let cap := (((List.range w.types.size).map TypeId.mk).map fun id => (w.term id).cost).sum
  have hcap : ∀ id, w.Knows id → (w.term id).cost ≤ cap := fun id hid =>
    List.single_le_sum (fun _ _ => Nat.zero_le _) _ (List.mem_map_of_mem
      (List.mem_map.2 ⟨id.index, List.mem_range.2 hid, rfl⟩))
  refine ⟨w.erasedSteps + size erased + (grow cap)^[size erased] cap + 1, fun d hf => ?_⟩
  obtain ⟨info, hi⟩ := role_eq_declared.1 he
  have hs : w.erasureClass? c = some c := by
    obtain ⟨_, hcl⟩ := Option.isSome_iff_exists.1 hc
    rw [erasureClass?, class?_eq_some.1 hcl]
  obtain ⟨answer, _, ha, hsa, hr⟩ := isSubclassOf_loaded hloaded ht hs (.inl he)
    (by omega : w.erasedSteps ≤ d.fuel)
  rw [hsa] at ha
  have hfol : w.erasureClass? (w.follow t) = some erased := (erasureClass?_follow hw.registered t).trans ht
  have hk : w.Knows (w.follow t) := lt_size_of_type_ne fun hv => by simp [erasureClass?, hv] at hfol
  have hp : w.Place w cap (w.follow t) erased :=
    ⟨by rw [hi]; rfl, hfol, fun part _ => hloaded.done part, hcap _ hk⟩
  have hco : Covered w.erasedParents (· == c) [] [erased] := List.forall_mem_nil _
  obtain ⟨found, v, hfo, hcl, hso⟩ := walkFrom_places hw hformed hloaded hsettled hcap hsi
    (.refl hw hformed) .nil (.cons hp .nil) hco (by simp : ([erased].map size).sum ≤ size erased)
    (by omega : size erased ≤ d.fuel) (by omega : (grow cap)^[size erased] cap < d.fuel)
  refine ⟨answer, found, v, ha, ?_, hcl, hso.trans ?_⟩
  · rw [asSuperType, bind_ok d w (resolved_eq_follow d (hloaded.done t))]
    exact hfo
  rw [hr]
  simp only [List.mem_singleton, exists_eq_left, Bindings.Leads, beq_iff_eq, exists_eq_right, ho,
    Bool.false_eq_true, false_or]
  rfl

def isSettled (w : World) (id : TypeId) : Bool := (w.erasureClass? id).any (w.role · = .declared)

theorem settled_of_test {id : TypeId} (h : w.isSettled id) : w.Settled id := by
  obtain ⟨erased, he, hr⟩ := (Option.any_eq_true ..).1 h
  exact ⟨erased, he, of_decide_eq_true hr⟩

/-- All supertypes are built on classes that were made earlier. -/
def isLayered (w : World) : Bool :=
  (List.range w.types.size).all fun index => (w.parents ⟨index⟩).all w.isSettled &&
    (w.erasedParents ⟨index⟩).all (·.index < index)

theorem layers_of_test (h : w.isLayered) : (∀ id super, w.Inherits id super → w.Settled super) ∧
    ∀ id, ¬ TransGen w.StepsTo id id := by
  have ht : ∀ id : TypeId, (∀ super ∈ w.parents id, w.isSettled super) ∧
      ∀ super ∈ w.erasedParents id, super.index < id.index := by
    intro id
    by_cases hid : w.Knows id
    · rw [isLayered, List.all_eq_true] at h
      simpa using h id.index (List.mem_range.2 hid)
    · simp [erasedParents, parents, follow, class?, type_of_not_knows hid]
  have hf : ∀ id super, TransGen w.StepsTo id super → super.index < id.index := fun id super hp => by
    induction hp with
    | single hs => exact (ht _).2 _ hs
    | tail _ hs ih => exact ((ht _).2 _ hs).trans ih
  exact ⟨fun id super hsu => settled_of_test ((ht id).1 super hsu), fun id hp => (hf id id hp).false⟩

def satchelClassPath : ClassPath := .ofClasses
  [{ ClassFile.generic "p/Holds" with modifiers := .interfaceFlag },
   { name := "p/Satchel", interfaces := ["p/Holds"]
     signature := "<T:Ljava/lang/Object;>Ljava/lang/Object;Lp/Holds<TT;>;" }]

/-- A generic class implements a generic interface, and there is a type with arguments of that class. -/
def satchelWorld : World :=
  (initial {} satchelClassPath {}).after
    [.objectType, .superclass ⟨10⟩, .superInterfaces ⟨10⟩, .getType ⟨["p", "Holds"]⟩, .superclass ⟨11⟩,
      .superInterfaces ⟨11⟩, .getType ⟨["p", "Satchel"]⟩, .superclass ⟨13⟩, .superInterfaces ⟨13⟩,
      .parameterizedType ⟨13⟩ [⟨10⟩] none]

theorem asSuperType_iff_isSubclassOf_satchel :
    satchelWorld.type ⟨16⟩ = .parameterized ⟨13⟩ [⟨10⟩] none ∧
      (asSuperType ⟨16⟩ ⟨11⟩ .standard satchelWorld).1 = .ok (some ⟨17⟩) ∧
      ∃ budget, ∀ d : Demand, budget ≤ d.fuel → ∃ answer found v,
        isSubclassOf ⟨16⟩ ⟨11⟩ d satchelWorld = (.ok answer, satchelWorld) ∧
        asSuperType ⟨16⟩ ⟨11⟩ d satchelWorld = (.ok found, v) ∧
        (∀ super ∈ found, v.erasureClass? super = some ⟨11⟩) ∧ (found.isSome ↔ answer = true) := by
  have hr : satchelWorld.isFullyLoaded = true ∧ satchelWorld.isLayered = true ∧
      satchelWorld.erasureClass? ⟨16⟩ = some ⟨13⟩ ∧ satchelWorld.role (satchelWorld.follow ⟨13⟩) = .declared ∧
      (satchelWorld.class? ⟨11⟩).isSome = true ∧ satchelWorld.isObject ⟨11⟩ = false := by decide +kernel
  obtain ⟨hloaded, hl, he, hro, hc, ho⟩ := hr
  have hre : satchelWorld.Reachable := (Reachable.initial {} satchelClassPath {}).after _
  obtain ⟨hp, ha⟩ := layers_of_test hl
  exact ⟨by decide +kernel, by decide +kernel, hre.asSuperType_iff_isSubclassOf (fullyLoaded_of_test hloaded) hp ha
    he hro hc ho⟩

end World

end Bindings
