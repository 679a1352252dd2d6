import Bindings.Proofs.Captures
import Bindings.Proofs.ClassOrder

/-! # Captured types as subtypes -/

open Relation

namespace Bindings

open World Query

variable {bound : TypeId} {lower : Option TypeId}

namespace World

variable {w u : World} {id root target : TypeId} {upper : List TypeId} {captured : TypeId}

theorem stands_self (h : (w.type id).isPlaceholder = false) : w.Stands id id := by
  refine .inl ⟨fun name pending hr => ?_, rfl⟩
  rw [TypeInfo.role_eq_placeholder.1 hr] at h
  cases h

def parameters (w : World) (id : TypeId) : List TypeId := ((w.class? id).map (·.typeVariables)).getD []

def variableBounds (w : World) (root : TypeId) (var : Option TypeId) : List TypeId :=
  match var.bind fun var => (w.type var).typeVariable? with
  | none => []
  | some info => (info.superclass.filter (· != root)).toList ++ info.interfaces

def shown (w : World) (root : TypeId) (upper : List TypeId) : List TypeId :=
  (upper.find? (isClassBound w)).getD root :: upper.filter (isInterfaceBound w)

def IsBound (w : World) (id : TypeId) : Prop :=
  (w.type id).isClassLike ∧ ((w.erasureClass? id).bind w.class?).isSome ∨ (w.type id).typeVariable?.isSome

theorem Extends.isBound (h : w.Extends u) (hid : w.IsBound id) : u.IsBound id := by
  have hk : w.Knows id := by
    refine lt_size_of_type_ne fun ht => ?_
    rw [IsBound, ht] at hid
    obtain ⟨hid, -⟩ | hid := hid <;> cases hid
  rwa [IsBound, h.type id hk, h.erasureClass?_eq hk, funext h.class?_eq]

def Reveals (w : World) (root : TypeId) (upper : List TypeId) (target : TypeId) : Prop :=
  (∀ id ∈ w.shown root upper, id = target ∨ w.HierarchyKnown id ∧ ((w.class? target).isSome ∨
    ∃ erased, w.erasureClass? target = some erased ∧ ¬ ReflTransGen w.Inherits id erased)) ∧
  ∃ id ∈ w.shown root upper, id = target ∨ (w.class? target).isSome ∧ w.Descends id target

theorem Extends.reveals_iff (h : w.Extends u) (hw : w.Sound) (hup : ∀ id ∈ upper, w.Knows id)
    (ht : w.Knows target) : u.Reveals root upper target ↔ w.Reveals root upper target := by
  have hs : u.shown root upper = w.shown root upper := by
    rw [shown, shown, List.filter_congr fun id hid => h.isInterfaceBound_eq (hup id hid), ← List.head?_filter,
      ← List.head?_filter, List.filter_congr fun id hid => h.isClassBound_eq (hup id hid)]
  simp only [Reveals, hs, h.hierarchyKnown_iff hw, h.class?_eq, h.erasureClass?_eq ht, h.inherits_eq hw,
    Descends, h.isObject_eq]

theorem mem_shown (hid : id ∈ upper) (hf : isInterfaceBound w id = false →
    upper.find? (isClassBound w) = some id) : id ∈ w.shown root upper := by
  cases hk : isInterfaceBound w id with
  | true => exact .tail _ (List.mem_filter.2 ⟨hid, hk⟩)
  | false =>
    rw [shown, hf hk]
    exact .head _

section

variable (h : w.IsBound id)

include h

theorem IsBound.isClassBound : Query.isClassBound w id = !Query.isInterfaceBound w id := by
  obtain ⟨-, hc⟩ | hv := h
  · obtain ⟨info, hi⟩ := Option.isSome_iff_exists.1 hc
    obtain ⟨erased, he, hi⟩ := Option.bind_eq_some_iff.1 hi
    simp [Query.isClassBound, Query.isInterfaceBound, he, hi]
  cases ht : w.type id <;> rw [ht] at hv <;> first
    | cases hv; done
    | simp [Query.isClassBound, Query.isInterfaceBound, erasureClass?, ht]

theorem IsBound.cases : (∃ info, w.type id = .declared info) ∨
    (∃ generic arguments enclosing, w.type id = .parameterized generic arguments enclosing) ∨
    (∃ generic enclosing, w.type id = .raw generic enclosing) ∨ ∃ info, w.type id = .variable info := by
  rw [IsBound] at h
  cases ht : w.type id <;> simp [ht, TypeInfo.isClassLike] at h ⊢

theorem IsBound.knows : w.Knows id := by
  obtain ⟨_, h⟩ | ⟨_, _, _, h⟩ | ⟨_, _, h⟩ | ⟨_, h⟩ := h.cases <;> exact lt_size_of_type_ne (by rw [h]; simp)

theorem IsBound.stands : w.Stands id id := by
  obtain ⟨_, h⟩ | ⟨_, _, _, h⟩ | ⟨_, _, h⟩ | ⟨_, h⟩ := h.cases <;> exact stands_self (by rw [h]; rfl)

theorem IsBound.kindCompatible? {info : TypeInfo} (hi : info.isClassLike ∨ info.isVariableLike) :
    kindCompatible? info (w.type id) = none := by
  obtain ⟨_, h⟩ | ⟨_, _, _, h⟩ | ⟨_, _, h⟩ | ⟨_, h⟩ := h.cases <;> rw [h] <;> cases info <;> first
    | rfl
    | simp [TypeInfo.isClassLike] at hi

end

theorem isBound_class (h : (w.class? id).isSome) : w.IsBound id := by
  obtain ⟨info, hi⟩ := Option.isSome_iff_exists.1 h
  have ht := class?_eq_some.1 hi
  exact .inl ⟨by rw [ht]; rfl, by rw [erasureClass?, ht, Option.bind_some, hi]; rfl⟩

theorem reveals_single (hroot : w.RootKnown root) (h : w.IsBound target) : w.Reveals root [target] target := by
  have hc := h.isClassBound
  cases hk : isInterfaceBound w target with
  | false =>
    rw [hk] at hc
    simp [Reveals, shown, hc, hk]
  | true =>
    -- Without a class among the bounds the root is shown, which is no interface and below none.
    rw [hk] at hc
    have hs : w.shown root [target] = [root, target] := by simp [shown, hc, hk]
    rw [Reveals, hs]
    refine ⟨List.forall_mem_cons.2 ⟨.inr ⟨hroot.known, .inr ?_⟩, by simp⟩, target, by simp, .inl rfl⟩
    obtain ⟨info, hi, hin⟩ := (Option.any_eq_true ..).1 hk
    obtain ⟨erased, he, hi⟩ := Option.bind_eq_some_iff.1 hi
    refine ⟨erased, he, fun hp => ?_⟩
    have hn := hroot.isClass
    obtain rfl := hroot.eq_of_inherits hp
    rw [isInterfaceType, erasureClass?, class?_eq_some.1 hi, Option.bind_some, hi, Option.any_some, hin] at hn
    cases hn

theorem reveals_meet (hroot : w.RootKnown root) {others declared : List TypeId}
    (h : ∀ id ∈ bound :: others ++ declared, w.HierarchyKnown id) {below : TypeId → TypeId → Bool}
    (hbelow : ∀ a b, below a b = true ↔ w.Descends a b) {meet : Option (List TypeId)}
    (hmeet : meet = if 1 < ((firstLeast below (bound :: others ++ declared).eraseDups).filter fun id =>
        (w.type id).isClassLike && !Query.isInterfaceType w id).length then none
      else some (firstLeast below (bound :: others ++ declared).eraseDups)) :
    meet.getD (bound :: others) ⊆ bound :: others ++ declared ∧ meet.getD (bound :: others) ≠ [] ∧
      w.Reveals root (meet.getD (bound :: others)) bound := by
  have hknown : ∀ id ∈ bound :: others ++ declared, (w.class? id).isSome := fun id hid => (h id hid).isSome
  have hbound := hknown bound (.head _)
  suffices hall : meet.getD (bound :: others) ⊆ bound :: others ++ declared ∧ meet.getD (bound :: others) ≠ [] ∧
      ∃ low ∈ w.shown root (meet.getD (bound :: others)), w.Descends low bound by
    obtain ⟨hsub, hne, low, hlow, hdesc⟩ := hall
    refine ⟨hsub, hne, fun id hid => .inr ⟨?_, .inl hbound⟩, low, hlow, .inr ⟨hbound, hdesc⟩⟩
    obtain hid | hid := List.mem_cons.1 hid
    · cases hfind : (meet.getD (bound :: others)).find? (isClassBound w) with
      | none => rw [hid, hfind]; exact hroot.known
      | some found => rw [hid, hfind]; exact h found (hsub (List.mem_of_find?_eq_some hfind))
    · exact h id (hsub (List.mem_filter.1 hid).1)
  split at hmeet
  · subst hmeet
    refine ⟨List.subset_append_left .., List.cons_ne_nil _ _, bound, mem_shown (.head _) fun hkind => ?_, .inr .refl⟩
    rw [Option.getD_none, List.find?_cons_of_pos]
    rw [(isBound_class hbound).isClassBound, hkind]
    rfl
  rename_i hmany
  subst hmeet
  rw [Option.getD_some]
  have hsub : firstLeast below (bound :: others ++ declared).eraseDups ⊆ bound :: others ++ declared :=
    fun id hid => List.mem_eraseDups.1 (List.mem_filter.1 hid).1
  have hmem : bound ∈ (bound :: others ++ declared).eraseDups := List.mem_eraseDups.2 (.head _)
  obtain ⟨low, hlow, hdesc⟩ := exists_firstLeast_below
    (fun a _ b _ c _ hab hbc => (hbelow a c).2 (hroot.descends_trans ((hbelow a b).1 hab) ((hbelow b c).1 hbc)))
    (fun id _ => (hbelow id id).2 (.inr .refl)) hmem
  refine ⟨hsub, List.ne_nil_of_mem hlow, low, mem_shown hlow fun hkind => ?_, (hbelow low bound).1 hdesc⟩
  generalize firstLeast below (bound :: others ++ declared).eraseDups = kept at *
  have hclass : ∀ id ∈ kept, isInterfaceBound w id = false →
      id ∈ kept.filter fun id => (w.type id).isClassLike && !Query.isInterfaceType w id := by
    intro id hid hkind
    obtain ⟨info, hi⟩ := Option.isSome_iff_exists.1 (hknown id (hsub hid))
    refine List.mem_filter.2 ⟨hid, ?_⟩
    rw [class?_eq_some.1 hi, show isInterfaceType w id = false from hkind]
    rfl
  have hlow' := hclass low hlow hkind
  have hkind' := (isBound_class (hknown low (hsub hlow))).isClassBound
  rw [hkind] at hkind'
  cases hfind : kept.find? (isClassBound w) with
  | none => exact absurd hkind' (List.find?_eq_none.1 hfind low hlow)
  | some first =>
    have hfirst := List.mem_of_find?_eq_some hfind
    have hclass' := (isBound_class (hknown first (hsub hfirst))).isClassBound
    rw [List.find?_some hfind] at hclass'
    have hfirst' := hclass first hfirst (by simpa using hclass')
    generalize kept.filter _ = classes at hmany hlow' hfirst'
    obtain _ | ⟨only, _ | _⟩ := classes
    · cases hlow'
    · rw [List.mem_singleton.1 hlow', List.mem_singleton.1 hfirst']
    · simp at hmany

/-- The bounds of a type variable are classes, and what bounds a wildcard in its place can be seen from the capture. -/
structure BoundsSeen (w : World) (root : TypeId) (var : Option TypeId) (wildcard : WildcardInfo) : Prop where
  declared : ∀ id ∈ w.variableBounds root var, (w.class? id).isSome
  upper : ∀ bound, wildcard.kind = .upper → wildcard.bound = some bound →
    (wildcard.otherBounds ++ w.variableBounds root var = [] ∧ ∃ target, w.Stands bound target ∧ w.IsBound target) ∨
      ∀ id ∈ bound :: wildcard.otherBounds ++ w.variableBounds root var, w.HierarchyKnown id
  lower : ∀ bound, wildcard.kind = .lower → wildcard.bound = some bound →
    ∃ target, w.Stands bound target ∧ w.base? target = none

structure Covers (w : World) (root : TypeId) (wildcard : WildcardInfo) (upper : List TypeId) (lower : Option TypeId) :
    Prop where
  upper : ∀ bound, wildcard.kind = .upper → wildcard.bound = some bound →
    ∃ target, w.Stands bound target ∧ w.IsBound target ∧ (∀ id ∈ upper, w.Knows id) ∧ w.Reveals root upper target
  lower : ∀ bound, wildcard.kind = .lower → wildcard.bound = some bound →
    lower = some bound ∧ ∃ target, w.Stands bound target ∧ w.base? target = none

def bounding (w : World) (captured : TypeId) (upper : List TypeId) (lower : Option TypeId) : World :=
  w.modifyType captured (.mapCapture fun info => { info with upperBounds := upper, lowerBound := lower })

theorem type_bounding (id : TypeId) : (w.bounding captured upper lower).type id = if id = captured then
      (w.type id).mapCapture fun info => { info with upperBounds := upper, lowerBound := lower }
    else w.type id :=
  type_modifyType rfl ..

theorem Extends.bounding (h : w.Extends u) (hn : ¬ w.Knows captured) : w.Extends (u.bounding captured upper lower) where
  type id hid := by
    have hne : id ≠ captured := fun heq => hn (heq ▸ hid)
    rw [type_bounding, if_neg hne, h.type id hid]
  added id hid := by
    rw [class?, type_bounding, ← h.added id hid, class?]
    split
    · cases u.type id <;> rfl
    · rfl
  object := h.object

end World

namespace Query

open World

variable {w u : World} {d : Demand} {s : Substitution} {root argument captured : TypeId} {var : Option TypeId}
  {vars : List TypeId} {wildcard : WildcardInfo}

theorem declaredBounds_still (hu : w.Extends u) (hf : d.fuel ≠ 0) (hv : ∀ id ∈ var, w.Knows id)
    (h : ∀ id ∈ w.variableBounds root var, (w.class? id).isSome) :
    declaredBounds s root var d u = (.ok (w.variableBounds root var), u) := by
  have hs : (var.bind fun var => (u.type var).typeVariable?) = var.bind fun var => (w.type var).typeVariable? := by
    cases var with
    | none => rfl
    | some var => rw [Option.bind_some, hu.type var (hv var rfl), Option.bind_some]
  have hsu : ∀ id, (w.class? id).isSome → substitute s id d u = (.ok id, u) := by
    intro id hid
    obtain ⟨info, hi⟩ := Option.isSome_iff_exists.1 hid
    rw [← hu.class?_eq] at hi
    obtain ⟨fuel, hf⟩ := Nat.exists_eq_succ_of_ne_zero hf
    rw [substitute]
    split
    · rfl
    change substituteFrom s d.fuel id d u = _
    rw [hf, substituteFrom, bind_ok d u (resolved_apply hi d), get_bind_apply, class?_eq_some.1 hi]
    rfl
  rw [variableBounds] at h ⊢
  rw [declaredBounds, get_bind_apply, hs]
  cases hi : var.bind fun var => (w.type var).typeVariable? with
  | none => rfl
  | some info =>
    rw [hi] at h
    dsimp only
    rw [bind_ok d u (optionMapM_still id fun a ha => hsu a (h a (List.mem_append_left _ (Option.mem_toList.2 ha)))),
      bind_ok d u (mapM_still id fun a ha => hsu a (h a (List.mem_append_right _ ha))), Option.map_id, List.map_id]
    rfl

theorem greatestLowerBound_single {target : TypeId} (h : u.Stands bound target) :
    greatestLowerBound [bound] d u = (.ok (some [target]), u) := by
  have hun : resolvedUnique [bound] [] d u = (.ok [target], u) := by
    rw [resolvedUnique, bind_ok d u (resolved_of_stands h d)]
    rfl
  have hr : greatestLowerBound [bound] d u = (.ok (if 1 < ([target].filter fun id =>
      (u.type id).isClassLike && !isInterfaceType u id).length then none else some [target]), u) := by
    rw [greatestLowerBound, bind_ok d u hun]
    rfl
  have ho : ([target].filter fun id => (u.type id).isClassLike && !isInterfaceType u id).length ≤ 1 :=
    List.length_filter_le ..
  rw [hr, if_neg (Nat.not_lt.2 ho)]

section

variable (hw : w.Sound) (hroot : w.RootKnown root) (hsteps : w.searchSteps ≤ d.fuel)

include hw hroot hsteps

theorem boundCapture_delivers (hu : w.Enlarges u) (hv : ∀ id ∈ var, w.Knows id)
    (ha : w.type argument = .wildcard wildcard) (hsee : w.BoundsSeen root var wildcard) :
    (boundCapture s root var argument captured).Delivers d u fun _ v => ∃ upper lower,
      w.Covers root wildcard upper lower ∧ v = u.bounding captured upper lower := by
  have hk : ∀ id ∈ (TypeInfo.wildcard wildcard).components, w.Knows id := fun id hid =>
    hw.wellBuilt.known argument id (by rwa [ha])
  have hcl : ∀ id ∈ w.variableBounds root var, w.Knows id := fun id hid => by
    obtain ⟨_, hi⟩ := Option.isSome_iff_exists.1 (hsee.declared id hid)
    exact lt_size_of_class? hi
  have hse : ∀ upper lower, w.Covers root wildcard (if upper.isEmpty then [root] else upper) lower →
      (modify (·.modifyType captured <| .mapCapture fun info =>
        { info with upperBounds := if upper.isEmpty then [root] else upper, lowerBound := lower }) :
          Query Unit).Delivers d u fun _ v => ∃ upper lower,
            w.Covers root wildcard upper lower ∧ v = u.bounding captured upper lower :=
    fun upper lower hco => ⟨(), _, rfl, _, _, hco, rfl⟩
  refine .step (declaredBounds_still hu.toExtends (by rw [searchSteps] at hsteps; omega) hv hsee.declared) (.get ?_)
  rw [hu.type argument (lt_size_of_type_ne (by rw [ha]; simp)), ha]
  dsimp only [TypeInfo.wildcard?]
  split
  · next bound hki hb =>
    have hl : ∀ other, wildcard.kind = .lower → wildcard.bound = some other → none = some other ∧
        ∃ target, w.Stands other target ∧ w.base? target = none := fun _ hl _ => by
      rw [hki] at hl
      cases hl
    obtain ⟨hn, target, hs, ht⟩ | hcl' := hsee.upper bound hki hb
    · obtain ⟨hot, hd⟩ := List.append_eq_nil_iff.1 hn
      rw [hot, hd]
      refine .step (greatestLowerBound_single (hu.stands (hk bound (by simp [hb])) hs))
        (hse [target] none ⟨fun other _ ho => ?_, hl⟩)
      cases hb.symm.trans ho
      exact ⟨target, hs, ht, by simpa using ht.knows, reveals_single hroot ht⟩
    have hkn : ∀ id ∈ bound :: wildcard.otherBounds ++ w.variableBounds root var, w.Knows id := fun id hid => by
      obtain ⟨_, hi, -⟩ := (hcl' id hid).class?
      exact lt_size_of_class? hi
    have hde : u.Descends = w.Descends := by
      funext sub sup
      rw [Descends, Descends, hu.isObject_eq, hu.inherits_eq hw]
    classical
    have hcom : ComparesAs d (u = ·) (bound :: wildcard.otherBounds ++ w.variableBounds root var)
        fun a b => decide (w.Descends a b) :=
      comparesAs_classes hu.sound (by rwa [hu.searchSteps_eq hw hu.size]) hu.comparing
        (fun id hid => (hu.hierarchyKnown_iff hw).2 (hcl' id hid)) (by simp [hde])
    have hr := mapM_still (f := resolved) (d := d) (w := u) id fun id hid => by
      obtain ⟨_, hi, -⟩ := (hcl' id hid).class?
      exact resolved_apply ((hu.class?_eq id).trans hi) d
    rw [List.map_id] at hr
    refine .bind (greatestLowerBound_delivers hr hcom rfl) ?_
    rintro meet _ ⟨rfl, hme⟩
    rw [List.filter_congr (q := fun id => (w.type id).isClassLike && !isInterfaceType w id) fun id hid => ?_] at hme
    · obtain ⟨hsu, hne, hre⟩ := reveals_meet hroot hcl' (by simp) hme
      refine hse _ none ⟨fun other _ ho => ?_, hl⟩
      cases hb.symm.trans ho
      rw [if_neg (by simpa using hne)]
      obtain ⟨info, hi, -⟩ := (hcl' bound (.head _)).class?
      have hc : w.IsBound bound := isBound_class (by rw [hi]; rfl)
      exact ⟨bound, hc.stands, hc, fun id hid => hkn id (hsu hid), hre⟩
    · have hm := hkn id (List.mem_eraseDups.1 (List.mem_filter.1 hid).1)
      rw [hu.type id hm, show isInterfaceType u id = isInterfaceType w id from hu.isInterfaceBound_eq hm]
  · next bound hki hb =>
    refine hse _ (some bound) ⟨fun _ hup _ => ?_, fun other hl ho => ?_⟩
    · rw [hki] at hup
      cases hup
    · cases hb.symm.trans ho
      exact ⟨rfl, hsee.lower bound hki hb⟩
  · next hup hl =>
    exact hse _ none ⟨fun bound hki hb => absurd hb (hup bound hki), fun bound hki hb => absurd hb (hl bound hki)⟩

theorem boundAll_delivers (hd : d.Orderly) {pairs : List ((TypeId × TypeId) × Nat)}
    (hva : ∀ id ∈ vars, w.Knows id) (hs : s.Known u) (hu : w.Enlarges u)
    (hpa : ∀ pair ∈ pairs, pair.1.1 ≠ pair.1.2 → ¬ w.Knows pair.1.2 ∧ (∃ info, u.type pair.1.2 = .capture info) ∧
      ∃ wildcard, w.type pair.1.1 = .wildcard wildcard ∧ w.BoundsSeen root vars[pair.2]? wildcard)
    (hap : pairs.Pairwise fun pair other => other.1.1 ≠ other.1.2 → pair.1.2 ≠ other.1.2) :
    (pairs.forM fun ((argument, captured), rank) => do
      if argument ≠ captured then
        boundCapture s root vars[rank]? argument captured : Query Unit).Delivers d u fun _ v =>
        w.Enlarges v ∧ (∀ id, (∀ pair ∈ pairs, pair.1.1 ≠ pair.1.2 → id ≠ pair.1.2) → v.type id = u.type id) ∧
        ∀ pair ∈ pairs, pair.1.1 ≠ pair.1.2 → ∃ wildcard info, w.type pair.1.1 = .wildcard wildcard ∧
          v.type pair.1.2 = .capture info ∧ w.Covers root wildcard info.upperBounds info.lowerBound := by
  induction pairs generalizing u with
  | nil => exact .pure ⟨hu, fun _ _ => rfl, by simp⟩
  | cons pair rest ih =>
    obtain ⟨⟨argument, captured⟩, rank⟩ := pair
    obtain ⟨hf, hre⟩ := List.pairwise_cons.1 hap
    have hpa' := fun pair hp => hpa pair (.tail _ hp)
    rw [List.forM]
    by_cases heq : argument = captured
    · subst heq
      refine .step (by dsimp only; rw [if_neg (by simp)]; rfl) ((ih hs hu hpa' hre).mono ?_)
      rintro _ v ⟨hv, hsa, ha⟩
      refine ⟨hv, ?_, ?_⟩
      · exact fun id hid => hsa id fun pair hp => hid pair (.tail _ hp)
      · exact List.forall_mem_cons.2 ⟨fun hne => absurd rfl hne, ha⟩
    obtain ⟨hn, ⟨info, hi⟩, wildcard, hwi, hse⟩ := hpa _ (.head _) heq
    obtain ⟨_, v, hr, upper, lower, hco, rfl⟩ := boundCapture_delivers (s := s) hw hroot hsteps hu
      (fun id hid => hva id (List.mem_of_getElem? hid)) hwi hse
    obtain ⟨_, hi', -⟩ := hroot.known.class?
    obtain ⟨hc, -⟩ := boundCapture_orderly vars[rank]? argument captured u hu.sound
      ⟨hs, Nat.lt_of_lt_of_le (lt_size_of_class? hi') hu.size⟩ d hd
    rw [hr] at hc
    have ht : (u.bounding captured upper lower).type captured = .capture
      { info with upperBounds := upper, lowerBound := lower } := by
      rw [type_bounding, if_pos rfl, hi]
      rfl
    have ho : ∀ id, id ≠ captured → (u.bounding captured upper lower).type id = u.type id := fun id hid => by
      rw [type_bounding, if_neg hid]
    have hca : w.Enlarges (u.bounding captured upper lower) :=
      ⟨hu.bounding hn, hc.sound hu.sound, hu.size.trans hc.grows.size, hu.comparing⟩
    refine .step (by dsimp only; rw [if_pos heq]; exact hr) ((ih (Stays.grows hc.grows hs) hca ?_ hre).mono ?_)
    · intro pair hp hne
      obtain ⟨hn', ⟨info', hi'⟩, hse'⟩ := hpa' pair hp hne
      exact ⟨hn', ⟨info', (ho _ (hf pair hp hne).symm).trans hi'⟩, hse'⟩
    · rintro _ v ⟨hv, hsa, ha⟩
      refine ⟨hv, fun id hid => ?_, List.forall_mem_cons.2 ⟨fun _ =>
        ⟨wildcard, { info with upperBounds := upper, lowerBound := lower }, hwi, ?_, hco⟩, ha⟩⟩
      · exact (hsa id fun pair hp => hid pair (.tail _ hp)).trans (ho id (hid _ (.head _) heq))
      · exact (hsa captured fun pair hp hne => hf pair hp hne).trans ht

theorem boundCaptures_delivers (hf : w.Formed) (hd : d.Orderly) {generic : TypeId}
    {arguments newArguments : List TypeId} (hu : w.Enlarges u) (hk : ∀ id ∈ newArguments, u.Knows id)
    (hpa : ∀ pair ∈ arguments.zip newArguments, pair.1 ≠ pair.2 → ¬ w.Knows pair.2 ∧
      (∃ info, u.type pair.2 = .capture info) ∧ ∃ wildcard, w.type pair.1 = .wildcard wildcard)
    (hap : (arguments.zip newArguments).Pairwise fun pair other => other.1 ≠ other.2 → pair.2 ≠ other.2)
    (hse : ∀ (rank : Nat) argument wildcard, arguments[rank]? = some argument → w.type argument = .wildcard wildcard →
      w.BoundsSeen root (w.parameters generic)[rank]? wildcard) :
    (boundCaptures generic arguments newArguments).Delivers d u fun _ v => w.Enlarges v ∧
      (∀ id, (∀ pair ∈ arguments.zip newArguments, pair.1 ≠ pair.2 → id ≠ pair.2) → v.type id = u.type id) ∧
      ∀ pair ∈ arguments.zip newArguments, pair.1 ≠ pair.2 → ∃ wildcard info, w.type pair.1 = .wildcard wildcard ∧
        v.type pair.2 = .capture info ∧ w.Covers root wildcard info.upperBounds info.lowerBound := by
  have hob : objectType d u = (.ok root, u) := by
    rw [objectType, get_bind_apply, hu.object, hroot.object]
    rfl
  have hva : ∀ id ∈ w.parameters generic, w.Knows id := by
    intro id hid
    rw [parameters] at hid
    cases hi : w.class? generic with
    | none => rw [hi] at hid; cases hid
    | some info =>
      rw [hi] at hid
      exact (hf.parameters generic info hi id hid).lt_size
  refine .get ?_
  rw [hu.class?_eq]
  refine .step hob ?_
  refine (boundAll_delivers hw hroot hsteps hd hva (Substitution.Known.ofPairs _ hk) hu (fun pair hp hne => ?_)
    ?_).mono ?_
  · obtain ⟨⟨argument, captured⟩, rank⟩ := pair
    have hg := List.mem_zipIdx_iff_getElem?.1 hp
    obtain ⟨hn, hc, wildcard, hwi⟩ := hpa _ (List.mem_of_getElem? hg) hne
    have har := (List.getElem?_zip_eq_some.1 hg).1
    exact ⟨hn, hc, wildcard, hwi, hse rank argument wildcard har hwi⟩
  · rw [← List.zipIdx_map_fst 0 (arguments.zip newArguments), List.pairwise_map] at hap
    exact hap
  · rintro _ v ⟨hv, hs, ha⟩
    refine ⟨hv, fun id hid => hs id fun pair hp => hid pair.1 (List.fst_mem_of_mem_zipIdx hp), fun pair hp hne => ?_⟩
    obtain ⟨rank, hr⟩ := List.mem_iff_getElem?.1 hp
    exact ha (pair, rank) (List.mem_zipIdx_iff_getElem?.2 hr) hne

end

variable {id target generic : TypeId} {info : CaptureInfo} {enclosing : Option TypeId}
  {arguments newArguments : List TypeId}

theorem stands_capture (ht : u.type id = .capture info) : u.Stands id id := stands_self (by rw [ht]; rfl)

theorem supertypes_capture (ht : u.type id = .capture info) (hob : u.object = some root) (hf : d.fuel ≠ 0) :
    supertypes id d u = (.ok (u.shown root info.upperBounds), u) := by
  obtain ⟨fuel, hf⟩ := Nat.exists_eq_succ_of_ne_zero hf
  have hr := resolved_of_stands (stands_capture ht) d
  have hs : superclass id d u = (.ok (some ((info.upperBounds.find? (isClassBound u)).getD root)), u) := by
    change superclassFrom d.fuel id d u = _
    rw [hf, superclassFrom, bind_ok d u hr, get_bind_apply, ht]
    dsimp only
    cases info.upperBounds.find? (isClassBound u) with
    | some bound => rfl
    | none =>
      dsimp only
      rw [objectType, map_eq_bind, bind_assoc, get_bind_apply, hob]
      rfl
  have hsu : superInterfaces id d u = (.ok (info.upperBounds.filter (isInterfaceBound u)), u) := by
    change superInterfacesFrom d.fuel id d u = _
    rw [hf, superInterfacesFrom, bind_ok d u hr, get_bind_apply, ht]
    rfl
  rw [supertypes, bind_ok d u hs, bind_ok d u hsu]
  rfl

theorem compatibleFrom_self (hu : u.Sound) (h : u.Stands id target) (fuel : Nat) :
    compatibleFrom (fuel + 1) target id d u = (.ok true, u) := by
  have hs : u.Stands target target := .inl ⟨h.ne_placeholder hu.registered, rfl⟩
  rw [compatibleFrom, bind_ok d u (resolved_of_stands hs d), bind_ok d u (resolved_of_stands h d), if_pos rfl]
  rfl

section

variable (hu : u.Sound) (hsteps : u.searchSteps ≤ d.fuel)

include hu hsteps

theorem compatibleFrom_apart {sub erased : TypeId} (hsu : u.HierarchyKnown sub) (hta : u.IsBound target)
    (hc : u.class? target = none) (he : u.erasureClass? target = some erased)
    (hno : ¬ ReflTransGen u.Inherits sub erased) (hob : u.isObject target = false)
    (hn : (sub, target) ∉ u.comparing) (fuel : Nat) :
    (compatibleFrom (fuel + 1) sub target).Delivers d u fun ans v => u = v ∧ ans = false := by
  obtain ⟨info, hi, -⟩ := hsu.class?
  have hs := class?_eq_some.1 hi
  have hne : sub ≠ target := fun heq => by
    rw [heq, hc] at hi
    cases hi
  rw [compatibleFrom]
  refine .step (resolved_apply hi d) (.step (resolved_of_stands hta.stands d) ?_)
  rw [if_neg hne]
  refine .get ?_
  rw [hs, hta.kindCompatible? (.inl rfl), hob]
  let noted : World := { u with comparing := (sub, target) :: u.comparing }
  have hnot : noted.Sound := hu.move (.aside { Apart.refl u with })
  have hcl : (classCompatible (compatibleFrom fuel) sub target).Delivers d noted fun ans v =>
      u = { v with comparing := v.comparing.erase (sub, target) } ∧ ans = false := by
    refine .get ?_
    rw [show noted.erasureClass? target = some erased from he]
    refine .bind (asSuperType_delivers hnot (.refl noted) hsu hsteps) ?_
    rintro found _ ⟨rfl, -, hso⟩
    cases found with
    | none => exact .pure ⟨by simp [noted], rfl⟩
    | some => exact absurd (hso.1 rfl) hno
  refine guarded_delivers hn (.get ?_)
  obtain ⟨_, ht⟩ | ⟨_, _, _, ht⟩ | ⟨_, _, ht⟩ | ⟨_, ht⟩ := hta.cases
  · cases hc.symm.trans (class?_eq_some.2 ht)
  on_goal 3 =>
    rw [erasureClass?, ht] at he
    cases he
  all_goals
    rw [show noted.type target = _ from ht]
    refine .get ?_
    rw [show noted.type sub = _ from hs]
    exact hcl

theorem compatibleFrom_capture (ht : u.type id = .capture info) (hob : u.object = some root)
    (hta : u.IsBound target) (hr : u.Reveals root info.upperBounds target)
    (hno : ∀ pair ∈ u.comparing, u.class? pair.1 = none ∧ pair.1 ≠ id) (hs : u.Stands bound target)
    (fuel : Nat) : (compatibleFrom (fuel + 2) id bound).Delivers d u fun ans v => u = v ∧ ans = true := by
  have hc : u.class? id = none := by rw [class?, ht]; rfl
  rw [compatibleFrom]
  refine .step (resolved_of_stands (stands_capture ht) d) (.step (resolved_of_stands hs d) ?_)
  refine .ite (fun _ => .pure ⟨rfl, rfl⟩) fun _ => .get ?_
  rw [ht, hta.kindCompatible? (.inr rfl)]
  refine .ite (fun _ => .pure ⟨rfl, rfl⟩) fun hp => ?_
  let noted : World := { u with comparing := (id, target) :: u.comparing }
  have hso : noted.Sound := hu.move (.aside { Apart.refl u with })
  have hf : ∀ sub, u.HierarchyKnown sub → (sub, target) ∉ noted.comparing := by
    intro sub hsu hm
    obtain ⟨_, hi, -⟩ := hsu.class?
    obtain heq | hm := List.mem_cons.1 hm
    · cases heq
      cases hc.symm.trans hi
    · cases (hno _ hm).1.symm.trans hi
  have hb : (boundCompatible (compatibleFrom (fuel + 1)) id target).Delivers d noted fun ans v =>
      u = { v with comparing := v.comparing.erase (id, target) } ∧ ans = true := by
    refine .get ?_
    rw [show noted.type id = _ from ht]
    refine .step (supertypes_capture (u := noted) ht hob (by rw [searchSteps] at hsteps; omega)) ?_
    refine (Delivers.anyM (w := noted) (fun _ (_ : noted = _) => rfl) Eq.trans
      (p := fun sub => sub = target ∨ (u.class? target).isSome ∧ u.Descends sub target) ?_ rfl).mono ?_
    · rintro sub hsu _ rfl
      have hne : sub ≠ id := by
        rintro rfl
        obtain rfl | ⟨hk, -⟩ := hr.1 sub hsu
        · obtain ⟨_, h⟩ | ⟨_, _, _, h⟩ | ⟨_, _, h⟩ | ⟨_, h⟩ := hta.cases <;> cases ht.symm.trans h
        · obtain ⟨_, hi, -⟩ := hk.class?
          cases hc.symm.trans hi
      rw [if_neg hne]
      obtain rfl | ⟨hk, hca⟩ := hr.1 sub hsu
      · exact ⟨true, noted, compatibleFrom_self hso hta.stands fuel, rfl, by simp⟩
      by_cases hc' : (u.class? target).isSome
      · refine (compatibleFrom_classes hso hsteps hk hc' (hf sub hk) fuel).mono ?_
        rintro ans v ⟨hv, hif⟩
        refine ⟨hv, hif.trans ⟨fun h => .inr ⟨hc', h⟩, ?_⟩⟩
        rintro (rfl | ⟨-, h⟩)
        · exact .inr .refl
        · exact h
      obtain ⟨erased, he, hn⟩ := hca.resolve_left hc'
      refine (compatibleFrom_apart hso hsteps hk hta (Option.not_isSome_iff_eq_none.1 hc') he hn
        (Bool.eq_false_of_not_eq_true hp) (hf sub hk) fuel).mono ?_
      rintro _ v ⟨hv, rfl⟩
      refine ⟨hv, ?_⟩
      obtain ⟨_, hi, -⟩ := hk.class?
      have hne : sub ≠ target := fun heq => hc' (by rw [← heq, hi]; rfl)
      simp [hne, hc']
    · rintro ans _ ⟨rfl, hif⟩
      exact ⟨by simp [noted], hif.2 hr.2⟩
  refine guarded_delivers (fun hm => (hno _ hm).2 rfl) (.get ?_)
  obtain ⟨_, ht'⟩ | ⟨_, _, _, ht'⟩ | ⟨_, _, ht'⟩ | ⟨_, ht'⟩ := hta.cases <;> rw [show noted.type target = _ from ht']
  case inr.inr.inr => exact hb
  all_goals
    refine .get ?_
    rw [show noted.type id = _ from ht]
    exact hb

omit hsteps in
theorem compatibleFrom_lower (ht : u.type id = .capture info) (hl : info.lowerBound = some bound)
    (hs : u.Stands bound target) (hb : u.base? target = none) (hn : ∀ pair ∈ u.comparing, pair.2 ≠ id) (fuel : Nat) :
    (compatibleFrom (fuel + 2) bound id).Delivers d u fun ans v => u = v ∧ ans = true := by
  have hk : kindCompatible? (u.type target) (.capture info) = none ∨
      kindCompatible? (u.type target) (.capture info) = some true := by
    rw [base?] at hb
    cases hta : u.type target <;> first | exact .inl rfl | exact .inr rfl | (rw [hta] at hb; cases hb)
  rw [compatibleFrom]
  refine .step (resolved_of_stands hs d) (.step (resolved_of_stands (stands_capture ht) d) ?_)
  refine .ite (fun _ => .pure ⟨rfl, rfl⟩) fun _ => .get ?_
  rw [ht]
  obtain hk | hk := hk <;> rw [hk]
  · refine .ite (fun _ => .pure ⟨rfl, rfl⟩) fun _ => guarded_delivers (fun hm => hn _ hm rfl) (.get ?_)
    let noted : World := { u with comparing := (target, id) :: u.comparing }
    have hso : noted.Sound := hu.move (.aside { Apart.refl u with })
    rw [show noted.type id = _ from ht]
    dsimp only
    rw [hl]
    refine .step (compatibleFrom_self hso hs fuel) (.pure ⟨by simp [noted], rfl⟩)
  · exact .pure ⟨rfl, rfl⟩

end

theorem asSuperType_self (hs : u.Stands id id) (he : u.erasureClass? id = some generic) (hf : d.fuel ≠ 0) :
    asSuperType id generic d u = (.ok (some id), u) := by
  obtain ⟨fuel, hf⟩ := Nat.exists_eq_succ_of_ne_zero hf
  have hg : (do return (← get).erasureClass? id == some generic : Query Bool) d u = (.ok true, u) := by
    rw [get_bind_apply, he, beq_self_eq_true]
    rfl
  rw [asSuperType, bind_ok d u (resolved_of_stands hs d)]
  change walkFrom _ _ _ d.fuel [] [id] d u = _
  rw [hf, walkFrom, bind_ok d u hg]
  rfl

section

variable (hw : w.Sound) (hsteps : w.searchSteps ≤ d.fuel) (hob : w.object = some root)

include hw hsteps hob

theorem containsBy_capture (hu : w.Extends u) (hsou : u.Sound) (hsi : w.types.size ≤ u.types.size)
    (ha : w.type argument = .wildcard wildcard) (hc : u.type captured = .capture info)
    (hco : w.Covers root wildcard info.upperBounds info.lowerBound)
    (hn : ∀ pair ∈ u.comparing, u.class? pair.1 = none ∧ pair.1 ≠ captured ∧ pair.2 ≠ captured) (fuel : Nat) :
    (containsBy (compatibleFrom (fuel + 2)) argument captured).Delivers d u fun ans v => u = v ∧ ans = true := by
  have hk : w.Knows argument := lt_size_of_type_ne (by rw [ha]; simp)
  have hs : u.Stands argument argument := stands_self (by rw [hu.type argument hk, ha]; rfl)
  have hst' : u.searchSteps ≤ d.fuel := by rwa [hu.searchSteps_eq hw hsi]
  have hb : ∀ bound, wildcard.bound = some bound → w.Knows bound := fun bound hb =>
    hw.wellBuilt.known argument bound (by simp [ha, hb])
  rw [containsBy]
  refine .step (resolved_of_stands hs d) (.step (resolved_of_stands (stands_capture hc) d) ?_)
  refine .ite (fun _ => .pure ⟨rfl, rfl⟩) fun _ => .get ?_
  rw [hu.type argument hk, ha, hc]
  dsimp only [TypeInfo.wildcard?]
  cases hso : wildcard.bound with
  | none => cases wildcard.kind <;> exact .pure ⟨rfl, rfl⟩
  | some bound =>
    cases hki : wildcard.kind with
    | unbounded => exact .pure ⟨rfl, rfl⟩
    | upper =>
      obtain ⟨target, hta, hi, hup, hr⟩ := hco.upper bound hki hso
      refine compatibleFrom_capture hsou hst' hc (hu.object.trans hob) (hu.isBound hi)
        ((hu.reveals_iff hw hup hi.knows).2 hr) (fun pair hp => ?_) (hu.stands (hb bound hso) hta)
        fuel
      exact ⟨(hn pair hp).1, (hn pair hp).2.1⟩
    | lower =>
      obtain ⟨hl, target, hta, hba⟩ := hco.lower bound hki hso
      have hk' : w.Knows target := lt_size_of_type_ne fun ht => by
        rw [base?, ht] at hba
        cases hba
      refine compatibleFrom_lower hsou hc hl (hu.stands (hb bound hso) hta) ?_ (fun pair hp => (hn pair hp).2.2) fuel
      rw [base?, hu.type target hk']
      exact hba

theorem compatible_captured (hu : w.Enlarges u) (hid : u.type id = .parameterized generic arguments enclosing)
    (hc : u.type captured = .parameterized generic newArguments enclosing)
    (hl : newArguments.length = arguments.length)
    (ha : ∀ pair ∈ arguments.zip newArguments, (pair.1 = pair.2 ∧ ∃ target, u.Stands pair.1 target) ∨
      ∃ wildcard info, w.type pair.1 = .wildcard wildcard ∧ u.type pair.2 = .capture info ∧
        w.Covers root wildcard info.upperBounds info.lowerBound)
    (hf : 3 ≤ d.fuel) : (compatible captured id).Delivers d u fun ans v => u = v ∧ ans = true := by
  obtain ⟨fuel, hd⟩ := Nat.exists_eq_add_of_le' hf
  have hs : ∀ {other arguments}, u.type other = .parameterized generic arguments enclosing → u.Stands other other :=
    fun ht => stands_self (by rw [ht]; rfl)
  refine .fuel ?_
  rw [hd, compatibleFrom]
  refine .step (resolved_of_stands (hs hc) d) (.step (resolved_of_stands (hs hid) d) ?_)
  refine .ite (fun _ => .pure ⟨rfl, rfl⟩) fun _ => .get ?_
  rw [hc, hid]
  refine .ite (fun _ => .pure ⟨rfl, rfl⟩) fun _ => guarded_delivers (by simp [hu.comparing]) (.get ?_)
  let noted : World := { u with comparing := (captured, id) :: u.comparing }
  have hn : w.Extends noted := ⟨hu.type, hu.added, hu.object⟩
  have hso : noted.Sound := hu.sound.move (.aside { Apart.refl u with })
  rw [show noted.type id = _ from hid]
  refine .get ?_
  rw [show noted.type captured = _ from hc]
  refine .get ?_
  rw [erasureClass?, show noted.type id = _ from hid]
  refine .step (asSuperType_self (u := noted) (hs hc) ?_ (by omega)) (.get ?_)
  · rw [erasureClass?, show noted.type captured = _ from hc]
  rw [show noted.type id = _ from hid, show noted.type captured = _ from hc]
  dsimp only
  rw [if_neg (by simpa using hl)]
  refine (Delivers.allM (w := noted) (fun _ (_ : noted = _) => rfl) Eq.trans (p := fun _ => True) ?_ rfl).mono ?_
  · rintro ⟨argument, new⟩ hp _ rfl
    obtain ⟨heq, target, hta⟩ | ⟨wildcard, info, hwi, hi, hco⟩ := ha _ hp
    · dsimp only at heq hta
      subst heq
      have hr : resolved argument d noted = (.ok target, noted) := resolved_of_stands (w := noted) hta d
      refine .step hr (.step hr ?_)
      rw [if_pos rfl]
      exact .pure ⟨rfl, by simp⟩
    refine (containsBy_capture hw hsteps hob hn hso hu.size hwi hi hco ?_ fuel).mono
      fun ans v h => ⟨h.1, by simp [h.2]⟩
    intro pair hp
    obtain rfl : pair = (captured, id) := by simpa [noted, hu.comparing] using hp
    refine ⟨by rw [class?, show noted.type captured = _ from hc]; rfl, ?_, ?_⟩ <;> rintro rfl
    · cases hi.symm.trans hc
    · cases hi.symm.trans hid
  · rintro ans _ ⟨rfl, hif⟩
    exact ⟨by simp [noted], hif.2 fun _ _ => trivial⟩

end

end Query

namespace World

variable {w : World} {d : Demand} {id generic root : TypeId} {arguments : List TypeId} {enclosing : Option TypeId}
  {position : Nat}

/-- A type whose wildcards have bounds that can be seen is captured without loading anything, and its capture can be
assigned to it from then on. -/
theorem Reachable.compatible_capture (hw : w.Reachable) (hequipped : w.Equipped) (hroot : w.RootKnown root)
    (hd : d.Orderly) (hfuel : w.searchSteps + 2 ≤ d.fuel)
    (htype : w.type id = .parameterized generic arguments enclosing)
    (hloaded : ∀ argument ∈ arguments, ∃ target, w.Stands argument target)
    (hseen : ∀ (rank : Nat) argument wildcard, arguments[rank]? = some argument → w.type argument = .wildcard wildcard →
      w.BoundsSeen root (w.parameters generic)[rank]? wildcard)
    (hnew : w.captures.find? (id, position) = none) :
    ∃ captured v, capture id position d w = (.ok captured, v) ∧
      (v.CapturedAs position id captured ∨ captured = id) ∧ (compatible captured id).Repeats d v true := by
  have hsound := hw.sound
  have hsteps : w.searchSteps ≤ d.fuel := by omega
  have hself : w.Stands id id := stands_self (by rw [htype]; rfl)
  have hparts : ∀ argument ∈ arguments, w.Knows argument := fun argument hmem =>
    hsound.wellBuilt.known id argument (by rw [htype]; exact List.mem_append_left _ hmem)
  have hid : w.Knows id := lt_size_of_type_ne (by rw [htype]; simp)
  by_cases hany : (arguments.any fun argument => (w.type argument).wildcard?.isSome) = true
  · obtain ⟨newArguments, captured, w₁, hcourse, hknown, -, happly, hextends, hmade, hcaptures, hnew', hapart⟩ :=
      captureAnew_apply hsound htype hnew
    have hw₁ : w.Enlarges w₁ :=
      ⟨hextends, hcourse.sound hsound, hcourse.grows.size, hcourse.level.comparing.trans hw.comparing⟩
    have hcaptured : ∀ pair ∈ arguments.zip newArguments, pair.1 ≠ pair.2 →
        (∃ wildcard, w.type pair.1 = .wildcard wildcard) ∧ ∃ info, w₁.type pair.2 = .capture info := by
      rintro ⟨argument, new⟩ hpair hne
      rcases (List.forall₂_iff_zip.1 hcaptures).2 hpair with ⟨hwildcard, sequence, hcapture⟩ | ⟨-, -, heq⟩
      · obtain ⟨info, hinfo, -⟩ := TypeInfo.sort_eq_capture.1 hcapture
        rw [hextends.type argument (hparts argument (List.of_mem_zip hpair).1),
          ← TypeInfo.isSome_wildcard?] at hwildcard
        refine ⟨?_, info, hinfo⟩
        cases htype : w.type argument <;> rw [htype] at hwildcard <;> first | exact ⟨_, rfl⟩ | cases hwildcard
      · exact absurd heq.symm hne
    obtain ⟨_, v, hrun, hv, hsame, hall⟩ := boundCaptures_delivers hsound hroot hsteps hw.formed hd hw₁ hknown
      (fun pair hpair hne => ⟨hnew' pair hpair hne, (hcaptured pair hpair hne).2, (hcaptured pair hpair hne).1⟩)
      hapart hseen
    obtain ⟨hbound, -⟩ := boundCaptures_orderly generic arguments newArguments w₁ hw₁.sound hknown d hd
    rw [hrun] at hbound
    have hmade' : v.type captured = .parameterized generic newArguments enclosing := by
      refine (hsame captured ?_).trans hmade
      rintro pair hpair hne rfl
      obtain ⟨-, info, hinfo⟩ := hcaptured pair hpair hne
      cases hmade.symm.trans hinfo
    have htype' := (hv.type id hid).trans htype
    have hcapture : capture id position d w = (.ok captured, v) := by
      rw [capture, bind_ok d w (resolved_of_stands hself d), get_bind_apply, htype]
      dsimp only
      rw [hany, hnew]
      dsimp only
      rw [if_neg (by simp), happly, bind_ok d w₁ hrun]
      rfl
    refine ⟨captured, v, hcapture, .inl ⟨generic, arguments, newArguments, enclosing, htype', hmade', ?_⟩, ?_⟩
    · exact hcaptures.imp fun _ _ h => h.grows hbound.grows
    have hknows : v.Knows captured := lt_size_of_type_ne (by rw [hmade']; simp)
    refine (compatible_replays v hv.sound (hequipped.grows (hcourse.grows.trans hbound.grows) hv.object) captured id
      hknows (hid.grows (hcourse.grows.trans hbound.grows))).repeats ?_
    have hpairs : ∀ pair ∈ arguments.zip newArguments, (pair.1 = pair.2 ∧ ∃ target, v.Stands pair.1 target) ∨
        ∃ wildcard info, w.type pair.1 = .wildcard wildcard ∧ v.type pair.2 = .capture info ∧
          w.Covers root wildcard info.upperBounds info.lowerBound := by
      intro pair hpair
      by_cases heq : pair.1 = pair.2
      · have hmem := (List.of_mem_zip (a := pair.1) (b := pair.2) hpair).1
        obtain ⟨target, htarget⟩ := hloaded pair.1 hmem
        exact .inl ⟨heq, target, hv.stands (hparts pair.1 hmem) htarget⟩
      · exact .inr (hall pair hpair heq)
    have hdepth : 3 ≤ d.fuel := by
      rw [searchSteps] at hfuel
      omega
    obtain ⟨_, _, hrun, -, rfl⟩ := compatible_captured (d := .idle d.fuel) hsound hsteps hroot.object hv htype' hmade'
      hcaptures.length_eq.symm hpairs hdepth
    rw [hrun]
  have hrun : capture id position d w = (.ok id, w) := by
    rw [capture, bind_ok d w (resolved_of_stands hself d), get_bind_apply, htype]
    dsimp only
    rw [Bool.eq_false_of_not_eq_true hany]
    rfl
  refine ⟨id, w, hrun, .inr rfl, (compatible_replays w hsound hequipped id id hid hid).repeats ?_⟩
  obtain ⟨fuel, hfuel⟩ := Nat.exists_eq_succ_of_ne_zero (n := d.fuel) (by omega)
  change (compatibleFrom d.fuel id id (.idle d.fuel) w).1 = _
  rw [hfuel, compatibleFrom_self hsound hself]

def vaultClassPath : ClassPath := .ofClasses
  [{ name := "java/lang/Cloneable" }, { name := "java/io/Serializable" },
   { name := "p/Vault", signature := "<T:Lp/Item;U:Ljava/lang/Object;>Ljava/lang/Object;" }, { name := "p/Item" },
   { name := "p/Gem", superclass := "p/Item" }]

def vaultWorld : World :=
  (initial {} vaultClassPath {}).after
    [.getType ⟨["p", "Vault"]⟩, .getType ⟨["p", "Item"]⟩, .getType ⟨["p", "Gem"]⟩, .getType WellKnown.cloneable,
      .getType WellKnown.serializable, .superclass ⟨14⟩, .superInterfaces ⟨14⟩, .superclass ⟨15⟩, .superInterfaces ⟨15⟩,
      .superclass ⟨16⟩, .superInterfaces ⟨16⟩, .wildcard (some ⟨10⟩) 0 (some ⟨16⟩) [] .upper, .arrayType ⟨15⟩ 1,
      .wildcard (some ⟨10⟩) 1 (some ⟨20⟩) [] .lower, .parameterizedType ⟨10⟩ [⟨19⟩, ⟨21⟩] none]

theorem compatible_capture_vault :
    vaultWorld.type ⟨22⟩ = .parameterized ⟨10⟩ [⟨19⟩, ⟨21⟩] none ∧ vaultWorld.type ⟨20⟩ = .array ⟨15⟩ 1 ∧
      ∃ captured v, capture ⟨22⟩ 0 .standard vaultWorld = (.ok captured, v) ∧
        (v.CapturedAs 0 ⟨22⟩ captured ∨ captured = ⟨22⟩) ∧ (compatible captured ⟨22⟩).Repeats .standard v true := by
  have hread : vaultWorld.isEquipped = true ∧ vaultWorld.isRootKnown ⟨14⟩ = true ∧
      vaultWorld.searchSteps + 2 ≤ Demand.standard.fuel ∧ vaultWorld.captures.find? (⟨22⟩, 0) = none ∧
      vaultWorld.type ⟨22⟩ = .parameterized ⟨10⟩ [⟨19⟩, ⟨21⟩] none ∧
      vaultWorld.type ⟨19⟩ = .wildcard ⟨some ⟨10⟩, 0, some ⟨16⟩, [], .upper⟩ ∧
      vaultWorld.type ⟨21⟩ = .wildcard ⟨some ⟨10⟩, 1, some ⟨20⟩, [], .lower⟩ ∧ vaultWorld.type ⟨20⟩ = .array ⟨15⟩ 1 ∧
      vaultWorld.parameters ⟨10⟩ = [⟨11⟩, ⟨12⟩] ∧ vaultWorld.variableBounds ⟨14⟩ (some ⟨11⟩) = [⟨15⟩] ∧
      vaultWorld.variableBounds ⟨14⟩ (some ⟨12⟩) = [] ∧
      vaultWorld.isClosed (·.supertypesKnown) [⟨14⟩, ⟨15⟩, ⟨16⟩] = true := by
    decide +kernel
  obtain ⟨hequipped, hroot, hsteps, hnew, htype, hupper, hlower, harray, hparameters, hbounds, hbounds',
    hclosed⟩ := hread
  have hreach : vaultWorld.Reachable := (Reachable.initial {} vaultClassPath {}).after _
  have hknown : ∀ id ∈ ([⟨16⟩, ⟨15⟩] : List TypeId), vaultWorld.HierarchyKnown id := fun id hid =>
    hierarchyKnown_of_closed hclosed (by revert hid; revert id; decide)
  refine ⟨htype, harray, hreach.compatible_capture (d := .standard) (equipped_of_test hequipped)
    (rootKnown_of_test hroot) Demand.orderly_standard hsteps htype ?_ ?_ hnew⟩
  · simp only [List.forall_mem_cons, List.not_mem_nil, false_imp_iff, implies_true, and_true]
    exact ⟨⟨_, stands_self (by rw [hupper]; rfl)⟩, _, stands_self (by rw [hlower]; rfl)⟩
  rw [hparameters]
  rintro (_ | _ | rank) argument wildcard hargument hwildcard
  · cases hargument
    cases hupper.symm.trans hwildcard
    refine ⟨?_, fun bound _ hbound => .inr ?_, by rintro _ ⟨⟩⟩
    · rw [show ([⟨11⟩, ⟨12⟩] : List TypeId)[0]? = some ⟨11⟩ from rfl, hbounds]
      simpa using (hknown ⟨15⟩ (by decide)).isSome
    · cases hbound
      rw [show ([⟨11⟩, ⟨12⟩] : List TypeId)[0]? = some ⟨11⟩ from rfl, hbounds]
      exact hknown
  · cases hargument
    cases hlower.symm.trans hwildcard
    refine ⟨?_, by rintro _ ⟨⟩, fun bound _ hbound => ⟨bound, ?_⟩⟩
    · rw [show ([⟨11⟩, ⟨12⟩] : List TypeId)[0 + 1]? = some ⟨12⟩ from rfl, hbounds']
      simp
    · cases hbound
      exact ⟨stands_self (by rw [harray]; rfl), by rw [base?, harray]; rfl⟩
  · cases hargument

end World

end Bindings
