import Bindings.Proofs.ClassOrder

/-!
# Joins of classes

The join of classes without type parameters is made of the lowest classes that all of them inherit from
(`Query.joinFrom_classes`), so it lies below every class above them (`Reachable.leastUpperBound_least`).
-/

open Relation

namespace Bindings

open Query

def WildcardInfo.meeting (first : TypeId) (others : List TypeId) : WildcardInfo :=
  { generic := none, rank := 0, bound := some first, otherBounds := others, kind := .upper }

namespace World

variable {w : World} {id root sub sup super : TypeId} {types bounds found : List TypeId}

structure Ground (w : World) (id : TypeId) : Prop where
  known : w.HierarchyKnown id
  plain : ∀ super, ReflTransGen w.Inherits id super →
    ((w.class? super).any (·.isGeneric) && w.options.generics) = false

theorem Ground.above (h : w.Ground id) (hp : ReflTransGen w.Inherits id super) : w.Ground super :=
  ⟨fun other ho => h.known other (hp.trans ho), fun other ho => h.plain other (hp.trans ho)⟩

section

variable (hroot : w.RootKnown root) (hacyclic : ∀ id, ¬ TransGen w.Inherits id id)

include hroot hacyclic

theorem descends_antisymm (hs : w.Descends sub sup) (hsu : w.Descends sup sub) : sub = sup := by
  obtain ht | hp := hs
  · obtain rfl := hroot.isRoot sup ht
    obtain ht' | hp' := hsu
    · exact hroot.isRoot sub ht'
    · exact hroot.eq_of_inherits hp'
  obtain ht | hp' := hsu
  · obtain rfl := hroot.isRoot sub ht
    exact (hroot.eq_of_inherits hp).symm
  by_contra hne
  refine hacyclic sub ?_
  exact ((Relation.reflTransGen_iff_eq_or_transGen.1 hp).resolve_left fun heq => hne heq.symm).trans_left hp'

theorem exists_lowest_below (hid : id ∈ found) :
    ∃ low ∈ found, w.Descends low id ∧ ∀ other ∈ found, w.Descends other low → other = low := by
  classical
  obtain ⟨low, hl, hb⟩ := @exists_firstLeast_below (fun a b => decide (w.Descends a b)) found id
    (fun a _ b _ c _ hab hbc => by simpa using hroot.descends_trans (of_decide_eq_true hab) (of_decide_eq_true hbc))
    (fun a _ => decide_eq_true (.inr .refl)) hid
  obtain ⟨hm, hle⟩ := List.mem_filter.1 hl
  refine ⟨low, hm, of_decide_eq_true hb, fun other ho hu => ?_⟩
  have hba := (of_decide_eq_true hle other ho (decide_eq_true hu)).1
  exact descends_antisymm hroot hacyclic hu (of_decide_eq_true hba)

end

structure Joins (w : World) (types bounds : List TypeId) : Prop where
  above : ∀ bound ∈ bounds, ∀ type ∈ types, ReflTransGen w.Inherits type bound
  least : ∀ id, (∀ type ∈ types, ReflTransGen w.Inherits type id) → ∃ bound ∈ bounds, w.Descends bound id

inductive Spells (w : World) : Option TypeId → List TypeId → Prop
  | nothing : Spells w none []
  | single (id : TypeId) : Spells w (some id) [id]
  | several {id first : TypeId} {others : List TypeId} : w.type id = .wildcard (.meeting first others) →
    Spells w (some id) (first :: others)

end World

namespace Query

open World

variable {w v : World} {d : Demand} {id root : TypeId} {types found bounds ids : List TypeId}

theorem erasure_class (h : (w.class? id).isSome) : erasure id d w = (.ok id, w) := by
  obtain ⟨info, hi⟩ := Option.isSome_iff_exists.1 h
  rw [erasure, erasureWithin, bind_ok d w (resolved_apply hi d), get_bind_apply, World.class?_eq_some.1 hi]
  rfl

theorem mapM_resolved_classes (h : ∀ id ∈ types, (w.class? id).isSome) : types.mapM resolved d w = (.ok types, w) := by
  have hs := mapM_still (f := resolved) (d := d) (w := w) (fun id => id) fun id hid =>
    resolved_apply (Option.get_mem (h id hid)) d
  rwa [List.map_id'] at hs

theorem addErasures_classes (h : ∀ id ∈ ids, (w.class? id).isSome) (hn : found.Nodup) :
    ∃ res, addErasures ids found d w = (.ok res, w) ∧ res.Nodup ∧ found <+: res ∧
      ∀ id, id ∈ res ↔ id ∈ found ∨ id ∈ ids := by
  induction ids generalizing found with
  | nil => exact ⟨found, rfl, hn, List.prefix_refl _, by simp⟩
  | cons id rest ih =>
    rw [addErasures, bind_ok d w (erasure_class (h id (.head _)))]
    have hre : ∀ id ∈ rest, (w.class? id).isSome := fun id hid => h id (.tail _ hid)
    by_cases hm : id ∈ found
    · rw [if_pos (by simpa using hm)]
      obtain ⟨res, hr, hres, hs, hi⟩ := ih hre hn
      exact ⟨res, hr, hres, hs, by grind⟩
    rw [if_neg (by simpa using hm)]
    have hn' : (found ++ [id]).Nodup := List.nodup_append.2 ⟨hn, by simp, by grind⟩
    obtain ⟨res, hr, hres, hs, hi⟩ := ih hre hn'
    exact ⟨res, hr, hres, (List.prefix_append ..).trans hs, by grind⟩

section

variable (hw : w.Sound) (hsize : w.types.size < d.fuel)

include hw hsize

theorem erasedSupertypesFrom_classes {fuel index : Nat} (hfound : ∀ id ∈ found, w.HierarchyKnown id)
    (hnodup : found.Nodup) (hindex : index ≤ found.length)
    (hdone : ∀ i < index, ∀ id, found[i]? = some id → w.parents id ⊆ found) (hfuel : w.types.size < fuel + index) :
    ∃ res, erasedSupertypesFrom fuel index found d w = (.ok res, w) ∧ res.Nodup ∧ found ⊆ res ∧
      ∀ id ∈ res, w.parents id ⊆ res ∧ ∃ start ∈ found, ReflTransGen w.Inherits start id := by
  have hlength : ∀ {ids : List TypeId}, (∀ id ∈ ids, w.HierarchyKnown id) → ids.Nodup →
      ids.length ≤ w.types.size := fun hknown hnodup => by
    simpa using (hnodup.subperm fun id hid => (hknown id hid).mem_types).length_le
  induction fuel generalizing index found with
  | zero =>
    have hle := hlength hfound hnodup
    omega
  | succ fuel ih =>
    rw [erasedSupertypesFrom]
    cases hcur : found[index]? with
    | none =>
      refine ⟨found, rfl, hnodup, List.Subset.refl _, fun id hid => ⟨?_, id, hid, .refl⟩⟩
      obtain ⟨i, hi⟩ := List.mem_iff_getElem?.1 hid
      have hend := List.getElem?_eq_none_iff.1 hcur
      have hlt := (List.getElem?_eq_some_iff.1 hi).1
      exact hdone i (by omega) id hi
    | some cur =>
      have hmem : cur ∈ found := List.mem_of_getElem? hcur
      have hknown := hfound cur hmem
      obtain ⟨more, hrun, hnodup', hgrows, hiff⟩ := @addErasures_classes w d found (w.parents cur)
        (fun id hid => (hknown.parent hid).isSome) hnodup
      have hmore : ∀ id ∈ more, w.HierarchyKnown id := fun id hid =>
        ((hiff id).1 hid).elim (hfound id) fun hparent => hknown.parent hparent
      have hsame : ∀ i < found.length, more[i]? = found[i]? := by
        obtain ⟨rest, rfl⟩ := hgrows
        exact fun i => List.getElem?_append_left
      have hlt := (List.getElem?_eq_some_iff.1 hcur).1
      have hdone' : ∀ i < index + 1, ∀ id, more[i]? = some id → w.parents id ⊆ more := by
        intro i hi id hid other hother
        rw [hsame i (by omega)] at hid
        obtain hbefore | rfl := Nat.lt_succ_iff_lt_or_eq.1 hi
        · exact hgrows.subset (hdone i hbefore id hid hother)
        · obtain rfl := Option.some.inj (hid.symm.trans hcur)
          exact (hiff other).2 (.inr hother)
      have hle := hlength hfound hnodup
      obtain ⟨res, hrest, hres, hsub, hall⟩ := ih hmore hnodup' (hgrows.length_le.trans' hlt) hdone' (by omega)
      refine ⟨res, ?_, hres, fun id hid => hsub (hgrows.subset hid), fun id hid => ?_⟩
      · dsimp only
        rw [bind_ok d w (supertypes_still hw (.refl w) hknown (by omega)), bind_ok d w hrun, hrest]
      obtain ⟨hparents, start, hstart, hpath⟩ := hall id hid
      obtain hold | hnew := (hiff start).1 hstart
      · exact ⟨hparents, start, hold, hpath⟩
      · exact ⟨hparents, cur, hmem, .head hnew hpath⟩

theorem erasedSupertypes_classes (h : w.HierarchyKnown id) : ∃ found, erasedSupertypes id d w = (.ok found, w) ∧
    found.Nodup ∧ ∀ super, super ∈ found ↔ ReflTransGen w.Inherits id super := by
  obtain ⟨found, hr, hn, hsu, hf⟩ := @erasedSupertypesFrom_classes w d [id] hw hsize d.fuel 0
    (by simpa using h) (by simp) (Nat.zero_le _) nofun hsize
  refine ⟨found, ?_, hn, fun super => ⟨fun hs => ?_, fun hp => ?_⟩⟩
  · rw [erasedSupertypes, bind_ok d w (erasure_class h.isSome)]
    exact hr
  · obtain ⟨-, start, hst, hp⟩ := hf super hs
    rwa [List.mem_singleton.1 hst] at hp
  · induction hp with
    | refl => exact hsu (.head _)
    | tail _ hpa ih => exact (hf _ ih).1 hpa

theorem commonSupertypes_classes (h : ∀ id ∈ types, w.HierarchyKnown id) (hne : types ≠ []) :
    ∃ found, commonSupertypes types d w = (.ok found, w) ∧ found.Nodup ∧
      ∀ super, super ∈ found ↔ ∀ id ∈ types, ReflTransGen w.Inherits id super := by
  obtain ⟨first, rest, rfl⟩ := List.exists_cons_of_ne_nil hne
  obtain ⟨common, hr, hn, hc⟩ := erasedSupertypes_classes hw hsize (h first (.head _))
  rw [commonSupertypes, bind_ok d w hr]
  -- What is common to the first types is cut down by the others.
  suffices hfo : ∀ (rest joined common : List TypeId), (∀ id ∈ rest, w.HierarchyKnown id) → common.Nodup →
      (∀ super, super ∈ common ↔ ∀ id ∈ joined, ReflTransGen w.Inherits id super) →
      ∃ found : List TypeId, (rest.foldlM (fun common id => do
          let above ← erasedSupertypes id
          return common.filter above.contains) common : Query (List TypeId)) d w = (.ok found, w) ∧ found.Nodup ∧
        ∀ super, super ∈ found ↔ ∀ id ∈ joined ++ rest, ReflTransGen w.Inherits id super from
    hfo rest [first] common (fun id hid => h id (.tail _ hid)) hn (by simpa using hc)
  intro rest
  induction rest with
  | nil => exact fun joined common _ hn hc => ⟨common, rfl, hn, by simpa using hc⟩
  | cons id rest ih =>
    intro joined common h hn hc
    obtain ⟨above, hr, -, ha⟩ := erasedSupertypes_classes hw hsize (h id (.head _))
    obtain ⟨found, hr', hf⟩ := ih (joined ++ [id]) (common.filter above.contains)
      (fun other ho => h other (.tail _ ho)) (hn.filter _) (by simp [hc, ha, or_imp, forall_and])
    refine ⟨found, ?_, by simpa using hf⟩
    rw [List.foldlM_cons, bind_assoc, bind_ok d w hr, pure_bind, hr']

end

section

variable (hw : w.Sound) (hsteps : w.searchSteps ≤ d.fuel)

include hw hsteps

theorem isMinimal_classes (h : ∀ id ∈ found, w.HierarchyKnown id) (hid : id ∈ found) :
    (isMinimal found id).Delivers d w fun ans v =>
      w = v ∧ (ans = true ↔ ∀ other ∈ found, w.Descends other id → other = id) := by
  have hb : (found.anyM fun other => do
      if other = id then return false
      isSubclassOf other id : Query Bool).Delivers d w fun below v =>
        w = v ∧ (below = true ↔ ∃ other ∈ found, other ≠ id ∧ w.Descends other id) := by
    refine .anyM (w := w) (fun _ _ => rfl) Eq.trans (fun other ho v hv => ?_) rfl
    subst hv
    refine .ite (fun heq => .pure ⟨rfl, by simp [heq]⟩) fun hne => ?_
    exact (isSubclassOf_delivers hw (.refl w) (h other ho) (h id hid).isSome hsteps).mono fun ans v ⟨hv, hi⟩ =>
      ⟨hv.symm, hi.trans (by simp [hne, Descends])⟩
  refine .bind hb ?_
  rintro below v ⟨rfl, hi⟩
  refine .pure ⟨rfl, ?_⟩
  rw [Bool.not_eq_true', ← Bool.not_eq_true, hi]
  simp only [not_exists, not_and]
  exact forall₂_congr fun other _ => not_imp_not

end

theorem joinCandidate_still (join : List TypeId → Query (Option TypeId)) (h : w.Ground id) :
    joinCandidate join types id d w = (.ok id, w) := by
  rw [joinCandidate, get_bind_apply, if_pos (by rw [← Bool.not_and, h.plain id .refl]; rfl)]
  rfl

theorem intersection_delivers (hw : w.Sound) (hco : w.comparing = []) (hbounds : ∀ id ∈ bounds, w.Knows id) :
    (intersection bounds).Delivers d w fun found v => w.Enlarges v ∧
      ∃ list, (∀ id, id ∈ list ↔ id ∈ bounds) ∧ v.Spells found list := by
  have hs : w.Enlarges w := ⟨(Prolongs.refl w).toExtends, hw, le_rfl, hco⟩
  refine .get ?_
  dsimp only
  have hm : ∀ id, id ∈ bounds.filter (!isInterfaceType w ·) ++ bounds.filter (isInterfaceType w) ↔ id ∈ bounds := by
    intro id
    rw [List.mem_append, List.mem_filter, List.mem_filter]
    cases isInterfaceType w id <;> simp
  generalize bounds.filter (!isInterfaceType w ·) ++ bounds.filter (isInterfaceType w) = list at hm
  match list with
  | [] => exact ⟨none, w, rfl, hs, [], hm, .nothing⟩
  | [bound] => exact ⟨some bound, w, rfl, hs, [bound], hm, .single bound⟩
  | first :: second :: others =>
    have ht := @wildcard_type w (.meeting first (second :: others)) hw nofun nofun fun part hp =>
      hbounds part ((hm part).1 hp)
    let edit : Edit TypeId := .wildcard none 0 (some first) (second :: others) .upper
    have hk : w.Keeps (edit w).2 := ((inferInstance : edit.Furthering).furthers w hw).toKeeps
    have hc := (inferInstance : edit.Orderly).course w hw
    refine .map _ (.lift ⟨⟨((wildcard_interns ..).prolongs w).toExtends, hc.sound hw, hk.grows.size, ?_⟩, _, hm,
      .several ht⟩)
    exact hk.comparing.trans hco

section

variable (hw : w.Sound) (hco : w.comparing = []) (hroot : w.RootKnown root)
  (hacyclic : ∀ id, ¬ TransGen w.Inherits id id) (hsize : w.types.size < d.fuel) (hsteps : w.searchSteps ≤ d.fuel)
  (h : ∀ id ∈ types, w.Ground id) (hne : types ≠ [])

include hw hco hroot hacyclic hsize hsteps h hne

theorem joinDistinct_classes (join : List TypeId → Query (Option TypeId)) :
    (joinDistinct join types).Delivers d w fun found v => w.Enlarges v ∧
      ∃ bounds, w.Joins types bounds ∧ v.Spells found bounds := by
  obtain ⟨common, hr, hn, hc⟩ := commonSupertypes_classes hw hsize (fun id hid => (h id hid).known) hne
  obtain ⟨first, hf⟩ := List.exists_mem_of_ne_nil types hne
  have hg : ∀ id ∈ common, w.Ground id := fun id hid => (h first hf).above ((hc id).1 hid first hf)
  have hmi : (common.filterM (isMinimal common)).Delivers d w fun minimal v => w = v ∧ minimal.Nodup ∧
      ∀ id, id ∈ minimal ↔ id ∈ common ∧ ∀ other ∈ common, w.Descends other id → other = id := by
    classical
    refine (Delivers.filterM (w := w) (fun _ (_ : w = _) => rfl) Eq.trans
      (p := fun id => ∀ other ∈ common, w.Descends other id → other = id) (fun id hid v hv => ?_) rfl).mono ?_
    · subst hv
      exact isMinimal_classes hw hsteps (fun id hid => (hg id hid).known) hid
    · rintro minimal v ⟨hv, rfl⟩
      exact ⟨hv, hn.filter _, fun id => by rw [List.mem_filter, decide_eq_true_iff]⟩
  refine .step hr (.bind hmi ?_)
  rintro minimal _ ⟨rfl, hn', hmi⟩
  refine .get ?_
  -- Where there are several, the root is not among them.
  generalize hk : (if 1 < minimal.length then minimal.filter (!w.isObject ·) else minimal) = kept
  have hm : ∀ id, id ∈ kept ↔ id ∈ minimal := by
    intro id
    rw [← hk]
    split
    · next hlon =>
      refine List.mem_filter.trans ⟨And.left, fun hid => ⟨hid, ?_⟩⟩
      by_contra hob
      have ha : ∀ other ∈ minimal, other = id := fun other ho =>
        ((hmi id).1 hid).2 other ((hmi other).1 ho).1 (.inl (by simpa using hob))
      have hs : minimal ⊆ [id] := fun other ho => by simp [ha other ho]
      exact absurd (hn'.subperm hs).length_le (by simpa using hlon)
    · rfl
  have hk' : ∀ id ∈ kept, id ∈ common := fun id hid => ((hmi id).1 ((hm id).1 hid)).1
  have hj : w.Joins types kept := by
    refine ⟨fun bound hb => (hc bound).1 (hk' bound hb), fun id hid => ?_⟩
    obtain ⟨low, hlo, hbe, hle⟩ := exists_lowest_below hroot hacyclic ((hc id).2 hid)
    exact ⟨low, (hm low).2 ((hmi low).2 ⟨hlo, hle⟩), hbe⟩
  have hst := mapM_still (f := joinCandidate join types) (d := d) (fun id => id) fun id hid =>
    joinCandidate_still join (hg id (hk' id hid))
  rw [List.map_id'] at hst
  refine .step hst ((intersection_delivers hw hco fun id hid => ?_).mono ?_)
  · exact lt_size_of_class? (Option.get_mem (hg id (hk' id hid)).known.isSome)
  rintro found v ⟨hv, list, hl, hspells⟩
  refine ⟨hv, list, ⟨fun bound hb => hj.above bound ((hl bound).1 hb), fun id hid => ?_⟩, hspells⟩
  obtain ⟨bound, hb, hbe⟩ := hj.least id hid
  exact ⟨bound, (hl bound).2 hb, hbe⟩

theorem joinFrom_classes (hd : w.joinDepth = 0) (fuel : Nat) : (joinFrom (fuel + 1) types).Delivers d w fun found v =>
    w.Enlarges v ∧ ∃ bounds, w.Joins types bounds ∧ v.Spells found bounds := by
  have hu : resolvedUnique types [] d w = (.ok types.eraseDups, w) := by
    simpa using resolvedUnique_eq (mapM_resolved_classes fun id hid => (h id hid).known.isSome) []
  have hm : ∀ id, id ∈ types.eraseDups ↔ id ∈ types := fun id => List.mem_eraseDups
  have hba : ∀ id ∈ types.eraseDups, w.base? id = none := fun id hid => by
    obtain ⟨_, hi⟩ := Option.isSome_iff_exists.1 (h id ((hm id).1 hid)).known.isSome
    rw [base?, class?_eq_some.1 hi]
    rfl
  rw [joinFrom]
  refine .step hu (.get ?_)
  dsimp only
  rw [List.filter_eq_self.2 fun id hid => by rw [hba id hid]; rfl]
  refine .ite (fun ha => ?_) fun _ => ?_
  · obtain ⟨id, hid, hso⟩ := List.any_eq_true.1 ha
    rw [hba id hid] at hso
    cases hso
  generalize types.eraseDups = unique at hm
  obtain _ | ⟨first, _ | ⟨second, others⟩⟩ := unique
  · exact absurd (List.eq_nil_iff_forall_not_mem.2 fun id hid => by simpa using (hm id).2 hid) hne
  · have ho : ∀ type ∈ types, type = first := fun type ht => by simpa using (hm type).2 ht
    refine .pure ⟨⟨(Prolongs.refl w).toExtends, hw, le_rfl, hco⟩, [first], ⟨?_, fun super hs => ?_⟩, .single first⟩
    · rintro bound hb type ht
      rw [ho type ht, List.mem_singleton.1 hb]
    · exact ⟨first, .head _, .inr (hs first ((hm first).1 (.head _)))⟩
  refine .ite (fun hde => ?_) fun _ => ?_
  · rw [hd] at hde
    cases hde
  -- How deeply joins are nested is counted while candidates are looked for.
  let inside : World := { w with joinDepth := w.joinDepth + 1 }
  have hin : inside.Sound := hw.move (.aside { Apart.refl w with })
  have hro' : inside.RootKnown root := ⟨hroot.object, hroot.known, hroot.top, hroot.isRoot, hroot.isClass⟩
  have hg : ∀ id ∈ first :: second :: others, inside.Ground id := fun id hid =>
    ⟨(h id ((hm id).1 hid)).known, (h id ((hm id).1 hid)).plain⟩
  obtain ⟨found, v, hr, hv, bounds, hj, hspells⟩ := joinDistinct_classes (w := inside) (d := d) hin
    hco hro' hacyclic hsize hsteps hg (List.cons_ne_nil _ _) (joinFrom fuel)
  have haf : World.Sound { v with joinDepth := v.joinDepth - 1 } := hv.sound.move (.aside { Apart.refl v with })
  refine ⟨found, { v with joinDepth := v.joinDepth - 1 }, ?_,
    ⟨⟨hv.type, hv.added, hv.object⟩, haf, hv.size, hv.comparing⟩,
    bounds, ⟨fun bound hb type ht => hj.above bound hb type ((hm type).2 ht), fun id hid => ?_⟩, ?_⟩
  · rw [bind_ok d w rfl, thenAlways_apply]
    rw [hr]
    rfl
  · exact hj.least id fun type ht => hid type ((hm type).1 ht)
  · cases hspells with
    | nothing => exact .nothing
    | single => exact .single _
    | several ht => exact .several ht

end

theorem resolved_wildcard {info : WildcardInfo} (ht : v.type id = .wildcard info) : resolved id d v = (.ok id, v) := by
  rw [resolved_eq_follow d (by rw [isPending, ht]; rfl), follow_of_not_placeholder (by rw [ht]; rfl)]

theorem supertypes_meeting {bound first : TypeId} {others : List TypeId}
    (ht : v.type bound = .wildcard (.meeting first others)) (hf : d.fuel ≠ 0) :
    supertypes bound d v = (.ok (first :: others), v) := by
  obtain ⟨fuel, hf⟩ := Nat.exists_eq_succ_of_ne_zero hf
  have hs : superclass bound d v = (.ok (some first), v) := by
    change superclassFrom d.fuel bound d v = _
    rw [hf, superclassFrom, bind_ok d v (resolved_wildcard ht), get_bind_apply, ht]
    rfl
  have hsu : superInterfaces bound d v = (.ok others, v) := by
    change superInterfacesFrom d.fuel bound d v = _
    rw [hf, superInterfacesFrom, bind_ok d v (resolved_wildcard ht), get_bind_apply, ht]
    rfl
  rw [supertypes, bind_ok d v hs, bind_ok d v hsu]
  rfl

section

variable (hv : v.Sound) (hco : v.comparing = []) (hsteps : v.searchSteps < d.fuel) {bound : TypeId}
  (hspells : v.Spells (some bound) bounds) (hbounds : ∀ id ∈ bounds, v.HierarchyKnown id)

include hv hco hsteps hspells hbounds

theorem compatible_to_spelled (hid : v.HierarchyKnown id) (ha : ∀ bound ∈ bounds, v.Descends id bound) :
    (compatible id bound).Delivers d v fun ans _ => ans = true := by
  obtain ⟨fuel, hf⟩ : ∃ fuel, d.fuel = fuel + 2 := ⟨d.fuel - 2, by rw [searchSteps] at hsteps; omega⟩
  refine .fuel ?_
  rw [hf]
  cases hspells with
  | single =>
    exact (compatibleFrom_classes hv hsteps.le hid (hbounds bound (.head _)).isSome (by simp [hco]) _).mono
      fun ans _ h => h.2.2 (ha bound (.head _))
  | several ht =>
    obtain ⟨info, hi⟩ := Option.isSome_iff_exists.1 hid.isSome
    rw [compatibleFrom]
    refine .step (resolved_apply hi d) (.step (resolved_wildcard ht) (.ite (fun _ => .pure rfl) fun _ => .get ?_))
    rw [class?_eq_some.1 hi, ht]
    refine .ite (fun _ => .pure rfl) fun _ => guarded_delivers (by simp [hco]) (.get ?_)
    let noted : World := { v with comparing := (id, bound) :: v.comparing }
    have hno : noted.Sound := hv.move (.aside { Apart.refl v with })
    rw [show noted.type bound = _ from ht]
    refine (Delivers.allM (w := noted) (fun _ (_ : noted = _) => rfl) Eq.trans (p := fun _ => True)
      (fun part hp x hx => ?_) rfl).mono fun ans x h => h.2.2 fun _ _ => trivial
    subst hx
    have hn : (id, part) ∉ noted.comparing := by
      simp only [noted, hco, List.mem_singleton, Prod.mk.injEq, true_and]
      rintro rfl
      have hc := (hbounds part hp).isSome
      rw [class?, ht] at hc
      cases hc
    exact (compatibleFrom_classes hno hsteps.le hid (hbounds part hp).isSome hn fuel).mono
      fun ans x h => ⟨h.1, h.2.trans (iff_true_intro (ha part hp))⟩

theorem compatible_from_spelled (hid : (v.class? id).isSome) (hb : ∃ bound ∈ bounds, v.Descends bound id) :
    (compatible bound id).Delivers d v fun ans _ => ans = true := by
  obtain ⟨fuel, hf⟩ : ∃ fuel, d.fuel = fuel + 2 := ⟨d.fuel - 2, by rw [searchSteps] at hsteps; omega⟩
  refine .fuel ?_
  rw [hf]
  cases hspells with
  | single =>
    obtain ⟨_, hm, hb⟩ := hb
    rw [List.mem_singleton.1 hm] at hb
    exact (compatibleFrom_classes hv hsteps.le (hbounds bound (.head _)) hid (by simp [hco]) _).mono
      fun ans _ h => h.2.2 hb
  | several ht =>
    obtain ⟨info, hi⟩ := Option.isSome_iff_exists.1 hid
    rw [compatibleFrom]
    refine .step (resolved_wildcard ht) (.step (resolved_apply hi d) (.ite (fun _ => .pure rfl) fun hne => .get ?_))
    rw [class?_eq_some.1 hi, ht]
    refine .ite (fun _ => .pure rfl) fun _ => guarded_delivers (by simp [hco]) (.get ?_)
    let noted : World := { v with comparing := (bound, id) :: v.comparing }
    have hno : noted.Sound := hv.move (.aside { Apart.refl v with })
    rw [show noted.type id = .declared info from class?_eq_some.1 hi]
    refine .get ?_
    rw [show noted.type bound = _ from ht]
    refine .get ?_
    rw [show noted.type bound = _ from ht]
    refine .step (supertypes_meeting ht (by omega)) ((Delivers.anyM (w := noted) (fun _ (_ : noted = _) => rfl) Eq.trans
      (p := fun part => v.Descends part id) (fun part hp x hx => ?_) rfl).mono fun ans x h => h.2.2 hb)
    subst hx
    have ho : part ≠ bound := by
      rintro rfl
      have hc := (hbounds part hp).isSome
      rw [class?, ht] at hc
      cases hc
    rw [if_neg ho]
    have hn : (part, id) ∉ noted.comparing := by simpa [noted, hco] using ho
    exact compatibleFrom_classes hno hsteps.le (hbounds part hp) hid hn fuel

end

end Query

namespace World

variable {w : World} {root : TypeId} {types : List TypeId} {d : Demand}

theorem Reachable.joinDepth (h : w.Reachable) : w.joinDepth = 0 := show (fun w : World => w.joinDepth = 0) w from
    h.fact (fun _ _ _ => rfl) fun _ hc hz => hc.level.joinDepth.trans hz

theorem Reachable.leastUpperBound_least (hw : w.Reachable) (hroot : w.RootKnown root)
    (hacyclic : ∀ id, ¬ TransGen w.Inherits id id) (htypes : ∀ id ∈ types, w.Ground id) (hsize : w.types.size < d.fuel)
    (hsteps : w.searchSteps < d.fuel) :
    ∃ answer v, leastUpperBound types d w = (.ok answer, v) ∧ ∀ bound ∈ answer,
      (∀ id ∈ types, (compatible id bound d v).1 = .ok true) ∧
      ∀ id, (v.class? id).isSome → (∀ type ∈ types, (compatible type id d v).1 = .ok true) →
        (compatible bound id d v).1 = .ok true := by
  obtain ⟨fuel, hfuel⟩ := Nat.exists_eq_succ_of_ne_zero (Nat.ne_zero_of_lt hsize)
  rcases eq_or_ne types [] with rfl | hne
  · refine ⟨none, w, ?_, nofun⟩
    change joinFrom d.fuel [] d w = _
    rw [hfuel]
    rfl
  obtain ⟨answer, v, hrun, hv, bounds, hjoins, hspells⟩ := joinFrom_classes hw.sound hw.comparing hroot hacyclic
    hsize hsteps.le htypes hne hw.joinDepth fuel
  refine ⟨answer, v, ?_, fun bound hbound => ?_⟩
  · change joinFrom d.fuel types d w = _
    rw [hfuel, hrun]
  obtain rfl : answer = some bound := hbound
  have hdescends : ∀ sub sup, v.Descends sub sup ↔ w.Descends sub sup := fun sub sup => by
    rw [Descends, Descends, hv.isObject_eq, hv.inherits_eq hw.sound]
  have hknown : ∀ id ∈ types, v.HierarchyKnown id := fun id hid =>
    (hv.hierarchyKnown_iff hw.sound).2 (htypes id hid).known
  have hsteps' : v.searchSteps < d.fuel := by rwa [hv.searchSteps_eq hw.sound hv.size]
  have hbounds : ∀ id ∈ bounds, v.HierarchyKnown id := by
    obtain ⟨type, htype⟩ := List.exists_mem_of_ne_nil types hne
    exact fun id hid => (hv.hierarchyKnown_iff hw.sound).2
      ((htypes type htype).above (hjoins.above id hid type htype)).known
  refine ⟨fun id hid => ?_, fun id hclass hbelow => ?_⟩
  · obtain ⟨_, _, hrun, rfl⟩ := compatible_to_spelled hv.sound hv.comparing hsteps' hspells hbounds (hknown id hid)
      fun bound hbound => .inr (by rw [hv.inherits_eq hw.sound]; exact hjoins.above bound hbound id hid)
    rw [hrun]
  · have habove : ∀ type ∈ types, v.Descends type id := fun type htype => by
      obtain ⟨answer, _, hrun, -, hiff⟩ := compatibleFrom_classes hv.sound hsteps'.le (hknown type htype) hclass
        (by simp [hv.comparing]) fuel
      have hanswer := hbelow type htype
      change (compatibleFrom d.fuel type id d v).1 = _ at hanswer
      rw [hfuel, hrun] at hanswer
      exact hiff.1 (Except.ok.inj hanswer)
    have hunder : ∃ bound ∈ bounds, v.Descends bound id := by
      by_cases hobject : v.isObject id
      · have hsome : bounds ≠ [] := by cases hspells <;> exact List.cons_ne_nil _ _
        obtain ⟨bound, hbound⟩ := List.exists_mem_of_ne_nil bounds hsome
        exact ⟨bound, hbound, .inl hobject⟩
      obtain ⟨bound, hbound, hunder⟩ := hjoins.least id fun type htype =>
        hv.inherits_eq hw.sound ▸ (habove type htype).resolve_left hobject
      exact ⟨bound, hbound, (hdescends bound id).2 hunder⟩
    obtain ⟨_, _, hrun, rfl⟩ := compatible_from_spelled hv.sound hv.comparing hsteps' hspells hbounds hclass hunder
    rw [hrun]

theorem acyclic_of_rising (h : (List.range w.types.size).all fun i => (w.parents ⟨i⟩).all (i < ·.index)) :
    ∀ id, ¬ TransGen w.Inherits id id := by
  have hs : ∀ sub sup, w.Inherits sub sup → sub.index < sup.index := fun sub sup hsu => by
    simp only [List.all_eq_true, List.mem_range, decide_eq_true_eq] at h
    refine h sub.index ?_ sup hsu
    by_contra hu
    rw [Inherits, parents, class?_of_not_knows hu] at hsu
    cases hsu
  have hr : ∀ sub sup, TransGen w.Inherits sub sup → sub.index < sup.index := fun sub sup hp => by
    induction hp with
    | single hsu => exact hs _ _ hsu
    | tail _ hsu ih => exact ih.trans (hs _ _ hsu)
  exact fun id hp => (hr id id hp).false

def mintClassPath : ClassPath := .ofClasses
  [{ name := "p/Shiny", modifiers := .interfaceFlag }, { name := "p/Round", modifiers := .interfaceFlag },
   { name := "p/Ring", interfaces := ["p/Shiny", "p/Round"] },
   { name := "p/Coin", interfaces := ["p/Round", "p/Shiny"] }, { name := "p/Band", superclass := "p/Ring" }]

def mintWorld : World :=
  (initial {} mintClassPath {}).after
    [.getType ⟨["p", "Band"]⟩, .getType ⟨["p", "Ring"]⟩, .getType ⟨["p", "Coin"]⟩, .getType ⟨["p", "Shiny"]⟩,
      .getType ⟨["p", "Round"]⟩, .objectType, .superclass ⟨10⟩, .superInterfaces ⟨10⟩, .superclass ⟨11⟩,
      .superInterfaces ⟨11⟩, .superclass ⟨12⟩, .superInterfaces ⟨12⟩, .superclass ⟨13⟩, .superInterfaces ⟨13⟩,
      .superclass ⟨14⟩, .superInterfaces ⟨14⟩, .superclass ⟨15⟩, .superInterfaces ⟨15⟩,
      .wildcard none 0 (some ⟨11⟩) [] .upper, .wildcard none 0 (some ⟨12⟩) [] .upper,
      .wildcard none 0 (some ⟨10⟩) [] .lower]

theorem ground_of_closed {ids : List TypeId} {id : TypeId}
    (h : w.isClosed (fun info => info.supertypesKnown && !info.isGeneric) ids) (hid : id ∈ ids) : w.Ground id := by
  have hr : ∀ super, ReflTransGen w.Inherits id super →
      ∃ info, w.class? super = some info ∧ info.supertypesKnown ∧ info.isGeneric = false := fun super hp => by
    simpa [Option.any_eq_true] using any_of_closed h hid hp
  refine ⟨fun super hp => ?_, fun super hp => ?_⟩ <;> obtain ⟨info, hi, hk, hpl⟩ := hr super hp
  · simpa [hi] using hk
  · simp [hi, hpl]

theorem leastUpperBound_least_mint :
    ∃ v, leastUpperBound [⟨10⟩, ⟨12⟩] .standard mintWorld = (.ok (some ⟨19⟩), v) ∧
      v.type ⟨19⟩ = .wildcard (.meeting ⟨13⟩ [⟨14⟩]) ∧ (compatible ⟨10⟩ ⟨19⟩ .standard v).1 = .ok true ∧
      (compatible ⟨12⟩ ⟨19⟩ .standard v).1 = .ok true := by
  have hread : mintWorld.isRootKnown ⟨15⟩ = true ∧ mintWorld.types.size < Demand.standard.fuel ∧
      mintWorld.searchSteps < Demand.standard.fuel ∧
      ((List.range mintWorld.types.size).all fun index => (mintWorld.parents ⟨index⟩).all (index < ·.index)) = true ∧
      mintWorld.isClosed (fun info => info.supertypesKnown && !info.isGeneric)
        [⟨10⟩, ⟨11⟩, ⟨12⟩, ⟨13⟩, ⟨14⟩, ⟨15⟩] = true ∧
      (leastUpperBound [⟨10⟩, ⟨12⟩] .standard mintWorld).1 = .ok (some ⟨19⟩) ∧
      (leastUpperBound [⟨10⟩, ⟨12⟩] .standard mintWorld).2.type ⟨19⟩ = .wildcard (.meeting ⟨13⟩ [⟨14⟩]) := by
    decide +kernel
  obtain ⟨hroot, hsize, hsteps, hrising, hclosed, hanswer, htype⟩ := hread
  have hreach : mintWorld.Reachable := (Reachable.initial {} mintClassPath {}).after _
  have hground : ∀ id ∈ ([⟨10⟩, ⟨12⟩] : List TypeId), mintWorld.Ground id := fun id hid =>
    ground_of_closed hclosed (by revert hid; revert id; decide)
  obtain ⟨answer, v, hrun, hleast⟩ := hreach.leastUpperBound_least (d := .standard) (rootKnown_of_test hroot)
    (acyclic_of_rising hrising) hground hsize hsteps
  rw [hrun] at hanswer htype
  cases hanswer
  have habove := (hleast ⟨19⟩ rfl).1
  exact ⟨v, hrun, htype, habove ⟨10⟩ (by simp), habove ⟨12⟩ (by simp)⟩

end World

end Bindings
