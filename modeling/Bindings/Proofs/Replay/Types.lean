import Bindings.Proofs.Replay.Basic

/-! # Making types again -/

namespace Bindings

open TypeInfo WellKnown

namespace World

variable {w u : World}

/-- What the supertypes of arrays and of unbounded types are has been looked up. -/
structure Equipped (w : World) : Prop where
  object : ∃ object, w.object = some object
  arrays : ∀ name ∈ [cloneable, serializable], ∃ id, w.Lists name id

theorem Equipped.grows (h : w.Grows u) (ho : u.object = w.object) (he : w.Equipped) : u.Equipped where
  object := ho ▸ he.object
  arrays name hn := by
    obtain ⟨id, hl⟩ := he.arrays name hn
    exact ⟨id, hl.grows h⟩

theorem Equipped.keeps (h : w.Keeps u) (he : w.Equipped) : u.Equipped := he.grows h.grows h.object

theorem Equipped.root (h : w.Equipped) : w.object.isSome := Option.isSome_iff_exists.2 h.object

def isEquipped (w : World) : Bool :=
  w.object.isSome && [cloneable, serializable].all fun name =>
    ((w.packageNamed? name.parent).bind (w.known? · name.simple)).any fun id => (w.class? id).isSome

theorem equipped_of_test (h : w.isEquipped) : w.Equipped := by
  rw [isEquipped, Bool.and_eq_true, List.all_eq_true] at h
  refine ⟨Option.isSome_iff_exists.1 h.1, fun name hn => ?_⟩
  obtain ⟨id, hid, hc⟩ := (Option.any_eq_true ..).1 (h.2 name hn)
  obtain ⟨pkg, hp, hk⟩ := Option.bind_eq_some_iff.1 hid
  exact ⟨id, pkg, hp, hk, role_eq_declared.2 (Option.isSome_iff_exists.1 hc)⟩

end World

namespace Query

open Edit.Furthering (furthers parameterizedType_furthers)

variable {w u : World} {id : TypeId}

theorem connect_replays {post : Unit → World → Prop} (id : TypeId) : (connect id).Replays w post := by
  intro fuel a w1 hr
  cases hr

theorem resolved_replays (hw : w.Sound) (hid : w.Knows id) : (resolved id).Replays w fun tgt w1 => w1.Knows tgt := by
  suffices h : (resolved id).Replays w fun _ _ => True from h.runs (resolved_knows hw hid)
  refine .get ?_ fun u _ hk => ?_
  · split
    · exact .pure hw trivial
    · next name ht =>
      -- A pending placeholder demands to be loaded.
      intro fuel a w1 hr
      rw [resolvePlaceholder, get_bind_apply, ht] at hr
      cases hr
    · exact .pure hw trivial
  · obtain ht | ⟨_, _, ho, hn, -⟩ := hk.type_cases hid
    · rw [ht]
    · rw [ho, hn]

theorem objectType_replays (hw : w.Sound) (hr : w.object.isSome) : objectType.Replays w fun id w1 => w1.Knows id := by
  suffices h : objectType.Replays w fun _ _ => True from h.runs (objectType_knows hw)
  obtain ⟨object, ho⟩ := Option.isSome_iff_exists.1 hr
  refine .get ?_ fun u _ hk => by rw [hk.object]
  rw [ho]
  exact .pure hw trivial

theorem getType_of_lists {name : QName} (hn : name.segments ≠ [])
    (h : w.Lists name id) (d : Demand) : getType name d w = (.ok (some id), w) := by
  obtain ⟨pkg, hp, hk, hr⟩ := h
  have hre : resolved id d w = (.ok id, w) := resolved_eq_self d (by rw [hr]; simp)
  have hm : (w.type id).isMissing = false := by
    rw [World.role, role_eq_declared] at hr
    cases ht : w.type id <;> simp_all
  rw [getType_of_package hn (World.enterPackage_of_subpackage? hp), typeInPackage, get_bind_apply, hk]
  dsimp only
  rw [resolvedReal, Query.bind_ok d w hre, get_bind_apply, hm]
  rfl

theorem arrayInterfaces_still {cloneable serializable : TypeId} (hc : w.Lists WellKnown.cloneable cloneable)
    (hse : w.Lists WellKnown.serializable serializable) (hk : w.Keeps u) (d : Demand) :
    arrayInterfaces d u = (.ok [cloneable, serializable], u) := by
  have hf := getType_of_lists (by simp [WellKnown.cloneable]) (hc.grows hk.grows) d
  have hs := getType_of_lists (by simp [WellKnown.serializable]) (hse.grows hk.grows) d
  rw [arrayInterfaces, List.filterMapM_cons, Query.bind_ok d u hf]
  dsimp only
  rw [List.filterMapM_cons, bind_assoc, Query.bind_ok d u hs]
  rfl

theorem arrayInterfaces_replays (hw : w.Sound) (he : w.Equipped) :
    arrayInterfaces.Replays w fun ids w1 => ∀ id ∈ ids, w1.Knows id := by
  obtain ⟨cloneable, hc⟩ := he.arrays cloneable (by simp)
  obtain ⟨serializable, hs⟩ := he.arrays serializable (by simp)
  have hru : ∀ u : World, w.Keeps u → ∀ d, arrayInterfaces d u = (.ok [cloneable, serializable], u) :=
    fun u hk d => arrayInterfaces_still hc hs hk d
  intro fuel ids w1 hf
  rw [hru w (.refl w)] at hf
  cases hf
  refine ⟨⟨hw, .refl w, ?_⟩, fun d _ => hru w (.refl w) d, fun u _ hk d _ => ?_⟩
  · obtain ⟨_, -, -, hr⟩ := hc
    obtain ⟨_, -, -, hr'⟩ := hs
    rintro id (_ | ⟨_, _ | ⟨_, ⟨⟩⟩⟩)
    · exact World.lt_size_of_role_ne (by rw [hr]; simp)
    · exact World.lt_size_of_role_ne (by rw [hr']; simp)
  · exact ⟨u, hru u hk d, .refl u⟩

section

variable {edit made : Edit TypeId} {info : TypeInfo} {key : CacheKey}

theorem found_of_interns (h : edit.Interns info key) (hw : w.Sound) (hk : ∀ id ∈ info.components, w.Knows id)
    (hid : w.type id = info) : (edit w).1 = id ∧ w.Alike (edit w).2 := by
  have hco : info.isConstructed := isConstructed_of_cacheKey? h.cached
  obtain ⟨⟨id, hid, hu⟩, he⟩ | ⟨found, hf, ht, he⟩ | ⟨-, hn, _, -, he⟩ := h.cases w <;> rw [he]
  · exact absurd (hk id hid) (Nat.not_lt.2 hu)
  · have ht := ht (World.cacheKey?_of_listed hw hf)
    have heq : found = id := hw.wellBuilt.unique found id (by rwa [ht]) (ht.trans hid.symm)
    exact ⟨heq, w.stats.cacheHits + 1, w.uncheckedCount, rfl⟩
  have hc := hw.wellBuilt.listed id key
  rw [hid, h.cached, if_pos rfl] at hc
  exact absurd hid (hn id (List.count_pos_iff.1 (by omega)))

theorem replays_of_interns (h : edit.Interns info key) [made.Orderly] (hf : w.Furthers (made w).2)
    (he : ∀ v : World, w.Keeps v → made v = edit v) (hw : w.Sound) (hkn : ∀ id ∈ info.components, w.Knows id) :
    (liftM made : Query TypeId).Replays w fun id w1 => w1.Knows id := by
  have hk := hf.toKeeps
  have ht := h.type hw hkn
  rw [← he w (.refl w)] at ht
  have hn : (made w).2.Knows (made w).1 := World.lt_size_of_type_ne fun hv => by
    have hc := h.cached
    rw [← ht, hv] at hc
    cases hc
  refine .lift hw hf hn fun u hu hk' => ?_
  have hc : (made w).2.class? (made w).1 = none := by rw [World.class?, ht, h.class?_eq_none]
  have hst : u.type (made w).1 = info := (hk'.type_eq hn hc).trans ht
  rw [he u (hk.trans hk')]
  exact found_of_interns h hu (fun id hid => hk'.knows (hk.knows (hkn id hid))) hst

end

variable {comp gen id recv receiver : TypeId} {type : TypeInfo}

section

variable (hw : w.Sound)

include hw

theorem parameterizedType_replays {args : List TypeId} {encl : Option TypeId} (hg : w.Knows gen)
    (hs : (w.type gen).isResolved → w.Stale gen) (ha : ∀ id ∈ args, w.Knows id) (he : ∀ id ∈ encl, w.Knows id) :
    (liftM (Edit.parameterizedType gen args encl) : Query TypeId).Replays w fun id w1 => w1.Knows id := by
  refine replays_of_interns (parameterizedType_interns gen args encl) (parameterizedType_furthers hw args hs)
    (fun _ _ => rfl) hw fun id hid => ?_
  simp only [components, List.mem_append, List.mem_cons, Option.mem_toList] at hid
  obtain hid | rfl | hid := hid
  · exact ha id hid
  · exact hg
  · exact he id hid

theorem rawType_replays (hg : w.Knows gen) :
    (liftM (Edit.rawType gen none) : Query TypeId).Replays w fun id w1 => w1.Knows id := by
  refine replays_of_interns (rawType_interns gen none) (furthers w hw) (fun _ _ => rfl) hw ?_
  rintro id (_ | ⟨_, ⟨⟩⟩)
  exact hg

theorem wildcard_replays {gen : Option TypeId} {rank : Nat} {bound : Option TypeId}
    {otherBounds : List TypeId} {kind : WildcardKind} (hg : ∀ id ∈ gen, w.Knows id)
    (hb : ∀ id ∈ bound, w.Knows id) (ho : ∀ id ∈ otherBounds, w.Knows id) :
    (liftM (Edit.wildcard gen rank bound otherBounds kind) : Query TypeId).Replays w fun id w1 => w1.Knows id := by
  have hb' : ∀ id ∈ (if kind = .unbounded then none else bound : Option TypeId), w.Knows id := by
    intro id hid
    split at hid
    · cases hid
    · exact hb id hid
  refine replays_of_interns (wildcard_interns gen rank bound otherBounds kind) (furthers w hw) (fun _ _ => rfl) hw
    fun id hid => ?_
  simp only [components, List.mem_append, Option.mem_toList] at hid
  obtain (hid | hid) | hid := hid
  · exact hg id hid
  · exact hb' id hid
  · exact ho id hid

theorem arrayType_apply (hco : w.Knows comp)
    (dims : UInt32) : ∃ leaf total, w.Knows leaf ∧ ∀ v : World, w.Keeps v → Edit.arrayType comp dims v =
        (if total = 0 then pure leaf else Edit.arrayOf leaf total : Edit TypeId) v := by
  cases ht : w.type comp with
  | array leaf inner =>
    have hl := hw.wellBuilt.known comp leaf (by rw [ht]; exact .head _)
    refine ⟨leaf, inner + dims, hl, fun v hk => ?_⟩
    have hc : w.class? comp = none := by rw [World.class?, ht]; rfl
    rw [Edit.arrayType, Edit.bind_apply, Edit.get_apply]
    dsimp only
    rw [hk.type_eq hco hc, ht]
  | _ =>
    refine ⟨comp, dims, hco, fun v hk => ?_⟩
    rw [Edit.arrayType, Edit.bind_apply, Edit.get_apply]
    dsimp only
    obtain hs | ⟨_, _, ho, hn, -⟩ := hk.type_cases hco
    · rw [hs, ht]
    · rw [hn]

theorem arrayType_replays (hc : w.Knows comp) (dims : UInt32) :
    (liftM (Edit.arrayType comp dims) : Query TypeId).Replays w fun id w1 => w1.Knows id := by
  obtain ⟨leaf, total, hl, ha⟩ := arrayType_apply hw hc dims
  by_cases ht : total = 0
  · have hse : ∀ v : World, w.Keeps v → Edit.arrayType comp dims v = (leaf, v) := by
      intro v hk
      rw [ha v hk, if_pos ht]
      rfl
    refine .lift hw (furthers w hw) ?_ fun u _ hk => ?_
    · rw [hse w (.refl w)]
      exact hl
    · rw [hse w (.refl w)] at hk ⊢
      rw [hse u hk]
      exact ⟨rfl, .refl u⟩
  have hm : ∀ v : World, w.Keeps v →
      Edit.arrayType comp dims v = Edit.arrayOf leaf total v := by
    intro v hk
    rw [ha v hk, if_neg ht]
  refine replays_of_interns (arrayOf_interns leaf total) (furthers w hw) hm hw ?_
  rintro id (_ | ⟨_, ⟨⟩⟩)
  exact hl

theorem erasureWithin_replays (hr : w.object.isSome) (depth : Nat)
    (hid : w.Knows id) : (erasureWithin depth id).Replays w fun erased w1 => w1.Knows erased := by
  induction depth generalizing w id with
  | zero =>
    exact .bind (resolved_replays hw hid) fun _ w1 hw1 hk _ => objectType_replays hw1 (hk.object ▸ hr)
  | succ depth ih =>
    rw [erasureWithin]
    refine .bind (resolved_replays hw hid) fun id w1 hw1 hk1 hid => ?_
    have hr1 : w1.object.isSome := hk1.object ▸ hr
    have hkn := hw1.wellBuilt.known id
    refine .get ?_ fun u hu hk => ?_
    · dsimp only
      split
      · exact .pure hw1 hid
      · exact .pure hw1 hid
      · exact .pure hw1 hid
      · exact .pure hw1 hid
      · next gen _ _ ht => exact .pure hw1 (hkn gen (by simp [ht]))
      · next gen _ ht => exact .pure hw1 (hkn gen (by simp [ht]))
      · next leaf dims ht =>
        refine .bind (ih hw1 hr1 (hkn leaf (by simp [ht]))) ?_
        exact fun leaf w2 hw2 _ hl => arrayType_replays hw2 hl dims
      all_goals
        split
        · next bound hb => exact ih hw1 hr1 (hw1.stocked (.type id) bound (mem_slots_of_erasureBound? hb))
        · exact objectType_replays hw1 hr1
    · obtain ht | ⟨_, _, ho, hn, -⟩ := hk.type_cases hid
      · rw [ht]
      · rw [ho, hn]

theorem rawErasure_replays (hro : w.object.isSome) (hid : w.Knows id) :
    (rawErasure id).Replays w fun erased w1 => w1.Knows erased := by
  refine .bind (erasureWithin_replays hw hro _ hid) fun erased w1 hw1 _ he => ?_
  refine .get ?_ fun u hu hk => ?_
  · split
    · refine .ite (fun _ => ?_) fun _ => ?_
      · exact rawType_replays hw1 he
      · exact .pure hw1 he
    · next leaf dims ht =>
      have hl := hw1.wellBuilt.known erased leaf (by simp [ht])
      refine .ite (fun _ => ?_) fun _ => ?_
      · exact .bind (rawType_replays hw1 hl) fun raw w2 hw2 _ hra => arrayType_replays hw2 hra _
      · exact .pure hw1 he
    · exact .pure hw1 he
  · obtain ht | ⟨old, new, ho, hn, hr⟩ := hk.type_cases he
    · rw [ht]
      split
      · rfl
      · next leaf dims hl =>
        have hkn := hw1.wellBuilt.known erased leaf (by simp [hl])
        rw [hk.class?_any ClassInfo.isGeneric hkn fun old new hr => ?_]
        rw [hr.same]
        rfl
      · rfl
    · have hg : new.isGeneric = old.isGeneric := by
        rw [hr.same]
        rfl
      rw [ho, hn]
      dsimp only
      rw [hg]

theorem substitutionForFrom_replays (fuel : Nat) (hre : w.Knows receiver) :
    (substitutionForFrom fuel receiver).Replays w fun s w1 => s.Known w1 := by
  suffices h : (substitutionForFrom fuel receiver).Replays w fun _ _ => True from
    h.runs (substitutionForFrom_known hw fuel receiver)
  induction fuel generalizing w receiver with
  | zero => exact .throw _
  | succ fuel ih =>
    rw [substitutionForFrom]
    refine .bind (resolved_replays hw hre) fun receiver w1 hw1 _ hre => ?_
    refine .get ?_ fun u hu hk => ?_
    · split
      · next gen args encl ht =>
        split
        · next outer =>
          have hou := hw1.wellBuilt.known receiver outer (by simp [ht])
          exact .bind (ih hw1 hou) fun _ w2 hw2 _ _ => .pure hw2 trivial
        · exact .pure hw1 trivial
      all_goals exact .pure hw1 trivial
    · obtain ht | ⟨_, _, ho, hn, -⟩ := hk.type_cases hre
      · rw [ht]
        split
        · next gen args encl ht =>
          have hg := hw1.wellBuilt.known receiver gen (by simp [ht])
          rw [hk.class?_map ClassInfo.typeVariables hg fun old new hr => by rw [hr.same]]
        · rfl
        · rfl
      · rw [ho, hn]

theorem substitutionFor_replays (hr : w.Knows recv) :
    (substitutionFor recv).Replays w fun s w1 => s.Known w1 :=
  .fuel fun budget => substitutionForFrom_replays hw budget hr

end

section

variable {s : Substitution}

theorem substituteFrom_replays (hw : w.Sound) (hr : w.object.isSome) (hs : s.Known w) (fuel : Nat)
    (hid : w.Knows id) : (substituteFrom s fuel id).Replays w fun res w1 => w1.Knows res := by
  induction fuel generalizing w id with
  | zero => exact .throw _
  | succ fuel ih =>
    rw [substituteFrom]
    refine .bind (resolved_replays hw hid) fun id w1 hw1 hk1 hid => ?_
    have hr1 : w1.object.isSome := hk1.object ▸ hr
    have hs1 : s.Known w1 := World.Stays.grows hk1.grows hs
    have hkn := hw1.wellBuilt.known id
    have ha : ∀ w2 : World, w2.Sound → w1.Keeps w2 → ∀ {id}, w1.Knows id →
        (substituteFrom s fuel id).Replays w2 fun res w3 => w3.Knows res :=
      fun w2 hw2 hk2 id hid => ih hw2 (hk2.object ▸ hr1) (World.Stays.grows hk2.grows hs1) (hk2.knows hid)
    refine .get ?_ fun u hu hk => ?_
    · split
      · split
        · next replacement hg => exact .pure hw1 (hs1.get? hg)
        · refine .ite (fun _ => ?_) fun _ => ?_
          · exact rawErasure_replays hw1 hr1 hid
          · exact .pure hw1 hid
      · next gen args encl ht =>
        have hge := hkn gen (by simp [ht])
        have har : ∀ id ∈ args, w1.Knows id := fun arg hm =>
          hkn arg (by simp [ht, hm])
        have he : ∀ id ∈ encl, w1.Knows id := fun outer hm => hkn outer (by simp_all)
        refine .ite (fun _ => rawType_replays hw1 hge) fun _ => ?_
        refine .bind (.mapM hw1 fun id hm w2 hw2 hk2 =>
          ha w2 hw2 hk2 (har id hm)) fun newArguments w2 hw2 hk2 hn => ?_
        refine .bind (.optionMapM hw2 fun id hm => ha w2 hw2 hk2 (he id hm)) fun newEnclosing w3 hw3 hk3 hn' => ?_
        have hk := hk2.trans hk3
        refine .ite (fun _ => .pure hw3 (hk.knows hid)) fun _ => ?_
        have hs := hk.type_eq hid (by rw [World.class?, ht]; rfl)
        exact parameterizedType_replays hw3 (hk.knows hge) (fun h => ⟨h, id, args, encl, hs.trans ht⟩)
          (fun id hm => hk3.knows (hn id hm)) hn'
      · next leaf dims ht =>
        have hl := hkn leaf (by simp [ht])
        refine .bind (ha w1 hw1 (.refl w1) hl) fun newLeaf w2 hw2 hk2 hn => ?_
        refine .ite (fun _ => .pure hw2 (hk2.knows hid)) fun _ => ?_
        exact arrayType_replays hw2 hn dims
      · next info ht =>
        have hge : ∀ id ∈ info.generic, w1.Knows id := fun gen hm =>
          hkn gen (by simp_all)
        have hb : ∀ id ∈ info.bound, w1.Knows id := fun bound hm => hkn bound (by simp_all)
        have hot : ∀ id ∈ info.otherBounds, w1.Knows id := fun bound hm =>
          hkn bound (by simp_all)
        refine .bind (.optionMapM hw1 fun id hm => ha w1 hw1 (.refl w1) (hb id hm)) fun bound w2 hw2 hk2 hn => ?_
        refine .bind (.mapM hw2 fun id hm w3 hw3 hk3 =>
          ha w3 hw3 (hk2.trans hk3) (hot id hm))
          fun otherBounds w3 hw3 hk3 hn' => ?_
        have hk := hk2.trans hk3
        refine .ite (fun _ => .pure hw3 (hk.knows hid)) fun _ => ?_
        exact wildcard_replays hw3 (fun id hm => hk.knows (hge id hm)) (fun id hm => hk3.knows (hn id hm)) hn'
      · exact .pure hw1 hid
    · obtain ht | ⟨_, _, ho, hn, -⟩ := hk.type_cases hid
      · rw [ht]
      · rw [ho, hn]

theorem substitute_replays (hw : w.Sound) (hr : w.object.isSome) (hs : s.Known w)
    (hid : w.Knows id) : (substitute s id).Replays w fun res w1 => w1.Knows res := by
  rw [substitute]
  refine .ite (fun _ => .pure hw hid) fun _ => ?_
  exact .fuel fun budget => substituteFrom_replays hw hr hs budget hid

end

end Query

end Bindings
