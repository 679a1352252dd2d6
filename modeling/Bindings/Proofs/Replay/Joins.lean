import Bindings.Proofs.Replay.Subtyping

/-! # Joining types again -/

namespace Bindings

open World

variable {found : List TypeId} {cand : TypeId}

namespace World

variable {w u : World} {id : TypeId}

theorem Keeps.isInterfaceType (h : w.Keeps u) (hw : w.Sound) (hid : w.Knows id) :
    Query.isInterfaceType u id = Query.isInterfaceType w id := by
  rw [Query.isInterfaceType, Query.isInterfaceType, h.erasureClass? hw hid]
  cases he : w.erasureClass? id with
  | none => rfl
  | some erased => exact h.class?_any _ (knows_erasureClass? hw he) fun old new hr => by rw [hr.same]; rfl

theorem Alike.rejoin (h : w.Alike u) (depth : Nat) :
    Alike { w with joinDepth := depth } { u with joinDepth := depth } := by
  obtain ⟨hits, count, rfl⟩ := h
  exact ⟨hits, count, rfl⟩

def KnowsAll (w : World) (ids : List TypeId) : Prop := ∀ id ∈ ids, w.Knows id

theorem Keeps.knowsAll (h : w.Keeps u) {ids : List TypeId} (hi : w.KnowsAll ids) : u.KnowsAll ids :=
  fun id hid => h.knows (hi id hid)

end World

namespace Query

variable {w : World} {id : TypeId} {types : List TypeId}

section

variable (hw : w.Sound)

include hw

theorem superErasures_replays (heq : w.Equipped) (hid : w.Knows id) :
    (superErasures id).Replays w fun ids w1 => w1.KnowsAll ids := by
  refine .bind (superclass_replays hw heq hid) fun super w1 hw1 hk1 hs => ?_
  refine .get ?_ fun u _ hk => ?_
  · refine .bind (superInterfaces_replays hw1 (heq.keeps hk1) (hk1.knows hid)) ?_
    intro ifaces w2 hw2 hk2 hi
    refine .get (.pure hw2 fun erased he => ?_) fun u _ hk => ?_
    · obtain he | he := List.mem_append.1 he
      · obtain ⟨sup, -, he⟩ := Option.bind_eq_some_iff.1 (Option.mem_toList.1 he)
        exact hk2.knows (knows_erasureClass? hw1 he)
      · obtain ⟨iface, -, he⟩ := List.mem_filterMap.1 he
        exact knows_erasureClass? hw2 he
    · rw [List.filterMap_congr fun iface hm => hk.erasureClass? hw2 (hi iface hm)]
  · cases super with
    | none => rfl
    | some super => rw [Option.bind_some, Option.bind_some, hk.erasureClass? hw1 (hs super rfl)]

theorem isSubclassOf_replays (he : w.Equipped) {sub sup : TypeId} (hs : w.Knows sub)
    (hsu : w.Knows sup) : (isSubclassOf sub sup).Replays w fun _ _ => True := by
  refine .get ?_ fun u _ hk => ?_
  · split
    · next subClass supClass hsub _ =>
      refine .ite (fun _ => .pure hw trivial) fun _ => ?_
      refine .bind (.fuel fun budget => .walkFrom (fun _ _ => by simp [Arrangement.depthFirst, List.subset_def])
        (fun w1 hw1 _ _ _ => .pure hw1 trivial) (fun w1 hw1 hk1 cur hc => ?_) hw budget []
          (by simpa using knows_erasureClass? hw hsub)) fun _ w1 hw1 _ _ => .pure hw1 trivial
      refine .map _ ((superErasures_replays hw1 (he.keeps hk1) hc).mono ?_)
      rintro next w2 - - hn _ ⟨⟩
      exact hn
    · exact .pure hw trivial
  · rw [hk.erasureClass? hw hs, hk.erasureClass? hw hsu]
    split
    · next _ supClass _ hsup => rw [hk.isObject (knows_erasureClass? hw hsup)]
    · rfl

theorem resolvedUnique_replays (ht : w.KnowsAll types) {unique : List TypeId}
    (hu : w.KnowsAll unique) : (resolvedUnique types unique).Replays w fun ids w1 => w1.KnowsAll ids := by
  induction types generalizing w unique with
  | nil => exact .pure hw hu
  | cons id rest ih =>
    refine .bind (resolved_replays hw (ht id (.head _))) fun id w1 hw1 hk1 hid => ?_
    have hu1 := hk1.knowsAll hu
    refine ih hw1 (hk1.knowsAll fun id hm => ht id (.tail _ hm)) ?_
    split
    · exact hu1
    · exact List.forall_mem_append.2 ⟨hu1, by simpa using hid⟩

theorem addErasures_replays (hr : w.object.isSome) (ht : w.KnowsAll types)
    (hf : w.KnowsAll found) : (addErasures types found).Replays w fun ids w1 => w1.KnowsAll ids := by
  induction types generalizing w found with
  | nil => exact .pure hw hf
  | cons id rest ih =>
    refine .bind (erasureWithin_replays hw hr _ (ht id (.head _))) fun erased w1 hw1 hk1 he => ?_
    have hf1 := hk1.knowsAll hf
    refine ih hw1 (hk1.object ▸ hr) (hk1.knowsAll fun id hm => ht id (.tail _ hm)) ?_
    split
    · exact hf1
    · exact List.forall_mem_append.2 ⟨hf1, by simpa using he⟩

theorem erasedSupertypesFrom_replays (he : w.Equipped) (fuel i : Nat) (hf : w.KnowsAll found) :
    (erasedSupertypesFrom fuel i found).Replays w fun ids w1 => w1.KnowsAll ids := by
  induction fuel generalizing w i found with
  | zero => exact .throw _
  | succ fuel ih =>
    rw [erasedSupertypesFrom]
    split
    · exact .pure hw hf
    rename_i cur hc
    have hc := hf cur (List.mem_of_getElem? hc)
    refine .bind (supertypes_replays hw he hc) fun sups w1 hw1 hk1 hs => ?_
    have he1 := he.keeps hk1
    refine .bind (addErasures_replays hw1 he1.root hs (hk1.knowsAll hf)) ?_
    exact fun found w2 hw2 hk2 hf => ih hw2 (he1.keeps hk2) _ hf

theorem erasedSupertypes_replays (he : w.Equipped) (hid : w.Knows id) :
    (erasedSupertypes id).Replays w fun ids w1 => w1.KnowsAll ids := by
  refine .bind (erasureWithin_replays hw he.root _ hid) fun start w1 hw1 hk1 hs => ?_
  exact .fuel fun budget => erasedSupertypesFrom_replays hw1 (he.keeps hk1) budget 0 (by simpa [KnowsAll] using hs)

theorem commonSupertypes_replays (he : w.Equipped) (ht : w.KnowsAll types) :
    (commonSupertypes types).Replays w fun ids w1 => w1.KnowsAll ids := by
  cases types with
  | nil => exact .pure hw nofun
  | cons first rest =>
    refine .bind (erasedSupertypes_replays hw he (ht first (.head _))) ?_
    intro common w1 hw1 hk1 hc
    have he1 := he.keeps hk1
    have hr : w1.KnowsAll rest := hk1.knowsAll fun id hid => ht id (.tail _ hid)
    clear ht
    induction rest generalizing w1 common with
    | nil => exact .pure hw1 hc
    | cons id rest ih =>
      rw [List.foldlM_cons]
      have hs : (do
          let above ← erasedSupertypes id
          return common.filter above.contains : Query (List TypeId)).Replays w1 fun ids w2 => w2.KnowsAll ids :=
        .bind (erasedSupertypes_replays hw1 he1 (hr id (.head _))) fun above w2 hw2 hk2 _ =>
          .pure hw2 fun id hid => hk2.knows (hc id (List.mem_of_mem_filter hid))
      refine hs.bind ?_
      intro common w2 hw2 hk2 hc
      exact ih common w2 hw2 (hk1.trans hk2) hc (he1.keeps hk2) (hk2.knowsAll fun id hid => hr id (.tail _ hid))

theorem isMinimal_replays (he : w.Equipped) (ht : w.KnowsAll types) (hid : id ∈ types) :
    (isMinimal types id).Replays w fun _ _ => True := by
  refine .bind (.anyM hw fun other ho w1 hw1 hk1 => ?_) fun _ w1 hw1 _ _ => .pure hw1 trivial
  refine .ite (fun _ => .pure hw1 trivial) fun _ => ?_
  exact isSubclassOf_replays hw1 (he.keeps hk1) (hk1.knows (ht other ho)) (hk1.knows (ht id hid))

theorem argumentUpperBound_replays (hr : w.object.isSome) (hid : w.Knows id) :
    (argumentUpperBound id).Replays w fun bound w1 => w1.Knows bound := by
  refine .get ?_ fun u _ hk => by rw [hk.wildcard? hid]
  split
  · next info hi =>
    split
    · next bound _ hb =>
      refine .pure hw (hw.stocked (.type id) bound ?_)
      cases ht : w.type id <;> simp_all [held, TypeInfo.wildcard?]
    · exact objectType_replays hw hr
  · exact .pure hw hid

theorem invocations_replays (he : w.Equipped) (cand : TypeId)
    (hty : w.KnowsAll types) : (invocations cand types).Replays w fun found w1 =>
      ∀ rows ∈ found, ∀ row ∈ rows, w1.KnowsAll row := by
  induction types generalizing w with
  | nil =>
    refine .pure hw ?_
    rintro _ ⟨⟩ row ⟨⟩
  | cons id rest ih =>
    refine .bind (asSuperType_replays hw he (hty id (.head _)) cand) fun found w1 hw1 hk1 hf => ?_
    cases found with
    | none => exact .pure hw1 nofun
    | some sup =>
      have hs := hf sup rfl
      refine .get ?_ fun u _ hk => ?_
      · split
        · next _ args _ ht =>
          have ha : w1.KnowsAll args := fun arg hm =>
            hw1.wellBuilt.known sup arg (by simp [ht, hm])
          refine .bind (ih hw1 (he.keeps hk1) (hk1.knowsAll fun id hid => hty id (.tail _ hid))) ?_
          intro found w2 hw2 hk2 hr
          refine .pure hw2 fun rows hf => ?_
          obtain ⟨others, hot, rfl⟩ := Option.map_eq_some_iff.1 hf
          exact List.forall_mem_cons.2 ⟨hk2.knowsAll ha, hr others hot⟩
        · exact .pure hw1 nofun
      · obtain ht | ⟨_, _, ho, hn, -⟩ := hk.type_cases hs
        · rw [ht]
        · rw [ho, hn]

end

section

variable {join : List TypeId → Query (Option TypeId)}

def JoinsAgain (join : List TypeId → Query (Option TypeId)) : Prop :=
  ∀ w : World, w.Sound → w.Equipped → ∀ types, w.KnowsAll types →
    (join types).Replays w fun found w1 => ∀ id ∈ found, w1.Knows id

variable (hj : JoinsAgain join)

include hj

theorem joinArgument_replays (hw : w.Sound) (he : w.Equipped)
    (hc : w.Knows cand) (rank : Nat) {column : List TypeId} (hco : w.KnowsAll column) :
    (joinArgument join cand rank column).Replays w fun arg w1 => w1.Knows arg := by
  have hwi : ∀ (w1 : World) (bound : Option TypeId) (kind : WildcardKind), w1.Sound → w.Keeps w1 →
      (∀ id ∈ bound, w1.Knows id) →
      (liftM (Edit.wildcard (some cand) rank bound [] kind) : Query TypeId).Replays w1
        fun arg w2 => w2.Knows arg := by
    intro w1 bound kind hw1 hk1 hb
    refine wildcard_replays hw1 ?_ hb nofun
    rintro _ ⟨⟩
    exact hk1.knows hc
  cases column with
  | nil => exact hwi w none _ hw (.refl w) nofun
  | cons first others =>
    refine .ite (fun _ => .pure hw (hco first (.head _))) fun _ => ?_
    refine .bind (.mapM hw fun id hid w1 hw1 hk1 => argumentUpperBound_replays hw1
      (he.keeps hk1).root (hk1.knows (hco id hid))) fun uppers w1 hw1 hk1 hu => ?_
    refine .bind (hj w1 hw1 (he.keeps hk1) uppers hu) fun found w2 hw2 hk2 hf => ?_
    have hk := hk1.trans hk2
    cases found with
    | none => exact hwi w2 none _ hw2 hk nofun
    | some bound =>
      have hb := hf bound rfl
      refine .get (.ite (fun _ => hwi w2 none _ hw2 hk nofun) fun _ => ?_) fun u _ hk => ?_
      · exact hwi w2 (some bound) _ hw2 hk hf
      · rw [hk.isObject hb]

theorem joinCandidate_replays (hw : w.Sound) (he : w.Equipped) (ht : w.KnowsAll types) (hc : w.Knows cand) :
    (joinCandidate join types cand).Replays w fun bound w1 => w1.Knows bound := by
  refine .get ?_ fun u _ hk => ?_
  · refine .ite (fun _ => .pure hw hc) fun hge => ?_
    refine .bind (invocations_replays hw he cand ht) fun found w1 hw1 hk1 hro => ?_
    have hc1 := hk1.knows hc
    cases found with
    | none => exact rawType_replays hw1 hc1
    | some rows =>
      refine .ite (fun _ => rawType_replays hw1 hc1) fun _ => ?_
      refine .bind (.mapM hw1 fun rank _ w2 hw2 hk2 => joinArgument_replays hj hw2
        (he.keeps (hk1.trans hk2)) (hk2.knows hc1) rank fun id hid => ?_)
        fun args w2 hw2 hk2 ha => ?_
      · obtain ⟨row, hrow, hg⟩ := List.mem_filterMap.1 hid
        exact hk2.knows (hro rows rfl row hrow id (List.mem_of_getElem? hg))
      refine parameterizedType_replays hw2 (hk2.knows hc1) ?_ ha nofun
      -- A generic candidate is a class.
      have hs := (hk1.trans hk2).class?_isSome hc
      rw [World.class?] at hs
      cases hty : w2.type cand <;> cases hcl : w.class? cand <;> simp_all
  · rw [hk.options, hk.class?_any _ hc fun old new hr => by rw [hr.same]; rfl]

omit hj in
theorem intersection_replays (hw : w.Sound) {bounds : List TypeId} (hb : w.KnowsAll bounds) :
    (intersection bounds).Replays w fun found w1 => ∀ id ∈ found, w1.Knows id := by
  refine .get ?_ fun u _ hk => ?_
  · have ha : w.KnowsAll (bounds.filter (!isInterfaceType w ·) ++ bounds.filter (isInterfaceType w)) :=
      List.forall_mem_append.2 ⟨fun id hid => hb id (List.mem_of_mem_filter hid),
        fun id hid => hb id (List.mem_of_mem_filter hid)⟩
    dsimp only
    split
    · exact .pure hw (by simp)
    · next bound heq =>
      refine .pure hw ?_
      rintro _ ⟨⟩
      exact ha bound (by rw [heq]; exact .head _)
    rename_i bound others _ heq
    rw [heq] at ha
    refine .some (wildcard_replays hw (by simp) ?_ fun id hid => ha id (.tail _ hid))
    rintro _ ⟨⟩
    exact ha bound (.head _)
  · have hs : ∀ id ∈ bounds, isInterfaceType u id = isInterfaceType w id := fun id hid =>
      hk.isInterfaceType hw (hb id hid)
    dsimp only
    rw [List.filter_congr hs, List.filter_congr fun id hid => congrArg not (hs id hid)]

theorem joinDistinct_replays (hw : w.Sound) (he : w.Equipped) (ht : w.KnowsAll types) :
    (joinDistinct join types).Replays w fun found w1 => ∀ id ∈ found, w1.Knows id := by
  refine .bind (commonSupertypes_replays hw he ht) fun common w1 hw1 hk1 hc => ?_
  refine .bind (.filterM hw1 fun id hid w2 hw2 hk2 => isMinimal_replays hw2
    (he.keeps (hk1.trans hk2)) (hk2.knowsAll hc) hid) fun minimal w2 hw2 hk2 hs => ?_
  have hm : w2.KnowsAll minimal := fun id hid => hk2.knows (hc id (hs hid))
  refine .get ?_ fun u _ hk => ?_
  · refine .bind (.mapM hw2 fun id hid w3 hw3 hk3 => ?_) fun bounds w3 hw3 _ hb => intersection_replays hw3 hb
    have hk := (hk1.trans hk2).trans hk3
    refine joinCandidate_replays hj hw3 (he.keeps hk) (hk.knowsAll ht) (hk3.knows ?_)
    split at hid
    · exact hm id (List.mem_of_mem_filter hid)
    · exact hm id hid
  · rw [List.filter_congr fun id hid => congrArg not (hk.isObject (hm id hid))]

end

theorem deeper_replays {query : Query (Option TypeId)}
    (hq : query.Replays { w with joinDepth := w.joinDepth + 1 } fun found w1 => ∀ id ∈ found, w1.Knows id) :
    (do
      modify fun world : World => { world with joinDepth := world.joinDepth + 1 }
      thenAlways query (modify fun world : World => { world with joinDepth := world.joinDepth - 1 })).Replays w
      fun found w1 => ∀ id ∈ found, w1.Knows id := by
  have hap : ∀ (v after : World) (d : Demand) (res : Except Halt (Option TypeId)),
      v.joinDepth = w.joinDepth → query d { v with joinDepth := w.joinDepth + 1 } = (res, after) →
      (do
        modify fun world : World => { world with joinDepth := world.joinDepth + 1 }
        thenAlways query (modify fun world : World => { world with joinDepth := world.joinDepth - 1 }) :
          Query (Option TypeId)) d v = (res, { after with joinDepth := after.joinDepth - 1 }) := by
    intro v after d res hs hr
    rw [← hs] at hr
    rw [Query.bind_ok d v rfl, thenAlways_apply]
    rw [hr]
    rfl
  intro fuel a w1 hr
  cases hfi : query (.idle fuel) { w with joinDepth := w.joinDepth + 1 } with
  | mk res v =>
    rw [hap w v _ res rfl hfi] at hr
    cases hr
    obtain ⟨⟨hv, hk, hf⟩, he, ha⟩ := hq fuel a v hfi
    have hde : v.joinDepth = w.joinDepth + 1 := hk.joinDepth
    have hb : v.joinDepth - 1 = w.joinDepth := by rw [hde, Nat.add_sub_cancel]
    rw [hb]
    refine ⟨⟨hv.move (.aside { Apart.refl v with }), ⟨hk.rejoin w.joinDepth, hk.stale⟩, hf⟩, fun d hd => ?_, ?_⟩
    · rw [hap w v d _ rfl (he d hd), hb]
    intro u hu hk' d hd
    have hs : u.joinDepth = w.joinDepth := hk'.joinDepth
    have hl := hk'.rejoin v.joinDepth
    rw [hde] at hl
    have hv' : ({ v with joinDepth := w.joinDepth + 1 } : World) = v := by rw [← hde]
    obtain ⟨u1, hr1, hal1⟩ := ha { u with joinDepth := w.joinDepth + 1 }
      (hu.move (.aside { Apart.refl u with })) (hv' ▸ hl) d hd
    have hde1 : u1.joinDepth = w.joinDepth + 1 := hal1.keeps.joinDepth
    refine ⟨_, hap u u1 d _ hs hr1, ?_⟩
    rw [hde1, Nat.add_sub_cancel, ← hs]
    exact hal1.rejoin u.joinDepth

theorem joinFrom_replays (fuel : Nat) : JoinsAgain (joinFrom fuel) := by
  induction fuel with
  | zero => exact fun _ _ _ _ _ => .throw _
  | succ fuel ih =>
    intro w hw he types ht
    rw [joinFrom]
    refine .bind (resolvedUnique_replays hw ht nofun) fun unique w1 hw1 hk1 hu => ?_
    have he1 := he.keeps hk1
    refine .get ?_ fun u _ hk => ?_
    · have hr : w1.KnowsAll (unique.filter fun id => w1.base? id != some .null) := fun id hid =>
        hu id (List.mem_of_mem_filter hid)
      dsimp only
      refine .ite (fun _ => .pure hw1 nofun) fun _ => ?_
      split
      · exact .pure hw1 nofun
      · next id heq =>
        refine .pure hw1 ?_
        rintro _ ⟨⟩
        exact hr id (by rw [heq]; exact .head _)
      refine .ite (fun _ => .map _ ((objectType_replays hw1 he1.root).mono ?_)) fun _ => deeper_replays ?_
      · rintro id w2 - - hid _ ⟨⟩
        exact hid
      · have has : Aside w1 { w1 with joinDepth := w1.joinDepth + 1 } := { Apart.refl w1 with }
        exact joinDistinct_replays ih (hw1.move (.aside has)) (he1.grows (.spares has.toSpares) rfl) hr
    · have hb : ∀ id ∈ unique, u.base? id = w1.base? id := fun id hid => hk.base? (hu id hid)
      have hr : (unique.filter fun id => u.base? id != some .null) =
          unique.filter fun id => w1.base? id != some .null :=
        List.filter_congr fun id hid => by rw [hb id hid]
      have ha : ((unique.filter fun id => w1.base? id != some .null).any fun id => (u.base? id).isSome) =
          (unique.filter fun id => w1.base? id != some .null).any fun id => (w1.base? id).isSome := by
        rw [Bool.eq_iff_iff, List.any_eq_true, List.any_eq_true]
        exact exists_congr fun id => and_congr_right fun hid => by rw [hb id (List.mem_of_mem_filter hid)]
      dsimp only
      rw [hr, ha, hk.joinDepth]

theorem leastUpperBound_replays : JoinsAgain leastUpperBound := fun w hw he types ht =>
  .fuel fun budget => joinFrom_replays budget w hw he types ht

end Query

end Bindings
