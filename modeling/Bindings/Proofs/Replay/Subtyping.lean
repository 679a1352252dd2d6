import Bindings.Proofs.Replay.Supertypes

/-! # Comparing types again -/

namespace Bindings

open TypeInfo World

namespace World

variable {w u : World} {id : TypeId}

section

variable (h : w.Keeps u)

include h

theorem Keeps.wildcard? (hid : w.Knows id) : (u.type id).wildcard? = (w.type id).wildcard? := by
  obtain ht | ⟨_, _, ho, hn, -⟩ := h.type_cases hid
  · rw [ht]
  · rw [ho, hn]
    rfl

theorem Keeps.base? (hid : w.Knows id) : u.base? id = w.base? id := by
  rw [World.base?, World.base?]
  obtain ht | ⟨_, _, ho, hn, -⟩ := h.type_cases hid
  · rw [ht]
  · rw [ho, hn]
    rfl

theorem Keeps.isVariableLike (hid : w.Knows id) :
    (u.type id).isVariableLike = (w.type id).isVariableLike := by
  obtain ht | ⟨_, _, ho, hn, -⟩ := h.type_cases hid
  · rw [ht]
  · rw [ho, hn]
    rfl

theorem Keeps.isArrayInterface (hw : w.Sound) (hid : w.Knows id) :
    Query.isArrayInterface u id = Query.isArrayInterface w id := by
  rw [Query.isArrayInterface, Query.isArrayInterface, h.erasureClass? hw hid]
  cases he : w.erasureClass? id with
  | none => rfl
  | some erased => exact h.class?_any _ (knows_erasureClass? hw he) fun old new hr => by rw [hr.same]

theorem Keeps.kindCompatible? {src tgt : TypeId} (hs : w.Knows src)
    (hta : w.Knows tgt) : Query.kindCompatible? (u.type src) (u.type tgt) =
      Query.kindCompatible? (w.type src) (w.type tgt) := by
  obtain ht | ⟨_, _, ho, hn, -⟩ := h.type_cases hs <;> rcases h.type_cases hta with ht' | ⟨_, _, ho', hn', -⟩
  · rw [ht, ht']
  · rw [ht, ho', hn']
    cases w.type src with
    | base kind => cases kind <;> rfl
    | _ => rfl
  · rw [ho, hn, ht']
    cases w.type tgt <;> rfl
  · rw [ho, hn, ho', hn']
    rfl

theorem Keeps.recompare (pairs : List (TypeId × TypeId)) :
    Keeps { w with comparing := pairs } { u with comparing := pairs } := by
  have hb : Aside { w with comparing := pairs } w := { Apart.refl { w with comparing := pairs } with }
  have ha : Aside u { u with comparing := pairs } := { Apart.refl u with }
  refine ⟨?_, by rw [h.same], h.type⟩
  exact (Grows.spares hb.toSpares).trans (h.grows.trans (.spares ha.toSpares))

theorem Keeps.joinDepth : u.joinDepth = w.joinDepth := by rw [h.same]

theorem Keeps.options : u.options = w.options := by rw [h.same]

theorem Keeps.rejoin (depth : Nat) :
    Keeps { w with joinDepth := depth } { u with joinDepth := depth } := by
  have hb : Aside { w with joinDepth := depth } w := { Apart.refl { w with joinDepth := depth } with }
  have ha : Aside u { u with joinDepth := depth } := { Apart.refl u with }
  refine ⟨?_, by rw [h.same], h.type⟩
  exact (Grows.spares hb.toSpares).trans (h.grows.trans (.spares ha.toSpares))

end

theorem Alike.recompare (h : w.Alike u) (pairs : List (TypeId × TypeId)) :
    Alike { w with comparing := pairs } { u with comparing := pairs } := by
  obtain ⟨hits, count, rfl⟩ := h
  exact ⟨hits, count, rfl⟩

end World

namespace Query

variable {w : World}

theorem asSuperType_replays (hw : w.Sound) (he : w.Equipped) {id : TypeId} (hid : w.Knows id) (tgt : TypeId) :
    (asSuperType id tgt).Replays w fun found w1 => ∀ sup ∈ found, w1.Knows sup := by
  refine .bind (resolved_replays hw hid) fun id w1 hw1 hk1 hid => .fuel fun budget => ?_
  refine .walkFrom (fun _ _ => by simp [Arrangement.breadthFirst]) (fun w2 hw2 _ cur hc => ?_)
    (fun w2 hw2 hk2 cur hc => ?_)
    hw1 budget [] (by simpa using hid)
  · refine .get (.pure hw2 trivial) fun u _ hk => ?_
    rw [hk.erasureClass? hw2 hc]
  · exact .some (supertypes_replays hw2 (he.keeps (hk1.trans hk2)) hc)

section

variable {compatible : TypeId → TypeId → Query Bool} {src source tgt target : TypeId}

def ComparesAgain (compatible : TypeId → TypeId → Query Bool) : Prop :=
  ∀ w : World, w.Sound → w.Equipped → ∀ source target, w.Knows source → w.Knows target →
    (compatible source target).Replays w fun _ _ => True

theorem containsBy_replays (hc : ComparesAgain compatible) (hw : w.Sound)
    (he : w.Equipped) {container arg : TypeId} (hco : w.Knows container)
    (ha : w.Knows arg) : (containsBy compatible container arg).Replays w fun _ _ => True := by
  refine .bind (resolved_replays hw hco) fun container w1 hw1 hk1 hco => ?_
  refine .bind (resolved_replays hw1 (hk1.knows ha)) fun arg w2 hw2 hk2 ha => ?_
  have he2 := he.keeps (hk1.trans hk2)
  have hco := hk2.knows hco
  have hbo : ∀ id info bound, (w2.type id).wildcard? = some info → info.bound = some bound →
      w2.Knows bound := by
    intro id info bound hi hb
    refine hw2.stocked (.type id) bound ?_
    rw [held]
    cases ht : w2.type id <;> simp_all [wildcard?]
  refine .ite (fun _ => .pure hw2 trivial) fun _ => .get ?_ fun u _ hk => ?_
  · split
    · next info hi =>
      split
      · exact .pure hw2 trivial
      · exact .pure hw2 trivial
      · next bound _ hb _ =>
        exact hc w2 hw2 he2 _ _ ha (hbo container info bound hi hb)
      · next bound inner _ hb hin =>
        split
        · next innerBound _ hinn =>
          exact hc w2 hw2 he2 _ _ (hbo arg inner innerBound hin hinn) (hbo container info bound hi hb)
        · exact .pure hw2 trivial
      · next bound _ hb _ =>
        exact hc w2 hw2 he2 _ _ (hbo container info bound hi hb) ha
      rename_i bound inner _ hb hin
      split
      · next innerBound _ hinn =>
        exact hc w2 hw2 he2 _ _ (hbo container info bound hi hb) (hbo arg inner innerBound hin hinn)
      · exact .pure hw2 trivial
    · exact .pure hw2 trivial
  · rw [hk.wildcard? hco, hk.wildcard? ha]
    split
    · next info hi =>
      split <;> try rfl
      next bound inner _ hb hin =>
      rw [hk.isObject (hbo container info bound hi hb)]
    · rfl

theorem boundCompatible_replays (hc : ComparesAgain compatible) (hw : w.Sound)
    (he : w.Equipped) (hs : w.Knows source) (hta : w.Knows target) :
    (boundCompatible compatible source target).Replays w fun _ _ => True := by
  have ha : (do
      let bounds ← supertypes source
      bounds.anyM fun bound => do
        if bound = source then return false
        compatible bound target : Query Bool).Replays w fun _ _ => True := by
    refine .bind (supertypes_replays hw he hs) fun bounds w1 hw1 hk1 hb => ?_
    refine .anyM hw1 fun bound hm w2 hw2 hk2 => .ite (fun _ => .pure hw2 trivial) fun _ => ?_
    have hk := hk1.trans hk2
    exact hc w2 hw2 (he.keeps hk) _ _ (hk2.knows (hb bound hm)) (hk.knows hta)
  refine .get ?_ fun u _ hk => ?_
  · split
    · exact .pure hw trivial
    · exact .pure hw trivial
    · exact .pure hw trivial
    · exact .pure hw trivial
    · exact ha
  · obtain ht | ⟨_, _, ho, hn, -⟩ := hk.type_cases hs
    · rw [ht]
    · rw [ho, hn]

theorem arrayCompatible_replays (hco : ComparesAgain compatible) (hw : w.Sound)
    (he : w.Equipped) {leaf : TypeId} (hl : w.Knows leaf) (dims : UInt32) (hta : w.Knows tgt) :
    (arrayCompatible compatible leaf dims tgt).Replays w fun _ _ => True := by
  have hi : (do return isArrayInterface (← get) tgt : Query Bool).Replays w fun _ _ => True := by
    refine .get (.pure hw trivial) fun u _ hk => ?_
    rw [hk.isArrayInterface hw hta]
  refine .get ?_ fun u _ hk => ?_
  · split
    · next targetLeaf targetDimensions ht =>
      have htarg := hw.wellBuilt.known tgt targetLeaf (by simp [ht])
      refine .bind (arrayType_replays hw hl _) fun comp w1 hw1 hk1 hc => ?_
      refine .bind (arrayType_replays hw1 (hk1.knows htarg) _) ?_
      refine fun targetComponent w2 hw2 hk2 htar => ?_
      have hc := hk2.knows hc
      refine .get (.ite (fun _ => .pure hw2 trivial) fun _ => ?_) fun u _ hk => ?_
      · exact hco w2 hw2 (he.keeps (hk1.trans hk2)) _ _ hc htar
      · rw [hk.base? hc, hk.base? htar]
    · exact hi
  · obtain ht | ⟨_, _, ho, hn, -⟩ := hk.type_cases hta
    · rw [ht]
    · rw [ho, hn]

theorem countUnchecked_replays (hw : w.Sound) :
    (modify fun world => { world with uncheckedCount := world.uncheckedCount + 1 } : Query Unit).Replays w
      fun _ _ => True := by
  have ha : ∀ v : World, v.Alike { v with uncheckedCount := v.uncheckedCount + 1 } := fun v =>
    ⟨v.stats.cacheHits, v.uncheckedCount + 1, rfl⟩
  intro fuel a w1 hr
  cases hr
  exact ⟨⟨(ha w).sound hw, (ha w).furthers, trivial⟩, fun _ _ => rfl, fun u _ _ _ _ => ⟨_, rfl, ha u⟩⟩

theorem classCompatible_replays (hc : ComparesAgain compatible) (hw : w.Sound)
    (he : w.Equipped) (hs : w.Knows src) (hta : w.Knows tgt) :
    (classCompatible compatible src tgt).Replays w fun _ _ => True := by
  refine .get ?_ fun u _ hk => by rw [hk.erasureClass? hw hta]
  split
  · next targetClass _ =>
    refine .bind (asSuperType_replays hw he hs targetClass) fun found w1 hw1 hk1 hf => ?_
    cases found with
    | none => exact .pure hw1 trivial
    | some sup =>
      have hsu := hf sup rfl
      have hta := hk1.knows hta
      refine .get ?_ fun u _ hk => ?_
      · split
        · next _ targetArguments _ _ sourceArguments _ htar hso =>
          refine .ite (fun _ => .pure hw1 trivial) fun _ => .allM hw1 fun pair hp w2 hw2 hk2 => ?_
          obtain ⟨hfi, hse⟩ := List.of_mem_zip hp
          have hco := hw1.wellBuilt.known tgt pair.1 (by
            simp [htar, hfi])
          have ha := hw1.wellBuilt.known sup pair.2 (by
            simp [hso, hse])
          exact containsBy_replays hc hw2 (he.keeps (hk1.trans hk2)) (hk2.knows hco) (hk2.knows ha)
        · exact .bind (countUnchecked_replays hw1) fun _ w2 hw2 _ _ => .pure hw2 trivial
        · exact .pure hw1 trivial
      · obtain ht | ⟨_, _, ho, hn, -⟩ := hk.type_cases hta <;> rcases hk.type_cases hsu with ht' | ⟨_, _, ho', hn', -⟩
        · rw [ht, ht']
        · rw [ht, ho', hn']
          cases w1.type tgt <;> rfl
        · rw [ho, hn, ht']
        · rw [ho, hn, ho', hn']
  · exact .pure hw trivial

theorem referenceCompatible_replays (hco : ComparesAgain compatible) (hw : w.Sound)
    (he : w.Equipped) (hs : w.Knows src) (hta : w.Knows tgt) :
    (referenceCompatible compatible src tgt).Replays w fun _ _ => True := by
  have hb := boundCompatible_replays hco hw he hs hta
  unfold referenceCompatible
  extract_lets fromSource
  have hf : fromSource.Replays w fun _ _ => True := by
    have hc := classCompatible_replays hco hw he hs hta
    refine .get ?_ fun u _ hk => ?_
    · split
      · exact hb
      · exact hb
      · exact hb
      · next leaf dims ht =>
        have hl := hw.wellBuilt.known src leaf (by simp [ht])
        exact arrayCompatible_replays hco hw he hl dims hta
      · exact hc
      · exact hc
      · exact hc
      · exact .pure hw trivial
    · obtain ht | ⟨_, _, ho, hn, -⟩ := hk.type_cases hs
      · rw [ht]
      · rw [ho, hn]
  have hh : ∀ slot ∈ (w.type tgt).slots, w.Knows slot := hw.stocked (.type tgt)
  refine .get ?_ fun u _ hk => ?_
  · split
    · next info ht =>
      split
      · next lower hlo =>
        have hlo := hh lower (by simp [ht, hlo])
        refine .bind (hco w hw he _ _ hs hlo) fun ans w1 hw1 hk1 _ => ?_
        refine .ite (fun _ => .pure hw1 trivial) fun _ => ?_
        exact boundCompatible_replays hco hw1 (he.keeps hk1) (hk1.knows hs) (hk1.knows hta)
      · exact hb
    · exact hb
    · next info ht =>
      refine .ite (fun _ => .allM hw fun bound hm w1 hw1 hk1 => ?_) fun _ => hf
      have hb := hh bound (by simp_all)
      exact hco w1 hw1 (he.keeps hk1) _ _ (hk1.knows hs) (hk1.knows hb)
    · exact hf
  · obtain ht | ⟨_, _, ho, hn, -⟩ := hk.type_cases hta
    · rw [ht]
    · rw [ho, hn]

end

theorem guarded_replays {src tgt : TypeId} {decide : Query Bool} (hw : w.Sound) (hso : w.Knows src) (ht : w.Knows tgt)
    (hde : decide.Replays { w with comparing := (src, tgt) :: w.comparing } fun _ _ => True) :
    (guarded src tgt decide).Replays w fun _ _ => True := by
  by_cases hm : w.comparing.contains (src, tgt)
  · refine .get ?_ fun u _ hk => ?_
    · rw [if_pos hm]
      exact .pure hw trivial
    · rw [hk.comparing, if_pos hm, if_pos hm, hk.isVariableLike hso, hk.isVariableLike ht]
  have hap : ∀ (v after : World) (d : Demand) (res : Except Halt Bool), v.comparing = w.comparing →
      decide d { v with comparing := (src, tgt) :: w.comparing } = (res, after) →
      guarded src tgt decide d v = (res, { after with comparing := after.comparing.erase (src, tgt) }) := by
    intro v after d res hs hr
    rw [guarded, get_bind_apply, hs, if_neg hm]
    rw [← hs] at hr
    rw [Query.bind_ok d v rfl, thenAlways_apply]
    rw [hr]
    rfl
  intro fuel a w1 hr
  cases hf : decide (.idle fuel) { w with comparing := (src, tgt) :: w.comparing } with
  | mk res v =>
    rw [hap w v _ res rfl hf] at hr
    cases hr
    obtain ⟨⟨hv, hk, -⟩, he, ha⟩ := hde fuel a v hf
    have hn : v.comparing = (src, tgt) :: w.comparing := hk.comparing
    have hb : v.comparing.erase (src, tgt) = w.comparing := by rw [hn, List.erase_cons_head]
    rw [hb]
    refine ⟨⟨hv.move (.aside { Apart.refl v with }), ⟨hk.recompare w.comparing, hk.stale⟩, trivial⟩, fun d hd => ?_, ?_⟩
    · rw [hap w v d _ rfl (he d hd), hb]
    intro u hu hk' d hd
    have hs : u.comparing = w.comparing := hk'.comparing
    have hl := hk'.recompare v.comparing
    rw [hn] at hl
    have hv' : ({ v with comparing := (src, tgt) :: w.comparing } : World) = v := by rw [← hn]
    obtain ⟨u1, hr1, hal1⟩ := ha { u with comparing := (src, tgt) :: w.comparing }
      (hu.move (.aside { Apart.refl u with })) (hv' ▸ hl) d hd
    have hn1 : u1.comparing = (src, tgt) :: w.comparing := hal1.keeps.comparing
    refine ⟨_, hap u u1 d _ hs hr1, ?_⟩
    rw [hn1, List.erase_cons_head, ← hs]
    exact hal1.recompare u.comparing

theorem compatibleFrom_replays (fuel : Nat) : ComparesAgain (compatibleFrom fuel) := by
  induction fuel with
  | zero => exact fun _ _ _ _ _ _ _ => .throw _
  | succ fuel ih =>
    intro w hw he src tgt hs ht
    rw [compatibleFrom]
    refine .bind (resolved_replays hw hs) fun src w1 hw1 hk1 hs => ?_
    refine .bind (resolved_replays hw1 (hk1.knows ht)) fun tgt w2 hw2 hk2 ht => ?_
    have hs := hk2.knows hs
    have he2 := he.keeps (hk1.trans hk2)
    refine .ite (fun _ => .pure hw2 trivial) fun _ => .get ?_ fun u _ hk => ?_
    · split
      · exact .pure hw2 trivial
      · refine .ite (fun _ => .pure hw2 trivial) fun _ => guarded_replays hw2 hs ht ?_
        have ha : Aside w2 { w2 with comparing := (src, tgt) :: w2.comparing } := { Apart.refl w2 with }
        exact referenceCompatible_replays ih (hw2.move (.aside ha)) (he2.grows (.spares ha.toSpares) rfl) hs ht
    · rw [hk.kindCompatible? hs ht, hk.isObject ht]

theorem compatible_replays : ComparesAgain compatible := fun w hw he src tgt hs ht =>
  .fuel fun budget => compatibleFrom_replays budget w hw he src tgt hs ht

end Query

end Bindings
