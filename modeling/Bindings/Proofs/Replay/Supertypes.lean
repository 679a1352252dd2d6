import Mathlib.Data.List.Find
import Bindings.Proofs.Replay.Types

/-! # Supertypes again -/

namespace Bindings

open TypeInfo World

namespace World

variable {w u : World} {change : ClassInfo → ClassInfo}

def PartRead (w : World) (id : TypeId) (part : ClassPart) : Prop :=
  ∀ info, w.class? id = some info → info.state.isPending part = false

variable {id : TypeId} {part : ClassPart}

theorem PartRead.keeps (hk : w.Keeps u) (hid : w.Knows id) (h : w.PartRead id part) : u.PartRead id part := by
  intro info hi
  obtain ⟨-, hno⟩ | ⟨old, new, ho, hn, hr⟩ := hk.class?_cases hid
  · rw [hno] at hi
    cases hi
  cases hi.symm.trans hn
  cases part with
  | superclass => exact (hr.superclass (h old ho)).2
  | interfaces => exact (hr.interfaces (h old ho)).2
  | members | memberTypes =>
    rw [hr.same]
    exact h old ho

theorem Knows.modifyClass (hid : w.Knows id) (other : TypeId) (change : ClassInfo → ClassInfo) :
    (w.modifyClass other change).Knows id :=
  Nat.lt_of_lt_of_eq hid (size_modifyType ..).symm

theorem partRead_modifyClass (h : ∀ info, w.class? id = some info → (change info).state.isPending part = false) :
    (w.modifyClass id change).PartRead id part := by
  intro info hi
  rw [class?_modifyClass, if_pos rfl] at hi
  obtain ⟨old, ho, rfl⟩ := Option.map_eq_some_iff.1 hi
  exact h old ho

theorem PartRead.superclass (h : w.PartRead id .superclass) (hk : w.Keeps u) (hid : w.Knows id) :
    (u.class? id).bind ClassInfo.superclass = (w.class? id).bind ClassInfo.superclass := by
  obtain ⟨ho, hn⟩ | ⟨old, new, ho, hn, hr⟩ := hk.class?_cases hid <;> rw [ho, hn]
  exact (hr.superclass (h old ho)).1

theorem PartRead.interfaces (h : w.PartRead id .interfaces) (hk : w.Keeps u) (hid : w.Knows id) :
    (u.class? id).map ClassInfo.interfaces = (w.class? id).map ClassInfo.interfaces := by
  obtain ⟨ho, hn⟩ | ⟨old, new, ho, hn, hr⟩ := hk.class?_cases hid <;> rw [ho, hn]
  rw [Option.map_some, Option.map_some, (hr.interfaces (h old ho)).1]

theorem knows_erasureClass? (hw : w.Sound) {erased : TypeId} (h : w.erasureClass? id = some erased) :
    w.Knows erased := by
  have hk := hw.wellBuilt.known id erased
  cases ht : w.type id with
  | declared info =>
    obtain rfl : id = erased := by simpa [erasureClass?, ht] using h
    exact lt_size_of_class? (class?_eq_some.2 ht)
  | parameterized gen | raw gen =>
    obtain rfl : gen = erased := by simpa [erasureClass?, ht] using h
    exact hk (by simp [ht])
  | placeholder name tgt =>
    cases tgt with
    | none => simp [erasureClass?, ht] at h
    | some tgt =>
      simp only [erasureClass?, ht] at h
      split at h
      · next hc =>
        cases h
        obtain ⟨info, hi⟩ := Option.isSome_iff_exists.1 hc
        exact lt_size_of_class? hi
      · cases h
  | _ => simp [erasureClass?, ht] at h

theorem Keeps.isSourceReady (h : w.Keeps u) (hid : w.Knows id) : u.isSourceReady id = w.isSourceReady id := by
  have hs : u.sourceStage? id = w.sourceStage? id := by
    have hu : ∀ unit, u.unit unit = w.unit unit := fun unit => by
      rw [h.same]
      rfl
    rw [sourceStage?, sourceStage?]
    obtain ⟨ho, hn⟩ | ⟨old, new, ho, hn, hr⟩ := h.class?_cases hid
    · rw [ho, hn]
      rfl
    · have hor : new.origin = old.origin := by rw [hr.same]
      simp only [ho, hn, Option.bind_eq_bind, Option.bind_some, hor, hu]
  rw [World.isSourceReady, World.isSourceReady, hs]

theorem Keeps.isClassBound (h : w.Keeps u) (hw : w.Sound) (hid : w.Knows id) :
    Query.isClassBound u id = Query.isClassBound w id := by
  rw [Query.isClassBound, Query.isClassBound, h.erasureClass? hw hid]
  split
  · next erased he =>
    exact h.class?_any _ (knows_erasureClass? hw he) fun old new hr => by rw [hr.same]; rfl
  obtain ht | ⟨_, _, ho, hn, -⟩ := h.type_cases hid
  · rw [ht]
  · rw [ho, hn]
    rfl

theorem Keeps.isInterfaceBound (h : w.Keeps u) (hw : w.Sound) (hid : w.Knows id) :
    Query.isInterfaceBound u id = Query.isInterfaceBound w id := by
  rw [Query.isInterfaceBound, Query.isInterfaceBound, h.erasureClass? hw hid]
  cases he : w.erasureClass? id with
  | none => rfl
  | some erased =>
    exact h.class?_any ClassInfo.isInterface (knows_erasureClass? hw he) fun old new hr => by
      rw [hr.same]
      rfl

end World

namespace Query

variable {w u : World} {id : TypeId} {info : ClassInfo}

theorem enclosingChain_settles (hw : w.Sound) (fuel : Nat) (seen : List TypeId) (hid : w.Knows id) :
    (enclosingChain fuel seen id).Settles w fun _ w1 => w1.Sound ∧ w.Furthers w1 := by
  induction fuel generalizing w seen id with
  | zero =>
    intro fuel a w1 hr
    cases hr
  | succ fuel ih =>
    rw [enclosingChain]
    refine (resolved_replays hw hid).settles.bind ?_
    rintro id w1 ⟨hw1, hk1, hid⟩
    refine .get ?_
    split
    · next info hi =>
      split
      · exact .pure ⟨hw1, hk1⟩
      split
      · next outer ho =>
        have hkn : w1.Knows outer := by
          refine hw1.stocked (.type id) outer ?_
          rw [World.held, World.class?_eq_some.1 hi]
          simp [ClassInfo.slots, ho]
        refine (ih hw1 _ hkn).bind ?_
        rintro chain w2 ⟨hw2, hk2⟩
        exact .pure ⟨hw2, hk1.trans hk2⟩
      · exact .pure ⟨hw1, hk1⟩
    · exact .pure ⟨hw1, hk1⟩

theorem signatureContext_settles (hw : w.Sound) (hid : w.Knows id) :
    (signatureContext id).Settles w fun _ w1 => w1.Sound ∧ w.Furthers w1 := by
  refine .fuel fun budget => (enclosingChain_settles hw budget [] hid).bind ?_
  rintro chain w1 h1
  exact .get (.pure h1)

theorem completeSuperclass_of_read (h : w.PartRead id .superclass) (d : Demand) :
    completeSuperclass id d w = (.ok (), w) := readPart_of_read _ h d

theorem completeInterfaces_of_read (h : w.PartRead id .interfaces) (d : Demand) :
    completeInterfaces id d w = (.ok (), w) := readPart_of_read _ h d

theorem classSignature_settles (hw : w.Sound) (info : ClassInfo) :
    (classSignature info).Settles w fun _ w1 => w1.Sound ∧ w.Furthers w1 := by
  rw [classSignature]
  split
  · exact .pure ⟨hw, .refl w⟩
  split
  · exact .pure ⟨hw, .refl w⟩
  rename_i error _
  have hr : (reportCorrupted info.name error).Settles w fun _ w1 => w1.Sound ∧ w.Furthers w1 := .furthering hw
  exact hr.bind fun _ w1 h1 => .pure h1

theorem beginReading_keeps (hw : w.Sound) (id : TypeId) (part : ClassPart) : (w.beginReading id part).Sound ∧
      (w.modifyClass id fun info => { info with state := info.state.clear part }).Furthers
        (w.beginReading id part) := by
  have ha := aside_count (w.modifyClass id fun info => { info with state := info.state.clear part }) part
  refine ⟨(hw.move (move_clear w id part)).move (.aside ha), ⟨.spares ha.toSpares, rfl, ?_⟩, fun _ h => h⟩
  exact fun _ _ => .of_eq rfl

theorem store_settles {post : Unit → World → Prop} {edit : Edit Unit} {change : World → World}
    (h : post () (change (edit w).2)) : ((liftM edit : Query Unit) >>= fun _ => modify change).Settles w post := by
  intro fuel a w1 hr
  cases hr
  exact ⟨fun _ _ => rfl, h⟩

section

variable (hw : w.Sound)

include hw

theorem readSuperclass_settles (hi : w.class? id = some info)
    (hp : info.state.superclassPending = true) : (completeSuperclass id).Settles w fun _ w1 => ∃ v superclass,
      (w.modifyClass id fun info => { info with state := { info.state with superclassPending := false } }).Furthers v ∧
      w1 = { v.modifyClass id (fun info => { info with superclass }) with referrers := w1.referrers } := by
  obtain ⟨hw1, hk1⟩ := beginReading_keeps hw id .superclass
  rw [completeSuperclass]
  refine .get ?_
  rw [hi]
  dsimp only
  rw [hp]
  have hid' := Knows.modifyClass (lt_size_of_class? hi) id fun info =>
    { info with state := { info.state with superclassPending := false } }
  refine .lift_bind (.lift_bind ((classSignature_settles hw1 info).bind ?_))
  rintro sig w2 ⟨hw2, hk2⟩
  have hk2 := hk1.trans hk2
  cases sig with
  | some sig =>
    refine (signatureContext_settles hw2 (hk2.knows hid')).bind ?_
    rintro ctx w3 ⟨hw3, hk3⟩
    have hd : (some <$> (liftM (Edit.typeOfSig ctx sig.superclass) : Query TypeId)).Settles
        w3 fun _ v => v.Sound ∧ w3.Furthers v := .map _ (.furthering hw3)
    refine hd.bind ?_
    rintro superclass v ⟨-, hk4⟩
    exact store_settles ⟨v, superclass, hk2.trans (hk3.trans hk4), (noteReferrers_notesMore ..).same⟩
  | none =>
    refine (Settles.optionMapM_furthering hw2 _).bind ?_
    rintro superclass v ⟨-, hk3⟩
    exact store_settles ⟨v, superclass, hk2.trans hk3, (noteReferrers_notesMore ..).same⟩

theorem readInterfaces_settles (hi : w.class? id = some info)
    (hp : info.state.interfacesPending = true) : (completeInterfaces id).Settles w fun _ w1 => ∃ v interfaces,
      (w.modifyClass id fun info => { info with state := { info.state with interfacesPending := false } }).Furthers v ∧
      w1 = { v.modifyClass id (fun info => { info with interfaces }) with referrers := w1.referrers } := by
  obtain ⟨hw1, hk1⟩ := beginReading_keeps hw id .interfaces
  have hs : ∀ (v : World) (interfaces : List TypeId),
      (v.noteReferrers (.type id) interfaces).modifyClass id (fun info => { info with interfaces }) =
        { v.modifyClass id (fun info => { info with interfaces }) with
          referrers := (v.noteReferrers (.type id) interfaces).referrers } := fun v interfaces => by
    rw [(noteReferrers_notesMore (w := v) (.type id) interfaces).same]
    rfl
  rw [completeInterfaces]
  refine .get ?_
  rw [hi]
  dsimp only
  rw [hp]
  have hid' := Knows.modifyClass (lt_size_of_class? hi) id fun info =>
    { info with state := { info.state with interfacesPending := false } }
  refine .lift_bind (.lift_bind ((classSignature_settles hw1 info).bind ?_))
  rintro sig w2 ⟨hw2, hk2⟩
  have hk2 := hk1.trans hk2
  cases sig with
  | some sig =>
    refine (signatureContext_settles hw2 (hk2.knows hid')).bind ?_
    rintro ctx w3 ⟨hw3, hk3⟩
    refine (Settles.mapM_furthering hw3 _).bind ?_
    rintro interfaces v ⟨-, hk4⟩
    exact store_settles ⟨v, interfaces, hk2.trans (hk3.trans hk4), hs v interfaces⟩
  | none =>
    refine (Settles.mapM_furthering hw2 _).bind ?_
    rintro interfaces v ⟨-, hk3⟩
    exact store_settles ⟨v, interfaces, hk2.trans hk3, hs v interfaces⟩

theorem complete_replays {part : ClassPart} {complete : Query Unit} [complete.Orderly] {α : Type}
    {store : α → ClassInfo → ClassInfo} (hid : w.Knows id)
    (hd : ∀ {u : World}, u.PartRead id part → ∀ d, complete d u = (.ok (), u))
    (hrea : ∀ info, w.class? id = some info → info.state.isPending part = true → complete.Settles w fun _ w1 => ∃ v a,
        (w.modifyClass id fun info => { info with state := info.state.clear part }).Furthers v ∧
        w1 = { v.modifyClass id (store a) with referrers := w1.referrers })
    (hst : ∀ a (info : ClassInfo), (store a info).state = info.state)
    (hto : ∀ a (info new : ClassInfo), info.state.isPending part = true →
      ({ info with state := info.state.clear part } : ClassInfo).ReadTo new → info.ReadTo (store a new)) :
    complete.Replays w fun _ w1 => w1.PartRead id part := by
  refine .of_settles ?_ fun fuel _ w1 hw1 hk hre u hu hk' d _ => ⟨u, hd (hre.keeps hk' (hk.knows hid)) d, .refl u⟩
  by_cases hre : w.PartRead id part
  · intro fuel a w1 hr
    rw [hd hre] at hr
    cases hr
    exact ⟨fun d _ => hd hre d, hw, .refl w, hre⟩
  obtain ⟨info, hi, hp⟩ : ∃ info, w.class? id = some info ∧
      info.state.isPending part = true := by simpa [PartRead] using hre
  refine ((hrea info hi hp).orderly hw).mono ?_
  rintro _ w1 ⟨hw1, hg, v, a, hk, hs⟩
  refine ⟨hw1, ⟨hk.around hg hs fun info' new hi' => ?_, fun gen hst => ?_⟩, ?_⟩
  · cases hi.symm.trans hi'
    exact hto a info new hp
  · rw [hs] at hst
    exact (hk.stale gen (Stale.of_modifyClass hst)).of_modifyClass
  have hm : v.PartRead id part :=
    (partRead_modifyClass fun info _ => by cases part <;> rfl).keeps hk.toKeeps (hid.modifyClass ..)
  have hre : (v.modifyClass id (store a)).PartRead id part :=
    partRead_modifyClass fun info hi => by rw [hst, hm info hi]
  rw [hs]
  exact hre

theorem completeSuperclass_replays (hid : w.Knows id) :
    (completeSuperclass id).Replays w fun _ w1 => w1.PartRead id .superclass :=
  complete_replays hw hid completeSuperclass_of_read (fun _ => readSuperclass_settles hw) (fun _ _ => rfl)
    fun _ _ _ hp hto => ⟨by rw [hto.same]; rfl, fun hr => (nomatch hp.symm.trans hr), hto.interfaces⟩

theorem completeInterfaces_replays (hid : w.Knows id) :
    (completeInterfaces id).Replays w fun _ w1 => w1.PartRead id .interfaces :=
  complete_replays hw hid completeInterfaces_of_read (fun _ => readInterfaces_settles hw) (fun _ _ => rfl)
    fun _ _ _ hp hto => ⟨by rw [hto.same]; rfl, hto.superclass, fun hr => (nomatch hp.symm.trans hr)⟩

theorem ensureSupertypes_replays (hid : w.Knows id) :
    (ensureSupertypes id).Replays w fun _ w1 => w1.PartRead id .superclass ∧ w1.PartRead id .interfaces := by
  refine .get ?_ fun u hu hk => ?_
  · split
    · next info hi =>
      split
      · refine .bind (completeSuperclass_replays hw hid) fun _ w1 hw1 hk1 hr => ?_
        refine (completeInterfaces_replays hw1 (hk1.knows hid)).mono fun _ w2 _ hk2 hr' => ?_
        exact ⟨hr.keeps hk2 (hk1.knows hid), hr'⟩
      rename_i hs
      refine .ite (fun _ => connect_replays id) fun _ => .pure hw ⟨?_, ?_⟩
      -- Only a compiled class has supertypes to be read.
      · intro info' hi'
        cases hi.symm.trans hi'
        by_contra hp
        exact hs (hw.linked.pending id info hi (.inl (Bool.eq_true_of_not_eq_false hp)))
      · intro info' hi'
        cases hi.symm.trans hi'
        by_contra hp
        exact hs (hw.linked.pending id info hi (.inr (Bool.eq_true_of_not_eq_false hp)))
    · next hno =>
      exact .pure hw ⟨fun info hi => (hno info hi).elim, fun info hi => (hno info hi).elim⟩
  · have hre := hk.isSourceReady hid
    obtain ⟨ho, hn⟩ | ⟨old, new, ho, hn, hr⟩ := hk.class?_cases hid
    · rw [ho, hn]
    have hc : new.isCompiled = old.isCompiled := by
      rw [hr.same]
      rfl
    have hb : new.state.hierarchyBegun = old.state.hierarchyBegun := by rw [hr.same]
    rw [ho, hn]
    dsimp only
    rw [hc, hb, hre]

theorem superclassFrom_replays (he : w.Equipped) (fuel : Nat)
    (hid : w.Knows id) : (superclassFrom fuel id).Replays w fun found w1 =>
      ∀ sup ∈ found, w1.Knows sup := by
  induction fuel generalizing w id with
  | zero => exact .throw _
  | succ fuel ih =>
    rw [superclassFrom]
    refine .bind (resolved_replays hw hid) fun id w1 hw1 hk1 hid => ?_
    have he1 := he.keeps hk1
    have hh : ∀ slot ∈ (w1.type id).slots, w1.Knows slot := hw1.stocked (.type id)
    have hob : (some <$> objectType).Replays w1 fun found w2 => ∀ sup ∈ found, w2.Knows sup :=
      .some (objectType_replays hw1 he1.root)
    refine .get ?_ fun u hu hk => ?_
    · split
      · refine .bind (ensureSupertypes_replays hw1 hid) fun _ w2 hw2 hk2 hr => ?_
        have hid2 := hk2.knows hid
        refine .get ?_ fun u _ hk => by rw [hr.1.superclass hk hid2]
        refine .optionMapM hw2 fun sup hm => resolved_replays hw2 ?_
        obtain ⟨info, hi, hsu⟩ := Option.bind_eq_some_iff.1 hm
        refine hw2.stocked (.type id) sup ?_
        rw [World.held, World.class?_eq_some.1 hi]
        simp [ClassInfo.slots, ClassInfo.supertypes, hsu]
      · next gen args encl ht =>
        have hg := hh gen (by simp [ht])
        refine .bind (ih hw1 he1 hg) fun found w2 hw2 hk2 hf => ?_
        cases found with
        | none => exact .pure hw2 (by simp)
        | some superclass =>
          refine .bind (substitutionFor_replays hw2 (hk2.knows hid)) fun s w3 hw3 hk3 hs => ?_
          exact .some (substitute_replays hw3 (he1.keeps (hk2.trans hk3)).root hs (hk3.knows (hf superclass rfl)))
      · next gen encl ht =>
        have hg := hh gen (by simp [ht])
        refine .bind (ih hw1 he1 hg) fun found w2 hw2 hk2 hf => ?_
        cases found with
        | none => exact .pure hw2 (by simp)
        | some superclass => exact .some (rawErasure_replays hw2 (he1.keeps hk2).root (hf superclass rfl))
      · exact hob
      · next info ht =>
        refine .optionMapM hw1 fun sup hm => resolved_replays hw1 (hh sup ?_)
        have hm : info.superclass = some sup := hm
        simp [ht, hm]
      · next info ht =>
        split
        · next bound hb =>
          refine .pure hw1 ?_
          rintro _ ⟨⟩
          have hm := List.mem_of_find?_eq_some hb
          exact hh bound (by simp [ht, hm])
        · exact hob
      · next info ht =>
        split
        · next bound _ hb _ =>
          refine .pure hw1 ?_
          rintro _ ⟨⟩
          exact hh bound (by simp [ht, hb])
        · exact hob
      all_goals exact .pure hw1 (by simp)
    · obtain ht | ⟨_, _, ho, hn, -⟩ := hk.type_cases hid
      · rw [ht]
        split <;> try rfl
        next info hc =>
        have hsa : info.upperBounds.find? (isClassBound u) = info.upperBounds.find? (isClassBound w1) :=
          List.find?_congr fun bound hm => hk.isClassBound hw1 (hh bound (by simp [hc, hm]))
        rw [hsa]
      · rw [ho, hn]

theorem superclass_replays (he : w.Equipped) (hid : w.Knows id) :
    (superclass id).Replays w fun found w1 => ∀ sup ∈ found, w1.Knows sup :=
  .fuel fun budget => superclassFrom_replays hw he budget hid

theorem superInterfacesFrom_replays (he : w.Equipped) (fuel : Nat)
    (hid : w.Knows id) : (superInterfacesFrom fuel id).Replays w fun found w1 =>
      ∀ sup ∈ found, w1.Knows sup := by
  induction fuel generalizing w id with
  | zero => exact .throw _
  | succ fuel ih =>
    rw [superInterfacesFrom]
    refine .bind (resolved_replays hw hid) fun id w1 hw1 hk1 hid => ?_
    have he1 := he.keeps hk1
    have hh : ∀ slot ∈ (w1.type id).slots, w1.Knows slot := hw1.stocked (.type id)
    refine .get ?_ fun u hu hk => ?_
    · split
      · refine .bind (ensureSupertypes_replays hw1 hid) fun _ w2 hw2 hk2 hr => ?_
        have hid2 := hk2.knows hid
        refine .get ?_ fun u _ hk => by rw [hr.2.interfaces hk hid2]
        refine .mapM hw2 fun sup hm w3 hw3 hk3 => resolved_replays hw3 (hk3.knows ?_)
        cases hi : w2.class? id with
        | none => simp [hi] at hm
        | some info =>
          refine hw2.stocked (.type id) sup ?_
          rw [World.held, World.class?_eq_some.1 hi]
          have hm : sup ∈ info.interfaces := by simpa [hi] using hm
          simp [ClassInfo.slots, ClassInfo.supertypes, hm]
      · next gen args encl ht =>
        have hg := hh gen (by simp [ht])
        refine .bind (ih hw1 he1 hg) fun ifaces w2 hw2 hk2 hf => ?_
        refine .bind (substitutionFor_replays hw2 (hk2.knows hid)) fun s w3 hw3 hk3 hs => ?_
        refine .mapM hw3 fun iface hm w4 hw4 hk4 => ?_
        have hk := hk3.trans hk4
        exact substitute_replays hw4 (he1.keeps (hk2.trans hk)).root
          (World.Stays.grows hk4.grows hs) (hk.knows (hf iface hm))
      · next gen encl ht =>
        have hg := hh gen (by simp [ht])
        refine .bind (ih hw1 he1 hg) fun ifaces w2 hw2 hk2 hf => ?_
        refine .mapM hw2 fun iface hm w3 hw3 hk3 => ?_
        exact rawErasure_replays hw3 (he1.keeps (hk2.trans hk3)).root (hk3.knows (hf iface hm))
      · exact arrayInterfaces_replays hw1 he1
      · next info ht =>
        refine .mapM hw1 fun sup hm w2 hw2 hk2 => resolved_replays hw2 (hk2.knows (hh sup ?_))
        simp [ht, hm]
      · next info ht =>
        refine .pure hw1 fun bound hm => hh bound ?_
        simp [ht, (List.mem_filter.1 hm).1]
      · next info ht =>
        refine .pure hw1 fun bound hm => hh bound ?_
        split at hm
        · simp [ht, hm]
        · cases hm
      all_goals exact .pure hw1 (by simp)
    · obtain ht | ⟨_, _, ho, hn, -⟩ := hk.type_cases hid
      · rw [ht]
        split <;> try rfl
        next info hc =>
        have hsa : info.upperBounds.filter (isInterfaceBound u) = info.upperBounds.filter (isInterfaceBound w1) :=
          List.filter_congr fun bound hm => hk.isInterfaceBound hw1 (hh bound (by simp [hc, hm]))
        rw [hsa]
      · rw [ho, hn]

theorem superInterfaces_replays (he : w.Equipped) (hid : w.Knows id) :
    (superInterfaces id).Replays w fun found w1 => ∀ sup ∈ found, w1.Knows sup :=
  .fuel fun budget => superInterfacesFrom_replays hw he budget hid

theorem supertypes_replays (he : w.Equipped) (hid : w.Knows id) :
    (supertypes id).Replays w fun found w1 => ∀ sup ∈ found, w1.Knows sup := by
  refine .bind (superclass_replays hw he hid) fun superclass w1 hw1 hk1 hs => ?_
  refine .bind (superInterfaces_replays hw1 (he.keeps hk1) (hk1.knows hid)) ?_
  refine fun ifaces w2 hw2 hk2 hi => .pure hw2 fun sup hm => ?_
  obtain hm | hm := List.mem_append.1 hm
  · exact hk2.knows (hs sup (Option.mem_toList.1 hm))
  · exact hi sup hm

end

end Query

end Bindings
