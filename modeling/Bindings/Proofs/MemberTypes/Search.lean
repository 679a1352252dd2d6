import Bindings.Proofs.MemberTypes.Barren

/-! # Searching for member types -/

open Relation

namespace Bindings

open World

namespace World

variable {w w' : World} {task : Option Task} {stop : Option Halt} {id : TypeId}

variable {info : ClassInfo}

/-- The imports of all units are resolved, and every source class is either connected or waits for it with
its declaration at hand. -/
structure Calm (w : World) : Prop where
  ready : ∀ unit : UnitId, unit.index < w.units.size →
    Stage.importsResolved.rank ≤ (w.unit unit).stage.rank
  ended : ∀ id info, w.class? id = some info → info.isCompiled = false → w.Begun id →
    info.state.hierarchyEnded
  declared : ∀ id info, w.class? id = some info → info.isCompiled = false → w.Joined id → w.Begun id

theorem Calm.before (h : w'.Calm) (hc : Course task stop w w') (ht : task = none ∨ task = some .mark)
    (hw : w.Sound) : w.Calm where
  ready unit hu := by
    obtain ⟨hst, -⟩ := hc.frame.unit unit hu (by rcases ht with rfl | rfl <;> simp)
      (by rcases ht with rfl | rfl <;> simp)
    exact hst ▸ h.ready unit (Nat.lt_of_lt_of_le hu hc.frame.units)
  ended id info hi hs hb := by
    obtain ⟨info', hi', hh⟩ := hc.kept hw hb (by rcases ht with rfl | rfl <;> simp) info hi hs
    exact hh.ended.symm.trans (h.ended id info' hi' (hh.isCompiled.trans hs) (hb.grows hc.grows))
  declared id info hi hs hj := by
    by_contra hn
    have hr := role_of_class? hi
    obtain ⟨info', hi', hk⟩ := hc.grows.declared id info hi
    have hb := h.declared id info' hi' (hk.isCompiled.trans hs) (hj.grows hw.linked hc.grows hr)
    exact hc.declaration_of_begun hw hr hb hn (hj.resolve_left hn)

theorem Calm.isSourceReady (h : w.Calm) (hw : w.Linked) (hi : w.class? id = some info)
    (hs : info.isCompiled = false) : w.isSourceReady id := by
  obtain ⟨unit, path, ho⟩ := ClassInfo.source_of_isCompiled hs
  have hu := (hw.source id info unit path hi ho).1
  simpa [World.isSourceReady, sourceStage?, hi, ho] using h.ready unit hu

theorem Calm.fixesSupertypes (h : w.Calm) (hi : w.class? id = some info)
    (hs : info.isCompiled = false) (hj : w.Joined id) : info.FixesSupertypes :=
  ⟨by simp [hs], by simp [hs], fun _ => h.ended id info hi hs (h.declared id info hi hs hj)⟩

theorem PartOver.of_stands {part : ClassPart} {found : List TypeId} (hw : w.Sound)
    (hi : w.class? id = some info) (hf : info.FixesSupertypes) (hc : Course none none w w')
    (hsta : ∀ slot ∈ info.supertypesOf part, ∃ tgt ∈ found, w'.Stands slot tgt) :
    w'.PartOver (· ∈ found.filterMap w'.erasureClass?) id part := by
  have hw' := (hc.sound hw).registered
  obtain ⟨info', hi', hf', hr⟩ := hc.supertypesOf isFree_none hw hi hf
  refine ⟨info', hi', hf', fun slot' hs' => ?_⟩
  obtain ⟨slot, hs, hr⟩ := hr part slot' hs'
  obtain ⟨tgt, ht, hsta⟩ := hsta slot hs
  have hst' := hsta.replaced hw' hr
  refine ⟨⟨tgt, hst'⟩, fun base hb => List.mem_filterMap.2 ⟨tgt, ht, ?_⟩⟩
  rwa [← hst'.erasureClass?_eq hw']

end World

theorem Query.RunsIn.and {α : Type} {w : World} {task : Option Task} {query : Query α}
    {post post' : α → World → Prop} (h : query.RunsIn task w post) (h' : query.RunsIn task w post') :
    query.RunsIn task w fun a w' => post a w' ∧ post' a w' := fun d hd =>
  ⟨(h d hd).1, fun a ha => ⟨(h d hd).2 a ha, (h' d hd).2 a ha⟩⟩

theorem Query.RunsIn.congr {α : Type} {w : World} {task : Option Task} {query query' : Query α}
    {post : α → World → Prop} (h : query'.RunsIn task w post) (heq : ∀ d, query d w = query' d w) :
    query.RunsIn task w post := by
  intro d hd
  rw [heq]
  exact h d hd

namespace Query

variable {w : World} {id : TypeId}

theorem ensureSupertypes_fixes (hw : w.Sound) (hr : w.role id = .declared) :
    (ensureSupertypes id).Runs w fun _ w' => w'.Calm → ∃ info, w'.class? id = some info ∧ info.FixesSupertypes := by
  obtain ⟨info, hi⟩ := role_eq_declared.1 hr
  cases hc : info.isCompiled with
  | true =>
    refine (ensureSupertypes_reads hw ⟨info, hi, hc⟩).mono fun _ w' hre _ => ?_
    obtain ⟨⟨info', hi', hc', hs⟩, _, hi'', -, hin⟩ := hre
    cases hi'.symm.trans hi''
    exact ⟨info', hi', fun _ => hs, fun _ => hin, by simp [hc']⟩
  | false =>
    refine .get ?_
    rw [hi]
    simp only [hc, Bool.false_eq_true, if_false]
    split
    · refine (connect_runs hw id).imp hw fun _ w' _ hg hj hca => ?_
      obtain ⟨info', hi', hk⟩ := hg.declared id info hi
      exact ⟨info', hi', hca.fixesSupertypes hi' (hk.isCompiled.trans hc) hj⟩
    rename_i hn
    refine .pure fun hca => ⟨info, hi, hca.fixesSupertypes hi hc (.inl ⟨info, hi, ?_⟩)⟩
    simpa [hca.isSourceReady hw.linked hi hc] using hn

theorem superclass_over (hw : w.Sound) (hr : w.role id = .declared) : (superclass id).Runs w fun found w' => w'.Calm →
      w'.PartOver (· ∈ found.toList.filterMap w'.erasureClass?) id .superclass := by
  obtain ⟨info, hi⟩ := role_eq_declared.1 hr
  refine superclass_of_class hi (.bind hw (ensureSupertypes_fixes hw hr) fun _ w1 hw1 hg1 hf => .get ?_)
  obtain ⟨info1, hi1⟩ := role_eq_declared.1 (hg1.role_declared hr)
  rw [hi1, Option.bind_some]
  have hsta : (info1.superclass.mapM resolved).Runs w1 fun found w' =>
      ∀ slot ∈ info1.supertypesOf .superclass, ∃ tgt ∈ found.toList, w'.Stands slot tgt := by
    rw [ClassInfo.supertypesOf]
    cases info1.superclass with
    | none => exact .pure (by simp)
    | some stored =>
      rw [Option.mapM_some]
      exact .map _ ((resolved_runs hw1 stored).mono fun tgt _ hsta => by simpa using hsta)
  refine hsta.courses.mono ?_
  rintro found w2 ⟨hsta, hc⟩ hca
  obtain ⟨_, hi1', hf⟩ := hf (hca.before hc (.inl rfl) hw1)
  cases hi1.symm.trans hi1'
  exact .of_stands hw1 hi1 hf hc hsta

theorem superInterfaces_over (hw : w.Sound) (hr : w.role id = .declared) :
    (superInterfaces id).Runs w fun found w' => w'.Calm →
      w'.PartOver (· ∈ found.filterMap w'.erasureClass?) id .interfaces := by
  obtain ⟨info, hi⟩ := role_eq_declared.1 hr
  refine superInterfaces_of_class hi (.bind hw (ensureSupertypes_fixes hw hr) fun _ w1 hw1 hg1 hf => .get ?_)
  obtain ⟨info1, hi1⟩ := role_eq_declared.1 (hg1.role_declared hr)
  rw [hi1]
  have hk : ∀ slot ∈ info1.supertypesOf .interfaces, w1.Knows slot := knows_supertypesOf hw1 hi1
  refine (mapM_resolved_stands hw1 hk).courses.mono fun found w2 ⟨hsta, hc⟩ hca => ?_
  obtain ⟨_, hi1', hf⟩ := hf (hca.before hc (.inl rfl) hw1)
  cases hi1.symm.trans hi1'
  refine .of_stands hw1 hi1 hf hc fun slot hs => ?_
  obtain ⟨i, hin, rfl⟩ := List.mem_iff_getElem.1 hs
  have hl := hsta.length_eq
  exact ⟨found[i], List.getElem_mem _, hsta.get (by omega) (by omega)⟩

theorem superErasures_knows (hw : w.Sound) (id : TypeId) :
    (superErasures id).Runs w fun next w' => ∀ base ∈ next, w'.Knows base := by
  refine .after hw fun sup w1 hw1 _ => .get (.after hw1 fun ifaces w2 hw2 hg2 => .get (.pure ?_))
  intro base hb
  obtain hb | hb := List.mem_append.1 hb
  · obtain ⟨found, -, hb⟩ := Option.bind_eq_some_iff.1 (Option.mem_toList.1 hb)
    exact (knows_erasureClass? hw1 hb).grows hg2
  · obtain ⟨found, -, hb⟩ := List.mem_filterMap.1 hb
    exact knows_erasureClass? hw2 hb

section

variable {tgt : TypeId} (hsta : w.Stands id tgt)

include hsta

theorem superclass_of_stands (hw : w.Sound) (d : Demand) : superclass id d w = superclass tgt d w := by
  have hs := resolved_eq_self d (hsta.ne_placeholder hw.registered)
  change superclassFrom d.fuel id d w = superclassFrom d.fuel tgt d w
  cases d.fuel with
  | zero => rfl
  | succ fuel => rw [superclassFrom, superclassFrom, bind_ok d w (resolved_of_stands hsta d), bind_ok d w hs]

theorem superInterfaces_of_stands (hw : w.Sound) (d : Demand) : superInterfaces id d w = superInterfaces tgt d w := by
  have hs := resolved_eq_self d (hsta.ne_placeholder hw.registered)
  change superInterfacesFrom d.fuel id d w = superInterfacesFrom d.fuel tgt d w
  cases d.fuel with
  | zero => rfl
  | succ fuel =>
    rw [superInterfacesFrom, superInterfacesFrom, bind_ok d w (resolved_of_stands hsta d), bind_ok d w hs]

theorem superErasures_over (hw : w.Sound) (hid : w.Knows id) (hr : w.role tgt = .declared) :
    (superErasures id).Runs w fun next w' => w'.Calm →
      ∀ part, w'.PartOver (fun base => ∃ known ∈ next, w'.Replaced known base) tgt part := by
  refine .bind hw (((superclass_over hw hr).congr (superclass_of_stands hsta hw)).courses)
    fun superclass w1 hw1 hg1 ⟨hsu, hc1⟩ => .get ?_
  have hst1 := hsta.later hc1 hid
  have hr1 := hg1.role_declared hr
  refine .bind hw1 (((superInterfaces_over hw1 hr1).congr
    (superInterfaces_of_stands hst1 hw1)).courses) fun ifaces w2 hw2 hg2 ⟨hin, hc2⟩ => .get (.pure fun hca part => ?_)
  cases part with
  | superclass =>
    refine (hsu (hca.before hc2 (.inl rfl) hw1)).later hc2 isFree_none hw1 ?_
    intro base base' _ hb hre
    refine ⟨base, List.mem_append_left _ ?_, hre⟩
    cases superclass with
    | none => cases hb
    | some found => simpa using hb
  | interfaces => exact (hin hca).mono fun base hb => ⟨base, List.mem_append_right _ hb, .inl rfl⟩
  | members | memberTypes =>
    obtain ⟨info, hi, hf, -⟩ := hin hca
    exact ⟨info, hi, hf, fun slot hs => by cases hs⟩

end

theorem memberTypes_none (hw : w.Sound) (hid : w.Knows id) :
    (memberTypes id).Runs w fun members w' => ∃ tgt, w'.Stands id tgt ∧
      (members = [] → w'.role tgt = .declared → w'.NoMembers tgt) := by
  refine .bind hw (resolved_runs hw id).courses fun tgt w1 hw1 hg1 ⟨hsta, hc1⟩ => ?_
  have hid1 := hid.grows hg1
  have hs := fun d => resolved_eq_self d (hsta.ne_placeholder hw1.registered)
  -- What is left to do is what is done for the target.
  have hru : (memberTypes tgt).Runs w1 fun members w' => members = [] →
      w1.role tgt = .declared → w'.NoMembers tgt := by
    by_cases hr : w1.role tgt = .declared
    · refine (memberTypes_runs hw1 hr).mono fun members w' ⟨info, hi, hre, hm⟩ hn _ => ?_
      exact ⟨info, hi, hm.symm.trans hn, hre⟩
    · exact (RunsIn.of_orderly hw1).mono fun _ _ _ _ h => absurd h hr
  refine (hru.congr fun d => by rw [memberTypes, bind_ok d w1 (hs d)]).courses.mono ?_
  rintro members w' ⟨hn, hc⟩
  refine ⟨tgt, hsta.later hc hid1, fun hm hr => hn hm ?_⟩
  rwa [← hsta.role_later hc hw1 hid1]

end Query

namespace World

variable {w w' : World} {id : TypeId} {places places' : List TypeId}

def Searched (w : World) (places : List TypeId) (id : TypeId) : Prop :=
  ∃ target, w.Stands id target ∧ (w.role target = .declared → w.Barren target ∨
    w.NoMembers target ∧ ∀ part, w.PartOver (fun base => ∃ place ∈ places, w.Replaced place base) target part)

theorem Searched.mono (h : w.Searched places id) (hs : places ⊆ places') : w.Searched places' id := by
  obtain ⟨tgt, hsta, hse⟩ := h
  refine ⟨tgt, hsta, fun hr => (hse hr).imp_right fun ⟨hn, ho⟩ => ⟨hn, ?_⟩⟩
  exact fun part => (ho part).mono fun base ⟨place, hp, hb⟩ => ⟨place, hs hp, hb⟩

theorem Searched.later {stop : Option Halt} (h : w.Searched places id) (hc : Course none stop w w')
    (hw : w.Sound) (hid : w.Knows id) : w'.Searched places id := by
  obtain ⟨tgt, hsta, hs⟩ := h
  refine ⟨tgt, hsta.later hc hid, fun hr => ?_⟩
  rw [hsta.role_later hc hw hid] at hr
  obtain hba | ⟨hn, ho⟩ := hs hr
  · exact .inl (hba.later hc isFree_none hw)
  refine .inr ⟨hn.later hc isFree_none hw, fun part => (ho part).later hc isFree_none hw ?_⟩
  rintro base base' - ⟨place, hp, hb⟩ hb'
  exact ⟨place, hp, hb.trans hw.registered hc.grows hb'⟩

theorem Searched.barren (hw : w.Registered) (h : ∀ place ∈ places, w.Searched places place)
    {place tgt : TypeId} (hp : place ∈ places) (hsta : w.Stands place tgt)
    (hr : w.role tgt = .declared) : w.Barren tgt := by
  refine .of_closed (fun other => w.role other = .declared ∧
    (w.Barren other ∨ ∃ place ∈ places, w.Stands place other)) ⟨hr, .inr ⟨place, hp, hsta⟩⟩ ?_
  rintro other ⟨hr, ho⟩
  have hc : w.Barren other ∨ w.NoMembers other ∧
      ∀ part, w.PartOver (fun base => ∃ place ∈ places, w.Replaced place base) other part := by
    obtain hb | ⟨place, hp, hsta⟩ := ho
    · exact .inl hb
    obtain ⟨_, hs', hse⟩ := h place hp
    cases hsta.unique hs'
    exact hse hr
  obtain hb | ⟨hn, hov⟩ := hc
  · obtain ⟨hn, hov⟩ := hb.closed .refl
    refine ⟨hn, fun part => (hov part).mono fun base ⟨tgt, hsta, ht⟩ => ?_⟩
    exact ⟨tgt, hsta, fun hr => ⟨hr, .inl (hb.of_above (ht hr))⟩⟩
  refine ⟨hn, fun part => (hov part).mono fun base ⟨place, hp, hre⟩ => ?_⟩
  obtain ⟨tgt, hsta, -⟩ := h place hp
  exact ⟨tgt, hsta.replaced hw hre, fun hr => ⟨hr, .inr ⟨place, hp, hsta⟩⟩⟩

end World

namespace Query

variable {w : World} {id : TypeId}

theorem hasNoMembersFlag_apply (id : TypeId) (d : Demand) :
    hasNoMembersFlag id d w = (.ok ((w.class? id).any (·.state.noMemberTypes)), w) := rfl

theorem visitForMembers_searched (hw : w.Sound) (htr : w.Truthful) (hid : w.Knows id) :
    (visitForMembers id).Runs w fun found w' => ∀ next, found = some next →
      (∀ place ∈ next, w'.Knows place) ∧ (w'.Calm → w'.Searched next id) := by
  refine .of_apply (hasNoMembersFlag_apply id) ?_
  split
  · next hma =>
    refine .pure ?_
    rintro _ ⟨⟩
    obtain ⟨info, hi, hm⟩ := (Option.any_eq_true ..).1 hma
    exact ⟨by simp, fun _ => ⟨id, .self (role_of_class? hi), fun _ => .inl (htr id ⟨info, hi, hm⟩)⟩⟩
  refine .bind hw (memberTypes_none hw hid) fun members w1 hw1 hg1 ⟨tgt, hsta, hn⟩ => ?_
  have hid1 := hid.grows hg1
  split
  · next he =>
    by_cases hr : w1.role tgt = .declared
    · refine .map _ (((superErasures_knows hw1 id).and (superErasures_over hsta hw1 hid1 hr)).courses.mono ?_)
      rintro next w2 ⟨⟨hk, ho⟩, hc⟩ _ ⟨⟩
      refine ⟨hk, fun hca => ⟨tgt, hsta.later hc hid1, fun _ => .inr ⟨?_, ho hca⟩⟩⟩
      exact (hn (by simpa using he) hr).later hc isFree_none hw1
    refine .map _ ((superErasures_knows hw1 id).courses.mono ?_)
    rintro next w2 ⟨hk, hc⟩ _ ⟨⟩
    refine ⟨hk, fun _ => ⟨tgt, hsta.later hc hid1, fun hr2 => absurd ?_ hr⟩⟩
    rwa [← hsta.role_later hc hw1 hid1]
  · exact .pure (by simp)

theorem walkFrom_searched (hw : w.Sound) (htr : w.Truthful) (fuel : Nat)
    {seen waiting : List TypeId} (hk : ∀ place ∈ seen ++ waiting, w.Knows place)
    (hv : w.Calm → ∀ place ∈ seen, w.Searched (seen ++ waiting) place) :
    (walkFrom .depthFirst (fun _ => return false) visitForMembers fuel seen waiting).Runs w fun found w' =>
      found = none → w'.Calm → ∃ places, seen ++ waiting ⊆ places ∧ ∀ place ∈ places, w'.Searched places place := by
  induction fuel generalizing w seen waiting with
  | zero =>
    cases waiting with
    | nil =>
      rw [List.append_nil] at hv ⊢
      exact .pure fun _ hca => ⟨seen, fun _ h => h, hv hca⟩
    | cons cur waiting => exact .giveUp
  | succ fuel ih =>
    cases waiting with
    | nil =>
      rw [List.append_nil] at hv ⊢
      exact .pure fun _ hca => ⟨seen, fun _ h => h, hv hca⟩
    | cons cur waiting =>
      rw [walkFrom]
      refine .pure_bind ?_
      simp only [Bool.false_eq_true, if_false]
      split
      · next hm =>
        have hd : seen ++ cur :: waiting ⊆ seen ++ waiting := by
          have hm : cur ∈ seen := by simpa using hm
          simp only [List.subset_def, List.mem_append, List.mem_cons]
          rintro place (hp | rfl | hp)
          exacts [.inl hp, .inl hm, .inr hp]
        have hba : seen ++ waiting ⊆ seen ++ cur :: waiting := by simp
        refine (ih hw htr (fun place hp => hk place (hba hp)) fun hca place hp => (hv hca place hp).mono hd).mono ?_
        intro found w' hf hn hca
        obtain ⟨places, hpl, hs⟩ := hf hn hca
        exact ⟨places, List.Subset.trans hd hpl, hs⟩
      have hcu : w.Knows cur := hk cur (by simp)
      refine .bind hw (visitForMembers_searched hw htr hcu).courses ?_
      rintro found w1 hw1 hg1 ⟨hf, hc⟩
      cases found with
      | none => exact .pure (by simp)
      | some next =>
        obtain ⟨hne, hs⟩ := hf next rfl
        have hke : seen ++ cur :: waiting ⊆ (cur :: seen) ++ Arrangement.depthFirst next waiting := by
          simp only [List.subset_def, List.mem_append, List.mem_cons, Arrangement.depthFirst]
          rintro place (hp | rfl | hp)
          exacts [.inl (.inr hp), .inl (.inl rfl), .inr (.inr hp)]
        have ha : next ⊆ (cur :: seen) ++ Arrangement.depthFirst next waiting := by
          intro place hp
          simp [Arrangement.depthFirst, hp]
        refine (ih hw1 (htr.later hc hw) ?_ fun hca place hp => ?_).mono ?_
        · intro place hp
          simp only [List.mem_append, List.mem_cons, Arrangement.depthFirst, List.mem_reverse] at hp
          obtain (rfl | hp) | hp | hp := hp
          · exact hcu.grows hg1
          · exact (hk place (by simp [hp])).grows hg1
          · exact hne place hp
          · exact (hk place (by simp [hp])).grows hg1
        · obtain rfl | hp := List.mem_cons.1 hp
          · exact (hs hca).mono ha
          · have hb := hv (hca.before hc (.inl rfl) hw) place hp
            exact (hb.later hc hw (hk place (by simp [hp]))).mono hke
        · intro found w' hf hn hca
          obtain ⟨places, hpl, hs⟩ := hf hn hca
          exact ⟨places, List.Subset.trans hke hpl, hs⟩

theorem walk_barren (hw : w.Sound) (htr : w.Truthful) (fuel : Nat) (hid : w.Knows id) :
    (walkFrom .depthFirst (fun _ => return false) visitForMembers fuel [] [id]).Runs w fun found w' =>
      found = none → w'.Calm → w'.Into w'.Barren id := by
  refine (walkFrom_searched hw htr fuel (by simpa using hid) (by simp)).imp hw ?_
  intro found w' hw' _ hf hn hc
  obtain ⟨places, hp, hs⟩ := hf hn hc
  have hm : id ∈ places := hp (by simp)
  obtain ⟨tgt, hsta, -⟩ := hs id hm
  exact ⟨tgt, hsta, Searched.barren hw'.registered hs hm hsta⟩

end Query

namespace World

variable {w w' : World} {id : TypeId} {other : TypeId}

theorem course_mark (w : World) (id : TypeId) : Course (some .mark) none w (w.markMemberless id) := .tend (.mark id)

theorem Marked.of_mark (h : (w.markMemberless id).Marked other) : w.Marked other ∨ other = id := by
  obtain ⟨new, hn, hm⟩ := h
  by_cases heq : other = id
  · exact .inr heq
  · refine .inl ⟨new, ?_, hm⟩
    rwa [markMemberless, class?_modifyClass, if_neg heq] at hn

theorem Barren.mark (h : w.Barren other) (hw : w.Sound) : (w.markMemberless id).Barren other :=
  h.later (.operate (.inr (.inr rfl)) (course_mark w id)) isFree_operate hw

theorem Truthful.mark (h : w.Truthful) (hw : w.Sound) (hid : w.Barren id) : (w.markMemberless id).Truthful := by
  intro other ho
  obtain ho | rfl := ho.of_mark
  · exact (h other ho).mark hw
  · exact hid.mark hw

end World

namespace Query

variable {α β : Type} {w : World}

def KeepsTruth (query : Query α) (w : World) (post : α → World → Prop) : Prop :=
  ∀ d : Demand, d.Orderly → (query d w).2.Calm →
    (query d w).2.Truthful ∧ ∀ a, (query d w).1 = .ok a → post a (query d w).2

namespace KeepsTruth

variable {query : Query α} {next : α → Query β} {mid : α → World → Prop} {post : β → World → Prop}

theorem of_runs {post : α → World → Prop} (hw : w.Sound) (htr : w.Truthful)
    (h : query.Runs w fun a w' => w'.Calm → post a w') : query.KeepsTruth w post := fun d hd hc =>
  ⟨htr.later (h d hd).1 hw, fun a ha => (h d hd).2 a ha hc⟩

theorem of_apply {a : α} (hq : ∀ d, query d w = (.ok a, w)) (h : (next a).KeepsTruth w post) :
    (query >>= next).KeepsTruth w post := by
  intro d hd
  rw [bind_ok d w (hq d)]
  exact h d hd

theorem get {next : World → Query β} (h : (next w).KeepsTruth w post) :
    (MonadState.get >>= next : Query β).KeepsTruth w post := h

theorem fuel {next : Nat → Query β} (h : ∀ budget, (next budget).KeepsTruth w post) :
    (Query.fuel >>= next).KeepsTruth w post := fun d hd => h d.fuel d hd

theorem bind (hw : w.Sound) (htr : w.Truthful) (hq : query.Runs w mid)
    (hn : ∀ a w', w'.Sound → w'.Truthful → mid a w' → (next a).KeepsTruth w' post) :
    (query >>= next).KeepsTruth w post := by
  intro d hd
  obtain ⟨hc, hm⟩ := hq d hd
  refine bind_elim d w (fun _ _ hr _ => ?_) fun a w' hr => ?_ <;> rw [hr] at hc hm
  · exact ⟨htr.later hc hw, fun _ ha => by cases ha⟩
  · exact hn a w' (hc.sound hw) (htr.later hc hw) (hm a rfl) d hd

theorem before (hw : w.Sound) (h : query.KeepsTruth w mid)
    (hq : query.RunsIn (some .mark) w fun _ _ => True) (hn : ∀ a, (next a).Orderly) :
    (query >>= next).KeepsTruth w fun _ _ => True := by
  intro d hd
  obtain ⟨hc, -⟩ := hq d hd
  have htr := h d hd
  refine bind_elim d w (fun _ _ hr hca => ⟨?_, fun _ _ => trivial⟩) (fun a w' hr hca => ⟨?_, fun _ _ => trivial⟩) <;>
    rw [hr] at hc htr
  · exact (htr hca).1
  · have hw' := hc.sound hw
    obtain ⟨hc', -⟩ := (hn a).runs w' hw' d hd
    exact (htr (hca.before hc' (.inl rfl) hw')).1.later hc' hw'

theorem discard (hw : w.Sound) (h : query.KeepsTruth w mid) (hq : query.RunsIn (some .mark) w fun _ _ => True) :
    (Functor.discard query).KeepsTruth w fun _ _ => True := by
  change (query >>= fun _ => pure ()).KeepsTruth w _
  exact h.before hw hq fun _ => inferInstance

end KeepsTruth

section

variable (hw : w.Sound) (htr : w.Truthful)

include hw htr

theorem hasNoMemberTypes_keepsTruth (id : TypeId) : (hasNoMemberTypes id).KeepsTruth w fun none w' => none = true →
      ∀ base, w.erasureClass? id = some base → w'.Into w'.Barren base := by
  refine .get ?_
  split
  · next erased he =>
    refine .of_apply (hasNoMembersFlag_apply erased) ?_
    split
    · next hma =>
      obtain ⟨info, hi, hm⟩ := (Option.any_eq_true ..).1 hma
      refine .of_runs hw htr (.pure fun _ _ base hb => ?_)
      cases he.symm.trans hb
      exact ⟨erased, .self (role_of_class? hi), fun _ => htr erased ⟨info, hi, hm⟩⟩
    refine .fuel fun budget => .bind hw htr (walk_barren hw htr budget
      (knows_erasureClass? hw he)) fun found w1 hw1 ht1 hf => ?_
    split
    · exact .of_runs hw1 ht1 (.pure (by simp))
    next hn =>
    have hn : found = none := by simpa using hn
    refine .get ?_
    split
    · next hk =>
      intro d _ hc
      obtain ⟨info, hi, -⟩ := (Option.any_eq_true ..).1 hk
      have hr := role_of_class? hi
      obtain ⟨tgt, hsta, hba⟩ := hf hn (hc.before (course_mark w1 erased) (.inr rfl) hw1)
      obtain rfl := hsta.of_declared hr
      refine ⟨ht1.mark hw1 (hba hr), fun _ _ _ base hb => ?_⟩
      cases he.symm.trans hb
      exact ⟨tgt, .self ((course_mark w1 tgt).grows.role_declared hr), fun _ => (hba hr).mark hw1⟩
    refine .of_runs hw1 ht1 (.pure fun hc _ base hb => ?_)
    cases he.symm.trans hb
    exact hf hn hc
  · next he => exact .of_runs hw htr (.pure fun _ _ base hb => absurd hb (he base))

theorem findMemberType_keepsTruth (scope : ScopeId) (recv : TypeId) (name : String) :
    (findMemberType scope recv name).KeepsTruth w fun _ _ => True := by
  refine .bind hw htr (.of_orderly hw) fun recv w1 hw1 ht1 _ => ?_
  refine .before hw1 (hasNoMemberTypes_keepsTruth hw1 ht1 recv) (hasNoMemberTypes_runs hw1 recv) fun none => ?_
  split
  · infer_instance
  · refine .after fun hit => ?_
    split <;> infer_instance

end

end Query

end Bindings
