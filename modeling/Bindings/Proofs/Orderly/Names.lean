import Bindings.Proofs.Orderly.Edits

/-! # Types by name -/

namespace Bindings

variable {tgt : TypeId}

open TypeInfo Edit

open World (Course)

namespace World

variable {w w' : World} {id : TypeId} {name : QName}

namespace Loads

variable {name : QName} {stop : Option Halt}

theorem course (h : w.Loads name stop w') (hpa : (w.packageNamed? name.parent).isSome)
    (he : w.listed? name = none) (ha : w.isAbsent name = false) : Course none stop w w' := by
  have hz := credit_eq_zero he ha
  cases h with
  | refused => exact (Course.refl w).halt fun _ h => by cases h
  | missed _ hc hp _ _ hl =>
    refine .bracket (.request name ⟨hp, fun _ => .inr ?_⟩) hc
    rw [hz, credit, hl hpa]
    exact Nat.lt_add_right _ Nat.one_pos
  | found hf hc hp hli _ hr =>
    refine hr w (Nat.le_refl _) (.bracket (.request name ⟨hp, fun hs => .inr ?_⟩) hc)
    obtain ⟨id, hli⟩ := hli (hs.declares hf)
    rw [hz, credit, hli.isMet]
    exact Nat.succ_pos _

theorem ask (h : w.Loads name stop w') : Course (some .ask) stop w w' := by
  cases h with
  | refused => exact .inside ((Course.refl w).halt fun _ h => by cases h)
  | missed _ hc _ _ _ _ => exact .trans (.tend (.ask name)) (.inside hc)
  | found _ hc _ _ _ hr => exact .trans (.tend (.ask name)) (.inside (hr (w.asking name) (Nat.le_refl _) hc))

end Loads

def Stands (w : World) (id target : TypeId) : Prop :=
  (∀ name pending, w.role id ≠ .placeholder name pending) ∧ target = id ∨
    ∃ name, w.role id = .placeholder name (some target)

theorem Stands.ne_placeholder (hw : w.Registered) (h : w.Stands id tgt)
    (name : QName) (pending : Option TypeId) : w.role tgt ≠ .placeholder name pending := by
  obtain ⟨hid, rfl⟩ | ⟨name', hid⟩ := h
  · exact hid name pending
  · obtain h | h := hw.role_target hid <;> rw [h] <;> simp

theorem Stands.of_declared (h : w.Stands id tgt) (hid : w.role id = .declared) : tgt = id := by
  obtain ⟨-, ht⟩ | ⟨name, hn⟩ := h
  · exact ht
  · rw [hid] at hn
    cases hn

theorem WellBuilt.vanish (hw : w.WellBuilt) (reason : Reason)
    (closest : Option TypeId) (hp : w.type id = .placeholder name none) :
    let made := (w.addType (.missing name reason closest)).2
    Course none none made (made.swapPlaceholder id ⟨w.types.size⟩) ∧
      (made.swapPlaceholder id ⟨w.types.size⟩).role id = .placeholder name (some ⟨w.types.size⟩) := by
  have hlt : id.index < w.types.size := lt_size_of_type_ne (by simp [hp])
  have hp' := (type_addType_of_lt (.missing name reason closest) hlt).trans hp
  refine ⟨.vanish hp' (hw.isFresh_new rfl rfl rfl) ?_, ?_⟩
  · rw [World.role, type_addType_new]
    rfl
  · rw [role_swapPlaceholder _ hp', if_pos rfl]

def vanished (w : World) (id : TypeId) (name : QName) : World :=
  ((w.report .incompleteClassPath [name.dotted]).addType (.missing name .notFound none)).2.swapPlaceholder id
    ⟨w.types.size⟩

theorem vanished_course (hw : w.Sound) (hp : w.type id = .placeholder name none) :
    Course none none w (w.vanished id name) ∧
      (w.vanished id name).role id = .placeholder name (some ⟨w.types.size⟩) := by
  have hre : Course none none w (w.report .incompleteClassPath [name.dotted]) := .apart { Apart.refl w with }
  have hm : Course none none (w.report .incompleteClassPath [name.dotted]) _ :=
    .add (.missing name .notFound none) (.missing rfl) fun _ hs => by cases hs
  obtain ⟨hc, hr⟩ := (hre.sound hw).wellBuilt.vanish .notFound none hp
  exact ⟨hre.trans (hm.trans hc), hr⟩

theorem vanished_classPath (hp : w.type id = .placeholder name none) :
    (w.vanished id name).classPath = w.classPath := by
  have hlt : id.index < w.types.size := lt_size_of_type_ne (by simp [hp])
  have hp' := (type_addType_of_lt (w := w.report .incompleteClassPath [name.dotted])
    (.missing name .notFound none) hlt).trans hp
  exact (Quiet.swapPlaceholder ⟨w.types.size⟩ hp').classPath

theorem Stands.listed {pkg : PackageId} {simple : String} (hw : w.Sound)
    (hw' : w'.Sound) (hg : w.Grows w') (hk : w.known? pkg simple = some id)
    (h : w'.Stands id tgt) (hre : w'.role tgt ≠ .missing) :
    w'.known? pkg simple = some tgt ∧ w'.role tgt = .declared := by
  rcases hw.registered.entry pkg simple id hk with
    hid | ⟨name, pending, hid, hp, rfl, -⟩
  · have hid' := hg.role_declared hid
    rw [h.of_declared hid']
    exact ⟨hg.entry pkg simple id hk hid, hid'⟩
  obtain ⟨later, hid'⟩ : ∃ later, w'.role id = .placeholder name later := by
    cases pending with
    | none => exact hg.pending id name hid
    | some old => exact ⟨_, hg.resolved id name old hid⟩
  obtain rfl : later = some tgt := by
    obtain ⟨hn, -⟩ | ⟨name', hna'⟩ := h
    · exact absurd hid' (hn _ _)
    rw [hid'] at hna'
    cases hna'
    rfl
  -- The placeholder itself is listed only as long as it stands for nothing or for a missing type.
  obtain ⟨package', listed, hp', hl, hs⟩ := hw'.registered.placeholder id name _ hid'
  cases (hg.named _ _ hp).symm.trans hp'
  obtain rfl | ⟨hd, _, ⟨⟩, rfl | hm⟩ := hs
  · rcases hw'.registered.entry pkg name.simple listed hl with
      hr | ⟨name', pending', hr, -, -, hm⟩
    · rw [hid'] at hr
      cases hr
    · rw [hid'] at hr
      cases hr
      exact absurd (hm tgt rfl) hre
  · exact ⟨hl, hd⟩
  · exact absurd hm hre

end World

namespace Query

variable {w : World} {id : TypeId} {name : QName}

theorem settlePlaceholder_eq (d : Demand) (hp : w.type id = .placeholder name none) : settlePlaceholder id name d w =
      if name.dotted = WellKnown.object.dotted then (.error (.missingFoundation name.dotted), w)
      else (.ok ⟨w.types.size⟩, w.vanished id name) := by
  rw [settlePlaceholder, get_bind_apply, hp]
  dsimp only
  split <;> rfl

theorem settlePlaceholder_runs (hw : w.Sound) {later : Option TypeId} (hid : w.role id = .placeholder name later) :
    (settlePlaceholder id name).Runs w fun tgt w' => w'.Stands id tgt := by
  rw [World.role, role_eq_placeholder] at hid
  cases later with
  | some tgt =>
    refine .get ?_
    rw [hid]
    exact .pure (.inr ⟨name, role_eq_placeholder.2 hid⟩)
  | none =>
    intro d _
    rw [settlePlaceholder_eq d hid]
    split
    · next hn =>
      refine ⟨(Course.refl w).halt fun _ hs => ?_, fun _ h => by cases h⟩
      cases hs
      exact ⟨hn, .inr ⟨id, name, hid, hn⟩⟩
    · obtain ⟨hc, hr⟩ := World.vanished_course hw hid
      exact ⟨hc, fun _ h => by cases h; exact .inr ⟨name, hr⟩⟩

section

variable {id : TypeId} {name : QName} {w1 : World}

section

variable (hw : w.Sound) (hp : w.type id = .placeholder name none)
  (hc : Course none none (w.asking name) w1) (hpa : w1.classPath = (w.classPath.find name).2)

include hw hp hc hpa

theorem course_of_met (hm : w.classPath.Spells name → w1.isMet name) : Course none none w w1 := by
  refine .bracket (.request name ⟨hpa, fun hs => .inr ?_⟩) hc
  have hl := hw.registered.listed?_of_pending hp
  have hg := (World.Grows.spares (World.neutral_asking w name).toSpares).trans hc.grows
  refine ((World.level_asking w name).trans hc.level hc.grows).credit_lt hg (by rw [hl]; rfl) ?_ (hm hs)
  simp [World.isMet, hl, World.isPending, hp]

theorem settle_absent_runs (ht : w1.types = w.types) (ha : (w.packageNamed? name.parent).isSome → w1.isAbsent name)
    (d : Demand) : Course none (Halt.of? (settlePlaceholder id name d w1).1) w (settlePlaceholder id name d w1).2 ∧
      ∀ tgt, (settlePlaceholder id name d w1).1 = .ok tgt → (settlePlaceholder id name d w1).2.Stands id tgt := by
  have hg := (World.Grows.spares (World.neutral_asking w name).toSpares).trans hc.grows
  have hle := (World.level_asking w name).trans hc.level hc.grows
  have hl := hw.registered.listed?_of_pending hp
  have hp1 : w1.type id = .placeholder name none := by rwa [World.type, ht]
  rw [settlePlaceholder_eq d hp1]
  split
  · next hn =>
    have hpac : (w.packageNamed? name.parent).isSome := by
      obtain ⟨pkg, hpac, -⟩ := World.listed?_eq_some.1 hl
      rw [hpac]
      rfl
    have hst : w1.isStuck name := by simp [World.isStuck, hn, ha hpac, hle.isSome_listed? hg (by rw [hl]; rfl)]
    refine ⟨.halt (.bracket (.request name ⟨hpa, fun _ => .inl hst⟩) hc) fun _ hs => ?_, fun _ h => by cases h⟩
    cases hs
    exact ⟨hn, .inr ⟨id, name, hp1, hn⟩⟩
  have hw1 := hc.sound (hw.move (.aside (World.neutral_asking w name).toAside))
  obtain ⟨hv, hr⟩ := World.vanished_course hw1 hp1
  refine ⟨course_of_met hw hp (hc.trans hv)
    ((World.vanished_classPath hp1).trans hpa) fun _ => ?_, fun _ h => by cases h; exact .inr ⟨name, hr⟩⟩
  rcases (hle.trans hv.level hv.grows).listed? (hg.trans hv.grows) hl with
    hl2 | ⟨other, ho, hd⟩
  · refine World.isMet_iff.2 ⟨id, hl2, ?_⟩
    rw [World.isPending, role_eq_placeholder.1 hr]
    rfl
  · exact World.isMet_of_declared ho hd

end

theorem load_settlePlaceholder_runs (hw : w.Sound) (hp : w.type id = .placeholder name none) :
    (load name >>= fun _ => settlePlaceholder id name).Runs w fun tgt w' => w'.Stands id tgt := by
  intro d hd
  have hlo := hd.load name w hw
  refine bind_elim d w (fun _ w1 hr => ⟨?_, fun _ ha => by cases ha⟩) fun _ w1 hr => ?_ <;>
    change d.load name w = _ at hr <;> rw [hr] at hlo
  · cases hlo with
    | refused => exact (Course.refl _).halt fun _ h => by cases h
    | found hf hc hpa hl _ hre =>
      exact hre w (Nat.le_refl _) (course_of_met hw hp hc hpa fun hs =>
        (hl (hs.declares hf)).elim fun _ => World.Lists.isMet)
  · cases hlo with
    | missed _ hc hpa ht _ hab => exact settle_absent_runs hw hp hc hpa ht hab d
    | found hf hc hpa hl _ hre =>
      have hc' := hre w (Nat.le_refl _) (course_of_met hw hp hc hpa fun hs =>
        (hl (hs.declares hf)).elim fun _ => World.Lists.isMet)
      obtain ⟨_, hid⟩ := hc'.grows.pending id name (role_eq_placeholder.2 hp)
      obtain ⟨hse, hpo⟩ := settlePlaceholder_runs (hc'.sound hw) hid d hd
      exact ⟨hc'.trans hse, hpo⟩

end

variable {pkg : PackageId} {simple : String}

theorem resolvePlaceholder_runs (hw : w.Sound) (id : TypeId) :
    (resolvePlaceholder id).Runs w fun tgt w' => w'.Stands id tgt := by
  refine .get ?_
  split
  · next name tgt ht => exact .pure (.inr ⟨name, role_eq_placeholder.2 ht⟩)
  · next name ht => exact load_settlePlaceholder_runs hw ht
  rename_i hn hn'
  refine .pure (.inl ⟨fun name pending hid => ?_, rfl⟩)
  rw [World.role, role_eq_placeholder] at hid
  cases pending with
  | none => exact hn' name hid
  | some tgt => exact hn name tgt hid

theorem resolved_runs (hw : w.Sound) (id : TypeId) : (resolved id).Runs w fun target w' => w'.Stands id target := by
  refine .get ?_
  split
  · next name target ht => exact .pure (.inr ⟨name, role_eq_placeholder.2 ht⟩)
  · exact resolvePlaceholder_runs hw id
  rename_i hn hn'
  refine .pure (.inl ⟨fun name pending hid => ?_, rfl⟩)
  rw [World.role, role_eq_placeholder] at hid
  cases pending with
  | none => exact hn' name hid
  | some target => exact hn name target hid

theorem resolved_eq_self (d : Demand)
    (h : ∀ name pending, w.role id ≠ .placeholder name pending) : resolved id d w = (.ok id, w) := by
  rw [resolved, get_bind_apply]
  cases ht : w.type id with
  | placeholder name pending => exact absurd (role_eq_placeholder.2 ht) (h name pending)
  | _ => rfl

instance : (resolvePlaceholder id).Orderly := .of_runs fun _ hw => resolvePlaceholder_runs hw id

instance : (resolved id).Orderly := .of_runs fun _ hw => resolved_runs hw id

instance : (resolvedReal id).Orderly := by
  unfold resolvedReal
  infer_instance

theorem resolvedReal_runs (hw : w.Sound) (hk : w.known? pkg simple = some id) :
    (resolvedReal id).Runs w fun found w' => ∀ target, found = some target →
      w'.known? pkg simple = some target ∧ w'.role target = .declared := by
  refine .bind hw (resolved_runs hw id) fun target w' hw' hg hs => .get ?_
  split
  · exact .pure (by simp)
  rename_i hr
  refine .pure ?_
  rintro _ ⟨⟩
  exact hs.listed hw hw' hg hk fun h => hr (role_eq_missing.1 h)

theorem memberOfName_runs (hw : w.Sound) (internal : String) :
    (memberOfName internal).Runs w fun found w' => ∀ member, found = some member → w'.role member = .declared := by
  refine .lift_bind hw fun hw1 _ => .after hw1 fun member w2 _ _ => ?_
  refine .get ?_
  split
  · next hs =>
    refine .pure ?_
    rintro _ ⟨⟩
    exact World.role_eq_declared.2 (Option.isSome_iff_exists.1 hs)
  · exact .pure (by simp)

theorem completeMemberTypes_runs (hw : w.Sound) (hid : w.IsCompiled id) :
    (completeMemberTypes id).Runs w fun _ w' => w'.IsRead id .memberTypes := by
  refine .mono (.read_part .memberTypes hw (fun _ _ _ => hid) fun info hu hw1 hg1 => ?_) fun _ _ hre => hre hid
  have hr := fun names => Query.RunsIn.filterMapM names (fun name _ hw => memberOfName_runs hw name) hw1
  refine .bind hw1 (.inside (hr _)) fun members w2 _ hg2 hm => ?_
  have hid2 := hu.isCompiled.grows (hg1.trans hg2)
  refine .tend (.fill (.memberTypes members) hid2 (fun _ hs => by cases hs) ?_) trivial
  rintro _ ⟨⟩
  exact hm

theorem isCompiled_of_any (h : (w.class? id).any (·.isCompiled)) : w.IsCompiled id := by
  obtain ⟨info, hi, hc⟩ := Option.any_eq_true _ _ |>.1 h
  exact ⟨info, hi, hc⟩

instance : (memberTypes id).Orderly where
  runs w hw := by
    refine .after hw fun target w1 hw1 _ => .get ?_
    split
    · refine .get ?_
      dsimp only
      split
      · next hc =>
        exact .bind hw1 (completeMemberTypes_runs hw1 (isCompiled_of_any hc)) fun _ _ _ _ _ => .get (.pure trivial)
      · exact .get (.pure trivial)
    · exact .pure trivial

theorem memberTypes_runs (hw : w.Sound) (hid : w.role id = .declared) :
    (memberTypes id).Runs w fun members w' => ∃ info, w'.class? id = some info ∧
      (info.isCompiled → info.state.isPending .memberTypes = false) ∧ members = info.members := by
  refine .bind hw (resolved_runs hw id) fun target w1 hw1 hg hst => .get ?_
  have hid1 := hg.role_declared hid
  obtain rfl := hst.of_declared hid1
  obtain ⟨info1, hi1⟩ := World.role_eq_declared.1 hid1
  have he : w1.erasureClass? target = some target := by rw [World.erasureClass?, World.class?_eq_some.1 hi1]
  rw [he]
  refine .get ?_
  dsimp only
  split
  · next hc =>
    refine .bind hw1 (completeMemberTypes_runs hw1 (isCompiled_of_any hc)) ?_
    rintro _ w2 - - ⟨info2, hi2, -, hr⟩
    refine .get (.pure ⟨info2, hi2, fun _ => hr, ?_⟩)
    rw [hi2]
    rfl
  rename_i hs
  rw [hi1] at hs
  exact .get (.pure ⟨info1, hi1, fun hc => absurd hc hs, by rw [hi1]; rfl⟩)

theorem directMemberType_finds (hw : w.Sound) {encl : TypeId} (hid : w.role encl = .declared) (simple : String) :
    (directMemberType encl simple).Runs w fun found w' => ∃ info, w'.class? encl = some info ∧
      (info.isCompiled → info.state.isPending .memberTypes = false) ∧
      found = info.members.find? fun member => (w'.class? member).any (·.isNamed simple) := by
  obtain ⟨info, hi⟩ := World.role_eq_declared.1 hid
  refine .get ?_
  rw [World.erasureClass?, World.class?_eq_some.1 hi]
  refine .bind hw (memberTypes_runs hw hid) ?_
  rintro members w' - - ⟨info', hi', hr, hm⟩
  exact .get (.pure ⟨info', hi', hr, by rw [hm]⟩)

theorem isNamed_of_find? {members : List TypeId} {member : TypeId}
    (h : (members.find? fun member => (w.class? member).any (·.isNamed simple)) = some member) :
    ∃ inner, w.class? member = some inner ∧ inner.isNamed simple := by
  have ha := List.find?_some h
  exact (Option.any_eq_true ..).1 ha

theorem directMemberType_runs (hw : w.Sound) (encl : TypeId) (simple : String) :
    (directMemberType encl simple).Runs w fun found w' => ∀ member, found = some member →
      (∃ inner, w'.class? member = some inner ∧ inner.isNamed simple) ∧ (w.role encl = .declared →
        ∃ info, w'.class? encl = some info ∧ member ∈ info.members) := by
  by_cases hid : w.role encl = .declared
  · refine (directMemberType_finds hw hid simple).mono fun found w' ⟨info, hi, _, hf⟩ member hm => ?_
    rw [hf] at hm
    exact ⟨isNamed_of_find? hm, fun _ => ⟨info, hi, List.mem_of_find?_eq_some hm⟩⟩
  refine .get ?_
  split
  · refine .after hw fun members w' _ _ => .get ?_
    exact .pure fun member hf => ⟨isNamed_of_find? hf, fun h => absurd h hid⟩
  · exact .pure (by simp)

theorem askForType_runsIn {task : Option Task} (hw : w.Sound) (name : QName)
    (hlo : (load name).RunsIn task w fun _ _ => True) :
    (askForType name).RunsIn task w fun found w' => ∀ id, found = some id → w'.Lists name id := by
  refine .bind hw hlo fun _ w1 hw1 _ _ => .of_runs (RunsIn.lift_bind hw1 fun hw2 _ => .get ?_)
  have hp := (World.packageNamed?_createPackage hw1.registered.tree name.parent).1
  rw [← World.createPackage_world] at hp
  split
  · next found hk =>
    refine (resolvedReal_runs hw2 hk).imp hw2 fun found w' _ hg hl id hid => ?_
    obtain ⟨hk', hr⟩ := hl id hid
    exact ⟨_, hg.named _ _ hp, hk', hr⟩
  · refine .lift_bind hw2 fun _ _ => .pure (by simp)

theorem askForType_runs (hw : w.Sound)
    (hp : w.packageNamed? name.parent = some pkg) (hu : w.known? pkg name.simple = none)
    (hpr : ¬ (w.package pkg).absent.contains name.simple) :
    (askForType name).Runs w fun found w' => ∀ id, found = some id → w'.Lists name id := by
  have he : w.listed? name = none := by rw [World.listed?, hp, Option.bind_some, hu]
  have ha : w.isAbsent name = false := by
    rw [World.isAbsent, hp, Option.any_some]
    simpa using hpr
  refine askForType_runsIn hw name fun _ hd => ⟨?_, fun _ _ => trivial⟩
  exact (hd.load name w hw).course (by rw [hp]; rfl) he ha

theorem askForType_asks (hw : w.Sound) (name : QName) : (askForType name).RunsIn (some .ask) w fun _ _ => True :=
  (askForType_runsIn hw name fun _ hd => ⟨(hd.load name w hw).ask, fun _ _ => trivial⟩).mono fun _ _ _ => trivial

theorem parent_ofReversed (simple : String) (outer : List String) :
    QName.parent ⟨(simple :: outer).reverse⟩ = ⟨outer.reverse⟩ := by
  simp [QName.parent]

theorem simple_ofReversed (simple : String) (outer : List String) :
    QName.simple ⟨(simple :: outer).reverse⟩ = simple := by
  simp [QName.simple, QName.last?]

theorem typeInPackage_runs (hw : w.Sound) (hp : w.packageNamed? name.parent = some pkg) :
    (typeInPackage pkg name).Runs w fun found w' => ∀ id, found = some id → w'.Lists name id := by
  refine .get ?_
  split
  · next known hk =>
    refine (resolvedReal_runs hw hk).imp hw fun found w' _ hg hl id hid => ?_
    obtain ⟨hk', hr⟩ := hl id hid
    exact ⟨pkg, hg.named _ _ hp, hk', hr⟩
  rename_i hu
  split
  · exact .pure (by simp)
  · next hpr => exact askForType_runs hw hp hu hpr

theorem typeOfReversed_runs (hw : w.Sound) (segs : List String) :
    (typeOfReversed segs).Runs w fun found w' => ∀ id, found = some id → w'.Denotes ⟨segs.reverse⟩ id := by
  induction segs generalizing w with
  | nil => exact .pure (by simp)
  | cons simple outer ih =>
    rw [typeOfReversed]
    refine .lift_bind hw fun hw1 hg1 => ?_
    split
    · next pkg hp =>
      have hp : World.packageNamed? (getPackage _ w).2 _ = some pkg :=
        (World.enterPackage_some hw.registered.tree hw.registered.tree.root hp).1
      refine (typeInPackage_runs hw1 hp).mono fun found w' hl id hid => ?_
      obtain ⟨pkg, hp, hk, hr⟩ := hl id hid
      exact .listed hp hk hr
    refine .bind hw1 (ih hw1) fun encl w2 hw2 _ hd => ?_
    split
    · next encl =>
      have hd := hd encl rfl
      refine (directMemberType_runs hw2 encl simple).imp hw2 fun found w' _ hg hf id hid => ?_
      obtain ⟨⟨inner, hin, hn⟩, hme⟩ := hf id hid
      obtain ⟨info, hi, hm⟩ := hme hd.role
      refine .member ?_ hi hm hin ?_
      · rw [parent_ofReversed]
        exact hd.grows hg
      · rwa [simple_ofReversed]
    · exact .pure (by simp)

theorem getType_of_package {w1 : World} (hn : name.segments ≠ [])
    (hp : getPackage name.parent w = (some pkg, w1)) (d : Demand) :
    getType name d w = typeInPackage pkg name d w1 := by
  obtain ⟨simple, outer, hse⟩ := List.exists_cons_of_ne_nil (List.reverse_ne_nil_iff.2 hn)
  have hs : (⟨(simple :: outer).reverse⟩ : QName) = name := by rw [← hse, List.reverse_reverse]
  have hl : (liftM (getPackage name.parent) : Query (Option PackageId)) d w = (.ok (some pkg), w1) := by
    change (Except.ok (getPackage name.parent w).1, (getPackage name.parent w).2) = _
    rw [hp]
  rw [getType, hse, typeOfReversed, hs, Query.bind_ok d w hl]

theorem getType_runs (hw : w.Sound) (name : QName) :
    (getType name).Runs w fun found w' => ∀ id, found = some id → w'.Denotes name id := by
  refine (typeOfReversed_runs hw name.segments.reverse).mono fun found w' hf id hid => ?_
  have hd := hf id hid
  rwa [List.reverse_reverse] at hd

instance : (getType name).Orderly := .of_runs fun _ hw => getType_runs hw name

theorem objectType_finds (hw : w.Sound) :
    objectType.Runs w fun id w' => w'.Denotes WellKnown.object id ∧ w'.object = some id := by
  refine .get ?_
  split
  · next object ho => exact .pure ⟨hw.linked.object object ho, ho⟩
  rename_i hn
  refine RunsIn.bind_together (getType_runs hw WellKnown.object) fun found w1 hc hf d hd => ?_
  split
  · next object =>
    have hde := hf object rfl
    rw [get_bind_apply]
    split
    · exact ⟨hc.halt fun _ h => by cases h; exact ⟨rfl, .inl hn⟩, fun _ h => by cases h⟩
    have hs : w1.Apart { w1 with object := some object } :=
      { World.Apart.refl w1 with
        object := fun _ h => by cases h; exact .inr hde
        rooted := fun _ => rfl }
    refine ⟨hc.trans (.apart hs), fun _ h => ?_⟩
    cases h
    exact ⟨hde.grows (.spares hs.toSpares), rfl⟩
  · exact ⟨hc.halt fun _ h => by cases h; exact ⟨rfl, .inl hn⟩, fun _ h => by cases h⟩

theorem objectType_runs (hw : w.Sound) : objectType.Runs w fun id w' => w'.Denotes WellKnown.object id :=
  (objectType_finds hw).mono fun _ _ h => h.1

instance : objectType.Orderly := .of_runs fun _ hw => objectType_runs hw

instance (base : BaseType) : (boxed base).Orderly := by
  unfold boxed
  split <;> infer_instance

end Query

end Bindings
