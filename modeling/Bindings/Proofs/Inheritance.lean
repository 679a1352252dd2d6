import Mathlib.Algebra.BigOperators.Group.List.Basic
import Mathlib.Algebra.Ring.Nat
import Bindings.Proofs.Orderly.Cycles
import Bindings.Proofs.Replay.Subtyping
import Bindings.Proofs.Terms.Substitution

/-!
# Inheritance

Where all classes above a class are known (`World.HierarchyKnown`), the search for a supertype loads nothing
and finds what the class inherits from (`Query.asSuperType_delivers`). Cycles do no harm to it.
-/

open Relation

namespace Bindings

open World

variable {rest : List TypeId} {good : TypeId → Prop} {sup : TypeId} {fuel : Nat}

section

variable {next : TypeId → List TypeId} {isGoal : TypeId → Bool} {seen waiting : List TypeId} {cur : TypeId}

def Leads (next : TypeId → List TypeId) (isGoal : TypeId → Bool) (place : TypeId) : Prop :=
  ∃ goal, ReflTransGen (fun a b => b ∈ next a) place goal ∧ isGoal goal

theorem leads_iff (hn : isGoal cur = false) : Leads next isGoal cur ↔ ∃ other ∈ next cur, Leads next isGoal other := by
  constructor
  · rintro ⟨goal, hp, hg⟩
    obtain rfl | ⟨other, ho, hp⟩ := hp.cases_head
    · rw [hn] at hg
      cases hg
    · exact ⟨other, ho, goal, hp, hg⟩
  · rintro ⟨other, ho, goal, hp, hg⟩
    exact ⟨goal, hp.head ho, hg⟩

/-- What a walk keeps: it has met no goal, and from where it was every way leads to where it was or to
where it will be. -/
def Covered (next : TypeId → List TypeId) (isGoal : TypeId → Bool) (visited waiting : List TypeId) : Prop :=
  ∀ place ∈ visited, isGoal place = false ∧ ∀ other ∈ next place, other ∈ visited ∨ other ∈ waiting

theorem Covered.leads (h : Covered next isGoal seen waiting) (hc : cur ∈ seen)
    (hl : Leads next isGoal cur) : ∃ other ∈ waiting, Leads next isGoal other := by
  obtain ⟨goal, hp, hg⟩ := hl
  induction hp using ReflTransGen.head_induction_on with
  | refl =>
    rw [(h goal hc).1] at hg
    cases hg
  | head ho hp ih =>
    obtain hv | hwa := (h _ hc).2 _ ho
    · exact ih hv
    · exact ⟨_, hwa, goal, hp, hg⟩

theorem Covered.skip (h : Covered next isGoal seen (cur :: waiting)) (hc : cur ∈ seen) :
    Covered next isGoal seen waiting := by
  refine fun place hp => ⟨(h place hp).1, fun other ho => ?_⟩
  obtain hv | hwa := (h place hp).2 other ho
  · exact .inl hv
  obtain rfl | hwa := List.mem_cons.1 hwa
  · exact .inl hc
  · exact .inr hwa

theorem Covered.exists_skip (h : Covered next isGoal seen (cur :: waiting)) (hc : cur ∈ seen) :
    (∃ start ∈ waiting, Leads next isGoal start) ↔ ∃ start ∈ cur :: waiting, Leads next isGoal start := by
  rw [List.exists_mem_cons_iff]
  exact ⟨.inr, fun hl => hl.elim ((h.skip hc).leads hc) id⟩

theorem Covered.visit (h : Covered next isGoal seen (cur :: waiting)) (hn : isGoal cur = false)
    (hr : ∀ place, place ∈ rest ↔ place ∈ next cur ∨ place ∈ waiting) :
    Covered next isGoal (cur :: seen) rest := by
  intro place hp
  simp only [List.mem_cons, hr]
  obtain rfl | hp := List.mem_cons.1 hp
  · exact ⟨hn, fun other ho => .inr (.inl ho)⟩
  refine ⟨(h place hp).1, fun other ho => ?_⟩
  obtain hv | hwa := (h place hp).2 other ho
  · exact .inl (.inr hv)
  obtain rfl | hwa := List.mem_cons.1 hwa
  · exact .inl (.inl rfl)
  · exact .inr (.inr hwa)

end

namespace Query

variable {w : World} {d : Demand}

theorem walkFrom_delivers {arrange : Arrangement}
    (ha : ∀ next waiting, (arrange next waiting).Perm (next ++ waiting)) {goal : TypeId → Query Bool}
    {visit : TypeId → Query (Option (List TypeId))} {isGoal : TypeId → Bool} {next : TypeId → List TypeId}
    (hgo : ∀ place, good place → goal place d w = (.ok (isGoal place), w))
    (hvi : ∀ place, good place → visit place d w = (.ok (some (next place)), w))
    (hne : ∀ place, good place → ∀ other ∈ next place, good other)
    {visited waiting unvisited : List TypeId} (hwa : ∀ place ∈ waiting, good place)
    (hc : Covered next isGoal visited waiting)
    (hun : ∀ place, good place → place ∉ visited → place ∈ unvisited)
    (hfu : waiting.length + (unvisited.map fun place => (next place).length).sum ≤ fuel) :
    (walkFrom arrange goal visit fuel visited waiting).Delivers d w fun found u => u = w ∧
      (∀ place ∈ found, isGoal place) ∧ (found.isSome ↔ ∃ start ∈ waiting, Leads next isGoal start) := by
  induction fuel generalizing visited waiting unvisited with
  | zero =>
    obtain rfl : waiting = [] := List.eq_nil_of_length_eq_zero (by omega)
    rw [walkFrom]
    exact .pure ⟨rfl, nofun, by simp⟩
  | succ fuel ih =>
    cases waiting with
    | nil =>
      rw [walkFrom]
      exact .pure ⟨rfl, nofun, by simp⟩
    | cons current waiting =>
      have hg := hwa current (.head _)
      have hr : ∀ place ∈ waiting, good place := fun place hp => hwa place (.tail _ hp)
      rw [List.length_cons] at hfu
      rw [walkFrom]
      refine .step (hgo current hg) (.ite (fun hme => .pure ⟨rfl, ?_, ?_⟩) fun hme => .ite
        (fun hv => ?_) fun hv => .step (hvi current hg) ?_)
      · rintro _ ⟨⟩
        exact hme
      · exact ⟨fun _ => ⟨current, .head _, current, .refl, hme⟩, fun _ => rfl⟩
      · have hm : current ∈ visited := by simpa using hv
        refine (ih hr (hc.skip hm) hun (by omega)).mono ?_
        rintro found u ⟨rfl, hf, hs⟩
        exact ⟨rfl, hf, hs.trans (hc.exists_skip hm)⟩
      · have hno : isGoal current = false := by simpa using hme
        have hm : current ∉ visited := by simpa using hv
        have hsu := List.sum_map_erase (fun place => (next place).length) (hun current hg hm)
        have hmem_iff : ∀ place, place ∈ arrange (next current) waiting ↔
            place ∈ next current ∨ place ∈ waiting := fun place =>
          (ha (next current) waiting).mem_iff.trans List.mem_append
        refine (@ih (current :: visited) (arrange (next current) waiting) (unvisited.erase current) ?_
          (hc.visit hno hmem_iff) ?_ ?_).mono ?_
        · intro place hp
          exact ((hmem_iff place).1 hp).elim (hne current hg place) (hr place)
        · intro place hp hn
          rw [List.mem_cons, not_or] at hn
          exact (List.mem_erase_of_ne hn.1).2 (hun place hp hn.2)
        · rw [(ha _ _).length_eq, List.length_append]
          omega
        · rintro found u ⟨rfl, hf, hs⟩
          refine ⟨rfl, hf, hs.trans ?_⟩
          simp only [hmem_iff, List.mem_cons, or_and_right, exists_or, exists_eq_left, leads_iff hno]

end Query

def ClassInfo.supertypesKnown (info : ClassInfo) : Bool :=
  if info.isCompiled then !info.state.superclassPending && !info.state.interfacesPending
  else info.state.hierarchyBegun

namespace World

variable {w u : World} {id : TypeId} {info : ClassInfo}

def parents (w : World) (id : TypeId) : List TypeId :=
  ((w.class? id).map fun info => info.supertypes.map w.follow).getD []

def Inherits (w : World) (sub super : TypeId) : Prop := super ∈ w.parents sub

/-- The type and all types above it are classes whose supertypes are worked out. -/
def HierarchyKnown (w : World) (id : TypeId) : Prop :=
  ∀ super, ReflTransGen w.Inherits id super → (w.class? super).any (·.supertypesKnown)

section

variable (h : w.HierarchyKnown id)

include h

theorem HierarchyKnown.parent {super : TypeId} (hs : super ∈ w.parents id) :
    w.HierarchyKnown super :=
  fun other ho => h other (.head hs ho)

theorem HierarchyKnown.class? : ∃ info, w.class? id = some info ∧ info.supertypesKnown :=
  (Option.any_eq_true ..).1 (h id .refl)

theorem HierarchyKnown.isSome : (w.class? id).isSome := by
  obtain ⟨_, hin, -⟩ := h.class?
  rw [hin]
  rfl

theorem HierarchyKnown.mem_types : id ∈ (List.range w.types.size).map TypeId.mk := by
  obtain ⟨_, hin, -⟩ := h.class?
  exact List.mem_map.2 ⟨id.index, List.mem_range.2 (lt_size_of_class? hin), rfl⟩

end

def isClosed (w : World) (test : ClassInfo → Bool) (ids : List TypeId) : Bool :=
  ids.all fun id => (w.class? id).any test && (w.parents id).all ids.contains

theorem any_of_closed {test : ClassInfo → Bool} {ids : List TypeId} (h : w.isClosed test ids) (hid : id ∈ ids)
    {super : TypeId} (hp : ReflTransGen w.Inherits id super) : (w.class? super).any test := by
  simp only [isClosed, List.all_eq_true, Bool.and_eq_true, List.contains_iff_mem] at h
  have hm : super ∈ ids := by
    induction hp with
    | refl => exact hid
    | tail _ hs ih => exact (h _ ih).2 _ hs
  exact (h super hm).1

theorem hierarchyKnown_of_closed {ids : List TypeId} (h : w.isClosed (·.supertypesKnown) ids) (hid : id ∈ ids) :
    w.HierarchyKnown id :=
  fun _ => any_of_closed h hid

theorem Keeps.supertypes (hw : w.Sound) (hu : w.Keeps u) (hin : w.class? id = some info)
    (hkn : info.supertypesKnown) : ∃ new, u.class? id = some new ∧ new.supertypesKnown ∧
      new.superclass = info.superclass ∧ new.interfaces = info.interfaces := by
  obtain ⟨new, hn, hre⟩ := hu.class? hin
  have hc : new.isCompiled = info.isCompiled := by rw [hre.same]; rfl
  have hb : new.state.hierarchyBegun = info.state.hierarchyBegun := by rw [hre.same]
  have hp : info.state.superclassPending = false ∧ info.state.interfacesPending = false := by
    -- Only a compiled class has supertypes to be read.
    have hs := hw.linked.pending id info hin
    rw [ClassInfo.supertypesKnown] at hkn
    cases hk : info.isCompiled with
    | true => simpa [hk] using hkn
    | false => simpa [hk] using hs
  obtain ⟨hsu, hd⟩ := hre.superclass hp.1
  obtain ⟨hi, hd'⟩ := hre.interfaces hp.2
  refine ⟨new, hn, ?_, hsu, hi⟩
  rw [ClassInfo.supertypesKnown, hc, hb, hd, hd']
  rwa [ClassInfo.supertypesKnown, hp.1, hp.2] at hkn

theorem HierarchyKnown.keeps (hw : w.Sound) (hu : w.Keeps u) (h : w.HierarchyKnown id) :
    ∃ info new, w.class? id = some info ∧ u.class? id = some new ∧ new.supertypesKnown ∧
      new.superclass = info.superclass ∧ new.interfaces = info.interfaces := by
  obtain ⟨info, hin, hkn⟩ := h.class?
  obtain ⟨new, hn⟩ := hu.supertypes hw hin hkn
  exact ⟨info, new, hin, hn⟩

def searchSteps (w : World) : Nat :=
  1 + (((List.range w.types.size).map TypeId.mk).map fun id => (w.parents id).length).sum

theorem Keeps.follow (h : w.Keeps u) (hid : w.Knows id) : u.follow id = w.follow id := by
  rw [World.follow, World.follow]
  obtain ht | ⟨_, _, ho, hn, -⟩ := h.type_cases hid
  · rw [ht]
  · rw [ho, hn]

theorem Keeps.isPending (h : w.Keeps u) (hid : w.Knows id) : u.isPending id = w.isPending id := by
  rw [World.isPending, World.isPending]
  obtain ht | ⟨_, _, ho, hn, -⟩ := h.type_cases hid
  · rw [ht]
  · rw [ho, hn]
    rfl

theorem isPending_of_class?_follow (h : w.class? (w.follow id) = some info) : w.isPending id = false := by
  rw [isPending]
  cases ht : w.type id with
  | placeholder name tgt =>
    cases tgt with
    | none => simp [follow, ht, class?] at h
    | some tgt => rfl
  | _ => rfl

end World

namespace Query

variable {w u : World} {d : Demand} {id : TypeId}

theorem ensureSupertypes_still {info : ClassInfo} (hin : w.class? id = some info) (h : info.supertypesKnown) :
    ensureSupertypes id d w = (.ok (), w) := by
  rw [ClassInfo.supertypesKnown] at h
  split at h
  · next hc =>
    simp only [Bool.and_eq_true, Bool.not_eq_true'] at h
    have hsu : w.PartRead id .superclass := fun other ho => by
      cases hin.symm.trans ho
      exact h.1
    have hi : w.PartRead id .interfaces := fun other ho => by
      cases hin.symm.trans ho
      exact h.2
    rw [ensureSupertypes, get_bind_apply, hin]
    dsimp only
    rw [if_pos hc, bind_ok d w (completeSuperclass_of_read hsu d)]
    exact completeInterfaces_of_read hi d
  · next hs => exact ensureSupertypes_apply hin (by simpa using hs) h d

section

variable {tgt target : TypeId} {info : ClassInfo} {read : TypeId → TypeId}

section

variable (hid : resolved id d w = (.ok target, w)) (hin : w.class? target = some info)
  (hkn : info.supertypesKnown)
  (hre : ∀ stored ∈ info.supertypes, resolved stored d w = (.ok (read stored), w))

include hid hin hkn hre

theorem superclassFrom_known (hf : fuel ≠ 0) : superclassFrom fuel id d w = (.ok (info.superclass.map read), w) := by
  obtain ⟨fuel, rfl⟩ := Nat.exists_eq_succ_of_ne_zero hf
  rw [superclassFrom, bind_ok d w hid, get_bind_apply, class?_eq_some.1 hin]
  dsimp only
  rw [bind_ok d w (ensureSupertypes_still hin hkn), get_bind_apply, hin, Option.bind_some]
  exact optionMapM_still read fun stored hs => hre stored (List.mem_append_left _ (Option.mem_toList.2 hs))

theorem superInterfacesFrom_known (hf : fuel ≠ 0) :
    superInterfacesFrom fuel id d w = (.ok (info.interfaces.map read), w) := by
  obtain ⟨fuel, rfl⟩ := Nat.exists_eq_succ_of_ne_zero hf
  rw [superInterfacesFrom, bind_ok d w hid, get_bind_apply, class?_eq_some.1 hin]
  dsimp only
  rw [bind_ok d w (ensureSupertypes_still hin hkn), get_bind_apply, hin, Option.map_some, Option.getD_some]
  exact mapM_still read fun stored hs => hre stored (List.mem_append_right _ hs)

theorem superclass_known (hf : d.fuel ≠ 0) : superclass id d w = (.ok (info.superclass.map read), w) :=
  superclassFrom_known hid hin hkn hre hf

theorem superInterfaces_known (hf : d.fuel ≠ 0) : superInterfaces id d w = (.ok (info.interfaces.map read), w) :=
  superInterfacesFrom_known hid hin hkn hre hf

end

theorem superErasures_eq {first : Option TypeId}
    (hf : superclass id d w = (.ok first, w)) (hr : superInterfaces id d w = (.ok rest, w)) :
    superErasures id d w = (.ok ((first.toList ++ rest).filterMap w.erasureClass?), w) := by
  rw [superErasures, bind_ok d w hf, get_bind_apply, bind_ok d w hr, get_bind_apply, List.filterMap_append]
  cases first with
  | none => rfl
  | some superclass => cases he : w.erasureClass? superclass <;> simp [he]

theorem isSubclassOf_visits {sub a b : TypeId} {next : TypeId → List TypeId}
    {places : List TypeId} (ha : w.erasureClass? a = some sub) (hb : w.erasureClass? b = some sup) (hsu : good sub)
    (hv : ∀ place, good place → superErasures place d w = (.ok (next place), w))
    (hn : ∀ place, good place → ∀ other ∈ next place, good other) (hpl : ∀ place, good place → place ∈ places)
    (hf : 1 + (places.map fun place => (next place).length).sum ≤ d.fuel) :
    (isSubclassOf a b).Delivers d w fun ans v =>
      v = w ∧ (ans = true ↔ w.isObject sup ∨ ReflTransGen (fun x y => y ∈ next x) sub sup) := by
  have hv' : ∀ place, good place →
      (some <$> superErasures place : Query (Option (List TypeId))) d w = (.ok (some (next place)), w) := by
    intro place hp
    rw [map_eq_bind, bind_ok d w (hv place hp)]
    rfl
  have hc : Covered next (· == sup) [] [sub] := by simp [Covered]
  refine .get ?_
  rw [ha, hb]
  refine .ite (fun hsh => .pure ⟨rfl, ?_⟩) fun hl => .bind (.fuel (walkFrom_delivers (fun next waiting =>
    next.reverse_perm.append_right waiting) (fun _ _ => rfl) hv' hn (by simpa using hsu) hc
      (fun place hp _ => hpl place hp) hf)) ?_
  · rw [Bool.or_eq_true, decide_eq_true_eq] at hsh
    exact ⟨fun _ => hsh.symm.imp_right fun (heq : sub = sup) => heq ▸ .refl, fun _ => rfl⟩
  rintro found v ⟨rfl, -, hs⟩
  rw [Bool.or_eq_true, not_or] at hl
  refine .pure ⟨rfl, hs.trans ?_⟩
  simp only [List.mem_singleton, exists_eq_left, Leads, beq_iff_eq, exists_eq_right]
  exact ⟨.inr, fun hor => hor.resolve_left hl.2⟩

end

section

variable (hw : w.Sound) (hu : w.Keeps u) (h : w.HierarchyKnown id)

include hw hu h

theorem resolved_supertype {info : ClassInfo} (hin : w.class? id = some info) {stored : TypeId}
    (hs : stored ∈ info.supertypes) : resolved stored d u = (.ok (w.follow stored), u) := by
  have hk : w.Knows stored := hw.stocked (.type id) stored (by
    rw [held, class?_eq_some.1 hin]
    exact List.mem_append_left _ hs)
  have hp : w.follow stored ∈ w.parents id := by
    rw [parents, hin]
    exact List.mem_map_of_mem hs
  obtain ⟨_, hc, -⟩ := (h.parent hp).class?
  rw [resolved_eq_follow d (by rw [hu.isPending hk, isPending_of_class?_follow hc]), hu.follow hk]

theorem superclass_still (hf : d.fuel ≠ 0) :
    superclass id d u = (.ok (((w.class? id).bind (·.superclass)).map w.follow), u) := by
  obtain ⟨info, new, hin, hn, hkn, hs, hi⟩ := h.keeps hw hu
  rw [superclass_known (resolved_apply hn d) hn hkn (fun stored hst =>
    resolved_supertype hw hu h hin (by rwa [ClassInfo.supertypes, hs, hi] at hst)) hf,
    hin, Option.bind_some, hs]

theorem superInterfaces_still (hf : d.fuel ≠ 0) :
    superInterfaces id d u = (.ok ((((w.class? id).map (·.interfaces)).getD []).map w.follow), u) := by
  obtain ⟨info, new, hin, hn, hkn, hs, hi⟩ := h.keeps hw hu
  rw [superInterfaces_known (resolved_apply hn d) hn hkn (fun stored hst =>
    resolved_supertype hw hu h hin (by rwa [ClassInfo.supertypes, hs, hi] at hst)) hf,
    hin, Option.map_some, Option.getD_some, hi]

omit hw hu h in
theorem parents_eq : w.parents id = (((w.class? id).bind (·.superclass)).map w.follow).toList ++
    (((w.class? id).map (·.interfaces)).getD []).map w.follow := by
  rw [parents]
  cases w.class? id with
  | none => rfl
  | some info => simp only [Option.map_some, Option.getD_some, Option.bind_some, ClassInfo.supertypes, List.map_append,
    Option.toList_map]

theorem supertypes_still (hf : d.fuel ≠ 0) : supertypes id d u = (.ok (w.parents id), u) := by
  rw [supertypes, bind_ok d u (superclass_still hw hu h hf), bind_ok d u (superInterfaces_still hw hu h hf), parents_eq]
  rfl

omit h in
theorem erasureClass?_still (h : w.HierarchyKnown id) : u.erasureClass? id = some id := by
  obtain ⟨_, _, -, hn, -⟩ := h.keeps hw hu
  rw [erasureClass?, class?_eq_some.1 hn]

theorem superErasures_still (hf : d.fuel ≠ 0) : superErasures id d u = (.ok (w.parents id), u) := by
  have hc : ∀ super ∈ w.parents id, u.erasureClass? super = some super := fun super hs =>
    erasureClass?_still hw hu (h.parent hs)
  rw [superErasures_eq (superclass_still hw hu h hf) (superInterfaces_still hw hu h hf), ← parents_eq,
    List.filterMap_congr hc, List.filterMap_some]

theorem asSuperType_delivers {target : TypeId} (hfu : w.searchSteps ≤ d.fuel) :
    (asSuperType id target).Delivers d u fun found v =>
      v = u ∧ (∀ super ∈ found, super = target) ∧ (found.isSome ↔ ReflTransGen w.Inherits id target) := by
  have hg : ∀ place, w.HierarchyKnown place →
      (do return (← get).erasureClass? place == some target : Query Bool) d u = (.ok (place == target), u) := by
    intro place hp
    rw [get_bind_apply, erasureClass?_still hw hu hp]
    rfl
  have hvi : ∀ place, w.HierarchyKnown place →
      (some <$> supertypes place : Query (Option (List TypeId))) d u = (.ok (some (w.parents place)), u) := by
    intro place hp
    rw [map_eq_bind, bind_ok d u (supertypes_still hw hu hp fun hz => ?_)]
    · rfl
    · rw [hz, searchSteps] at hfu
      omega
  have hc : Covered w.parents (· == target) [] [id] := by simp [Covered]
  obtain ⟨_, _, -, hn, -⟩ := h.keeps hw hu
  refine .step (resolved_apply hn d) (.fuel ?_)
  refine (walkFrom_delivers (fun _ _ => List.perm_append_comm) hg hvi (fun place hp other => hp.parent)
    (by simpa using h) hc (fun place hp _ => hp.mem_types) hfu).mono ?_
  rintro found v ⟨hv, hf, hso⟩
  refine ⟨hv, fun super hs => by simpa using hf super hs, hso.trans ?_⟩
  simp only [List.mem_singleton, exists_eq_left, Leads, beq_iff_eq, exists_eq_right]
  rfl

theorem isSubclassOf_delivers (hs : (w.class? sup).isSome) (hf : w.searchSteps ≤ d.fuel) :
    (isSubclassOf id sup).Delivers d u fun ans v =>
      v = u ∧ (ans = true ↔ w.isObject sup ∨ ReflTransGen w.Inherits id sup) := by
  obtain ⟨info, hin⟩ := Option.isSome_iff_exists.1 hs
  have hk := lt_size_of_class? hin
  have he : u.erasureClass? sup = some sup := by
    obtain ⟨_, hn, -⟩ := hu.class? hin
    rw [erasureClass?, class?_eq_some.1 hn]
  have hpo : d.fuel ≠ 0 := fun hz => by
    rw [hz, searchSteps] at hf
    omega
  refine (isSubclassOf_visits (erasureClass?_still hw hu h) he h (fun place hp =>
    superErasures_still hw hu hp hpo) (fun place hp other => hp.parent)
    (fun place hp => hp.mem_types) hf).mono ?_
  rintro ans v ⟨rfl, ha⟩
  exact ⟨rfl, by rwa [hu.isObject hk] at ha⟩

end

end Query

end Bindings
