import Bindings.Proofs.ContainedArguments

/-!
# Combined type arguments

Type arguments that are classes, or wildcards bounded by classes, are rejected only if no class fits both
(`Reachable.combineArguments_complete`), except for a class and a lower bound
(`combineArguments_rejects_fitting_class`).
-/

open Relation

namespace Bindings

open Query

namespace World

variable {w : World} {id root a b c : TypeId} {upper : List TypeId} {lower : Option TypeId} {low : TypeId}

structure TreeLike (w : World) (root : TypeId) : Prop extends w.RootKnown root where
  acyclic : ∀ id, ¬ TransGen w.Inherits id id
  reaches : ∀ id, w.HierarchyKnown id → ReflTransGen w.Inherits id root
  single : ∀ id, ∀ a ∈ w.parents id, ∀ b ∈ w.parents id, isInterfaceType w a = false →
    isInterfaceType w b = false → a = b
  beside : ∀ id, isInterfaceType w id → ∀ a ∈ w.parents id, isInterfaceType w a = false → a = root

def Subclasses (w : World) (sub sup : TypeId) : Prop := sup ∈ w.parents sub ∧ isInterfaceType w sup = false

theorem Subclasses.inherits (h : ReflTransGen w.Subclasses a b) : ReflTransGen w.Inherits a b :=
  h.lift id fun _ _ hs => hs.1

namespace TreeLike

variable (h : w.TreeLike root)

include h

theorem subclasses_of_inherits (ha : isInterfaceType w a = false) (hne : a ≠ root)
    (hp : ReflTransGen w.Inherits c a) : ReflTransGen w.Subclasses c a := by
  induction hp using ReflTransGen.head_induction_on with
  | refl => exact .refl
  | @head sub sup hs hp ih =>
    refine .head ⟨hs, Bool.eq_false_iff.2 fun hi => ?_⟩ ih
    -- From an interface the only way to a class leads through the root.
    obtain rfl | ⟨next, ⟨hn, hc⟩, hr⟩ := ih.cases_head
    · rw [ha] at hi
      cases hi
    · obtain rfl := h.beside sup hi next hn hc
      exact hne (h.eq_of_inherits (Subclasses.inherits hr))

theorem comparable (ha : isInterfaceType w a = false) (hb : isInterfaceType w b = false)
    (hbe : w.Descends c a) (hbe' : w.Descends c b) : w.Descends a b ∨ w.Descends b a := by
  have hr : w.isObject root := by simp [isObject, h.object]
  obtain ho | hp := hbe
  · exact .inr (.inl ho)
  obtain ho | hp' := hbe'
  · exact .inl (.inl ho)
  obtain rfl | hne := eq_or_ne a root
  · exact .inr (.inl hr)
  obtain rfl | hne' := eq_or_ne b root
  · exact .inl (.inl hr)
  have hu : Relator.RightUnique w.Subclasses := fun id a b ha hb => h.single id a ha.1 b hb.1 ha.2 hb.2
  have hup : ∀ {a b}, ReflTransGen w.Subclasses a b → w.Descends a b := fun hp => .inr (Subclasses.inherits hp)
  exact (ReflTransGen.total_of_right_unique hu (h.subclasses_of_inherits ha hne hp)
    (h.subclasses_of_inherits hb hne' hp')).imp hup hup

end TreeLike

def isTreeLike (w : World) (root : TypeId) : Bool :=
  w.isRootKnown root && (List.range w.types.size).all fun index =>
    let parents := w.parents ⟨index⟩
    let classes := parents.filter (!isInterfaceType w ·)
    parents.all (index < ·.index) && ((w.class? ⟨index⟩).isNone || index == root.index || !parents.isEmpty) &&
      (classes.all fun id => classes.all (id == ·)) && (!isInterfaceType w ⟨index⟩ || classes.all (· == root))

theorem treeLike_of_test (h : w.isTreeLike root) : w.TreeLike root := by
  simp only [isTreeLike, Bool.and_eq_true, List.all_eq_true, List.mem_range, decide_eq_true_eq, Bool.or_eq_true] at h
  obtain ⟨hro, hal⟩ := h
  have hk : ∀ id a, a ∈ w.parents id → id.index < w.types.size := fun id a ha => by
    by_contra hu
    rw [parents, class?_of_not_knows hu] at ha
    cases ha
  have hri : (List.range w.types.size).all fun i => (w.parents ⟨i⟩).all (i < ·.index) := by
    simp only [List.all_eq_true, List.mem_range, decide_eq_true_eq]
    exact fun i hin => (hal i hin).1.1.1
  refine ⟨rootKnown_of_test hro, acyclic_of_rising hri, fun id hid => ?_, fun id a ha b hb hcl hcl' => ?_, ?_⟩
  · -- The way up ends at the root, because the handles grow.
    induction hr : w.types.size - id.index using Nat.strong_induction_on generalizing id with
    | _ rest ih =>
      have hlt : id.index < w.types.size := lt_size_of_class? (Option.get_mem hid.isSome)
      obtain ⟨⟨⟨hup, ht⟩, -⟩, -⟩ := hal id.index hlt
      obtain (hn | heq) | hpa := ht
      · have hs : (w.class? ⟨id.index⟩).isSome := hid.isSome
        rw [Option.isNone_iff_eq_none.1 hn] at hs
        cases hs
      · rw [show id = root by cases id; cases root; simpa using heq]
      obtain ⟨parent, hp⟩ := List.exists_mem_of_ne_nil _ (by simpa using hpa)
      have hris := hup parent hp
      exact .head hp (ih _ (by omega) parent (hid.parent hp) rfl)
  · have ho := (hal id.index (hk id a ha)).1.2
    have hm : ∀ c ∈ w.parents id, isInterfaceType w c = false →
        c ∈ (w.parents id).filter (!isInterfaceType w ·) := fun c hc hki => List.mem_filter.2 ⟨hc, by simp [hki]⟩
    simpa using ho a (hm a ha hcl) b (hm b hb hcl')
  · intro id hi a ha hcl
    have hbe := (hal id.index (hk id a ha)).2.resolve_left (by simp [hi])
    simpa using hbe a (List.mem_filter.2 ⟨ha, by simp [hcl]⟩)

inductive Limits (w : World) (id : TypeId) : List TypeId → Option TypeId → Prop
  | exact : w.Ground id → Limits w id [id] (some id)
  | upper {info : WildcardInfo} {bound : TypeId} : w.type id = .wildcard info → info.kind = .upper →
    info.bound = some bound → info.otherBounds = [] → w.Ground bound → Limits w id [bound] none
  | lower {info : WildcardInfo} {bound : TypeId} : w.type id = .wildcard info → info.kind = .lower →
    info.bound = some bound → w.Ground bound → Limits w id [] (some bound)
  | unbounded {info : WildcardInfo} : w.type id = .wildcard info → info.bound = none → Limits w id [] none

structure Fits (w : World) (id : TypeId) (upper : List TypeId) (lower : Option TypeId) (c : TypeId) : Prop where
  below : ∀ bound ∈ upper, w.Descends c bound
  above : ∀ low ∈ lower, w.Descends low c
  exact : (w.class? id).isSome → c = id

theorem Limits.ground (h : w.Limits id upper lower) :
    (∀ bound ∈ upper, w.Ground bound) ∧ ∀ low ∈ lower, w.Ground low := by
  cases h <;> simp_all

theorem Limits.isClass (h : w.Limits id upper lower) : (w.type id).wildcard?.isNone = (w.class? id).isSome := by
  cases h with
  | exact hid =>
    obtain ⟨info, hi⟩ := Option.isSome_iff_exists.1 hid.known.isSome
    rw [hi, class?_eq_some.1 hi]
    rfl
  | upper ht => rw [class?, ht]; rfl
  | lower ht => rw [class?, ht]; rfl
  | unbounded ht => rw [class?, ht]; rfl

theorem Limits.isClassArgument (h : w.Limits id upper lower) : w.IsClassArgument id := by
  cases h with
  | exact hid => exact .inl hid.known
  | upper ht _ hb _ hg | lower ht _ hb hg => exact .inr ⟨_, ht, by simpa [hb] using hg.known⟩
  | unbounded ht hb => exact .inr ⟨_, ht, by simp [hb]⟩

theorem Limits.lower_eq (h : w.Limits id upper (some low)) (hc : (w.class? id).isSome) : low = id := by
  rw [← h.isClass] at hc
  cases h with
  | exact => rfl
  | lower ht => rw [ht] at hc; cases hc

theorem Limits.upper_eq (h : w.Limits id upper (some low)) (hc : ¬ (w.class? id).isSome) : upper = [] := by
  cases h with
  | exact hid => exact absurd hid.known.isSome hc
  | lower => rfl

end World

namespace Query

open World

variable {w : World} {d : Demand} {id first second root c : TypeId} {both upper upper' : List TypeId}
  {lower lower' : Option TypeId}

theorem argumentBounds_still (h : w.Limits id upper lower) : argumentBounds id d w = (.ok { upper, lower }, w) := by
  rw [argumentBounds]
  cases h with
  | exact hid =>
    obtain ⟨info, hi⟩ := Option.isSome_iff_exists.1 hid.known.isSome
    rw [bind_ok d w (resolved_apply hi d), get_bind_apply, class?_eq_some.1 hi]
    rfl
  | upper ht hk hb ho =>
    rw [bind_ok d w (resolved_wildcard ht), get_bind_apply, ht]
    simp only [TypeInfo.wildcard?, hk, hb, ho]
    rfl
  | lower ht hk hb =>
    rw [bind_ok d w (resolved_wildcard ht), get_bind_apply, ht]
    simp only [TypeInfo.wildcard?, hk, hb]
    rfl
  | @unbounded info ht hb =>
    rw [bind_ok d w (resolved_wildcard ht), get_bind_apply, ht]
    simp only [TypeInfo.wildcard?, hb]
    cases info.kind <;> rfl

section

variable (hw : w.Sound) (hcom : w.comparing = []) (hsteps : w.searchSteps ≤ d.fuel)

include hw hcom hsteps

theorem fits_of_contains (h : w.Limits id upper lower) (hc : w.HierarchyKnown c)
    (hco : (argumentContains id c d w).1 = .ok true) : w.Fits id upper lower c := by
  obtain ⟨ans, _, hr, -, hif⟩ := argumentContains_delivers hw hcom hsteps h.isClassArgument (.inl hc)
  rw [hr] at hco
  have hh := hif.1 (Except.ok.inj hco)
  obtain ⟨info, hi⟩ := Option.isSome_iff_exists.1 hc.isSome
  have ha : w.typeArgument c = .exactly c := by rw [typeArgument, class?_eq_some.1 hi]; rfl
  rw [ha, typeArgument] at hh
  cases h with
  | exact hid =>
    obtain ⟨info', hi'⟩ := Option.isSome_iff_exists.1 hid.known.isSome
    rw [class?_eq_some.1 hi'] at hh
    obtain rfl : c = id := TypeArgument.exactly.inj hh
    exact ⟨by simpa using .inr .refl, by simpa using .inr .refl, fun _ => rfl⟩
  | upper ht hk hb =>
    simp only [ht, TypeInfo.wildcard?, Option.map_some, Option.getD_some, WildcardInfo.argument, hk, hb] at hh
    exact ⟨by simpa [ContainsArgument] using hh, by simp, by simp [class?, ht]⟩
  | lower ht hk hb =>
    simp only [ht, TypeInfo.wildcard?, Option.map_some, Option.getD_some, WildcardInfo.argument, hk, hb] at hh
    exact ⟨by simp, by simpa [ContainsArgument] using hh, by simp [class?, ht]⟩
  | unbounded ht => exact ⟨by simp, by simp, by simp [class?, ht]⟩

variable (htree : w.TreeLike root)

include htree

theorem meet_classes (h : ∀ id ∈ both, w.HierarchyKnown id) :
    (if 1 < both.length then greatestLowerBound both else return some both : Query (Option (List TypeId))).Delivers d w
      fun ans v => w = v ∧ (∀ upper ∈ ans, upper ⊆ both) ∧
        (ans = none → ∀ c, ¬ ∀ bound ∈ both, w.Descends c bound) := by
  classical
  refine .ite (fun _ => ?_) fun _ => .pure ⟨rfl, by simp, nofun⟩
  refine (greatestLowerBound_delivers (mapM_resolved_classes fun id hid => (h id hid).isSome)
    (comparesAs_classes hw hsteps hcom h fun a b => decide_eq_true_iff) rfl).mono ?_
  rintro ans _ ⟨rfl, rfl⟩
  refine ⟨rfl, ?_, fun hn c hb => ?_⟩
  · split
    · nofun
    · rintro _ ⟨⟩ id hid
      exact List.mem_eraseDups.1 (List.mem_of_mem_filter hid)
  · have hl := of_not_not fun hno => Option.some_ne_none _ ((if_neg hno).symm.trans hn)
    generalize hk : List.filter _ _ = kept at hl
    have hp := hk ▸ (firstLeast_pairwise (nodup_eraseDups both)).filter _
    have hc : ∀ id ∈ kept, id ∈ both ∧ isInterfaceType w id = false := by
      rintro id hid
      obtain ⟨hid, hki⟩ := List.mem_filter.1 (hk ▸ hid)
      exact ⟨List.mem_eraseDups.1 (List.mem_of_mem_filter hid), by simpa using (Bool.and_eq_true_iff.1 hki).2⟩
    match kept with
    | x :: y :: rest =>
      obtain ⟨hx, hc'⟩ := hc x (.head _)
      obtain ⟨hy, hc''⟩ := hc y (.tail _ (.head _))
      have hxy := (List.pairwise_cons.1 hp).1 y (.head _)
      obtain hle | hle := htree.comparable hc' hc'' (hb x hx) (hb y hy) <;> simp [hle] at hxy

section

variable (hs : w.types.size < d.fuel) (hd : w.joinDepth = 0) (hfi : w.Limits first upper lower)
  (hse : w.Limits second upper' lower')
  (hmi : ∀ low ∈ lower, ∀ low' ∈ lower', low ≠ low' → ((w.class? first).isSome ↔ (w.class? second).isSome))

include hs hd hfi hse hmi

theorem combineLower_delivers : (combineLower first second lower lower').Delivers d w fun ans v =>
      (ans = none → ∀ c, w.HierarchyKnown c → w.Fits first upper lower c → ¬ w.Fits second upper' lower' c) ∧
      ∀ combined ∈ ans, upper ++ upper' = [] ∨ w = v ∧ ∀ low ∈ combined, low ∈ lower ∨ low ∈ lower' := by
  cases lower with
  | none => cases lower' <;> exact .pure ⟨by simp, by simp⟩
  | some low =>
    cases lower' with
    | none => exact .pure ⟨by simp, by simp⟩
    | some low' =>
      rw [combineLower]
      refine .ite (fun heq => .pure ⟨by simp, by simp⟩) fun hne =>
        .get (.ite (fun hcl => .pure ⟨?_, by simp⟩) fun hcl => ?_)
      · rintro - c - hfit hfit'
        rw [hfi.isClass, hse.isClass, Bool.or_eq_true] at hcl
        have hi := hmi low rfl low' rfl hne
        have hb : (w.class? first).isSome ∧ (w.class? second).isSome := by tauto
        rw [hfi.lower_eq hb.1, hse.lower_eq hb.2] at hne
        exact hne ((hfit.exact hb.1).symm.trans (hfit'.exact hb.2))
      · rw [hfi.isClass, hse.isClass, Bool.or_eq_true, not_or] at hcl
        obtain ⟨fuel, hf⟩ := Nat.exists_eq_succ_of_ne_zero (Nat.ne_zero_of_lt hs)
        have hg : ∀ id ∈ [low, low'], w.Ground id := by simpa using ⟨hfi.ground.2 low rfl, hse.ground.2 low' rfl⟩
        have hj := joinFrom_classes hw hcom htree.toRootKnown htree.acyclic hs hsteps hg (List.cons_ne_nil _ _) hd fuel
        rw [← Nat.succ_eq_add_one, ← hf] at hj
        refine .bind (.fuel hj) ?_
        rintro found v ⟨-, bounds, hjo, hsp⟩
        refine .pure ⟨fun hn c hc hfit hfit' => ?_, fun _ _ => .inl ?_⟩
        · obtain rfl := Option.map_eq_none_iff.1 hn
          cases hsp
          have hp : ∀ {low}, w.Ground low → w.Descends low c → ReflTransGen w.Inherits low c := by
            rintro low hl (ho | hp)
            · rw [htree.isRoot c ho]
              exact htree.reaches low hl.known
            · exact hp
          obtain ⟨_, hni, -⟩ := hjo.least c (by
            simpa using ⟨hp (hg low (by simp)) (hfit.above low rfl), hp (hg low' (by simp)) (hfit'.above low' rfl)⟩)
          cases hni
        · rw [hfi.upper_eq hcl.1, hse.upper_eq hcl.2]
          rfl

theorem combineArguments_delivers : (combineArguments first second).Delivers d w fun ans _ => ans = none →
      ∀ c, w.HierarchyKnown c → w.Fits first upper lower c → ¬ w.Fits second upper' lower' c := by
  rw [combineArguments]
  refine .step (argumentBounds_still hfi) (.step (argumentBounds_still hse) ?_)
  have hk : ∀ bound ∈ upper ++ upper', w.HierarchyKnown bound := fun bound hb =>
    ((List.mem_append.1 hb).elim (hfi.ground.1 bound) (hse.ground.1 bound)).known
  refine .bind (meet_classes hw hcom hsteps htree hk) ?_
  rintro meet _ ⟨rfl, hm, hn⟩
  cases meet with
  | none =>
    refine .pure fun _ c _ hfit hfit' => hn rfl c fun bound hb => ?_
    exact (List.mem_append.1 hb).elim (hfit.below bound) (hfit'.below bound)
  | some meet =>
    have hsu : meet ⊆ upper ++ upper' := hm meet rfl
    refine .bind (combineLower_delivers hw hcom hsteps htree hs hd hfi hse hmi) ?_
    rintro combined v ⟨hn, hco⟩
    cases combined with
    | none => exact .pure fun _ => hn rfl
    | some combined =>
      obtain hni | ⟨rfl, hlo⟩ := hco combined rfl
      · rw [hni, List.subset_nil] at hsu
        subst hsu
        cases combined <;> exact ⟨_, v, rfl, nofun⟩
      have hl : ∀ low ∈ combined.toList, w.HierarchyKnown low := fun low hl =>
        ((hlo low (Option.mem_toList.1 hl)).elim (hfi.ground.2 low) (hse.ground.2 low)).known
      have hc : (combined.toList.allM fun low => meet.allM (compatible low)).Delivers d w fun ans v =>
          w = v ∧ (ans = true ↔ ∀ low ∈ combined.toList, ∀ bound ∈ meet, w.Descends low bound) := by
        refine .allM (w := w) (fun _ (_ : w = _) => rfl) Eq.trans (fun low hl' v hv => ?_) rfl
        subst hv
        refine .allM (w := w) (fun _ (_ : w = _) => rfl) Eq.trans (fun bound hb v hv => ?_) rfl
        subst hv
        exact compatible_classes hw hcom hsteps (hl low hl') (hk bound (hsu hb)).isSome
      refine .bind hc ?_
      rintro ans _ ⟨rfl, hi⟩
      cases ans with
      | true => exact .pure nofun
      | false =>
        refine .pure fun _ c _ hfit hfit' => Bool.false_ne_true (hi.2 fun low hl bound hb => ?_)
        refine htree.descends_trans ((hlo low (Option.mem_toList.1 hl)).elim (hfit.above low) (hfit'.above low)) ?_
        exact (List.mem_append.1 (hsu hb)).elim (hfit.below bound) (hfit'.below bound)

end

end

end Query

namespace World

variable {w : World} {d : Demand} {first second root : TypeId} {upper upper' : List TypeId}
  {lower lower' : Option TypeId}

theorem Reachable.combineArguments_complete (hw : w.Reachable) (htree : w.TreeLike root)
    (hfirst : w.Limits first upper lower) (hsecond : w.Limits second upper' lower')
    (hmixed : ∀ low ∈ lower, ∀ low' ∈ lower', low ≠ low' → ((w.class? first).isSome ↔ (w.class? second).isSome))
    (hsize : w.types.size < d.fuel) (hsteps : w.searchSteps ≤ d.fuel) :
    ∃ answer v, combineArguments first second d w = (.ok answer, v) ∧ (answer = none →
      ∀ c, w.HierarchyKnown c → ¬ ((argumentContains first c d w).1 = .ok true ∧
        (argumentContains second c d w).1 = .ok true)) := by
  obtain ⟨answer, v, hrun, hnone⟩ := combineArguments_delivers hw.sound hw.comparing hsteps htree hsize hw.joinDepth
    hfirst hsecond hmixed
  refine ⟨answer, v, hrun, fun hanswer c hc ⟨hcontains, hcontains'⟩ => hnone hanswer c hc ?_ ?_⟩
  · exact fits_of_contains hw.sound hw.comparing hsteps hfirst hc hcontains
  · exact fits_of_contains hw.sound hw.comparing hsteps hsecond hc hcontains'

theorem combineArguments_complete_mint :
    (combineArguments ⟨16⟩ ⟨17⟩ .standard mintWorld).1 = .ok none ∧
      ¬ ((argumentContains ⟨16⟩ ⟨10⟩ .standard mintWorld).1 = .ok true ∧
        (argumentContains ⟨17⟩ ⟨10⟩ .standard mintWorld).1 = .ok true) := by
  have hread : mintWorld.isTreeLike ⟨15⟩ = true ∧ mintWorld.types.size < Demand.standard.fuel ∧
      mintWorld.searchSteps ≤ Demand.standard.fuel ∧
      mintWorld.type ⟨16⟩ = .wildcard ⟨none, 0, some ⟨11⟩, [], .upper⟩ ∧
      mintWorld.type ⟨17⟩ = .wildcard ⟨none, 0, some ⟨12⟩, [], .upper⟩ ∧
      mintWorld.isClosed (fun info => info.supertypesKnown && !info.isGeneric)
        [⟨10⟩, ⟨11⟩, ⟨12⟩, ⟨13⟩, ⟨14⟩, ⟨15⟩] = true ∧
      (combineArguments ⟨16⟩ ⟨17⟩ .standard mintWorld).1 = .ok none := by
    decide +kernel
  obtain ⟨htree, hsize, hsteps, htype, htype', hclosed, hanswer⟩ := hread
  have hreach : mintWorld.Reachable := (Reachable.initial {} mintClassPath {}).after _
  have hground : ∀ id ∈ ([⟨10⟩, ⟨11⟩, ⟨12⟩] : List TypeId), mintWorld.Ground id := fun id hid =>
    ground_of_closed hclosed (by revert hid; revert id; decide)
  obtain ⟨answer, v, hrun, hnone⟩ := hreach.combineArguments_complete (d := .standard) (treeLike_of_test htree)
    (.upper htype rfl rfl rfl (hground ⟨11⟩ (by simp))) (.upper htype' rfl rfl rfl (hground ⟨12⟩ (by simp)))
    nofun hsize hsteps
  refine ⟨hanswer, hnone ?_ ⟨10⟩ (hground ⟨10⟩ (by simp)).known⟩
  rw [hrun] at hanswer
  exact Except.ok.inj hanswer

/-- The class fits the wildcard above its subclass, but both together are rejected. -/
theorem combineArguments_rejects_fitting_class :
    mintWorld.Reachable ∧ mintWorld.type ⟨18⟩ = .wildcard ⟨none, 0, some ⟨10⟩, [], .lower⟩ ∧
      ⟨11⟩ ∈ mintWorld.parents ⟨10⟩ ∧ (argumentContains ⟨11⟩ ⟨11⟩ .standard mintWorld).1 = .ok true ∧
      (argumentContains ⟨18⟩ ⟨11⟩ .standard mintWorld).1 = .ok true ∧
      (combineArguments ⟨11⟩ ⟨18⟩ .standard mintWorld).1 = .ok none := by
  exact ⟨(Reachable.initial {} mintClassPath {}).after _, by decide +kernel⟩

end World

end Bindings
