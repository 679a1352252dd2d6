import Bindings.Proofs.ClassJoins

/-!
# Containment of type arguments

Among classes and wildcards bounded by classes, the check whether a type argument contains another decides a relation on
their forms (`argumentContains_delivers`), and that relation is a preorder.
-/

namespace Bindings

open Query

inductive TypeArgument where
  | exactly (id : TypeId)
  | anything
  | upper (bound : TypeId)
  | lower (bound : TypeId)

@[simp] def WildcardInfo.argument (info : WildcardInfo) : TypeArgument :=
  match info.kind, info.bound with
  | .upper, some bound => .upper bound
  | .lower, some bound => .lower bound
  | _, _ => .anything

namespace World

variable {w : World} {d : Demand} {a b c : TypeId}

def typeArgument (w : World) (id : TypeId) : TypeArgument :=
  ((w.type id).wildcard?.map (·.argument)).getD (.exactly id)

def ContainsArgument (w : World) : TypeArgument → TypeArgument → Prop
  | .exactly id, argument => argument = .exactly id
  | .anything, _ => True
  | .upper bound, .exactly id => w.Descends id bound
  | .upper bound, .upper inner => w.Descends inner bound
  | .upper bound, _ => w.isObject bound
  | .lower bound, .exactly id => w.Descends bound id
  | .lower bound, .lower inner => w.Descends bound inner
  | .lower _, _ => False

/-- The argument is a class or a wildcard whose bound, if it has one, is a class, and all supertypes are known. -/
def IsClassArgument (w : World) (id : TypeId) : Prop :=
  w.HierarchyKnown id ∨ ∃ info, w.type id = .wildcard info ∧ ∀ bound ∈ info.bound, w.HierarchyKnown bound

theorem containsArgument_refl (x : TypeArgument) : w.ContainsArgument x x := by
  cases x with
  | exactly => rfl
  | anything => trivial
  | upper | lower => exact .inr .refl

section

variable (htop : ∀ id, w.isObject id → w.parents id = [])

include htop

theorem isObject_of_descends (hid : w.isObject a) (h : w.Descends a b) : w.isObject b := by
  obtain h | h := h
  · exact h
  obtain rfl | ⟨super, hs, -⟩ := h.cases_head
  · exact hid
  · rw [Inherits, htop a hid] at hs
    cases hs

theorem descends_trans (hab : w.Descends a b) (hbc : w.Descends b c) : w.Descends a c := by
  obtain hb | hab := hab
  · exact .inl (isObject_of_descends htop hb hbc)
  · exact hbc.imp_right hab.trans

theorem containsArgument_trans {x y z : TypeArgument} (hxy : w.ContainsArgument x y) (hyz : w.ContainsArgument y z) :
    w.ContainsArgument x z := by
  cases x with
  | exactly id =>
    obtain rfl : y = .exactly id := hxy
    exact hyz
  | anything => trivial
  | upper bound =>
    cases y with
    | exactly id =>
      obtain rfl : z = .exactly id := hyz
      exact hxy
    | upper inner =>
      cases z with
      | exactly | upper => exact descends_trans htop hyz hxy
      | anything | lower => exact isObject_of_descends htop hyz hxy
    | anything | lower =>
      -- Only the root is above all that these contain.
      cases z with
      | exactly | upper => exact .inl hxy
      | anything | lower => exact hxy
  | lower bound =>
    cases y with
    | exactly id =>
      obtain rfl : z = .exactly id := hyz
      exact hxy
    | lower inner =>
      cases z with
      | exactly | lower => exact descends_trans htop hxy hyz
      | anything | upper => exact hyz
    | anything | upper => exact hxy.elim

end

theorem IsClassArgument.resolved (h : w.IsClassArgument a) (d : Demand) : resolved a d w = (.ok a, w) := by
  obtain h | ⟨info, ht, -⟩ := h
  · obtain ⟨info, hi⟩ := Option.isSome_iff_exists.1 h.isSome
    exact resolved_apply hi d
  · exact resolved_wildcard ht

theorem IsClassArgument.cases (h : w.IsClassArgument a) : (w.type a).wildcard? = none ∧ w.HierarchyKnown a ∨
    ∃ info, (w.type a).wildcard? = some info ∧ ∀ bound ∈ info.bound, w.HierarchyKnown bound := by
  obtain h | ⟨info, ht, hb⟩ := h
  · obtain ⟨info, hi⟩ := Option.isSome_iff_exists.1 h.isSome
    exact .inl ⟨by rw [class?_eq_some.1 hi]; rfl, h⟩
  · exact .inr ⟨info, by rw [ht]; rfl, hb⟩

end World

namespace Query

open World

variable {w : World} {d : Demand} {a b c : TypeId}

variable (hw : w.Sound) (hco : w.comparing = []) (hsteps : w.searchSteps ≤ d.fuel)

include hw hco hsteps

theorem compatible_classes {sub sup : TypeId} (hs : w.HierarchyKnown sub) (hsu : (w.class? sup).isSome) :
    (compatible sub sup).Delivers d w fun ans v => w = v ∧ (ans = true ↔ w.Descends sub sup) := by
  obtain ⟨fuel, hf⟩ := Nat.exists_eq_succ_of_ne_zero (n := d.fuel) (by rw [searchSteps] at hsteps; omega)
  refine .fuel ?_
  rw [hf]
  exact compatibleFrom_classes hw hsteps hs hsu (by simp [hco]) fuel

theorem argumentContains_delivers (ha : w.IsClassArgument a) (hb : w.IsClassArgument b) :
    (argumentContains a b).Delivers d w fun ans v =>
      w = v ∧ (ans = true ↔ w.ContainsArgument (w.typeArgument a) (w.typeArgument b)) := by
  rw [argumentContains, containsBy]
  refine .step (ha.resolved d) (.step (hb.resolved d) (.ite (fun heq => ?_) fun hne => .get ?_))
  · subst heq
    exact .pure ⟨rfl, by simp [containsArgument_refl]⟩
  have hc := fun {sub sup} (hs : w.HierarchyKnown sub) (hsu : w.HierarchyKnown sup) =>
    compatible_classes hw hco hsteps hs hsu.isSome
  rw [typeArgument, typeArgument]
  obtain ⟨hf, -⟩ | ⟨⟨_, _, bound, _, kind⟩, hf, hbo⟩ := ha.cases <;> rw [hf]
  · refine .pure ⟨rfl, ?_⟩
    obtain ⟨hf', -⟩ | ⟨⟨_, _, inner, _, kind⟩, hf', -⟩ := hb.cases <;> rw [hf']
    · simp [ContainsArgument, Ne.symm hne]
    · cases kind <;> cases inner <;> simp [ContainsArgument]
  cases bound with
  | none => cases kind <;> exact .pure ⟨rfl, by simp [ContainsArgument]⟩
  | some bound =>
    have hk := hbo bound rfl
    cases kind with
    | unbounded => exact .pure ⟨rfl, by simp [ContainsArgument]⟩
    | upper =>
      obtain ⟨hf', hb⟩ | ⟨⟨_, _, inner, _, kind⟩, hf', hi⟩ := hb.cases <;> rw [hf']
      · exact hc hb hk
      cases inner with
      | none => cases kind <;> exact .pure ⟨rfl, .rfl⟩
      | some inner =>
        cases kind with
        | upper => exact hc (hi inner rfl) hk
        | unbounded | lower => exact .pure ⟨rfl, .rfl⟩
    | lower =>
      obtain ⟨hf', hb⟩ | ⟨⟨_, _, inner, _, kind⟩, hf', hi⟩ := hb.cases <;> rw [hf']
      · exact hc hk hb
      cases inner with
      | none => cases kind <;> exact .pure ⟨rfl, by simp [ContainsArgument]⟩
      | some inner =>
        cases kind with
        | lower => exact hc hk (hi inner rfl)
        | unbounded | upper => exact .pure ⟨rfl, by simp [ContainsArgument]⟩

end Query

namespace World

variable {w : World} {d : Demand}

theorem Reachable.argumentContains_preorder (hw : w.Reachable) (htop : ∀ id, w.isObject id → w.parents id = [])
    (hsteps : w.searchSteps ≤ d.fuel) :
    (∀ a, w.IsClassArgument a → argumentContains a a d w = (.ok true, w)) ∧
      ∀ a b c, w.IsClassArgument a → w.IsClassArgument b → w.IsClassArgument c →
        (argumentContains a b d w).1 = .ok true → (argumentContains b c d w).1 = .ok true →
          argumentContains a c d w = (.ok true, w) := by
  have hdecides : ∀ a b, w.IsClassArgument a → w.IsClassArgument b →
      ∃ answer, argumentContains a b d w = (.ok answer, w) ∧
        (answer = true ↔ w.ContainsArgument (w.typeArgument a) (w.typeArgument b)) := by
    intro a b ha hb
    obtain ⟨answer, _, hrun, rfl, hiff⟩ := argumentContains_delivers hw.sound hw.comparing hsteps ha hb
    exact ⟨answer, hrun, hiff⟩
  refine ⟨fun a ha => ?_, fun a b c ha hb hc hab hbc => ?_⟩
  · obtain ⟨answer, hrun, hiff⟩ := hdecides a a ha ha
    rw [hrun, hiff.2 (containsArgument_refl _)]
  obtain ⟨answer, hrun, hiff⟩ := hdecides a b ha hb
  obtain ⟨answer', hrun', hiff'⟩ := hdecides b c hb hc
  obtain ⟨answer'', hrun'', hiff''⟩ := hdecides a c ha hc
  rw [hrun] at hab
  rw [hrun'] at hbc
  rw [hrun'', hiff''.2 (containsArgument_trans htop (hiff.1 (Except.ok.inj hab)) (hiff'.1 (Except.ok.inj hbc)))]

def coffer : World := mintWorld.after [.wildcard none 0 (some ⟨10⟩) [] .upper]

theorem argumentContains_preorder_coffer :
    argumentContains ⟨18⟩ ⟨18⟩ .standard coffer = (.ok true, coffer) ∧
      argumentContains ⟨16⟩ ⟨10⟩ .standard coffer = (.ok true, coffer) := by
  have hread : coffer.isRootKnown ⟨15⟩ = true ∧ coffer.searchSteps ≤ Demand.standard.fuel ∧
      coffer.type ⟨16⟩ = .wildcard ⟨none, 0, some ⟨11⟩, [], .upper⟩ ∧
      coffer.type ⟨18⟩ = .wildcard ⟨none, 0, some ⟨10⟩, [], .lower⟩ ∧
      coffer.type ⟨19⟩ = .wildcard ⟨none, 0, some ⟨10⟩, [], .upper⟩ ∧
      coffer.isClosed (·.supertypesKnown) [⟨10⟩, ⟨11⟩, ⟨13⟩, ⟨14⟩, ⟨15⟩] = true ∧
      (argumentContains ⟨16⟩ ⟨19⟩ .standard coffer).1 = .ok true ∧
      (argumentContains ⟨19⟩ ⟨10⟩ .standard coffer).1 = .ok true := by
    decide +kernel
  obtain ⟨hroot, hsteps, htype, htype', htype'', hclosed, hfirst, hsecond⟩ := hread
  have hreach : coffer.Reachable := ((Reachable.initial {} mintClassPath {}).after _).after _
  have hknown : ∀ id ∈ ([⟨10⟩, ⟨11⟩] : List TypeId), coffer.HierarchyKnown id := fun id hid =>
    hierarchyKnown_of_closed hclosed (by revert hid; revert id; decide)
  have hwildcard : ∀ {id bound kind}, coffer.type id = .wildcard ⟨none, 0, some bound, [], kind⟩ →
      bound ∈ ([⟨10⟩, ⟨11⟩] : List TypeId) → coffer.IsClassArgument id := fun htype hbound =>
    .inr ⟨_, htype, by simpa using hknown _ hbound⟩
  obtain ⟨hrefl, htrans⟩ := hreach.argumentContains_preorder (d := .standard) (fun id hid => by
    rw [(rootKnown_of_test hroot).isRoot id hid, (rootKnown_of_test hroot).top]) hsteps
  exact ⟨hrefl _ (hwildcard htype' (by simp)), htrans _ _ _ (hwildcard htype (by simp)) (hwildcard htype'' (by simp))
    (.inl (hknown ⟨10⟩ (by simp))) hfirst hsecond⟩

end World

end Bindings
