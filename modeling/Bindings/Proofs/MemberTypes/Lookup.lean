import Bindings.Proofs.MemberTypes.Search

/-! # Looking member types up -/

open Relation

namespace Bindings

open World Edit

namespace World

variable {w w' : World} {set : TypeId → Prop} {id : TypeId}

def StandsForMissing (w : World) (id : TypeId) : Prop := ∃ target, w.Stands id target ∧ w.role target = .missing

theorem StandsForMissing.grows (hg : w.Grows w') (h : w.StandsForMissing id) : w'.StandsForMissing id := by
  obtain ⟨tgt, ⟨-, rfl⟩ | ⟨name, hn⟩, hm⟩ := h
  · have hm' := hg.missing tgt hm
    exact ⟨tgt, .inl ⟨by simp [hm'], rfl⟩, hm'⟩
  · exact ⟨tgt, .inr ⟨name, hg.resolved id name tgt hn⟩, hg.missing tgt hm⟩

theorem StandsForMissing.erasureClass? (h : w.StandsForMissing id) (hw : w.Registered) : w.erasureClass? id = none := by
  obtain ⟨tgt, hs, hm⟩ := h
  rw [hs.erasureClass?_eq hw]
  have hm := TypeInfo.role_eq_missing.1 hm
  cases ht : w.type tgt <;> simp_all [World.erasureClass?]

def Leads (w : World) (set : TypeId → Prop) (id : TypeId) : Prop :=
  (∃ base, w.erasureClass? id = some base ∧ w.role base = .declared ∧ set base) ∨ w.StandsForMissing id

theorem Leads.grows (hg : w.Grows w') (h : w.Leads set id) : w'.Leads set id := h.imp (fun ⟨base, hb, hr, hs⟩ =>
    ⟨base, hg.erasureClass? hb hr, hg.role_declared hr, hs⟩) (.grows hg)

instance : Stays (·.Leads set id) := ⟨.grows⟩

theorem erasureClass?_self (h : w.role id = .declared) : w.erasureClass? id = some id := by
  obtain ⟨info, hi⟩ := role_eq_declared.1 h
  rw [erasureClass?, class?_eq_some.1 hi]

theorem Leads.of_class (hr : w.role id = .declared) (hs : set id) : w.Leads set id :=
  .inl ⟨id, erasureClass?_self hr, hr, hs⟩

theorem Leads.base (h : w.Leads set id) (hw : w.Registered) {base : TypeId}
    (hb : w.erasureClass? id = some base) : w.role base = .declared ∧ set base := by
  obtain ⟨_, hb', hs⟩ | hm := h
  · cases hb.symm.trans hb'
    exact hs
  · simp [hm.erasureClass? hw] at hb

theorem Leads.isResolved (h : w.Leads set id) : w.IsResolved id := by
  obtain ⟨base, hb, -⟩ | ⟨tgt, hs, -⟩ := h
  · cases hr : w.role id with
    | placeholder name tgt =>
      cases tgt with
      | some tgt => exact ⟨tgt, .inr ⟨name, hr⟩⟩
      | none => simp [erasureClass?, TypeInfo.role_eq_placeholder.1 hr] at hb
    | _ => exact ⟨id, .inl ⟨by simp [hr], rfl⟩⟩
  · exact ⟨tgt, hs⟩

theorem Leads.stands {tgt : TypeId} (h : w.Leads set id) (hw : w.Registered)
    (hs : w.Stands id tgt) : w.Leads set tgt := by
  obtain ⟨base, hb, hse⟩ | ⟨other, hs', hm⟩ := h
  · exact .inl ⟨base, hs.erasureClass?_eq hw ▸ hb, hse⟩
  · obtain rfl := hs.unique hs'
    exact .inr ⟨other, .inl ⟨by simp [hm], rfl⟩, hm⟩

theorem Leads.replaced {slot : TypeId} (h : w.Leads set id) (hw : w.Registered)
    (hr : w.Replaced id slot) : w.Leads set slot := by
  obtain rfl | ⟨name, ht⟩ := hr
  · exact h
  · exact h.stands hw (.inr ⟨name, TypeInfo.role_eq_placeholder.2 ht⟩)

inductive Headed (w : World) (set : TypeId → Prop) (id : TypeId) : Prop
  | declared {info : ClassInfo} : w.type id = .declared info → set id → Headed w set id
  | parameterized {generic : TypeId} {arguments : List TypeId} {enclosing : Option TypeId} :
    w.type id = .parameterized generic arguments enclosing → w.role generic = .declared → set generic →
    Headed w set id
  | raw {generic : TypeId} {enclosing : Option TypeId} : w.type id = .raw generic enclosing →
    w.role generic = .declared → set generic → Headed w set id
  | missing {name : QName} {reason : Reason} {closest : Option TypeId} :
    w.type id = .missing name reason closest → Headed w set id

theorem Leads.resolves (h : w.Leads set id) (hw : w.Registered) :
    ∃ tgt, (∀ d, Query.resolved id d w = (.ok tgt, w)) ∧ w.Leads set tgt ∧ w.Headed set tgt := by
  obtain ⟨tgt, hs⟩ := h.isResolved
  have hl := h.stands hw hs
  refine ⟨tgt, Query.resolved_of_stands hs, hl, ?_⟩
  cases ht : w.type tgt with
  | declared info => exact .declared ht (hl.base hw (by rw [erasureClass?, ht])).2
  | parameterized gen args encl =>
    obtain ⟨hr, hse⟩ := hl.base hw (by rw [erasureClass?, ht])
    exact .parameterized ht hr hse
  | raw gen encl =>
    obtain ⟨hr, hse⟩ := hl.base hw (by rw [erasureClass?, ht])
    exact .raw ht hr hse
  | missing name reason closest => exact .missing ht
  | placeholder name pending => exact absurd (TypeInfo.role_eq_placeholder.2 ht) (hs.ne_placeholder hw name pending)
  | _ =>
    -- Such a type is built on no class, and it is not missing.
    exfalso
    obtain ⟨base, hb, -⟩ | ⟨other, ⟨-, rfl⟩ | ⟨name, hn⟩, hm⟩ := hl
    · simp [erasureClass?, ht] at hb
    · simp [role, ht, TypeInfo.role] at hm
    · simp [role, ht, TypeInfo.role] at hn

def Sterile (w : World) (set : TypeId → Prop) : Prop :=
  ∀ id, set id → w.NoMembers id ∧ ∃ info, w.class? id = some info ∧ info.FixesSupertypes ∧
    ∀ part, ∀ slot ∈ info.supertypesOf part, w.Leads set slot

theorem Sterile.later {stop : Option Halt} (h : w.Sterile set) (hc : Course none stop w w')
    (hw : w.Sound) : w'.Sterile set := by
  intro id hid
  obtain ⟨hn, info, hi, hf, hsl⟩ := h id hid
  refine ⟨hn.later hc isFree_none hw, ?_⟩
  obtain ⟨info', hi', hf', hr⟩ := hc.supertypesOf isFree_none hw hi hf
  refine ⟨info', hi', hf', fun part slot' hs' => ?_⟩
  obtain ⟨slot, hs, hr⟩ := hr part slot' hs'
  exact ((hsl part slot hs).grows hc.grows).replaced (hc.sound hw).registered hr

end World

namespace Query

variable {w : World} {set : TypeId → Prop} {id : TypeId}

section

variable (hw : w.Sound)

include hw

theorem resolved_leads (hid : w.Leads set id) : (resolved id).Runs w fun tgt w' => w'.Leads set tgt :=
  (resolved_runs hw id).imp hw fun _ _ hw' hg hs => (hid.grows hg).stands hw'.registered hs

theorem rawType_leads (hr : w.role id = .declared) (hs : set id) :
    (liftM (rawType id none) : Query TypeId).Runs w fun res w' => w'.Leads set res := by
  have hc : Course none none w (rawType id none w).2 := Orderly.course w hw
  refine .lift hc (.inl ⟨id, ?_, hc.grows.role_declared hr, hs⟩)
  exact rawType_erasureClass? hw (lt_size_of_role_ne (by simp [hr]))

theorem erasure_leads (hid : w.Leads set id) :
    ∃ erased, (∀ d, erasure id d w = (.ok erased, w)) ∧ w.Leads set erased ∧
      ((∃ info, w.type erased = .declared info) ∨ (w.type erased).isMissing) := by
  obtain ⟨tgt, hre, hta, hh⟩ := hid.resolves hw.registered
  cases hh with
  | declared ht hs =>
    refine ⟨tgt, fun d => ?_, hta, .inl ⟨_, ht⟩⟩
    rw [erasure, erasureWithin, bind_ok d w (hre d), get_bind_apply, ht]
    rfl
  | parameterized ht hr hs | raw ht hr hs =>
    obtain ⟨info, hi⟩ := role_eq_declared.1 hr
    refine ⟨_, fun d => ?_, .of_class hr hs, .inl ⟨info, class?_eq_some.1 hi⟩⟩
    rw [erasure, erasureWithin, bind_ok d w (hre d), get_bind_apply, ht]
    rfl
  | missing ht =>
    refine ⟨tgt, fun d => ?_, hta, .inr (by rw [ht]; rfl)⟩
    rw [erasure, erasureWithin, bind_ok d w (hre d), get_bind_apply, ht]
    rfl

theorem rawErasure_leads (hid : w.Leads set id) :
    (rawErasure id).Runs w fun res w' => w'.Leads set res := by
  obtain ⟨erased, her, he, hf⟩ := erasure_leads hw hid
  refine .of_apply her (.get ?_)
  obtain ⟨info, ht⟩ | hm := hf
  · have hr := role_of_class? (class?_eq_some.2 ht)
    obtain ⟨-, hs⟩ := he.base hw.registered (erasureClass?_self hr)
    rw [ht]
    dsimp only
    split
    · exact rawType_leads hw hr hs
    · exact .pure he
  cases ht : w.type erased with
  | missing name reason closest => exact .pure he
  | _ => simp [ht] at hm

theorem substitute_leads {s : Substitution} (hs : s.Known w) (hid : w.Leads set id) :
    (substitute s id).Runs w fun res w' => w'.Leads set res := by
  rw [substitute]
  split
  · exact .pure hid
  refine .fuel fun budget => ?_
  cases budget with
  | zero => exact .giveUp
  | succ fuel =>
    obtain ⟨tgt, hre, hta, hh⟩ := hid.resolves hw.registered
    rw [substituteFrom]
    refine .of_apply hre (.get ?_)
    cases hh with
    | declared ht _ | raw ht _ _ | missing ht =>
      rw [ht]
      exact .pure hta
    | @parameterized gen args encl ht hr hse =>
      rw [ht]
      dsimp only
      split
      · exact rawType_leads hw hr hse
      have hk := hw.wellBuilt.known tgt
      have ha : ∀ arg ∈ args, w.Knows arg := fun arg hm =>
        hk arg (by simp [ht, hm])
      refine .bind hw (.mapM_each s.Known (fun _ hw hs _ hid => substituteFrom_knows hw hs fuel hid) hw hs
        ha) fun newArguments w1 hw1 hg1 hn => ?_
      have hs1 : s.Known w1 := Stays.grows hg1 hs
      have he : ∀ outer ∈ encl, w.Knows outer := fun outer hm => hk outer (by simp_all)
      refine .bind hw1 (.optionMapM fun outer hm => substituteFrom_knows hw1 hs1 fuel
        ((he outer hm).grows hg1)) fun newEnclosing w2 hw2 hg2 hne => ?_
      have hg := hg1.trans hg2
      split
      · exact .pure (hta.grows hg)
      refine .lift (Orderly.course w2 hw2) (.inl ⟨gen, ?_, ?_, hse⟩)
      · refine parameterizedType_erasureClass? hw2 fun other ho => ?_
        simp only [List.mem_append, List.mem_cons, Option.mem_toList] at ho
        obtain ho | rfl | ho := ho
        · exact (hn other ho).grows hg2
        · exact lt_size_of_role_ne (by simp [hg.role_declared hr])
        · exact hne other ho
      · exact (Orderly.course w2 hw2).grows.role_declared (hg.role_declared hr)

theorem superclassFrom_leads (hst : w.Sterile set) (fuel : Nat) (hid : w.Leads set id) :
    (superclassFrom fuel id).Runs w fun found w' => ∀ super ∈ found, w'.Leads set super := by
  induction fuel generalizing w id with
  | zero => exact .giveUp
  | succ fuel ih =>
    obtain ⟨tgt, hre, -, hh⟩ := hid.resolves hw.registered
    rw [superclassFrom]
    refine .of_apply hre (.get ?_)
    cases hh with
    | declared ht hse =>
      rw [ht]
      refine .bind hw (RunsIn.of_orderly hw).courses fun _ w1 hw1 _ hc => .get ?_
      obtain ⟨-, info1, hi1, -, hslo⟩ := hst.later hc.2 hw tgt hse
      rw [hi1, Option.bind_some]
      refine .optionMapM fun slot hsl => resolved_leads hw1 (hslo .superclass slot ?_)
      exact Option.mem_toList.2 hsl
    | parameterized ht hr hse =>
      rw [ht]
      refine .bind hw (ih hw hst (.of_class hr hse)) fun found w1 hw1 _ hf => ?_
      cases found with
      | none => exact .pure (by simp)
      | some super =>
        refine .bind hw1 (substitutionFor_known hw1 tgt) fun s w2 hw2 hg2 hs => ?_
        exact .toSome (substitute_leads hw2 hs ((hf super rfl).grows hg2))
    | raw ht hr hse =>
      rw [ht]
      refine .bind hw (ih hw hst (.of_class hr hse)) fun found w1 hw1 _ hf => ?_
      cases found with
      | none => exact .pure (by simp)
      | some super => exact .toSome (rawErasure_leads hw1 (hf super rfl))
    | missing ht =>
      rw [ht]
      exact .pure (by simp)

theorem superInterfacesFrom_leads (hst : w.Sterile set) (fuel : Nat) (hid : w.Leads set id) :
    (superInterfacesFrom fuel id).Runs w fun found w' => ∀ super ∈ found, w'.Leads set super := by
  induction fuel generalizing w id with
  | zero => exact .giveUp
  | succ fuel ih =>
    obtain ⟨tgt, hre, -, hh⟩ := hid.resolves hw.registered
    rw [superInterfacesFrom]
    refine .of_apply hre (.get ?_)
    cases hh with
    | declared ht hse =>
      rw [ht]
      refine .bind hw (RunsIn.of_orderly hw).courses fun _ w1 hw1 _ hc => .get ?_
      obtain ⟨-, info1, hi1, -, hsl⟩ := hst.later hc.2 hw tgt hse
      rw [hi1]
      exact .mapM_each (fun _ => True) (fun _ hw _ _ hid => resolved_leads hw hid) hw1 trivial (hsl .interfaces)
    | parameterized ht hr hse =>
      rw [ht]
      refine .bind hw (ih hw hst (.of_class hr hse)) fun found w1 hw1 _ hf => ?_
      refine .bind hw1 (substitutionFor_known hw1 tgt) fun s w2 hw2 hg2 hs => ?_
      exact .mapM_each s.Known (fun _ hw hs _ hid => substitute_leads hw hs hid) hw2 hs
        fun super hsu => (hf super hsu).grows hg2
    | raw ht hr hse =>
      rw [ht]
      refine .bind hw (ih hw hst (.of_class hr hse)) fun found w1 hw1 _ hf => ?_
      exact .mapM_each (fun _ => True) (fun _ hw _ _ hid => rawErasure_leads hw hid) hw1 trivial hf
    | missing ht =>
      rw [ht]
      exact .pure (by simp)

theorem supertypes_leads (hst : w.Sterile set) (hid : w.Leads set id) :
    (supertypes id).Runs w fun found w' => ∀ super ∈ found, w'.Leads set super := by
  have hsu : (superclass id).Runs w fun found w' => ∀ super ∈ found, w'.Leads set super :=
    .fuel fun budget => superclassFrom_leads hw hst budget hid
  refine .bind hw hsu.courses fun superclass w1 hw1 hg1 ⟨hsu, hc⟩ => ?_
  have hi : (superInterfaces id).Runs w1 fun found w' => ∀ super ∈ found, w'.Leads set super :=
    .fuel fun budget => superInterfacesFrom_leads hw1 (hst.later hc hw) budget (hid.grows hg1)
  refine .bind hw1 hi fun ifaces w2 _ hg2 hi => .pure fun super hs => ?_
  obtain hs | hs := List.mem_append.1 hs
  · exact (hsu super (Option.mem_toList.1 hs)).grows hg2
  · exact hi super hs

end

section

variable {search : List TypeId → TypeId → Query (Hit TypeId × List TypeId)}

theorem mergeHits_none (hse : ∀ seen id w, w.Sound → w.Sterile set → w.Leads set id →
      (search seen id).Runs w fun res _ => res.1 = .none)
    (hw : w.Sound) (hs : w.Sterile set) (seen : List TypeId) {ids : List TypeId}
    (hi : ∀ id ∈ ids, w.Leads set id) :
    (mergeHits search seen none ids).Runs w fun res _ => res.1 = .none := by
  induction ids generalizing w seen with
  | nil => exact .pure rfl
  | cons id rest ih =>
    rw [List.forall_mem_cons] at hi
    rw [mergeHits]
    refine .bind hw (hse seen id w hw hs hi.1).courses ?_
    rintro ⟨hit, seen⟩ w1 hw1 hg1 ⟨rfl, hc⟩
    exact ih hw1 (hs.later hc hw) seen fun other ho => (hi.2 other ho).grows hg1

end

theorem memberTypeFrom_none (hw : w.Sound) (hst : w.Sterile set) (name : String) (fuel : Nat)
    (seen : List TypeId) (hid : w.Leads set id) :
    (memberTypeFrom name fuel seen id).Runs w fun res _ => res.1 = .none := by
  induction fuel generalizing w seen id with
  | zero => exact .giveUp
  | succ fuel ih =>
    rw [memberTypeFrom]
    refine .get ?_
    split
    · next erased he =>
      obtain ⟨hr, hs⟩ := hid.base hw.registered he
      split
      · exact .pure rfl
      refine .bind hw (directMemberType_finds hw hr name).courses ?_
      rintro found w1 hw1 hg1 ⟨⟨info, hi, -, hf⟩, hc⟩
      have hst1 := hst.later hc hw
      obtain ⟨⟨_, hi', hn, -⟩, -⟩ := hst1 erased hs
      cases hi.symm.trans hi'
      rw [hn, List.find?_nil] at hf
      subst hf
      refine .bind hw1 (supertypes_leads hw1 hst1 (hid.grows hg1)).courses fun above w2 hw2 _ h2 => ?_
      exact mergeHits_none (fun seen id w hw hst hid => ih hw hst seen hid) hw2 (hst1.later h2.2 hw1) _ h2.1
    · exact .pure rfl

theorem memberTypeInHierarchy_none (hw : w.Sound) (hs : w.Sterile set) (hid : w.Leads set id)
    (name : String) : (memberTypeInHierarchy id name).Runs w fun hit _ => hit = .none :=
  .fuel fun budget => .bind hw (memberTypeFrom_none hw hs name budget [] hid) fun _ _ _ _ hn => .pure hn

end Query

end Bindings
