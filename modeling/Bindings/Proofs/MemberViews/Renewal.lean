import Bindings.Proofs.MemberViews.Removal

/-! # Type variables of views -/

namespace Bindings

open TypeInfo World Edit

namespace World

variable {w u : World} {vars : List TypeId} {var object : TypeId} {classBound : Option TypeId}
  {ifaces interfaces : List TypeId}

theorem type_withBounds (id : TypeId) : (w.withBounds var classBound interfaces object).type id =
    if id = var then (w.type id).mapVariable fun info =>
      { info with
        firstBound := classBound <|> interfaces.head?
        superclass := some (classBound.getD object)
        interfaces }
    else w.type id := by
  rw [withBounds, (noteReferrers_notesMore _ _).type, type_modifyType rfl]

theorem along_withBounds (hw : w.Sound) (hfo : w.Formed) (hv : w.IsVariable var)
    (hk : ∀ bound ∈ ifaces ++ [classBound.getD object], w.Knows bound) :
    Along [var] w (w.withBounds var classBound ifaces object) := by
  have hc := Course.withBounds var hk
  refine ⟨hc.grows.size, fun id _ => ?_, fun id info hi => ?_, ?_, hc.sound hw, hc.formed hw hfo⟩
  · by_cases hid : id = var
    · subst hid
      obtain ⟨info, hi⟩ := isVariable_iff.1 hv
      refine .inr ⟨List.mem_singleton_self _, hv, isVariable_iff.2 ?_⟩
      rw [type_withBounds, if_pos rfl, hi]
      exact ⟨_, rfl⟩
    · exact .inl (.of_eq (by rw [type_withBounds, if_neg hid]))
  · rwa [withBounds, (noteReferrers_notesMore _ _).same]
  · rw [withBounds, (noteReferrers_notesMore _ _).same]
    rfl

end World

namespace Query

variable {w u : World} {d : Demand} {s : Substitution} {vars : List TypeId} {object : TypeId} {var : TypeId}

theorem setBounds_delivers (hu : u.Sound) (hfo : u.Formed) (hob : u.object = some object)
    (hro : u.Free vars object) (hv : u.IsVariable var) {classBound : Option TypeId}
    {interfaces : List TypeId} (hc : ∀ bound ∈ classBound, u.Free vars bound)
    (hi : ∀ bound ∈ interfaces, u.Free vars bound) :
    (setBounds var classBound interfaces).Delivers d u fun _ x => Along [var] u x ∧ x.BoundsFree vars var := by
  have hfr : ∀ bound ∈ interfaces ++ [classBound.getD object], u.Free vars bound := by
    intro bound hb
    obtain hb | hb := List.mem_append.1 hb
    · exact hi bound hb
    rw [List.mem_singleton.1 hb]
    cases classBound with
    | none => exact hro
    | some bound => exact hc bound rfl
  have hr : setBounds var classBound interfaces d u = (.ok (), u.withBounds var classBound interfaces object) := by
    have hf : objectType d u = (.ok object, u) := by
      rw [objectType, get_bind_apply, hob]
      rfl
    rw [setBounds, bind_ok d u hf]
    rfl
  have ha := along_withBounds hu hfo hv fun bound hb => (hfr bound hb).knows
  refine ⟨_, _, hr, ha, fun bound hb => ?_⟩
  obtain ⟨old, ho⟩ := isVariable_iff.1 hv
  rw [type_withBounds, if_pos rfl, ho] at hb
  exact (hfr bound (VariableInfo.slots_boundBy old classBound object interfaces hb)).along hu hfo ha

section

variable {fresh : List TypeId} (hw : w.Sound) (hfo : w.Formed) (hob : w.object = some object)
  (hro : w.Free vars object)

include hw hfo hob hro

theorem renewBounds_delivers (hu : Along fresh w u) (hs : s.Removes vars u) {old new : TypeId}
    (ho : w.IsVariable old) (hnot : old ∉ fresh)
    (hbo : ∀ bound ∈ (w.type old).slots, w.Tractable d.fuel bound) (hn : u.IsVariable new) :
    (renewBounds s old new).Delivers d u fun _ x => Along [new] u x ∧ x.BoundsFree vars new := by
  obtain ⟨info, hi⟩ := isVariable_iff.1 ho
  rw [hi] at hbo
  refine .get ?_
  rw [hu.type_variable ho hnot, hi]
  -- The superclass counts only if it is the first bound. What follows is the same either way.
  have hr : ∀ (classBound : Option TypeId) (v : World), u.Onward v →
      (∀ bound ∈ classBound, v.Free vars bound) → (do
        let ifaces ← info.interfaces.mapM (substitute s)
        setBounds new classBound ifaces : Query Unit).Delivers d v fun _ x =>
          Along [new] u x ∧ x.BoundsFree vars new := by
    intro classBound v huv hc
    have hv := huv.along fresh
    have hin : ∀ bound ∈ info.interfaces, w.Tractable d.fuel bound := fun bound hb =>
      hbo bound (by simp [hb])
    refine .bind (substituteAll_removes hw hfo (hu.trans hv) (hs.along hu.sound hu.formed hv) hin) ?_
    rintro ifaces x ⟨hvx, -, hf⟩
    have hux := huv.trans hvx
    have hx := hu.trans (hux.along fresh)
    refine (setBounds_delivers hux.sound hux.formed (hx.object.trans hob) (hro.along hw hfo hx)
      ((hux.along []).isVariable hn)
      (fun bound hb => (hc bound hb).along huv.sound huv.formed (hvx.along [])) hf).mono ?_
    exact fun _ y h => ⟨(hux.along [new]).trans h.1, h.2⟩
  have hno := hr none u (.refl hu.sound hu.formed) (by simp)
  dsimp only [typeVariable?]
  split
  · next first sup _ hsu =>
    have hb := hbo sup (by simp [hsu])
    have hc : (some <$> substitute s sup).Delivers d u fun classBound v =>
        u.Onward v ∧ ∀ bound ∈ classBound, v.Free vars bound := by
      refine .map some ((substitute_removes hw hfo hu hs hb).mono ?_)
      rintro bound v ⟨huv, hf⟩
      exact ⟨huv, by rintro _ ⟨⟩; exact hf⟩
    exact .ite (fun _ => hc.bind fun classBound v h => hr classBound v h.1 h.2) fun _ => hno
  · exact hno

theorem renewAll_delivers {pairs : List (TypeId × TypeId)} (hu : Along fresh w u) (hs : s.Removes vars u)
    (hp : ∀ pair ∈ pairs, w.IsVariable pair.1 ∧ pair.1 ∉ fresh ∧ pair.2 ∈ fresh ∧ u.IsVariable pair.2)
    (hb : ∀ pair ∈ pairs, ∀ bound ∈ (w.type pair.1).slots, w.Tractable d.fuel bound) :
    (pairs.forM fun (old, new) => renewBounds s old new).Delivers d u fun _ x => Along fresh u x ∧
      (∀ pair ∈ pairs, x.BoundsFree vars pair.2) ∧
      ∀ id, u.IsVariable id → u.BoundsFree vars id → x.BoundsFree vars id := by
  induction pairs generalizing u with
  | nil => exact .pure ⟨(Onward.refl hu.sound hu.formed).along fresh, nofun, fun _ _ h => h⟩
  | cons pair rest ih =>
    obtain ⟨ho, hno, hm, hn⟩ := hp pair (.head _)
    change (renewBounds s pair.1 pair.2 >>= fun _ => rest.forM fun (old, new) => renewBounds s old new).Delivers d u _
    refine .bind (renewBounds_delivers hw hfo hob hro hu hs ho hno (hb pair (.head _)) hn) fun _ v ⟨huv, hf⟩ => ?_
    have huv' : Along fresh u v := huv.mono (by simpa using hm)
    refine (ih (hu.trans huv') (hs.along hu.sound hu.formed huv') (fun other hot => ?_) fun other hot =>
      hb other (.tail _ hot)).mono ?_
    · obtain ⟨ho, hno, hm, hn⟩ := hp other (.tail _ hot)
      exact ⟨ho, hno, hm, huv.isVariable hn⟩
    rintro _ x ⟨hvx, hr, hk⟩
    refine ⟨huv'.trans hvx, fun other hot => ?_, fun id hid hfr => ?_⟩
    · obtain rfl | hot := List.mem_cons.1 hot
      · exact hk _ (huv.isVariable hn) hf
      · exact hr other hot
    · exact hk id (huv.isVariable hid) (hfr.along hu.sound hu.formed hid huv (by simpa using hf))

end

theorem newVariables_along (hw : w.Sound) (hfo : w.Formed) (owner : VariableOwner) (rank : Nat)
    (names : List String) : (newVariables owner rank names).Gives w fun fresh u => Along [] w u ∧
      fresh.length = names.length ∧ ∀ var ∈ fresh, ¬ w.Knows var ∧ u.IsVariable var := by
  induction names generalizing w rank with
  | nil =>
    rw [newVariables]
    exact ⟨(Onward.refl hw hfo).along [], rfl, nofun⟩
  | cons name names ih =>
    let first : TypeInfo := .variable { name, rank, owner }
    have hc : Course none none w (newType first w).2 := Orderly.course w hw
    have ha : Along [] w (newType first w).2 :=
      ⟨hc.grows.size, fun id hid => .inl (.of_eq (type_addType_of_lt first hid)),
        fun _ _ hi => hi, rfl, hc.sound hw, hc.formed hw hfo⟩
    obtain ⟨hr, hl, hf⟩ := ih ha.sound ha.formed (rank + 1)
    rw [newVariables]
    refine ⟨ha.trans hr, congrArg (· + 1) hl, ?_⟩
    rintro var (_ | ⟨_, hv⟩)
    · refine ⟨Nat.lt_irrefl _, hr.isVariable (isVariable_iff.2 ⟨{ name, rank, owner }, ?_⟩)⟩
      exact type_addType_new ..
    · exact ⟨fun hk => (hf var hv).1 (ha.knows hk), (hf var hv).2⟩

theorem boundsFree_of_boundsMention (hw : w.Sound) (hfo : w.Formed) (hs : s.Removes vars w)
    (hv : w.IsVariable var) (h : boundsMention w s.domain var = false) : w.BoundsFree vars var := by
  obtain ⟨info, hi⟩ := isVariable_iff.1 hv
  intro bound hb
  have hk := hw.stocked (.type var) bound hb
  have hm : bound ∈ info.superclass.toList ++ info.interfaces := by
    have hno := hfo.normal var
    rw [hi] at hno hb
    simp only [slots, VariableInfo.slots, List.mem_append, Option.mem_toList] at hb ⊢
    obtain (hb | hb) | hb := hb
    · simpa using hno bound hb
    · exact .inl hb
    · exact .inr hb
  rw [boundsMention, hi, typeVariable?, Option.any_some, Bool.or_eq_false_iff] at h
  have hn : w.mentions s.domain bound = false := by
    obtain hm | hm := List.mem_append.1 hm
    · rw [Option.mem_toList.1 hm] at h
      exact h.1
    · exact List.any_eq_false.1 h.2 bound hm |> eq_false_of_ne_true
  have hd : ∀ var ∈ s.domain, w.IsVariable var := fun var hv => by
    obtain ⟨type, hg⟩ := Substitution.mem_domain_iff.1 hv
    exact hs.isVariable var type hg
  rw [hfo.mentions_eq hd hw.registered hk] at hn
  refine ⟨hk, Term.mentions_mono (fun var hv => ?_) hn⟩
  exact Substitution.mem_domain_iff.2 (Option.isSome_iff_exists.1 (hs.covers var hv))

theorem free_of_new (hs : s.Removes vars w) (hn : ¬ w.Knows var) (hv : u.IsVariable var) :
    u.Free vars var := by
  refine ⟨hv.lt_size, ?_⟩
  obtain ⟨_, hi⟩ := isVariable_iff.1 hv
  rw [term_atomic (by rw [hi]; rfl), Term.mentions, List.contains_eq_mem, decide_eq_false_iff_not]
  intro hm
  obtain ⟨type, hg⟩ := Option.isSome_iff_exists.1 (hs.covers var hm)
  exact hn (hs.isVariable var type hg).lt_size

theorem renewVariables_delivers (hw : w.Sound) (hfo : w.Formed) (hob : w.object = some object)
    (hro : w.Free vars object) (hs : s.Removes vars w) (view : MethodId) {own : List TypeId}
    (how : ∀ var ∈ own, w.IsVariable var)
    (hb : ∀ var ∈ own, ∀ bound ∈ (w.type var).slots, w.Tractable d.fuel bound) :
    (renewVariables view s own).Delivers d w fun found x => Along [] w x ∧ found.1.Removes vars x ∧
      (found.2.getD own).length = own.length ∧
      ∀ var ∈ found.2.getD own, x.IsVariable var ∧ x.BoundsFree vars var := by
  refine .get ?_
  dsimp only
  refine .ite (fun hno => .pure ?_) fun _ => .lift_bind ?_
  · rw [Bool.not_eq_true', List.any_eq_false] at hno
    refine ⟨(Onward.refl hw hfo).along [], hs, rfl, fun var hv => ⟨how var hv, ?_⟩⟩
    exact boundsFree_of_boundsMention hw hfo hs (how var hv) (eq_false_of_ne_true (hno var hv))
  · generalize hna : (own.filterMap fun var => (w.type var).typeVariable?.map (·.name)) = names
    obtain ⟨ha, hl, hf⟩ := newVariables_along hw hfo (.method view) 0 names
    generalize newVariables (.method view) 0 names w = made at ha hl hf
    obtain ⟨fresh, w1⟩ := made
    have hc : fresh.length = own.length := by
      rw [hl, ← hna, List.filterMap_length_eq_length]
      intro var hv
      obtain ⟨info, hi⟩ := isVariable_iff.1 (how var hv)
      rw [hi]
      rfl
    have hw1 : Along fresh w w1 := ha.mono (List.nil_subset fresh)
    have hpa : ∀ pair ∈ own.zip fresh, pair.1 ∈ own ∧ pair.2 ∈ fresh := fun pair => List.of_mem_zip
    have hs1 := (hs.along hw hfo ha).insertAll fun pair (hp : pair ∈ own.zip fresh) =>
      ⟨ha.isVariable (how _ (hpa pair hp).1), free_of_new hs (hf _ (hpa pair hp).2).1 (hf _ (hpa pair hp).2).2⟩
    refine .bind (renewAll_delivers hw hfo hob hro hw1 hs1 (fun pair hp => ?_) fun pair hp =>
      hb pair.1 (hpa pair hp).1) fun _ x ⟨hx, hfr, _⟩ => .pure ?_
    · obtain ⟨ho, hn⟩ := hpa pair hp
      exact ⟨how _ ho, fun hm => (hf _ hm).1 (how _ ho).lt_size, hn, (hf _ hn).2⟩
    refine ⟨(hw1.trans hx).untouched fun var hv => (hf var hv).1, hs1.along ha.sound ha.formed hx, hc,
      fun var hv => ⟨hx.isVariable (hf var hv).2, ?_⟩⟩
    have hm : var ∈ (own.zip fresh).map Prod.snd := by rwa [List.map_snd_zip (by omega)]
    obtain ⟨pair, hp, rfl⟩ := List.mem_map.1 hm
    exact hfr pair hp

end Query

end Bindings
