import Bindings.Proofs.Orderly.Types

/-!
# Asking again

A query that comes to its end although every demand is refused answers the same whatever demands are met
(`Settles`), and often also when it is asked again (`Replays`).
-/

namespace Bindings

open Query

open World (Course Move Aside)

variable {α β : Type} {edit : Edit β} {post' : α → World → Prop} {good : β → World → Prop} {b : β}

def Demand.idle (fuel : Nat) : Demand where
  load _ := throw .outOfFuel
  connect _ := throw .outOfFuel
  fuel := fuel

theorem Demand.idle_orderly (fuel : Nat) : (Demand.idle fuel).Orderly where
  load _ _ _ := .refused
  connect _ w _ := (Course.refl w).halt fun _ h => by cases h
  joined _ _ _ h := by cases h

def Query.Settles (query : Query α) (w : World) (post : α → World → Prop) : Prop :=
  ∀ fuel a w1, query (.idle fuel) w = (.ok a, w1) →
    (∀ d : Demand, d.fuel = fuel → query d w = (.ok a, w1)) ∧ post a w1

def Query.Answers (query : Query α) (fuel : Nat) (a : α) (w1 : World) : Prop :=
  ∀ u : World, u.Sound → w1.Keeps u → ∀ d : Demand, d.fuel = fuel →
    ∃ u', query d u = (.ok a, u') ∧ u.Alike u'

/-- Where a query ends with refused demands, it ends the same way with any demands, and once more when
it is asked again. -/
def Query.Replays (query : Query α) (w : World) (post : α → World → Prop) : Prop :=
  ∀ fuel a w1, query (.idle fuel) w = (.ok a, w1) →
    (w1.Sound ∧ w.Furthers w1 ∧ post a w1) ∧
    (∀ d : Demand, d.fuel = fuel → query d w = (.ok a, w1)) ∧ query.Answers fuel a w1

/-- The query is answered, answered the same when it is asked once more, and the same from then on until
something is loaded. -/
structure Query.Repeats (query : Query α) (d : Demand) (w : World) (a : α) : Prop where
  first : (query d w).1 = .ok a
  again : (query d (query d w).2).1 = .ok a
  later : ∀ u : World, u.Sound → (query d w).2.Keeps u →
    (query d u).1 = .ok a ∧ u.Alike (query d u).2

namespace Query.Settles

variable {w : World} {query : Query α} {next : α → Query β} {mid : α → World → Prop} {post : β → World → Prop}

theorem bind (hq : query.Settles w mid) (hn : ∀ a w1, mid a w1 → (next a).Settles w1 post) :
    (query >>= next).Settles w post := by
  intro fuel b w2 hr
  obtain ⟨a, w1, hf, hs⟩ := of_bind_ok _ w hr
  obtain ⟨he, hm⟩ := hq fuel a w1 hf
  obtain ⟨he', hp⟩ := hn a w1 hm fuel b w2 hs
  refine ⟨fun d hd => ?_, hp⟩
  rw [bind_ok d w (he d hd)]
  exact he' d hd

theorem lift (h : post (edit w).1 (edit w).2) : (liftM edit : Query β).Settles w post := by
  intro fuel a w1 hr
  cases hr
  exact ⟨fun _ _ => rfl, h⟩

theorem lift_bind {edit : Edit α} (h : (next (edit w).1).Settles (edit w).2 post) :
    ((liftM edit : Query α) >>= next).Settles w post := h

theorem map (f : α → β) (h : query.Settles w fun a w1 => post (f a) w1) : (f <$> query).Settles w post := by
  intro fuel b w1 hr
  rw [map_eq_bind] at hr ⊢
  obtain ⟨a, w2, hf, hs⟩ := of_bind_ok _ w hr
  cases hs
  obtain ⟨he, hp⟩ := h fuel a w1 hf
  exact ⟨fun d hd => bind_ok d w (he d hd), hp⟩

theorem pure (h : post b w) : (Pure.pure b : Query β).Settles w post := by
  intro fuel a w1 hr
  cases hr
  exact ⟨fun _ _ => rfl, h⟩

theorem get {next : World → Query β} (h : (next w).Settles w post) : (get >>= next).Settles w post := h

theorem fuel {next : Nat → Query β} (h : ∀ budget, (next budget).Settles w post) : (fuel >>= next).Settles w post := by
  intro fuel b w1 hr
  obtain ⟨he, hp⟩ := h fuel fuel b w1 hr
  refine ⟨fun d hd => ?_, hp⟩
  subst hd
  exact he d rfl

theorem mono (h : query.Settles w mid) (hi : ∀ a w1, mid a w1 → post' a w1) :
    query.Settles w post' := fun fuel a w1 hr =>
  ⟨(h fuel a w1 hr).1, hi a w1 (h fuel a w1 hr).2⟩

theorem orderly [ho : query.Orderly] (hw : w.Sound)
    (h : query.Settles w mid) : query.Settles w fun a w1 => w1.Sound ∧ w.Grows w1 ∧ mid a w1 := by
  intro fuel a w1 hr
  obtain ⟨he, hp⟩ := h fuel a w1 hr
  obtain ⟨hc, -⟩ := ho.runs w hw (.idle fuel) (Demand.idle_orderly fuel)
  rw [hr] at hc
  exact ⟨he, hc.sound hw, hc.grows, hp⟩

theorem furthering [hf : edit.Furthering] (hw : w.Sound) :
    (liftM edit : Query β).Settles w fun _ w1 => w1.Sound ∧ w.Furthers w1 :=
  .lift ⟨(hf.course w hw).sound hw, hf.furthers w hw⟩

section

variable {f : α → Edit β} [∀ a, (f a).Furthering]

theorem mapM_furthering (hw : w.Sound) (list : List α) :
    (list.mapM fun a => (liftM (f a) : Query β)).Settles w fun _ w1 => w1.Sound ∧ w.Furthers w1 := by
  induction list generalizing w with
  | nil =>
    rw [List.mapM_nil]
    exact .pure ⟨hw, .refl w⟩
  | cons a rest ih =>
    rw [List.mapM_cons]
    refine (furthering hw).bind ?_
    rintro b w1 ⟨hw1, hk1⟩
    refine (ih hw1).bind ?_
    rintro results w2 ⟨hw2, hk2⟩
    exact .pure ⟨hw2, hk1.trans hk2⟩

theorem optionMapM_furthering (hw : w.Sound) (option : Option α) :
    (option.mapM fun a => (liftM (f a) : Query β)).Settles w fun _ w1 => w1.Sound ∧ w.Furthers w1 := by
  cases option with
  | none =>
    rw [Option.mapM_none]
    exact .pure ⟨hw, .refl w⟩
  | some a =>
    rw [Option.mapM_some]
    exact .map _ (furthering hw)

end

end Query.Settles

namespace Query.Replays

variable {w : World} {query : Query α} {next : α → Query β} {mid : α → World → Prop} {post : β → World → Prop}

theorem settles (h : query.Replays w mid) : query.Settles w fun a w1 => w1.Sound ∧ w.Furthers w1 ∧ mid a w1 := by
  intro fuel a w1 hr
  obtain ⟨hp, he, -⟩ := h fuel a w1 hr
  exact ⟨he, hp⟩

theorem repeats (h : query.Replays w mid) {d : Demand} {a : α}
    (hf : (query (.idle d.fuel) w).1 = .ok a) : query.Repeats d w a := by
  cases hr : query (.idle d.fuel) w with
  | mk res w1 =>
    rw [hr] at hf
    cases hf
    obtain ⟨⟨hw1, -, -⟩, he, ha⟩ := h d.fuel a w1 hr
    have he := he d rfl
    have hl : ∀ u : World, u.Sound → w1.Keeps u →
        (query d u).1 = .ok a ∧ u.Alike (query d u).2 := by
      intro u hu hk
      obtain ⟨u', hr', hal⟩ := ha u hu hk d rfl
      rw [hr']
      exact ⟨rfl, hal⟩
    have hw : (query d w).2 = w1 := by rw [he]
    refine ⟨by rw [he], ?_, ?_⟩ <;> rw [hw]
    · exact (hl w1 hw1 (.refl w1)).1
    · exact hl

theorem furthers (h : query.Replays w mid) {d : Demand} {a : α}
    (hf : (query (.idle d.fuel) w).1 = .ok a) : w.Furthers (query d w).2 := by
  obtain ⟨⟨-, hk, -⟩, he, -⟩ := h d.fuel a _ (Prod.ext hf rfl)
  rw [he d rfl]
  exact hk

theorem of_settles (h : query.Settles w fun a w1 => w1.Sound ∧ w.Furthers w1 ∧ mid a w1)
    (ha : ∀ fuel a w1, w1.Sound → w.Keeps w1 → mid a w1 → query.Answers fuel a w1) : query.Replays w mid := by
  intro fuel a w1 hr
  obtain ⟨he, hw1, hk, hp⟩ := h fuel a w1 hr
  exact ⟨⟨hw1, hk, hp⟩, he, ha fuel a w1 hw1 hk.toKeeps hp⟩

theorem bind (hq : query.Replays w mid) (hn : ∀ a w1, w1.Sound → w.Keeps w1 → mid a w1 → (next a).Replays w1 post) :
    (query >>= next).Replays w post := by
  intro fuel b w2 hr
  obtain ⟨a, w1, hf, hs⟩ := of_bind_ok _ w hr
  obtain ⟨⟨hw1, hk1, hm⟩, he, ha⟩ := hq fuel a w1 hf
  obtain ⟨⟨hw2, hk2, hp⟩, he', ha'⟩ := hn a w1 hw1 hk1.toKeeps hm fuel b w2 hs
  refine ⟨⟨hw2, hk1.trans hk2, hp⟩, fun d hd => ?_, fun u hu hk d hd => ?_⟩
  · rw [bind_ok d w (he d hd)]
    exact he' d hd
  obtain ⟨u1, hr1, hal1⟩ := ha u hu (hk2.toKeeps.trans hk) d hd
  obtain ⟨u2, hr2, hal2⟩ := ha' u1 (hal1.sound hu) (hk.trans hal1.keeps) d hd
  rw [bind_ok d u hr1]
  exact ⟨u2, hr2, hal1.trans hal2⟩

theorem pure (hw : w.Sound) (h : post b w) : (Pure.pure b : Query β).Replays w post := by
  intro fuel a w1 hr
  cases hr
  exact ⟨⟨hw, .refl w, h⟩, fun _ _ => rfl, fun u _ _ _ _ => ⟨u, rfl, .refl u⟩⟩

theorem throw (halt : Halt) : (throw halt : Query β).Replays w post := by
  intro fuel a w1 hr
  cases hr

theorem get {next : World → Query β} (h : (next w).Replays w post)
    (hs : ∀ u : World, u.Sound → w.Keeps u → next u = next w) : (get >>= next).Replays w post := by
  intro fuel b w1 hr
  obtain ⟨⟨hw1, hk1, hp⟩, he, ha⟩ := h fuel b w1 hr
  refine ⟨⟨hw1, hk1, hp⟩, he, fun u hu hk d hd => ?_⟩
  rw [get_bind_apply, hs u hu (hk1.toKeeps.trans hk)]
  exact ha u hu hk d hd

theorem fuel {next : Nat → Query β} (h : ∀ budget, (next budget).Replays w post) : (fuel >>= next).Replays w post := by
  intro fuel b w1 hr
  obtain ⟨hp, he, ha⟩ := h fuel fuel b w1 hr
  refine ⟨hp, fun d hd => ?_, fun u hu hk d hd => ?_⟩
  · subst hd
    exact he d rfl
  · subst hd
    exact ha u hu hk d rfl

theorem mono (h : query.Replays w mid)
    (hi : ∀ a w1, w1.Sound → w.Keeps w1 → mid a w1 → post' a w1) : query.Replays w post' := by
  intro fuel a w1 hr
  obtain ⟨⟨hw1, hk, hp⟩, hre⟩ := h fuel a w1 hr
  exact ⟨⟨hw1, hk, hi a w1 hw1 hk.toKeeps hp⟩, hre⟩

theorem runs (h : query.Replays w mid) (hru : query.Runs w post') :
    query.Replays w post' := by
  intro fuel a w1 hr
  obtain ⟨⟨hw1, hk, -⟩, hre⟩ := h fuel a w1 hr
  obtain ⟨-, hp⟩ := hru (.idle fuel) (Demand.idle_orderly fuel)
  rw [hr] at hp
  exact ⟨⟨hw1, hk, hp a rfl⟩, hre⟩

theorem map (f : α → β) (h : query.Replays w fun a w1 => post (f a) w1) : (f <$> query).Replays w post := by
  rw [map_eq_bind]
  exact h.bind fun a w1 hw1 _ hp => .pure hw1 hp

theorem some (h : query.Replays w mid) : (some <$> query).Replays w fun found w1 => ∀ a ∈ found, mid a w1 :=
  .map _ (h.mono fun _ _ _ _ ha _ hb => Option.some.inj hb ▸ ha)

theorem lift [ho : edit.Orderly] (hw : w.Sound) (hf : w.Furthers (edit w).2)
    (h : post (edit w).1 (edit w).2) (ha : ∀ u : World, u.Sound → (edit w).2.Keeps u →
      (edit u).1 = (edit w).1 ∧ u.Alike (edit u).2) : (liftM edit : Query β).Replays w post := by
  intro fuel a w1 hr
  cases hr
  refine ⟨⟨(ho.course w hw).sound hw, hf, h⟩, fun _ _ => rfl, ?_⟩
  intro u hu hk d _
  obtain ⟨hs, hal⟩ := ha u hu hk
  exact ⟨(edit u).2, by rw [← hs]; rfl, hal⟩

theorem ite {p : Prop} [Decidable p] {query query' : Query β} (hp : p → query.Replays w post)
    (hn : ¬ p → query'.Replays w post) : (if p then query else query').Replays w post := by
  by_cases h : p
  · rw [if_pos h]
    exact hp h
  · rw [if_neg h]
    exact hn h

theorem mapM [hg : ∀ b, World.Stays (good b)] {f : α → Query β}
    {list : List α} (hw : w.Sound) (hf : ∀ a ∈ list, ∀ w1 : World, w1.Sound → w.Keeps w1 → (f a).Replays w1 good) :
    (list.mapM f).Replays w fun results w1 => ∀ b ∈ results, good b w1 := by
  induction list generalizing w with
  | nil =>
    rw [List.mapM_nil]
    exact .pure hw (by simp)
  | cons a rest ih =>
    rw [List.mapM_cons]
    refine .bind (hf a (.head _) w hw (.refl w)) fun b w1 hw1 hk1 hb => ?_
    have hr := ih hw1 fun a ha w2 hw2 hk2 => hf a (.tail _ ha) w2 hw2 (hk1.trans hk2)
    refine hr.bind fun results w2 hw2 hk2 hre => .pure hw2 ?_
    rintro c (_ | ⟨_, hc⟩)
    · exact (hg b).grows hk2.grows hb
    · exact hre c hc

theorem optionMapM {f : α → Query β} {option : Option α} (hw : w.Sound) (hf : ∀ a ∈ option, (f a).Replays w good) :
    (option.mapM f).Replays w fun res w1 => ∀ b ∈ res, good b w1 := by
  cases option with
  | none =>
    rw [Option.mapM_none]
    exact .pure hw (by simp)
  | some a =>
    rw [Option.mapM_some]
    refine .map _ ((hf a rfl).mono fun b w1 _ _ hb c hc => ?_)
    cases hc
    exact hb

section

variable {f : α → Query Bool} {list : List α} (hw : w.Sound)
  (hf : ∀ a ∈ list, ∀ w1 : World, w1.Sound → w.Keeps w1 → (f a).Replays w1 fun _ _ => True)

include hw hf

theorem anyM : (list.anyM f).Replays w fun _ _ => True := by
  induction list generalizing w with
  | nil =>
    rw [List.anyM_nil]
    exact .pure hw trivial
  | cons a rest ih =>
    rw [List.anyM_cons]
    refine .bind (hf a (.head _) w hw (.refl w)) fun passes w1 hw1 hk1 _ => ?_
    cases passes with
    | true => exact .pure hw1 trivial
    | false => exact ih hw1 fun a ha w2 hw2 hk2 => hf a (.tail _ ha) w2 hw2 (hk1.trans hk2)

theorem allM : (list.allM f).Replays w fun _ _ => True := by
  induction list generalizing w with
  | nil =>
    rw [List.allM_nil]
    exact .pure hw trivial
  | cons a rest ih =>
    rw [List.allM_cons]
    refine .bind (hf a (.head _) w hw (.refl w)) fun passes w1 hw1 hk1 _ => ?_
    cases passes with
    | false => exact .pure hw1 trivial
    | true => exact ih hw1 fun a ha w2 hw2 hk2 => hf a (.tail _ ha) w2 hw2 (hk1.trans hk2)

theorem filterM : (list.filterM f).Replays w fun kept _ => kept ⊆ list := by
  have hau : ∀ kept : List α, (list.filterAuxM f kept).Replays w fun res _ => res ⊆ list ++ kept := by
    induction list generalizing w with
    | nil => exact fun kept => .pure hw (List.Subset.refl _)
    | cons a rest ih =>
      intro kept
      rw [List.filterAuxM]
      refine .bind (hf a (.head _) w hw (.refl w)) fun passes w1 hw1 hk1 _ => ?_
      refine (ih hw1 (fun a ha w2 hw2 hk2 => hf a (.tail _ ha) w2 hw2 (hk1.trans hk2)) _).mono ?_
      intro res _ _ _ hs b hb
      have hb := hs hb
      cases passes <;> simp only [cond_true, cond_false, List.mem_append, List.mem_cons] at hb ⊢ <;> tauto
  rw [List.filterM]
  refine .bind (hau []) fun kept w1 hw1 _ hke => .pure hw1 fun a ha => ?_
  simpa using hke (List.mem_reverse.1 ha)

end

section

variable {arrange : Arrangement} {goal : TypeId → Query Bool} {visit : TypeId → Query (Option (List TypeId))}

theorem walkFrom (ha : ∀ next waiting, arrange next waiting ⊆ next ++ waiting)
    (hg : ∀ w1 : World, w1.Sound → w.Keeps w1 → ∀ id, w1.Knows id → (goal id).Replays w1 fun _ _ => True)
    (hv : ∀ w1 : World, w1.Sound → w.Keeps w1 → ∀ id, w1.Knows id →
      (visit id).Replays w1 fun next w2 => ∀ ids ∈ next, ∀ id ∈ ids, w2.Knows id)
    (hw : w.Sound) (fuel : Nat) (seen : List TypeId) {waiting : List TypeId}
    (hwa : ∀ id ∈ waiting, w.Knows id) :
    (walkFrom arrange goal visit fuel seen waiting).Replays w fun found w1 => ∀ id ∈ found, w1.Knows id := by
  induction fuel generalizing w seen waiting with
  | zero =>
    cases waiting with
    | nil => exact .pure hw (by simp)
    | cons cur waiting => exact .throw _
  | succ fuel ih =>
    cases waiting with
    | nil => exact .pure hw (by simp)
    | cons cur waiting =>
      rw [walkFrom]
      have hc := hwa cur (.head _)
      refine .bind (hg w hw (.refl w) cur hc) fun found w1 hw1 hk1 _ => ?_
      have hg1 := fun w2 hw2 (hk2 : w1.Keeps w2) => hg w2 hw2 (hk1.trans hk2)
      have hv1 := fun w2 hw2 (hk2 : w1.Keeps w2) => hv w2 hw2 (hk1.trans hk2)
      have hwa1 : ∀ id ∈ waiting, w1.Knows id := fun id hid => hk1.knows (hwa id (.tail _ hid))
      refine .ite (fun _ => .pure hw1 ?_) fun _ => .ite (fun _ => ?_) fun _ => ?_
      · rintro id ⟨⟩
        exact hk1.knows hc
      · exact ih hg1 hv1 hw1 seen hwa1
      refine .bind (hv1 w1 hw1 (.refl w1) cur (hk1.knows hc)) ?_
      intro next w2 hw2 hk2 hn
      cases next with
      | none =>
        refine .pure hw2 ?_
        rintro id ⟨⟩
        exact hk2.knows (hk1.knows hc)
      | some next =>
        refine ih (fun w3 hw3 hk3 => hg1 w3 hw3 (hk2.trans hk3))
          (fun w3 hw3 hk3 => hv1 w3 hw3 (hk2.trans hk3)) hw2 _ fun id hid => ?_
        obtain hid | hid := List.mem_append.1 (ha next waiting hid)
        · exact hn next rfl id hid
        · exact hk2.knows (hwa1 id hid)

end

end Query.Replays

end Bindings
