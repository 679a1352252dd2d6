import Mathlib.Data.List.Forall2
import Bindings.Proofs.Run

/-! # Queries that come to their end -/

namespace Bindings

variable {u : World}

theorem exists_of_mem_forall₂ {α β : Type} {good : α → β → Prop} {list : List α} {results : List β}
    (h : list.Forall₂ good results) {b : β} (hb : b ∈ results) : ∃ a ∈ list, good a b := by
  induction h with
  | nil => cases hb
  | @cons a _ _ _ hfi _ ih =>
    obtain rfl | hb := List.mem_cons.1 hb
    · exact ⟨a, .head _, hfi⟩
    · obtain ⟨a, ha, hg⟩ := ih hb
      exact ⟨a, .tail _ ha, hg⟩

namespace Query

variable {α β : Type} {d : Demand} {w : World} {query : Query α} {next : α → Query β}
  {mid : α → World → Prop} {post : β → World → Prop} {option : Option α}

/-- From the world, the query comes to an answer and a world that satisfy the condition. -/
def Delivers (query : Query α) (d : Demand) (w : World) (post : α → World → Prop) : Prop :=
  ∃ a u, query d w = (.ok a, u) ∧ post a u

namespace Delivers

variable {query' : Query β}

theorem bind (hq : query.Delivers d w mid) (hn : ∀ a u, mid a u → (next a).Delivers d u post) :
    (query >>= next).Delivers d w post := by
  obtain ⟨a, u, hr, hm⟩ := hq
  obtain ⟨b, v, hr', hp⟩ := hn a u hm
  exact ⟨b, v, (bind_ok d w hr).trans hr', hp⟩

theorem step {a : α} (hr : query d w = (.ok a, u)) (hn : (next a).Delivers d u post) :
    (query >>= next).Delivers d w post := by
  have hq : query.Delivers d w fun b v => b = a ∧ v = u := ⟨a, u, hr, rfl, rfl⟩
  exact hq.bind fun _ _ ⟨ha, hu⟩ => ha ▸ hu ▸ hn

theorem pure {b : β} (h : post b w) : (Pure.pure b : Query β).Delivers d w post := ⟨b, w, rfl, h⟩

theorem map (f : α → β) (h : query.Delivers d w fun a u => post (f a) u) : (f <$> query).Delivers d w post := by
  rw [map_eq_bind]
  exact h.bind fun a u hp => .pure hp

theorem get {next : World → Query β} (h : (next w).Delivers d w post) : (get >>= next).Delivers d w post := h

theorem fuel {next : Nat → Query β} (h : (next d.fuel).Delivers d w post) : (Query.fuel >>= next).Delivers d w post := h

theorem lift {edit : Edit β} (h : post (edit w).1 (edit w).2) :
    (liftM edit : Query β).Delivers d w post := ⟨_, _, rfl, h⟩

theorem lift_bind {edit : Edit α} (h : (next (edit w).1).Delivers d (edit w).2 post) :
    ((liftM edit : Query α) >>= next).Delivers d w post := h

theorem ite {p : Prop} [Decidable p] {query : Query β} (hp : p → query.Delivers d w post)
    (hn : ¬ p → query'.Delivers d w post) : (if p then query else query').Delivers d w post := by
  by_cases h : p
  · rw [if_pos h]
    exact hp h
  · rw [if_neg h]
    exact hn h

theorem congr {query : Query β} (h : query d w = query' d w) (hq : query'.Delivers d w post) :
    query.Delivers d w post := by
  rwa [Delivers, h]

theorem mono {post' : β → World → Prop} {query : Query β} (h : query.Delivers d w post)
    (hi : ∀ b u, post b u → post' b u) : query.Delivers d w post' := by
  obtain ⟨b, u, hr, hp⟩ := h
  exact ⟨b, u, hr, hi b u hp⟩

section

variable {later : World → World → Prop} (good : α → β → World → Prop) {f : α → Query β}

theorem mapM (hre : ∀ u, later w u → later u u) (ht : ∀ {u v x}, later u v → later v x → later u x)
    (hg : ∀ {a b u v}, later w u → later u v → good a b u → good a b v) {list : List α}
    (hu : later w u) (hf : ∀ a ∈ list, ∀ u, later w u → (f a).Delivers d u fun b v => later u v ∧ good a b v) :
    (list.mapM f).Delivers d u fun results v => later u v ∧ list.Forall₂ (good · · v) results := by
  induction list generalizing u with
  | nil =>
    rw [List.mapM_nil]
    exact .pure ⟨hre u hu, .nil⟩
  | cons a rest ih =>
    rw [List.mapM_cons]
    refine .bind (hf a (.head _) u hu) fun b v ⟨huv, hb⟩ => ?_
    refine .bind (ih (ht hu huv) fun a ha => hf a (.tail _ ha)) fun results x ⟨hvx, hr⟩ => ?_
    exact .pure ⟨ht huv hvx, .cons (hg (ht hu huv) hvx hb) hr⟩

theorem optionMapM (hre : later w w) (hf : ∀ a ∈ option, (f a).Delivers d w fun b v => later w v ∧ good a b v) :
    (option.mapM f).Delivers d w fun res v =>
      later w v ∧ option.toList.Forall₂ (good · · v) res.toList ∧ res.isSome = option.isSome := by
  cases option with
  | none =>
    rw [Option.mapM_none]
    exact .pure ⟨hre, .nil, rfl⟩
  | some a =>
    rw [Option.mapM_some]
    exact .map _ ((hf a rfl).mono fun b v ⟨hv, hb⟩ => ⟨hv, .cons hb .nil, rfl⟩)

end

section

variable {later : World → World → Prop} (hre : ∀ u, later w u → later u u)
  (ht : ∀ {u v x}, later u v → later v x → later u x) {p : α → Prop} {f : α → Query Bool} {list : List α}
  (hf : ∀ a ∈ list, ∀ u, later w u → (f a).Delivers d u fun b v => later u v ∧ (b = true ↔ p a))

include hre ht hf

theorem anyM (hu : later w u) : (list.anyM f).Delivers d u fun b v => later u v ∧ (b = true ↔ ∃ a ∈ list, p a) := by
  induction list generalizing u with
  | nil => exact .pure ⟨hre u hu, by simp⟩
  | cons a rest ih =>
    rw [List.anyM_cons]
    refine .bind (hf a (.head _) u hu) fun b v ⟨huv, hb⟩ => ?_
    cases b with
    | true => exact .pure ⟨huv, by simp [hb.1 rfl]⟩
    | false =>
      have hn : ¬ p a := fun h => Bool.false_ne_true (hb.2 h)
      refine (ih (fun a ha => hf a (.tail _ ha)) (ht hu huv)).mono fun b x ⟨hvx, hb⟩ => ?_
      exact ⟨ht huv hvx, by simp [hb, hn]⟩

theorem allM (hu : later w u) : (list.allM f).Delivers d u fun b v => later u v ∧ (b = true ↔ ∀ a ∈ list, p a) := by
  induction list generalizing u with
  | nil => exact .pure ⟨hre u hu, by simp⟩
  | cons a rest ih =>
    rw [List.allM_cons]
    refine .bind (hf a (.head _) u hu) fun b v ⟨huv, hb⟩ => ?_
    cases b with
    | false =>
      have hn : ¬ p a := fun h => Bool.false_ne_true (hb.2 h)
      exact .pure ⟨huv, by simp [hn]⟩
    | true =>
      refine (ih (fun a ha => hf a (.tail _ ha)) (ht hu huv)).mono fun b x ⟨hvx, hb'⟩ => ?_
      exact ⟨ht huv hvx, by simp [hb', hb.1 rfl]⟩

theorem filterM [DecidablePred p] (hu : later w u) :
    (list.filterM f).Delivers d u fun kept v => later u v ∧ kept = list.filter fun a => p a := by
  have hau : ∀ kept u, later w u → (list.filterAuxM f kept).Delivers d u fun res v =>
      later u v ∧ res = (list.filter fun a => p a).reverse ++ kept := by
    induction list with
    | nil => exact fun kept u hu => .pure ⟨hre u hu, rfl⟩
    | cons a rest ih =>
      intro kept u hu
      rw [List.filterAuxM]
      refine .bind (hf a (.head _) u hu) fun b v ⟨huv, hb⟩ => ?_
      refine (ih (fun a ha => hf a (.tail _ ha)) _ v (ht hu huv)).mono fun res x ⟨hvx, hr⟩ => ?_
      refine ⟨ht huv hvx, hr.trans ?_⟩
      cases b <;> simp_all
  rw [List.filterM]
  exact .bind (hau [] u hu) fun kept v ⟨huv, hk⟩ => .pure ⟨huv, by simp [hk]⟩

end

end Delivers

theorem mapM_still {f : α → Query β} (g : α → β) {list : List α} (h : ∀ a ∈ list, f a d w = (.ok (g a), w)) :
    list.mapM f d w = (.ok (list.map g), w) := by
  induction list with
  | nil => rfl
  | cons a rest ih =>
    have hr := ih fun other ho => h other (.tail _ ho)
    rw [List.mapM_cons, bind_ok d w (h a (.head _)), bind_ok d w hr]
    rfl

theorem optionMapM_still {f : α → Query β} (g : α → β)
    (h : ∀ a ∈ option, f a d w = (.ok (g a), w)) : option.mapM f d w = (.ok (option.map g), w) := by
  cases option with
  | none => rfl
  | some a => rw [Option.mapM_some, map_eq_bind, bind_ok d w (h a rfl)]; rfl

end Query

end Bindings
