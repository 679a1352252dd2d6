import Bindings.Proofs.World.Acyclic
import Bindings.Proofs.Orderly.Scope

/-! # Looking for cycles -/

open Relation

namespace Bindings

open World

variable {w : World}

theorem World.Stands.erasureClass? {id tgt erased : TypeId} (h : w.Stands id tgt)
    (he : w.erasureClass? id = some erased) (hr : w.role erased = .declared) :
    w.erasureClass? tgt = some erased := by
  obtain ⟨-, rfl⟩ | ⟨name, hn⟩ := h
  · exact he
  rw [World.role, TypeInfo.role_eq_placeholder] at hn
  obtain rfl : tgt = erased := by
    simp only [World.erasureClass?, hn] at he
    split at he
    · exact Option.some.inj he
    · cases he
  obtain ⟨info, hi⟩ := World.role_eq_declared.1 hr
  rw [World.erasureClass?, World.class?_eq_some.1 hi]

namespace Query

variable {id : TypeId} {info : ClassInfo}

theorem resolved_apply (hi : w.class? id = some info) (d : Demand) :
    resolved id d w = (.ok id, w) := by
  rw [resolved, get_bind_apply, class?_eq_some.1 hi]
  rfl

theorem ensureSupertypes_apply (hi : w.class? id = some info)
    (hso : info.isCompiled = false) (hb : info.state.hierarchyBegun) (d : Demand) :
    ensureSupertypes id d w = (.ok (), w) := by
  rw [ensureSupertypes, get_bind_apply, hi]
  simp [hso, hb]

theorem mapM_resolved_runs (hw : w.Sound) (list : List TypeId) :
    (list.mapM resolved).Runs w fun targets w' => ∀ id ∈ list, ∀ erased,
      w.erasureClass? id = some erased → w.role erased = .declared →
      ∃ tgt ∈ targets, w'.erasureClass? tgt = some erased := by
  induction list generalizing w with
  | nil =>
    rw [List.mapM_nil]
    exact .pure (by simp)
  | cons id rest ih =>
    rw [List.mapM_cons]
    refine .bind hw (resolved_runs hw id) fun tgt w1 hw1 hg1 hs => ?_
    refine .bind hw1 (ih hw1) fun targets w2 hw2 hg2 hre => .pure ?_
    intro other ho erased he hr
    obtain rfl | ho := List.mem_cons.1 ho
    · have he1 := hs.erasureClass? (hg1.erasureClass? he hr) (hg1.role_declared hr)
      exact ⟨tgt, List.mem_cons_self, hg2.erasureClass? he1 (hg1.role_declared hr)⟩
    · obtain ⟨tgt, ht, he⟩ := hre other ho erased (hg1.erasureClass? he hr) (hg1.role_declared hr)
      exact ⟨tgt, List.mem_cons_of_mem _ ht, he⟩

theorem superclass_of_class {post : Option TypeId → World → Prop} (hi : w.class? id = some info)
    (h : (ensureSupertypes id >>= fun _ => get >>= fun world =>
      ((world.class? id).bind (·.superclass)).mapM resolved).Runs w post) : (superclass id).Runs w post := by
  refine .fuel fun budget => ?_
  cases budget with
  | zero => exact .giveUp
  | succ fuel =>
    rw [superclassFrom]
    refine .of_apply (resolved_apply hi) (.get ?_)
    rw [class?_eq_some.1 hi]
    exact h

theorem superInterfaces_of_class {post : List TypeId → World → Prop} (hi : w.class? id = some info)
    (h : (ensureSupertypes id >>= fun _ => get >>= fun world =>
      (((world.class? id).map (·.interfaces)).getD []).mapM resolved).Runs w post) :
    (superInterfaces id).Runs w post := by
  refine .fuel fun budget => ?_
  cases budget with
  | zero => exact .giveUp
  | succ fuel =>
    rw [superInterfacesFrom]
    refine .of_apply (resolved_apply hi) (.get ?_)
    rw [class?_eq_some.1 hi]
    exact h

section

variable (hi : w.class? id = some info)
  (hso : info.isCompiled = false) (hb : info.state.hierarchyBegun)

include hi hso hb

theorem superclass_runs (hw : w.Sound) :
    (superclass id).Runs w fun found w' => ∀ stored erased, info.superclass = some stored →
      w.erasureClass? stored = some erased → w.role erased = .declared →
      ∃ tgt, found = some tgt ∧ w'.erasureClass? tgt = some erased := by
  refine superclass_of_class hi (.of_apply (ensureSupertypes_apply hi hso hb) (.get ?_))
  rw [hi, Option.bind_some]
  cases info.superclass with
  | none => exact .pure (by simp)
  | some stored =>
    rw [Option.mapM_some]
    refine .map _ ((resolved_runs hw stored).imp hw fun tgt w' _ hg hs => ?_)
    rintro _ erased ⟨⟩ he hr
    exact ⟨tgt, rfl, hs.erasureClass? (hg.erasureClass? he hr) (hg.role_declared hr)⟩

theorem superInterfaces_runs (hw : w.Sound) :
    (superInterfaces id).Runs w fun found w' => ∀ stored ∈ info.interfaces, ∀ erased,
      w.erasureClass? stored = some erased → w.role erased = .declared →
      ∃ tgt ∈ found, w'.erasureClass? tgt = some erased := by
  refine superInterfaces_of_class hi (.of_apply (ensureSupertypes_apply hi hso hb) (.get ?_))
  rw [hi]
  exact mapM_resolved_runs hw info.interfaces

end

theorem superErasures_runs (hw : w.Sound) (id : TypeId) :
    (superErasures id).Runs w fun found _ => ∀ super, w.ConnectedTo id super → super ∈ found := by
  by_cases hc : ∃ super, w.ConnectedTo id super
  · obtain ⟨super, ⟨info, hi, hen⟩, old, ho, hso, -⟩ := hc
    cases hi.symm.trans ho
    have hb := hw.linked.begun id info hi hen
    refine .bind hw ((superclass_runs hi hso hb hw).follows hw) fun superclass w1 hw1 hg1 ⟨hs, hf⟩ => .get ?_
    -- In between types may have been loaded, but the class itself is as it was.
    obtain ⟨info1, hi1, hh⟩ := hf.kept id ⟨info, hi, hb⟩ info hi hso
    refine .bind hw1 (superInterfaces_runs hi1 (hh.isCompiled.trans hso)
      (hh.begun.trans hb) hw1) fun ifaces w2 hw2 hg2 hin => .get (.pure ?_)
    rintro super ⟨-, info', hi', -, stored, hst, he⟩
    cases hi.symm.trans hi'
    have hr : w.role super = .declared := by
      obtain ⟨erased, he', hr⟩ := hw.linked.settled hi hso hst
      cases he.symm.trans he'
      exact hr
    obtain hst | hst := List.mem_append.1 hst
    · obtain ⟨tgt, rfl, ht⟩ := hs stored super (Option.mem_toList.1 hst) he hr
      simp [ht]
    · obtain ⟨tgt, ht, he⟩ := hin stored (hh.interfaces ▸ hst) super (hg1.erasureClass? he hr) (hg1.role_declared hr)
      exact List.mem_append_right _ (List.mem_filterMap.2 ⟨tgt, ht, he⟩)
  · exact (RunsIn.of_orderly hw).mono fun _ _ _ super h => absurd ⟨super, h⟩ hc

theorem connectedSupertypes_runs (hw : w.Sound) (id : TypeId) : (connectedSupertypes id).Runs w fun found _ =>
      ∀ super, w.ConnectedTo id super → super ∈ found := by
  refine .get ?_
  split
  · next hc =>
    refine .pure ?_
    rintro super ⟨⟨info, hi, he⟩, -⟩
    simp [hi, ClassInfo.isConnecting, he] at hc
  · exact superErasures_runs hw id

def Explored (test : TypeId → Bool) (edge : TypeId → TypeId → Prop) (met : List TypeId) : Prop :=
  ∃ seen : List TypeId, met ⊆ seen ∧
    ∀ id ∈ seen, test id = false ∧ ∀ super, edge id super → super ∈ seen

theorem Explored.not_reached {test : TypeId → Bool} {edge : TypeId → TypeId → Prop}
    {met : List TypeId} {start tgt : TypeId} (h : Explored test edge met) (hs : start ∈ met)
    (ht : test tgt = true) : ¬ ReflTransGen edge start tgt := by
  obtain ⟨seen, hme, hse⟩ := h
  intro hp
  have hm : tgt ∈ seen := by
    clear ht
    induction hp with
    | refl => exact hme hs
    | tail _ he ih => exact (hse _ ih).2 _ he
  simp [(hse tgt hm).1] at ht

section

variable {arrange : Arrangement} {test : TypeId → Bool} {visit : TypeId → Query (Option (List TypeId))}
  {edge : TypeId → TypeId → Prop} {start : World}

theorem walkFrom_runs (ha : ∀ next waiting id, id ∈ arrange next waiting ↔ id ∈ next ∨ id ∈ waiting)
    (hvi : ∀ id w, w.Sound → start.Follows w → (visit id).Runs w fun found w' =>
      start.Follows w' ∧ ∀ next, found = some next → ∀ super, edge id super → super ∈ next)
    (hw : w.Sound) (hs : start.Follows w) (fuel : Nat) {visited waiting : List TypeId}
    (hv : ∀ id ∈ visited, test id = false ∧ ∀ super, edge id super → super ∈ visited ++ waiting) :
    (walkFrom arrange (fun id => return test id) visit fuel visited waiting).Runs w fun found _ =>
      found = none → Explored test edge (visited ++ waiting) := by
  induction fuel generalizing w visited waiting with
  | zero =>
    cases waiting with
    | nil =>
      rw [List.append_nil] at hv ⊢
      exact .pure fun _ => ⟨visited, fun _ h => h, hv⟩
    | cons cur waiting => exact .giveUp
  | succ fuel ih =>
    cases waiting with
    | nil =>
      rw [List.append_nil] at hv ⊢
      exact .pure fun _ => ⟨visited, fun _ h => h, hv⟩
    | cons cur waiting =>
      rw [walkFrom]
      refine .pure_bind ?_
      split
      · exact .pure (by simp)
      next ht =>
      split
      · next hm =>
        have hm : cur ∈ visited := by simpa using hm
        have hd : ∀ id, id ∈ visited ++ cur :: waiting → id ∈ visited ++ waiting := by
          simp only [List.mem_append, List.mem_cons]
          rintro id (hid | rfl | hid)
          exacts [.inl hid, .inl hm, .inr hid]
        refine (ih hw hs fun id hid => ⟨(hv id hid).1, fun super h =>
          hd super ((hv id hid).2 super h)⟩).mono fun found w' hse hn => ?_
        obtain ⟨seen, hme, hse⟩ := hse hn
        exact ⟨seen, fun id hid => hme (hd id hid), hse⟩
      refine .bind hw (hvi cur w hw hs) fun found w1 hw1 _ hf => ?_
      obtain ⟨hfo, hf⟩ := hf
      cases found with
      | some next =>
        have hk : ∀ id, id ∈ visited ++ cur :: waiting →
            id ∈ (cur :: visited) ++ arrange next waiting := by
          simp only [List.mem_append, List.mem_cons, ha]
          rintro id (hid | rfl | hid)
          exacts [.inl (.inr hid), .inl (.inl rfl), .inr (.inr hid)]
        refine (ih hw1 hfo fun id hid => ?_).mono fun found w' hse hn => ?_
        · obtain rfl | hid := List.mem_cons.1 hid
          · refine ⟨by simpa using ht, fun super h => List.mem_append_right _ ?_⟩
            exact (ha ..).2 (.inl (hf next rfl super h))
          · exact ⟨(hv id hid).1, fun super h => hk super ((hv id hid).2 super h)⟩
        · obtain ⟨seen, hme, hse⟩ := hse hn
          exact ⟨seen, fun id hid => hme (hk id hid), hse⟩
      | none => exact .pure (by simp)

end

theorem mem_depthFirst (next waiting : List TypeId) (id : TypeId) :
    id ∈ Arrangement.depthFirst next waiting ↔ id ∈ next ∨ id ∈ waiting := by
  simp [Arrangement.depthFirst]

theorem hierarchyReaches_runs (hw : w.Sound) (start tgt : TypeId) : (hierarchyReaches start tgt).Runs w fun reaches _ =>
      reaches = false → ¬ ReflTransGen w.ConnectedTo start tgt := by
  have hfo : w.Follows w := (Course.refl w).follows hw
  have hv : ∀ id w1, w1.Sound → w.Follows w1 →
      (some <$> connectedSupertypes id).Runs w1 fun found w2 => w.Follows w2 ∧
        ∀ next, found = some next → ∀ super, w.ConnectedTo id super → super ∈ next := by
    intro id w1 hw1 hfo1
    refine .map _ (((connectedSupertypes_runs hw1 id).follows hw1).mono ?_)
    rintro found w2 ⟨hf, hfo2⟩
    refine ⟨hfo1.trans hw hfo2, ?_⟩
    rintro _ ⟨⟩ super hc
    exact hf super (hc.follows hw.linked hfo1)
  refine .bind hw (.fuel fun budget => walkFrom_runs mem_depthFirst hv hw hfo budget (by simp))
    fun found w' _ _ hf => .pure fun hn => ?_
  refine (hf (by simpa using hn)).not_reached (by simp) ?_
  exact beq_self_eq_true tgt

instance (src : TypeId) (fuel : Nat) (outer : Option TypeId) : (isNestedIn src fuel outer).Orderly := by
  induction fuel generalizing outer with
  | zero => rw [isNestedIn]; infer_instance
  | succ fuel ih =>
    cases outer with
    | none => rw [isNestedIn.eq_def]; infer_instance
    | some outer => rw [isNestedIn]; infer_instance

theorem connect_runs (hw : w.Sound) (id : TypeId) : (connect id).Runs w fun _ w' => w'.Joined id :=
  fun d hd => ⟨hd.connect id w hw, fun a ha =>
    hd.joined id w hw (by rw [show d.connect id w = connect id d w from rfl, ha]; rfl)⟩

theorem clear_of_stuck {src start : TypeId} (hne : start ≠ src)
    (hst : ∀ super, ¬ w.ConnectedTo start super) : w.Clear src start := by
  intro hp
  obtain heq | ⟨super, hs, -⟩ := ReflTransGen.cases_head hp
  · exact hne heq
  · exact hst super hs

theorem closesCycle_runs (hw : w.Sound) (src : TypeId) {sup : TypeId}
    (hr : w.role sup = .declared) : (closesCycle src sup).Runs w fun closes w' => closes = false →
      w'.Joined sup ∧ (w'.FoundationsCompiled → w'.Clear src sup) := by
  have hre : ∀ {w : World}, w.Sound → w.role sup = .declared → w.Joined sup →
      (hierarchyReaches sup src).Runs w fun closes w' => closes = false →
        w'.Joined sup ∧ (w'.FoundationsCompiled → w'.Clear src sup) := by
    intro w hw hr hj
    refine ((hierarchyReaches_runs hw sup src).follows hw).imp hw ?_
    rintro closes w' hw' hg ⟨hno, hf⟩ hcl
    exact ⟨hj.grows hw.linked hg hr, hf.clear hw.linked hw'.linked hr hj (hno hcl)⟩
  unfold closesCycle
  split
  · exact .pure (by simp)
  next hne =>
  refine .get (.after hw fun nested w1 hw1 hg1 => ?_)
  split
  · exact .pure (by simp)
  refine .get ?_
  have hr1 := hg1.role_declared hr
  split
  · next info hi =>
    split
    · next hc =>
      exact hre hw1 hr1 (.inr (declaration?_of_compiled hi hc))
    split
    · next hco =>
      obtain ⟨hb, he⟩ : info.state.hierarchyBegun = true ∧ info.state.hierarchyEnded = false := by
        simpa [ClassInfo.isConnecting] using hco
      refine .pure fun _ => ⟨.inl ⟨info, hi, hb⟩, fun _ => clear_of_stuck hne ?_⟩
      rintro super ⟨⟨info', hi', he'⟩, -⟩
      cases hi.symm.trans hi'
      simp [he] at he'
    dsimp only
    split
    · refine .bind hw1 (connect_runs hw1 sup) fun _ w2 hw2 hg2 hj => ?_
      exact hre hw2 (hg2.role_declared hr1) hj
    · next hb =>
      exact hre hw1 hr1 (.inl ⟨info, hi, by simpa using hb⟩)
  rename_i hn
  obtain ⟨info, hi⟩ := role_eq_declared.1 hr1
  exact absurd hi (hn info)

end Query

end Bindings
