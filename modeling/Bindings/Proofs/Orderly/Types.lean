import Mathlib.Data.List.Forall2
import Bindings.Capture
import Bindings.Proofs.Orderly.Compiled

/-! # Relations between types -/

namespace Bindings

open World Edit

variable {var tgt arg src cand type bound recv container first second : TypeId}
  {fuel i : Nat} {bounds unique found : List TypeId} {info : VariableInfo} {κ α : Type}

theorem Table.mem_insertIn [DecidableEq κ] {key : κ} {value : α} {entries : List (κ × α)}
    {entry : κ × α} (h : entry ∈ Table.insertIn key value entries) : entry = (key, value) ∨ entry ∈ entries := by
  induction entries with
  | nil => exact .inl (List.mem_singleton.1 h)
  | cons first rest ih => grind [Table.insertIn]

def Substitution.Known (s : Substitution) (w : World) : Prop :=
  ∀ entry ∈ s.map.entries, w.Knows entry.2

namespace Substitution.Known

variable {w : World} {s : Substitution}

instance : Stays s.Known := ⟨fun hg h entry he => (h entry he).grows hg⟩

theorem get? (h : s.Known w) (hg : s.get? var = some type) : w.Knows type := h (var, type) (Table.mem_of_findIn hg)

theorem insert (h : s.Known w) (var : TypeId) (ht : w.Knows type) : (s.insert var type).Known w := by
  intro entry he
  obtain rfl | he := Table.mem_insertIn he
  · exact ht
  · exact h entry he

theorem insertAll (h : s.Known w) {pairs : List (TypeId × TypeId)} (hp : ∀ pair ∈ pairs, w.Knows pair.2) :
    (pairs.foldl (fun s (var, type) => s.insert var type) s).Known w := by
  induction pairs generalizing s with
  | nil => exact h
  | cons pair rest ih => exact ih (h.insert pair.1 (hp pair (.head _))) fun other ho => hp other (.tail _ ho)

theorem ofPairs {types : List TypeId} (vars : List TypeId) (ht : ∀ type ∈ types, w.Knows type) :
    (Substitution.ofPairs vars types).Known w :=
  insertAll (fun _ he => by cases he) fun pair hp => ht pair.2 (List.of_mem_zip hp).2

theorem orElse {outer : Substitution} (h : s.Known w) (hou : outer.Known w) : (s.orElse outer).Known w := by
  rw [Substitution.orElse]
  refine List.foldlRecOn (motive := fun map : Table TypeId TypeId => ∀ entry ∈ map.entries, w.Knows entry.2) _ _ h ?_
  intro map hm entry he
  dsimp only
  split
  · exact hm
  intro other ho
  obtain rfl | ho := Table.mem_insertIn ho
  · exact hou entry he
  · exact hm other ho

end Substitution.Known

namespace Query

variable {w : World} {id : TypeId} {s : Substitution}

theorem resolved_knows (hw : w.Sound) (hid : w.Knows id) : (resolved id).Runs w fun tgt w' => w'.Knows tgt := by
  refine (resolved_runs hw id).imp hw fun tgt w' hw' hg hs => ?_
  obtain ⟨-, rfl⟩ | ⟨name, hr⟩ := hs
  · exact hid.grows hg
  · obtain ht | ht := hw'.registered.role_target hr <;> exact lt_size_of_role_ne (by rw [ht]; simp)

theorem objectType_knows (hw : w.Sound) : objectType.Runs w fun id w' => w'.Knows id :=
  (objectType_runs hw).mono fun _ _ h => h.knows

theorem knows_bounds (hw : w.Sound) (h : (w.type var).typeVariable? = some info) :
    ∀ slot ∈ info.slots, w.Knows slot := by
  intro slot hs
  refine hw.stocked (.type var) slot ?_
  cases ht : w.type var with
  | «variable» found =>
    rw [ht] at h
    cases h
    rwa [held, ht]
  | _ => simp [ht] at h

theorem mem_slots_of_erasureBound? {info : TypeInfo} (h : erasureBound? info = some bound) : bound ∈ info.slots := by
  cases info with
  | «variable» info => cases hf : info.firstBound <;> simp_all [erasureBound?]
  | capture info => exact List.mem_append_left _ (List.mem_of_mem_head? h)
  | wildcard info =>
    simp only [erasureBound?] at h
    split at h
    · simp [h]
    · cases h
  | _ => cases h

theorem erasureWithin_knows (hw : w.Sound) (depth : Nat) (hid : w.Knows id) :
    (erasureWithin depth id).Runs w fun erased w' => w'.Knows erased := by
  induction depth generalizing w id with
  | zero =>
    rw [erasureWithin]
    exact .after hw fun _ w1 hw1 _ => objectType_knows hw1
  | succ depth ih =>
    rw [erasureWithin]
    refine .bind hw (resolved_knows hw hid) fun id w1 hw1 _ hid => .get ?_
    have hk := hw1.wellBuilt.known id
    dsimp only
    split
    · exact .pure hid
    · exact .pure hid
    · exact .pure hid
    · exact .pure hid
    · next gen _ _ ht => exact .pure (hk gen (by simp [ht]))
    · next gen _ ht => exact .pure (hk gen (by simp [ht]))
    · next leaf dims ht =>
      refine .bind hw1 (ih hw1 (hk leaf (by simp [ht]))) ?_
      exact fun leaf w2 hw2 _ hl => (arrayType_knows hw2 hl dims).runs hw2
    all_goals
      split
      · next bound hb => exact ih hw1 (hw1.stocked (.type id) bound (mem_slots_of_erasureBound? hb))
      · exact objectType_knows hw1

instance (depth : Nat) : (erasureWithin depth id).Orderly := by
  induction depth generalizing id with
  | zero => rw [erasureWithin]; infer_instance
  | succ depth ih =>
    rw [erasureWithin]
    refine .after fun id => .get fun w => ?_
    dsimp only
    split
    iterate 7 infer_instance
    all_goals split <;> infer_instance

instance : (erasure id).Orderly := by
  unfold erasure
  infer_instance

theorem rawErasure_knows (hw : w.Sound) (hid : w.Knows id) :
    (rawErasure id).Runs w fun erased w' => w'.Knows erased := by
  refine .bind hw (erasureWithin_knows hw _ hid) fun erased w1 hw1 _ he => .get ?_
  split
  · split
    · exact (rawType_knows hw1 _ _).runs hw1
    · exact .pure he
  · split
    · refine .bind hw1 ((rawType_knows hw1 _ _).runs hw1) fun raw w2 hw2 _ hr => ?_
      exact (arrayType_knows hw2 hr _).runs hw2
    · exact .pure he
  · exact .pure he

instance : (rawErasure id).Orderly := by
  refine .after fun erased => .get fun w => ?_
  split <;> infer_instance

theorem substitutionForFrom_known (hw : w.Sound) (fuel : Nat) (receiver : TypeId) :
    (substitutionForFrom fuel receiver).Runs w fun s w' => s.Known w' := by
  induction fuel generalizing w receiver with
  | zero => exact .giveUp
  | succ fuel ih =>
    rw [substitutionForFrom]
    refine .after hw fun receiver w1 hw1 _ => .get ?_
    dsimp only
    split
    · next gen arguments encl ht =>
      have ha : ∀ argument ∈ arguments, w1.Knows argument := fun argument hm =>
        hw1.wellBuilt.known receiver argument (by simp [ht, hm])
      have how := Substitution.Known.ofPairs (((w1.class? gen).map (·.typeVariables)).getD []) ha
      split
      · refine .bind hw1 (ih hw1 _) fun outer w2 _ hg ho => .pure ?_
        exact Substitution.Known.orElse (Stays.grows hg how) ho
      · exact .pure how
    all_goals exact .pure fun _ he => by cases he

theorem substitutionFor_known (hw : w.Sound) (recv : TypeId) : (substitutionFor recv).Runs w fun s w' => s.Known w' :=
  .fuel fun budget => substitutionForFrom_known hw budget recv

instance : (substitutionForFrom fuel recv).Orderly := by
  induction fuel generalizing recv with
  | zero => rw [substitutionForFrom]; infer_instance
  | succ fuel ih =>
    rw [substitutionForFrom]
    refine .after fun recv => .get fun w => ?_
    dsimp only
    split
    · split <;> infer_instance
    · infer_instance
    · infer_instance

instance : (substitutionFor recv).Orderly := by
  unfold substitutionFor
  infer_instance

instance : (substituteFrom s fuel id).Orderly := by
  induction fuel generalizing id with
  | zero => rw [substituteFrom]; infer_instance
  | succ fuel ih =>
    rw [substituteFrom]
    refine .after fun id => .get fun w => ?_
    split
    · split <;> infer_instance
    all_goals infer_instance

instance : (substitute s id).Orderly := by
  unfold substitute
  infer_instance

section

variable {s : Substitution} {id : TypeId}

theorem substituteFrom_knows (hw : w.Sound) (hs : s.Known w) (fuel : Nat)
    (hid : w.Knows id) : (substituteFrom s fuel id).Runs w fun res w' => w'.Knows res := by
  induction fuel generalizing w id with
  | zero => exact .giveUp
  | succ fuel ih =>
    rw [substituteFrom]
    refine .bind hw (resolved_knows hw hid) fun id w1 hw1 hg1 hid => .get ?_
    have hs1 : s.Known w1 := Stays.grows hg1 hs
    split
    · split
      · next replacement hge => exact .pure (hs1.get? hge)
      · split
        · exact rawErasure_knows hw1 hid
        · exact .pure hid
    · split
      · exact (rawType_knows hw1 _ _).runs hw1
      · refine .after hw1 fun arguments w2 hw2 hg2 => .after hw2 fun enclosing w3 hw3 hg3 => ?_
        split
        · exact .pure (hid.grows (hg2.trans hg3))
        · exact (parameterizedType_knows hw3 _ _ _).runs hw3
    · next leaf dims ht =>
      have hl := hw1.wellBuilt.known id leaf (by simp [ht])
      refine .bind hw1 (ih hw1 hs1 hl) fun newLeaf w2 hw2 hg2 hn => ?_
      split
      · exact .pure (hid.grows hg2)
      · exact (arrayType_knows hw2 hn _).runs hw2
    · refine .after hw1 fun bound w2 hw2 hg2 => .after hw2 fun others w3 hw3 hg3 => ?_
      split
      · exact .pure (hid.grows (hg2.trans hg3))
      · exact (wildcard_knows hw3 _ _ _ _ _).runs hw3
    · exact .pure hid

theorem substitute_knows (hw : w.Sound) (hs : s.Known w) (hid : w.Knows id) :
    (substitute s id).Runs w fun res w' => w'.Knows res := by
  rw [substitute]
  split
  · exact .pure hid
  · exact .fuel fun budget => substituteFrom_knows hw hs budget hid

theorem substituteAll_knows (hw : w.Sound) (hs : s.Known w) {ids : List TypeId} (hi : ∀ id ∈ ids, w.Knows id) :
    (ids.mapM (substitute s)).Runs w fun results w' => ∀ res ∈ results, w'.Knows res :=
  .mapM_each s.Known (fun _ hw hs _ hid => substitute_knows hw hs hid) hw hs hi

end

instance : (ensureSupertypes id).Orderly := by
  refine .get fun w => ?_
  split <;> infer_instance

instance : (superclassFrom fuel id).Orderly := by
  induction fuel generalizing id with
  | zero => rw [superclassFrom]; infer_instance
  | succ fuel ih =>
    rw [superclassFrom]
    refine .after fun id => .get fun w => ?_
    split
    · infer_instance
    · refine .after fun sup => ?_
      split <;> infer_instance
    · refine .after fun sup => ?_
      split <;> infer_instance
    · infer_instance
    · infer_instance
    · split <;> infer_instance
    · split <;> infer_instance
    all_goals infer_instance

instance : (superclass id).Orderly := by
  unfold superclass
  infer_instance

instance : arrayInterfaces.Orderly := by
  unfold arrayInterfaces
  infer_instance

instance : (superInterfacesFrom fuel id).Orderly := by
  induction fuel generalizing id with
  | zero => rw [superInterfacesFrom]; infer_instance
  | succ fuel ih =>
    rw [superInterfacesFrom]
    refine .after fun id => .get fun w => ?_
    split <;> infer_instance

instance : (superInterfaces id).Orderly := by
  unfold superInterfaces
  infer_instance

instance : (supertypes id).Orderly := by
  unfold supertypes
  infer_instance

instance : (superErasures id).Orderly := by
  unfold superErasures
  infer_instance

instance (sub sup : TypeId) : (isSubclassOf sub sup).Orderly := by
  refine .get fun w => ?_
  split <;> infer_instance

instance : (hasNoMembersFlag id).Orderly := by
  unfold hasNoMembersFlag
  infer_instance

instance : (visitForMembers id).Orderly := by
  unfold visitForMembers
  infer_instance

theorem hasNoMemberTypes_runs (hw : w.Sound) (id : TypeId) :
    (hasNoMemberTypes id).RunsIn (some .mark) w fun _ _ => True := by
  refine .get ?_
  split
  · next erased _ =>
    refine .bind hw (.of_orderly hw) fun known w1 hw1 _ _ => ?_
    split
    · exact .pure trivial
    refine .bind hw1 (.of_orderly hw1) fun budget w2 hw2 _ _ => ?_
    refine .bind hw2 (.of_orderly hw2) fun found w3 hw3 _ _ => ?_
    split
    · exact .pure trivial
    refine .get ?_
    split
    · have hm : (liftM (modifyState erased fun state => { state with noMemberTypes := true }) :
          Query Unit).RunsIn (some .mark) w3 fun _ _ => True := .tend (.mark erased) trivial
      exact .bind hw3 hm fun _ _ _ _ _ => .pure trivial
    · exact .pure trivial
  · exact .pure trivial

instance : (asSuperType id tgt).Orderly := by
  unfold asSuperType
  infer_instance

section

variable {compatible : TypeId → TypeId → Query Bool} [hcompatible : ∀ src tgt, (compatible src tgt).Orderly]

instance : (containsBy compatible container arg).Orderly := by
  refine .after fun container => .after fun arg => ?_
  split
  · infer_instance
  refine .get fun w => ?_
  split
  · split
    · infer_instance
    · infer_instance
    · infer_instance
    · split <;> infer_instance
    · infer_instance
    · split <;> infer_instance
  · infer_instance

instance : (boundCompatible compatible src tgt).Orderly := by
  refine .get fun w => ?_
  split <;> infer_instance

instance (leaf : TypeId) (dims : UInt32) : (arrayCompatible compatible leaf dims tgt).Orderly := by
  refine .get fun w => ?_
  split <;> infer_instance

instance : (classCompatible compatible src tgt).Orderly := by
  refine .get fun w => ?_
  split
  · refine .after fun sup => ?_
    split
    · refine .get fun w => ?_
      split
      · split
        · infer_instance
        · exact .allM (h := fun ⟨_, _⟩ => inferInstance)
      · exact .bind (.apart fun w => { Apart.refl w with }) fun _ => inferInstance
      · infer_instance
    · infer_instance
  · infer_instance

instance : (referenceCompatible compatible src tgt).Orderly := by
  unfold referenceCompatible
  have hs : (do
      match (← get).type src with
      | .variable _ | .capture _ | .wildcard _ => boundCompatible compatible src tgt
      | .array leaf dims => arrayCompatible compatible leaf dims tgt
      | .declared _ | .parameterized .. | .raw .. => classCompatible compatible src tgt
      | _ => return false : Query Bool).Orderly := by
    refine .get fun w => ?_
    split <;> infer_instance
  refine .get fun w => ?_
  split
  · split <;> infer_instance
  · infer_instance
  · split
    · infer_instance
    · exact hs
  · exact hs

end

instance (decide : Query Bool) [hde : decide.Orderly] : (guarded src tgt decide).Orderly := by
  refine .get fun w => ?_
  split
  · infer_instance
  · refine .guard hde (fun _ => rfl) fun w w1 hc hd => ?_
    rw [hc, List.erase_cons_head, ← hd]

instance : (compatibleFrom fuel src tgt).Orderly := by
  induction fuel generalizing src tgt with
  | zero => rw [compatibleFrom]; infer_instance
  | succ fuel ih =>
    rw [compatibleFrom]
    refine .after fun src => .after fun tgt => ?_
    split
    · infer_instance
    · refine .get fun w => ?_
      split <;> infer_instance

instance : (compatible src tgt).Orderly := by
  unfold compatible
  infer_instance

instance : (argumentContains container arg).Orderly := by
  unfold argumentContains
  infer_instance

instance : (checkCompatible src tgt).Orderly := by
  unfold checkCompatible
  infer_instance

instance : (substitutedBounds s info).Orderly := by
  unfold substitutedBounds
  split <;> infer_instance

instance (variableBound : TypeId) : (mayMeet bound variableBound).Orderly := by
  unfold mayMeet
  infer_instance

instance (worst : BoundCheck) : (checkAgainst arg worst bounds).Orderly := by
  induction bounds generalizing worst with
  | nil => rw [checkAgainst]; infer_instance
  | cons bound bounds ih =>
    rw [checkAgainst]
    exact .after fun ⟨_, _⟩ => inferInstance

instance (info : WildcardInfo) : (checkWildcard info bounds).Orderly := by
  unfold checkWildcard
  dsimp only
  split <;> infer_instance

instance : (boundCheck s var arg).Orderly := by
  refine .after fun arg => .get fun w => ?_
  split
  · refine .after fun bounds => ?_
    split
    · infer_instance
    · refine .get fun w => ?_
      split <;> infer_instance
  · infer_instance

instance (gen : TypeId) : (reportArgument s gen var arg).Orderly := by
  refine .after fun outcome => .get fun w => ?_
  dsimp only
  split <;> infer_instance

instance : (checkArguments id).Orderly := by
  refine .get fun w => ?_
  split
  · exact .forM (h := fun ⟨_, _⟩ => inferInstance)
  · infer_instance

instance (types : List TypeId) : (resolvedUnique types unique).Orderly := by
  induction types generalizing unique with
  | nil => rw [resolvedUnique]; infer_instance
  | cons id rest ih => rw [resolvedUnique]; infer_instance

instance (above : List TypeId) : (addErasures above found).Orderly := by
  induction above generalizing found with
  | nil => rw [addErasures]; infer_instance
  | cons sup rest ih => rw [addErasures]; infer_instance

instance : (erasedSupertypesFrom fuel i found).Orderly := by
  induction fuel generalizing i found with
  | zero => rw [erasedSupertypesFrom]; infer_instance
  | succ fuel ih =>
    rw [erasedSupertypesFrom]
    split <;> infer_instance

instance : (erasedSupertypes id).Orderly := by
  unfold erasedSupertypes
  infer_instance

instance (types : List TypeId) : (commonSupertypes types).Orderly := by
  unfold commonSupertypes
  split <;> infer_instance

instance (cands : List TypeId) : (isMinimal cands cand).Orderly := by
  unfold isMinimal
  infer_instance

instance : (argumentUpperBound arg).Orderly := by
  refine .get fun w => ?_
  split
  · split <;> infer_instance
  · infer_instance

instance (types : List TypeId) : (invocations cand types).Orderly := by
  induction types with
  | nil => rw [invocations]; infer_instance
  | cons id rest ih =>
    rw [invocations]
    refine .after fun sup => ?_
    split
    · infer_instance
    · refine .get fun w => ?_
      split <;> infer_instance

instance : (intersection bounds).Orderly := by
  refine .get fun w => ?_
  dsimp only
  split <;> infer_instance

section

variable {join : List TypeId → Query (Option TypeId)} [hjoin : ∀ types, (join types).Orderly]

instance (rank : Nat) (column : List TypeId) : (joinArgument join cand rank column).Orderly := by
  unfold joinArgument
  split
  · infer_instance
  split
  · infer_instance
  · refine .after fun uppers => .after fun bound => ?_
    split <;> infer_instance

instance (types : List TypeId) : (joinCandidate join types cand).Orderly := by
  refine .get fun w => ?_
  split
  · infer_instance
  · refine .after fun rows => ?_
    split <;> infer_instance

instance (types : List TypeId) : (joinDistinct join types).Orderly := by
  unfold joinDistinct
  infer_instance

end

variable {args arguments types : List TypeId} {encl : Option TypeId} {gen id : TypeId} {pos position : Nat}

instance : (joinFrom fuel types).Orderly := by
  induction fuel generalizing types with
  | zero => rw [joinFrom]; infer_instance
  | succ fuel ih =>
    rw [joinFrom]
    refine .after fun unique => .get fun w => ?_
    dsimp only
    split
    · infer_instance
    split
    · infer_instance
    · infer_instance
    split
    · infer_instance
    · refine .guard inferInstance (fun _ => rfl) fun w w1 hc hd => ?_
      rw [hd, Nat.add_sub_cancel, ← hc]

instance : (leastUpperBound types).Orderly := by
  unfold leastUpperBound
  infer_instance

instance : (isRedundant types id i).Orderly := .anyM (h := fun ⟨_, _⟩ => inferInstance)

instance : (greatestLowerBound types).Orderly := by
  refine .after fun unique => ?_
  exact .bind (.filterM (h := fun ⟨_, _⟩ => inferInstance)) fun kept => inferInstance

instance : (argumentBounds arg).Orderly := by
  refine .after fun arg => .get fun w => ?_
  split
  · split <;> infer_instance
  · infer_instance

instance (a b : Option TypeId) : (combineLower first second a b).Orderly := by
  unfold combineLower
  split <;> infer_instance

instance : (combineArguments first second).Orderly := by
  refine .after fun a => .after fun b => ?_
  refine .after fun upper => ?_
  split
  · refine .after fun lower => ?_
    split <;> infer_instance
  · infer_instance

instance (wild : TypeId) : (newCapture src pos wild).Orderly where
  course w hw := by
    have hc : Course none none w { w with captureCount := w.captureCount + 1 } :=
      .apart { Apart.refl w with captureCount := Nat.le_succ _ }
    refine hc.trans (.add _ (.variableLike rfl trivial ?_) fun _ hs => (by cases hs))
    rintro _ _ ⟨⟩
    exact ⟨Nat.le_refl _, fun id pos earlier hid => Nat.lt_succ_of_le (hw.numbered id pos earlier hid)⟩
  classPath _ := rfl

instance : (captureArgument src pos arg).Orderly := by
  refine .after fun w => ?_
  split <;> infer_instance

theorem captureArgument_captures (src : TypeId) (pos : Nat) (h : w.Knows arg) :
    (captureArgument src pos arg).Gives w fun id w' =>
      (w'.Knows id ∧ (arg ≠ id → ¬ w.Knows id)) ∧ w.Prolongs w' ∧ w'.CapturesArgument pos arg id := by
  refine .get ?_
  split
  · next info hi =>
    have hp : ∀ id, (newCapture src pos arg w).2.type id = _ := type_of_push (w := w) rfl
    have hs : w.Prolongs (newCapture src pos arg w).2 := .push rfl rfl rfl rfl
    refine ⟨⟨Nat.lt_of_lt_of_eq (Nat.lt_succ_self _) (Array.size_push ..).symm, fun _ => Nat.lt_irrefl _⟩, hs,
      .inl ⟨?_, ?_⟩⟩
    · rw [hs.type arg h, ← TypeInfo.isSome_wildcard?, hi]
      rfl
    · exact ⟨w.captureCount + 1, congrArg TypeInfo.sort ((hp ⟨w.types.size⟩).trans (if_pos rfl))⟩
  rename_i hn
  refine ⟨⟨h, fun hne => absurd rfl hne⟩, .refl w, .inr ⟨h, fun hsor => ?_, rfl⟩⟩
  have hso : (w.type arg).wildcard?.isSome := TypeInfo.isSome_wildcard?.2 hsor
  rw [hn] at hso
  cases hso

theorem captureArguments_apply (hw : w.Sound) (src : TypeId) (pos : Nat) (h : ∀ arg ∈ args, w.Knows arg) :
    ∃ cap w1, (∀ d, (args.mapM fun arg => captureArgument src pos arg : Query _) d w =
        (.ok cap, w1)) ∧ Course none none w w1 ∧ (∀ id ∈ cap, w1.Knows id) ∧ w.Prolongs w1 ∧
      List.Forall₂ (w1.CapturesArgument pos) args cap ∧ w.CapturesApart (args.zip cap) := by
  induction args generalizing w with
  | nil => exact ⟨[], w, fun _ => rfl, .refl w, by simp, .refl w, .nil, by simp [CapturesApart]⟩
  | cons arg rest ih =>
    have ha := h arg (.head _)
    obtain ⟨⟨hid, hn⟩, hs, hca⟩ := captureArgument_captures src pos ha
    have hc := (inferInstance : (captureArgument src pos arg).Orderly).course w hw
    obtain ⟨cap, w2, hr, hc2, hk, hs2, hre, hap⟩ := ih (hc.sound hw) fun arg hm => (h arg (.tail _ hm)).grows hc.grows
    refine ⟨(captureArgument src pos arg w).1 :: cap, w2, fun d => ?_, hc.trans hc2,
      List.forall_mem_cons.2 ⟨hid.grows hc2.grows, hk⟩, hs.trans hc.grows.size hs2,
      .cons (hca.grows hc2.grows) hre, ?_, .cons (fun pair hp hne heq => ?_) hap.2⟩
    rotate_left
    · refine List.forall_mem_cons.2 ⟨hn, fun pair hp hne hkn => ?_⟩
      exact hap.1 pair hp hne (hkn.grows hc.grows)
    · exact hap.1 pair hp hne (heq ▸ hid)
    have hf : (liftM (captureArgument src pos arg) : Query TypeId) d w =
      (.ok (captureArgument src pos arg w).1, (captureArgument src pos arg w).2) := rfl
    rw [List.mapM_cons, bind_ok d w hf, bind_ok d _ (hr d)]
    rfl

theorem resolvedUnique_knows (hw : w.Sound) (ht : ∀ id ∈ types, w.Knows id) (hu : ∀ id ∈ unique, w.Knows id) :
    (resolvedUnique types unique).Runs w fun found w' => ∀ id ∈ found, w'.Knows id := by
  induction types generalizing w unique with
  | nil => exact .pure hu
  | cons id rest ih =>
    rw [resolvedUnique]
    refine .bind hw (resolved_knows hw (ht id (.head _))) fun tgt w1 hw1 hg hta => ?_
    have hu1 : ∀ id ∈ unique, w1.Knows id := fun id hid => (hu id hid).grows hg
    refine ih hw1 (fun id hid => (ht id (.tail _ hid)).grows hg) ?_
    split
    · exact hu1
    · simpa [or_imp, forall_and] using ⟨hu1, hta⟩

theorem greatestLowerBound_knows (hw : w.Sound) (ht : ∀ id ∈ types, w.Knows id) :
    (greatestLowerBound types).Runs w fun found w' => ∀ bounds ∈ found, ∀ id ∈ bounds, w'.Knows id := by
  refine .bind hw (resolvedUnique_knows hw ht (by simp)) fun unique w1 hw1 _ hu => ?_
  refine .bind hw1 (.filterM (fun ⟨_, _⟩ => inferInstance) hw1 _) fun kept w2 _ hg hk => .get (.pure ?_)
  intro bounds hb id hid
  split at hb
  · cases hb
  cases hb
  obtain ⟨⟨_, i⟩, hm, rfl⟩ := List.mem_map.1 hid
  exact (hu _ (List.fst_mem_of_mem_zipIdx (hk hm))).grows hg

theorem declaredBounds_knows (hw : w.Sound) (hs : s.Known w) (object : TypeId) (var : Option TypeId) :
    (declaredBounds s object var).Runs w fun bounds w' => ∀ bound ∈ bounds, w'.Knows bound := by
  refine .get ?_
  split
  · exact .pure (by simp)
  rename_i info hi
  obtain ⟨var, -, hv⟩ := Option.bind_eq_some_iff.1 hi
  have hsl := knows_bounds hw hv
  have hsu : ∀ sup ∈ info.superclass.filter (· != object), w.Knows sup :=
    fun sup hm => hsl sup (by
      simp [(Option.filter_eq_some_iff.1 hm).1])
  refine .bind hw (.optionMapM fun sup hm => substitute_knows hw hs (hsu sup hm)) fun sup w1 hw1 hg1 hk1 => ?_
  have hin : ∀ iface ∈ info.interfaces, w1.Knows iface := fun iface hm =>
    (hsl iface (by simp [hm])).grows hg1
  refine .bind hw1 (substituteAll_knows hw1 (Stays.grows hg1 hs) hin) fun ifaces w2 _ hg2 hk2 => .pure ?_
  intro bound hb
  obtain hb | hb := List.mem_append.1 hb
  · exact (hk1 bound (Option.mem_toList.1 hb)).grows hg2
  · exact hk2 bound hb

theorem setCaptureBounds_runs (cap : TypeId) {upper : List TypeId} {lower : Option TypeId}
    (hu : ∀ bound ∈ upper, w.Knows bound) (hl : ∀ bound ∈ lower, w.Knows bound) :
    (modify (·.modifyType cap <| .mapCapture fun info =>
      { info with upperBounds := upper, lowerBound := lower }) : Query Unit).Runs w fun _ _ => True := by
  refine .of_modify (.bound _ _ (fun info => ?_) fun slot hs => ?_) trivial
  · cases info with
    | capture info => exact .inr ⟨rfl, rfl, rfl, trivial⟩
    | _ => exact .inl rfl
  · cases ht : w.type cap with
    | capture info =>
      rw [ht] at hs
      refine .inr ⟨?_, fun _ => .inr (by rw [upkeep, ht]; rfl)⟩
      obtain hs | hs := List.mem_append.1 hs
      · exact hu slot hs
      · exact hl slot (Option.mem_toList.1 hs)
    | _ => exact .inl (by rwa [ht] at hs)

theorem boundCapture_orderly {object : TypeId} (var : Option TypeId) (argument cap : TypeId) :
    (boundCapture s object var argument cap).OrderlyWhen fun w => s.Known w ∧ w.Knows object := by
  rintro w hw ⟨hs, ho⟩
  refine .bind hw (declaredBounds_knows hw hs object var) fun declared w1 hw1 hg1 hd => .get ?_
  split
  · next wild hwi =>
    have ht : w1.type argument = .wildcard wild := by
      cases ht : w1.type argument <;> simp_all [TypeInfo.wildcard?]
    have hk := hw1.wellBuilt.known argument
    have hse : ∀ (upper : List TypeId) (lower : Option TypeId) (w2 : World), w1.Grows w2 →
        (∀ bound ∈ upper, w2.Knows bound) → (∀ bound ∈ lower, w2.Knows bound) →
        (modify (·.modifyType cap <| .mapCapture fun info =>
          { info with upperBounds := if upper.isEmpty then [object] else upper, lowerBound := lower }) :
            Query Unit).Runs w2 fun _ _ => True := by
      intro upper lower w2 hg2 hu hl
      refine setCaptureBounds_runs cap ?_ hl
      split
      · simpa using ho.grows (hg1.trans hg2)
      · exact hu
    dsimp only
    split
    · next bound _ hb =>
      have how : ∀ id ∈ bound :: wild.otherBounds, w1.Knows id := fun id hid =>
        hk id (by
          rw [ht, TypeInfo.components, hb]
          simpa using .inr (List.mem_cons.1 hid))
      have ha : ∀ id ∈ (bound :: wild.otherBounds) ++ declared, w1.Knows id := fun id hid =>
        (List.mem_append.1 hid).elim (how id) (hd id)
      refine .bind hw1 (greatestLowerBound_knows hw1 ha) fun meet w2 _ hg2 hm => ?_
      refine hse _ none w2 hg2 (fun id hid => ?_) (by simp)
      cases meet with
      | none => exact (how id hid).grows hg2
      | some bounds => exact hm bounds rfl id hid
    · next bound _ hb =>
      refine hse declared (some bound) w1 (.refl w1) hd fun id hid => ?_
      cases hid
      exact hk bound (by simp [ht, hb])
    · exact hse declared none w1 (.refl w1) hd (by simp)
  · exact .pure trivial

theorem boundCaptures_orderly (gen : TypeId) (args newArguments : List TypeId) :
    (boundCaptures gen args newArguments).OrderlyWhen fun w => ∀ id ∈ newArguments, w.Knows id := by
  intro w hw hk
  have hl : ∀ (s : Substitution) (object : TypeId) (vars : List TypeId) (pairs : List ((TypeId × TypeId) × Nat)),
      (pairs.forM fun pair => do
        if pair.1.1 ≠ pair.1.2 then boundCapture s object vars[pair.2]? pair.1.1 pair.1.2 :
          Query Unit).OrderlyWhen fun w => s.Known w ∧ w.Knows object := by
    intro s object vars pairs
    refine .forM (fun pair => ?_) pairs
    split
    · exact boundCapture_orderly _ _ _
    · exact .of_orderly
  refine .get (.bind hw (objectType_knows hw) fun object w1 hw1 hg ho => ?_)
  exact hl _ object _ _ w1 hw1 ⟨Stays.grows hg (Substitution.Known.ofPairs _ hk), ho⟩

theorem captureAnew_apply (hw : w.Sound) (ht : w.type id = .parameterized gen arguments encl)
    (hn : w.captures.find? (id, position) = none) :
    ∃ newArguments captured w1, Course none none w w1 ∧ (∀ id ∈ newArguments, w1.Knows id) ∧
      w1.captures.find? (id, position) = some captured ∧
      (∀ d, captureAnew id position gen arguments encl d w =
        (do boundCaptures gen arguments newArguments; return captured : Query TypeId) d w1) ∧
      w.Extends w1 ∧ w1.type captured = .parameterized gen newArguments encl ∧
      List.Forall₂ (w1.CapturesArgument position) arguments newArguments ∧
      w.CapturesApart (arguments.zip newArguments) := by
  have hid : w.Knows id := lt_size_of_type_ne (by rw [ht]; simp)
  have hpa : ∀ part ∈ arguments ++ gen :: encl.toList, w.Knows part := fun part hp =>
    hw.wellBuilt.known id part (by rwa [ht])
  obtain ⟨newArguments, w1, hr, hc1, hk, hs1, hcap, ha⟩ := captureArguments_apply hw gen position
    fun argument hm => hpa argument (List.mem_append_left _ hm)
  have hw1 := hc1.sound hw
  have hg := (hpa gen (List.mem_append_right _ (.head _))).grows hc1.grows
  have hpa1 : ∀ part ∈ newArguments ++ encl.toList, w1.Knows part := fun part hp =>
    (List.mem_append.1 hp).elim (hk part) fun hp => (hpa part (List.mem_append_right _ (.tail _ hp))).grows hc1.grows
  have hma := parameterizedType_type hw1 hg hpa1
  have hc2 := (inferInstance : (parameterizedType gen newArguments encl).Orderly).course w1 hw1
  have hs2 : w1.Prolongs (parameterizedType gen newArguments encl w1).2 :=
    (parameterizedType_interns gen newArguments encl).prolongs w1
  have han : ∀ d, captureAnew id position gen arguments encl d w = _ := fun d => bind_ok d w (hr d)
  generalize hma' : parameterizedType gen newArguments encl w1 = made at hma hc2 hs2
  obtain ⟨captured, w2⟩ := made
  have hs := hs1.trans hc1.grows.size hs2
  have hcap2 : List.Forall₂ (w2.CapturesArgument position) arguments newArguments :=
    hcap.imp fun _ _ h => h.grows hc2.grows
  have hca : w2.CapturedAs position id captured :=
    ⟨gen, arguments, newArguments, encl, (hs.type id hid).trans ht, hma, hcap2⟩
  have hl : w2.Apart { w2 with captures := w2.captures.insert (id, position) captured } :=
    { Apart.refl w2 with
      captured := fun key other ho => by
        rw [Table.find?_insert, if_neg]
        · exact ho
        · rintro rfl
          rw [hs.captures, hn] at ho
          cases ho
      captures := fun other place found hf => by
        rw [Table.find?_insert] at hf
        split at hf
        · next heq =>
          cases heq
          cases hf
          exact .inr hca
        · exact .inl hf }
  refine ⟨newArguments, captured, _, (hc1.trans hc2).trans (.apart hl),
    fun id hid => show w2.Knows id from (hk id hid).grows hc2.grows, ?_, fun d => ?_,
    ⟨hs.type, hs.added, hs.object⟩, hma, hcap2, ha⟩
  · rw [Table.find?_insert, if_pos rfl]
  have hli : (liftM (parameterizedType gen newArguments encl) : Query TypeId) d w1 =
      (.ok (parameterizedType gen newArguments encl w1).1, (parameterizedType gen newArguments encl w1).2) := rfl
  rw [hma'] at hli
  rw [han, bind_ok d w1 hli]
  rfl

theorem captureAnew_leaves (hw : w.Sound) (ht : w.type id = .parameterized gen args encl)
    (hn : w.captures.find? (id, pos) = none) : (captureAnew id pos gen args encl).Leaves w
      fun w' => (w'.captures.find? (id, pos)).isSome := by
  obtain ⟨newArguments, cap, w1, hc, hk, hl, ha, -⟩ := captureAnew_apply hw ht hn
  have hw1 := hc.sound hw
  have hr : (do boundCaptures gen args newArguments; return cap : Query TypeId).Runs w1 fun _ _ => True :=
    (boundCaptures_orderly gen args newArguments w1 hw1 hk).bind hw1 fun _ _ _ _ _ => .pure trivial
  intro d hd
  rw [ha]
  obtain ⟨hr, -⟩ := hr d hd
  exact ⟨hc.trans hr, Option.isSome_of_eq_some (hr.level.captured _ cap hl)⟩

instance : (capture id pos).Orderly where
  runs w hw := by
    refine .after hw fun id w1 hw1 _ => .get ?_
    split
    · next gen args encl ht =>
      split
      · exact .pure trivial
      split
      · exact .pure trivial
      · next hn => exact (captureAnew_leaves hw1 ht hn).runs.mono fun _ _ _ => trivial
    · exact .pure trivial

end Query

end Bindings
