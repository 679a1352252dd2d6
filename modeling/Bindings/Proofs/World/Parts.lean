import Bindings.Proofs.World.Frame

/-! # Parts of class files -/

namespace Bindings

variable {change : ClassInfo → ClassInfo} {w1 w2 : World}

theorem ClassInfo.SamePart.refl (info : ClassInfo) (part : ClassPart) : info.SamePart (fun slot => slot) info part := by
  cases part with
  | superclass => exact (Option.map_id_apply).symm
  | interfaces => exact (List.map_id _).symm
  | members => exact ⟨rfl, rfl⟩
  | memberTypes => exact rfl

theorem ClassInfo.SamePart.trans {a b c : ClassInfo} {part : ClassPart} {f g : TypeId → TypeId}
    (h1 : a.SamePart f b part) (h2 : b.SamePart g c part) : a.SamePart (g ∘ f) c part := by
  cases part with
  | superclass =>
    simp only [SamePart] at h1 h2 ⊢
    rw [h2, h1, Option.map_map]
  | interfaces =>
    simp only [SamePart] at h1 h2 ⊢
    rw [h2, h1, List.map_map]
  | members => exact ⟨h2.1.trans h1.1, h2.2.trans h1.2⟩
  | memberTypes => exact Eq.trans h2 h1

namespace World

variable {w w' : World} {task : Option Task} {stop : Option Halt} {part : ClassPart} {id : TypeId}

def compiledClasses (w : World) : Finset Nat :=
  (Finset.range w.types.size).filter fun index => (w.class? ⟨index⟩).any (·.isCompiled)

def pendingClasses (w : World) (part : ClassPart) : Finset Nat :=
  w.compiledClasses.filter fun index => (w.class? ⟨index⟩).any (·.state.isPending part)

def readClasses (w : World) (part : ClassPart) : Finset Nat :=
  w.compiledClasses.filter fun index => ¬ (w.class? ⟨index⟩).any (·.state.isPending part)

theorem card_readClasses (w : World) (part : ClassPart) :
    (w.readClasses part).card + (w.pendingClasses part).card = w.compiledClasses.card := by
  rw [Nat.add_comm]
  exact Finset.card_filter_add_card_filter_not _

theorem mem_readClasses {i : Nat} : i ∈ w.readClasses part ↔ w.IsRead ⟨i⟩ part := by
  simp only [readClasses, compiledClasses, Finset.mem_filter, Finset.mem_range, IsRead]
  constructor
  · rintro ⟨⟨-, hc⟩, hr⟩
    obtain ⟨info, hi, hc⟩ := (Option.any_eq_true ..).1 hc
    rw [hi] at hr
    exact ⟨info, hi, hc, by simpa using hr⟩
  · rintro ⟨info, hi, hc, hr⟩
    exact ⟨⟨lt_size_of_class? hi, by rw [hi]; exact hc⟩, by rw [hi]; simpa using hr⟩

structure Tallied (w : World) : Prop where
  members : w.stats.memberCompletions = (w.readClasses .members).card
  supertypes : w.stats.supertypeCompletions =
    (w.readClasses .superclass).card + (w.readClasses .interfaces).card

structure ReadsNothing (w w' : World) : Prop where
  isRead : ∀ id part, part ≠ .memberTypes → (w'.IsRead id part ↔ w.IsRead id part)
  members : w'.stats.memberCompletions = w.stats.memberCompletions := by rfl
  supertypes : w'.stats.supertypeCompletions = w.stats.supertypeCompletions := by rfl

namespace ReadsNothing

theorem tallied (h : w.ReadsNothing w') (hw : w.Tallied) : w'.Tallied := by
  have hs : ∀ part, part ≠ .memberTypes → w'.readClasses part = w.readClasses part := by
    intro part hp
    ext i
    rw [mem_readClasses, mem_readClasses, h.isRead _ _ hp]
  refine ⟨?_, ?_⟩
  · rw [h.members, hs _ (by simp), hw.members]
  · rw [h.supertypes, hs _ (by simp), hs _ (by simp), hw.supertypes]

theorem of_types (h : w'.types = w.types) (hm : w'.stats.memberCompletions = w.stats.memberCompletions := by rfl)
    (hs : w'.stats.supertypeCompletions = w.stats.supertypeCompletions := by rfl) :
    w.ReadsNothing w' where
  isRead id part _ := by rw [IsRead, IsRead, class?, class?, type, type, h]
  members := hm
  supertypes := hs

theorem quiet (hg : w.Grows w') (h : w.Quiet w') : w.ReadsNothing w' where
  isRead id part hp := by
    constructor
    · rintro ⟨new, hn, hc, hr⟩
      cases ho : w.class? id with
      | none =>
        -- Of a class that was not there nothing has been read.
        have hu := h.fresh id new hn ho
        cases part with
        | superclass => exact absurd (hu.superclass.symm.trans hr) (by simp)
        | interfaces => exact absurd (hu.interfaces.symm.trans hr) (by simp)
        | members => exact absurd (hu.members.symm.trans hr) (by simp)
        | memberTypes => exact absurd rfl hp
      | some old =>
        obtain ⟨_, _, hn', -, hq⟩ := h.kept id old ho
        obtain ⟨_, hn'', hk⟩ := hg.declared id old ho
        cases hn.symm.trans hn'
        cases hn.symm.trans hn''
        exact ⟨old, ho, hk.isCompiled ▸ hc, hq.pending part ▸ hr⟩
    · rintro ⟨old, ho, hc, hr⟩
      obtain ⟨new, _, hn, -, hq⟩ := h.kept id old ho
      obtain ⟨_, hn', hk⟩ := hg.declared id old ho
      cases hn.symm.trans hn'
      exact ⟨new, hn, hk.isCompiled.trans hc, (hq.pending part).trans hr⟩
  members := h.memberCompletions
  supertypes := h.supertypeCompletions

theorem modifyClass (id : TypeId) (h : ∀ info, w.class? id = some info → (change info).isCompiled = info.isCompiled ∧
      ∀ part, (change info).state.isPending part = info.state.isPending part) :
    w.ReadsNothing (w.modifyClass id change) where
  members := rfl
  supertypes := rfl
  isRead other part _ := by
    rw [IsRead, IsRead, class?_modifyClass]
    split
    · next heq =>
      subst heq
      cases hi : w.class? other with
      | none => simp
      | some info =>
        obtain ⟨hc, hp⟩ := h info hi
        simp [hc, hp]
    · rfl

theorem addSource (info : ClassInfo) (h : info.isCompiled = false) : w.ReadsNothing (w.addType (.declared info)).2 where
  members := rfl
  supertypes := rfl
  isRead id part _ := by
    rw [IsRead, IsRead, class?, type_addType]
    split
    · next hn =>
      have hno : w.class? id = none := by
        rw [class?, type_of_size_le (Nat.le_of_eq hn.symm)]
        rfl
      simp [hno, h]
    · rfl

theorem trans (h1 : w.ReadsNothing w1) (h2 : w1.ReadsNothing w2) : w.ReadsNothing w2 where
  isRead id part hp := (h2.isRead id part hp).trans (h1.isRead id part hp)
  members := h2.members.trans h1.members
  supertypes := h2.supertypes.trans h1.supertypes

end ReadsNothing

theorem Unread.card_beginReading (h : w.Unread id part)
    (part' : ClassPart) : ((w.beginReading id part).readClasses part').card =
      (w.readClasses part').card + if part' = part then 1 else 0 := by
  split
  · next heq =>
    have hn : id.index ∉ w.readClasses part' := by
      rw [mem_readClasses]
      rintro ⟨info, hi, -, hr⟩
      obtain ⟨info', hi', -, hp⟩ := h
      cases hi.symm.trans hi'
      simp [← heq, hr] at hp
    rw [← Finset.card_insert_of_notMem hn]
    congr 1
    ext i
    have hin : (⟨i⟩ : TypeId) = id ↔ i = id.index := by cases id; simp
    simp [mem_readClasses, h.isRead_beginReading, heq, hin, or_comm]
  rename_i hne
  rw [Nat.add_zero]
  refine congrArg Finset.card (Finset.ext fun i => ?_)
  simp [mem_readClasses, h.isRead_beginReading, hne]

theorem Tallied.beginReading (hw : w.Tallied) (h : w.Unread id part) : (w.beginReading id part).Tallied := by
  refine ⟨?_, ?_⟩
  · rw [h.card_beginReading, ← hw.members]
    cases part <;> rfl
  · rw [h.card_beginReading, h.card_beginReading]
    change (w.stats.count part).supertypeCompletions = _
    cases part <;> simp [Stats.count, hw.supertypes] <;> omega

theorem Tallied.opens {task : Task} (hw : w.Tallied) (h : Opens task w w') : w'.Tallied := by
  cases h with
  | read h => exact hw.beginReading h
  | imports => exact ReadsNothing.tallied (w := w) (.of_types rfl) hw
  | form h =>
    have ht := h.aside.types
    obtain ⟨_, -, -, -, -, rfl⟩ := h
    exact (ReadsNothing.of_types ht).tallied hw
  | found => exact hw

theorem Tends.readsNothing {task : Task} (h : Tends task w w') : w.ReadsNothing w' := by
  cases h with
  | fill reading _ _ _ => exact .modifyClass _ fun info _ => by cases reading <;> exact ⟨rfl, fun _ => rfl⟩
  | @declare w info _ _ _ ho =>
    obtain ⟨hq, hg⟩ := quiet_newListedClass w info
    exact (ReadsNothing.addSource _ (ClassInfo.isCompiled_of_source ho)).trans (.quiet hg hq)
  | enclose | endow => exact .modifyClass _ fun _ _ => ⟨rfl, fun _ => rfl⟩
  | mark => exact .modifyClass _ fun _ _ => ⟨rfl, fun part => by cases part <;> rfl⟩
  | store | list | retire | turn | ask => exact .of_types rfl
  | release =>
    rw [releaseUnit_eq]
    split <;> exact .of_types rfl

theorem Course.tallied (h : Course task stop w w') (hw : w.Tallied) : w'.Tallied := by
  have hb : ∀ (w : World) id, w.ReadsNothing (w.beginHierarchy id) := fun w id =>
    .modifyClass id fun _ _ => ⟨rfl, fun part => by cases part <;> rfl⟩
  have he : ∀ (w : World) id, w.ReadsNothing (w.endHierarchy id) := fun w id =>
    .modifyClass id fun _ _ => ⟨rfl, fun part => by cases part <;> rfl⟩
  induction h with
  | halt _ _ ih | inside _ ih | serve _ ih | operate _ _ ih => exact ih hw
  | bracket h _ ih =>
    have hn : ∀ {w w' : World}, w.Neutral w' → w.ReadsNothing w' := fun h =>
      .of_types h.types h.memberCompletions h.supertypeCompletions
    exact (hn h.after).tallied (ih ((hn h.before).tallied hw))
  | abandon stage deferred _ ih => exact (Tends.turn stage deferred).readsNothing.tallied (ih hw)
  | trans _ _ ih1 ih2 | advance _ _ _ ih1 ih2 => exact ih2 (ih1 hw)
  | move h hq => exact (ReadsNothing.quiet h.grows hq).tallied hw
  | tend h => exact h.readsNothing.tallied hw
  | store id change h =>
    refine (ReadsNothing.modifyClass id fun info hi => ?_).tallied hw
    exact ⟨(h info hi).toKeptAs.isCompiled, (h info hi).samePending⟩
  | connect _ _ _ ih => exact (he _ _).tallied (ih ((hb _ _).tallied hw))
  | broken _ _ ih => exact ih ((hb _ _).tallied hw)
  | nest h _ ih => exact ih (hw.opens h)
  | promote _ h ih =>
    have ht := h.aside.types
    obtain ⟨_, -, -, -, rfl⟩ := h
    exact (ReadsNothing.of_types ht).tallied (ih hw)
  | view h _ _ ih | unfilled h _ ih =>
    have ht := h.spares.types
    obtain ⟨_, _, _, -, -, -, -, rfl⟩ := h
    exact ih ((ReadsNothing.of_types ht).tallied hw)

def RetainsPart (w w' : World) (id : TypeId) (part : ClassPart) : Prop :=
  ∀ info, w.class? id = some info → info.isCompiled → info.state.isPending part = false →
    ∃ info' replace, w'.class? id = some info' ∧ info'.isCompiled ∧
      info'.state.isPending part = false ∧ (∀ slot, w'.Replaced slot (replace slot)) ∧
      info.SamePart replace info' part

theorem Replaced.trans (hw : w1.Registered) (hg : w1.Grows w2) {a b c : TypeId}
    (h1 : w1.Replaced a b) (h2 : w2.Replaced b c) : w2.Replaced a c := by
  obtain rfl | ⟨name, h1⟩ := h1
  · exact h2
  have hr : w1.role a = .placeholder name (some b) := TypeInfo.role_eq_placeholder.2 h1
  have hl := TypeInfo.role_eq_placeholder.1 (hg.resolved a name b hr)
  obtain rfl | ⟨other, h2⟩ := h2
  · exact .inr ⟨name, hl⟩
  -- What a placeholder stands for is no placeholder.
  have hn : w2.role b = .declared ∨ w2.role b = .missing := (hw.role_target hr).imp hg.role_declared (hg.missing b)
  rw [World.role, h2] at hn
  simp [TypeInfo.role] at hn

namespace RetainsPart

variable {id : TypeId} {part : ClassPart} {task : Task}

theorem trans (hw : w1.Registered) (hgr : w1.Grows w2)
    (h1 : w.RetainsPart w1 id part) (h2 : w1.RetainsPart w2 id part) : w.RetainsPart w2 id part := by
  intro info hi hc hr
  obtain ⟨info1, f, hi1, hc1, hr1, hf, hs1⟩ := h1 info hi hc hr
  obtain ⟨info2, g, hi2, hc2, hr2, hg, hs2⟩ := h2 info1 hi1 hc1 hr1
  exact ⟨info2, g ∘ f, hi2, hc2, hr2, fun slot => (hf slot).trans hw hgr (hg (f slot)), hs1.trans hs2⟩

theorem of_class? (h : w'.class? id = w.class? id) : w.RetainsPart w' id part :=
  fun info hi hc hr => ⟨info, fun slot => slot, h.trans hi, hc, hr, fun _ => .inl rfl, .refl info part⟩

theorem spares (h : w.Spares w') : w.RetainsPart w' id part := of_class? (by rw [class?, h.type, class?])

theorem quiet (hg : w.Grows w') (h : w.Quiet w') : w.RetainsPart w' id part := by
  intro info hi hc hr
  obtain ⟨new, replace, hn, hre, hq⟩ := h.kept id info hi
  obtain ⟨_, hn', hk⟩ := hg.declared id info hi
  cases hn.symm.trans hn'
  exact ⟨new, replace, hn, hk.isCompiled.trans hc, (hq.pending part).trans hr, hre, hq.parts hc part⟩

theorem modifyClass (other : TypeId) (h : ∀ info, w.class? other = some info → id = other → info.isCompiled →
      info.state.isPending part = false → (change info).isCompiled ∧
        (change info).state.isPending part = false ∧ info.SamePart (fun slot => slot) (change info) part) :
    w.RetainsPart (w.modifyClass other change) id part := by
  intro info hi hc hr
  by_cases heq : id = other
  · obtain ⟨hc', hr', hs⟩ := h info (heq ▸ hi) heq hc hr
    exact ⟨change info, _, by rw [class?_modifyClass, if_pos heq, hi]; rfl, hc', hr', fun _ => .inl rfl, hs⟩
  · exact of_class? (by rw [class?_modifyClass, if_neg heq]) info hi hc hr

theorem modifyState (other : TypeId) (change : ClassState → ClassState)
    (h : ∀ state : ClassState, (change state).isPending part → state.isPending part) :
    w.RetainsPart (w.modifyClass other fun info => { info with state := change info.state }) id part := by
  refine modifyClass other fun info _ _ hc hr => ⟨hc, ?_, ?_⟩
  · by_contra hp
    simp [h info.state (by simpa using hp)] at hr
  · have hs := ClassInfo.SamePart.refl info part
    cases part <;> exact hs

theorem beginHierarchy (other : TypeId) : w.RetainsPart (w.beginHierarchy other) id part :=
  modifyState other ({ · with hierarchyBegun := true }) fun _ h => by cases part <;> exact h

theorem endHierarchy (other : TypeId) : w.RetainsPart (w.endHierarchy other) id part :=
  modifyState other ({ · with hierarchyEnded := true }) fun _ h => by cases part <;> exact h

theorem opens (h : Opens task w w') : w.RetainsPart w' id part := by
  cases h with
  | @read _ other part' _ =>
    refine modifyState other (·.clear part') fun state hp => ?_
    rw [ClassState.isPending_clear, Bool.and_eq_true] at hp
    exact hp.2
  | imports | found => exact of_class? rfl
  | form h => exact spares h.aside.toSpares

theorem tends (h : Tends task w w') (ht : task ≠ .read id part) : w.RetainsPart w' id part := by
  cases h with
  | @fill _ other reading _ _ _ =>
    refine modifyClass other fun info _ heq hc hr => ?_
    have hp : part ≠ reading.part := fun h => ht (by rw [heq, h])
    have hs := ClassInfo.SamePart.refl info part
    cases reading <;> cases part <;> first | exact ⟨hc, hr, hs⟩ | exact absurd rfl hp
  | @declare w info =>
    obtain ⟨hq, hg⟩ := quiet_newListedClass w info
    intro old ho
    exact quiet hg hq old (by rwa [class?, type_addType_of_lt _ (lt_size_of_class? ho)])
  | enclose _ hou _ _ =>
    refine modifyClass _ fun info hi _ hc _ => ?_
    obtain ⟨_, hi', hor⟩ := hou
    cases hi.symm.trans hi'
    simp [ClassInfo.isCompiled_of_source hor] at hc
  | endow => exact modifyClass _ fun info _ _ hc hr => ⟨hc, hr, ClassInfo.SamePart.refl info part⟩
  | store | list | retire | turn | ask => exact of_class? rfl
  | release => exact spares (releaseUnit_aside ..).toSpares
  | mark other => exact modifyState other ({ · with noMemberTypes := true }) fun _ h => by cases part <;> exact h

end RetainsPart

theorem Course.retainsPart (h : Course task stop w w') (hw : w.Sound)
    (ht : task ≠ some (.read id part)) : w.RetainsPart w' id part := by
  induction h with
  | halt _ _ ih => exact ih hw ht
  | inside _ ih | serve _ ih => exact ih hw (by simp)
  | operate ht' _ ih => exact ih hw (by rcases ht' with rfl | rfl | rfl <;> simp)
  | bracket h h1 ih =>
    have hw0 := hw.move (.aside h.before.toAside)
    exact (RetainsPart.trans hw0.registered h1.grows (.spares h.before.toSpares) (ih hw0 (by simp))).trans
      (h1.sound hw0).registered (.spares h.after.toSpares) (.spares h.after.toSpares)
  | abandon _ _ h1 ih =>
    exact (ih hw ht).trans (h1.sound hw).registered (.spares (aside_turn ..).toSpares)
      (.spares (aside_turn ..).toSpares)
  | trans h1 h2 ih1 ih2 => exact (ih1 hw ht).trans (h1.sound hw).registered h2.grows (ih2 (h1.sound hw) ht)
  | advance h1 _ h2 ih1 ih2 => exact (ih1 hw ht).trans (h1.sound hw).registered h2.grows (ih2 (h1.sound hw) (by simp))
  | move h hq => exact .quiet h.grows hq
  | tend h => exact .tends h (by simpa using ht)
  | store other change h =>
    refine .modifyClass other fun info hi _ hc _ => ?_
    simp [(h info hi).source] at hc
  | @connect other _ _ _ h _ ih =>
    have hb := hw.beginHierarchy other
    exact ((RetainsPart.beginHierarchy other).trans hb.registered h.grows (ih hb (by simp))).trans
      (h.sound hb).registered (grows_endHierarchy ..) (.endHierarchy other)
  | @broken _ other _ _ _ h ih =>
    have hb := hw.beginHierarchy other
    exact (RetainsPart.beginHierarchy other).trans hb.registered h.grows (ih hb (by simp))
  | @nest task _ w w1 w2 ho h ih =>
    obtain ⟨_, h0, h1⟩ := ho.moves
    have hw1 := (hw.move h0).move h1
    by_cases hn : task = .read id part
    · -- The part would still have to be read.
      subst hn
      intro info hi hc hr
      cases ho with
      | read hu =>
        obtain ⟨_, hi', -, hp⟩ := hu
        cases hi.symm.trans hi'
        simp [hr] at hp
    · exact (RetainsPart.opens ho).trans hw1.registered h.grows (ih hw1 (by simpa using hn))
  | promote h1 h ih =>
    have hs := h.aside.toSpares
    exact (ih hw (by simp)).trans (h1.sound hw).registered (.spares hs) (.spares hs)
  | view h h1 _ ih | unfilled h h1 ih =>
    exact RetainsPart.trans (h.sound hw).registered h1.grows (.spares h.spares) (ih (h.sound hw) (by simp))

def Membered (w : World) : Prop :=
  ∀ id info, w.class? id = some info → ∀ member ∈ info.members, w.role member = .declared

namespace Membered

variable (hw : w.Membered)

include hw

theorem of_grows (hg : w.Grows w') (h : ∀ id new, w'.class? id = some new → ∀ member ∈ new.members,
      (∃ old, w.class? id = some old ∧ member ∈ old.members) ∨ w.role member = .declared) : w'.Membered := by
  intro id new hn member hm
  apply hg.role_declared
  obtain ⟨old, ho, hm⟩ | hr := h id new hn member hm
  · exact hw id old ho member hm
  · exact hr

theorem spares (h : w.Spares w') : w'.Membered := by
  refine hw.of_grows (.spares h) fun id new hn member hm => .inl ⟨new, ?_, hm⟩
  rwa [class?, h.type] at hn

theorem modifyClass (hg : w.Grows (w.modifyClass id change))
    (h : ∀ info, w.class? id = some info → ∀ member ∈ (change info).members,
      member ∈ info.members ∨ w.role member = .declared) : (w.modifyClass id change).Membered := by
  refine hw.of_grows hg fun other new hn member hm => ?_
  obtain hn | ⟨rfl, old, ho, rfl⟩ := class?_of_modifyClass hn
  · exact .inl ⟨new, hn, hm⟩
  · exact (h old ho member hm).imp_left fun hm => ⟨old, ho, hm⟩

theorem quiet (hg : w.Grows w') (h : w.Quiet w') : w'.Membered := by
  refine hw.of_grows hg fun id new hn member hm => ?_
  cases ho : w.class? id with
  | none => simp [(h.fresh id new hn ho).memberless] at hm
  | some old =>
    obtain ⟨_, _, hn', -, hq⟩ := h.kept id old ho
    cases hn.symm.trans hn'
    exact .inl ⟨old, rfl, hq.members ▸ hm⟩

theorem opens {task : Task} (h : Opens task w w') : w'.Membered := by
  cases h with
  | @read w id part _ =>
    have hc := hw.modifyClass (move_clear w id part).grows fun _ _ _ hm => .inl hm
    exact hc
  | imports => exact hw.spares (aside_beginImports ..).toSpares
  | form h => exact hw.spares h.aside.toSpares
  | found => exact hw

theorem tends {task : Task} (h : Tends task w w') : w'.Membered := by
  have hg := h.move.grows
  cases h with
  | fill reading _ _ hd =>
    refine hw.modifyClass hg fun info _ member hm => ?_
    cases reading with
    | memberTypes members => exact (List.mem_append.1 hm).imp_right fun hm => hd members rfl member hm
    | superclass | interfaces | members => exact .inl hm
  | @declare w info unit path src _ _ _ _ _ hme _ _ _ _ =>
    have ha : (w.addType (.declared info)).2.Membered := by
      refine hw.of_grows (.of_push rfl) fun id new hn member hm => ?_
      rw [class?, type_addType] at hn
      split at hn
      · cases hn
        simp [hme] at hm
      · exact .inl ⟨new, hn, hm⟩
    obtain ⟨hq, hg⟩ := quiet_newListedClass w info
    exact ha.quiet hg hq
  | mark | endow => exact hw.modifyClass hg fun _ _ _ hm => .inl hm
  | enclose _ _ hd _ =>
    refine hw.modifyClass hg fun info _ member hm => ?_
    refine (List.mem_append.1 hm).imp_right fun hm => ?_
    obtain ⟨inner, hi, -⟩ := hd
    rw [List.mem_singleton.1 hm]
    exact role_of_class? hi
  | store | list => exact hw.of_grows hg fun _ new hn _ hm => .inl ⟨new, hn, hm⟩
  | release => exact hw.spares (releaseUnit_aside ..).toSpares
  | retire | turn => exact hw.spares { Apart.refl w with }
  | ask => exact hw.spares (neutral_asking ..).toSpares

end Membered

theorem Course.membered (h : Course task stop w w') (hw : w.Membered) : w'.Membered := by
  induction h with
  | halt _ _ ih | inside _ ih | serve _ ih | operate _ _ ih => exact ih hw
  | bracket h _ ih => exact (ih (hw.spares h.before.toSpares)).spares h.after.toSpares
  | promote _ h ih => exact (ih hw).spares h.aside.toSpares
  | abandon _ _ _ ih => exact (ih hw).spares (aside_turn ..).toSpares
  | trans _ _ ih1 ih2 | advance _ _ _ ih1 ih2 => exact ih2 (ih1 hw)
  | move h hq => exact hw.quiet h.grows hq
  | tend h => exact hw.tends h
  | store id change h =>
    have hg : Grows _ _ := .modifyClass id fun info hi => (h info hi).toKeptAs
    exact hw.modifyClass hg fun info hi _ hm => .inl ((h info hi).sameMembers ▸ hm)
  | connect _ _ _ ih =>
    exact (ih (hw.modifyClass (grows_beginHierarchy ..) fun _ _ _ hm => .inl hm)).modifyClass
      (grows_endHierarchy ..) fun _ _ _ hm => .inl hm
  | broken _ _ ih => exact ih (hw.modifyClass (grows_beginHierarchy ..) fun _ _ _ hm => .inl hm)
  | nest h _ ih => exact ih (hw.opens h)
  | view h _ _ ih | unfilled h _ ih => exact ih (hw.spares h.spares)

end World

end Bindings
