import Mathlib.Data.List.Nodup
import Bindings.Proofs.World.Frame

/-! # The types of units -/

namespace Bindings

open World Edit

def Beside (a b : List Nat) : Prop := ¬ a <+: b ∧ ¬ b <+: a

theorem Beside.within {a b inner : List Nat} (h : Beside a b) (hi : a <+: inner) : Beside inner b :=
  ⟨fun hle => h.1 (hi.trans hle), fun hle => (List.prefix_or_prefix_of_prefix hi hle).elim h.1 h.2⟩

theorem beside_siblings {path : List Nat} {first second : Nat} (h : first ≠ second) :
    Beside (path ++ [first]) (path ++ [second]) := by
  simp [Beside, List.prefix_append_right_inj, List.prefix_cons_iff, h, h.symm]

namespace World

variable {w w' : World} {task : Option Task} {stop : Option Halt} {unit : UnitId} {id : TypeId} {ids : List TypeId}
  {path : List Nat}

structure Enumerates (w : World) (unit : UnitId) (path : List Nat) (ids : List TypeId) : Prop where
  declared : ∀ id ∈ ids, ∃ index, w.DeclaredAt id unit (path ++ [index])
  distinct : ids.Pairwise fun a b => ∀ position, w.DeclaredAt a unit position →
    ¬ w.DeclaredAt b unit position

theorem Enumerates.grows (hg : w.Grows w') (h : w.Enumerates unit path ids) : w'.Enumerates unit path ids where
  declared id hid := by
    obtain ⟨index, hat⟩ := h.declared id hid
    exact ⟨index, hat.grows hg⟩
  distinct := by
    refine h.distinct.imp_of_mem fun {a b} ha hb hne pos ha' hb' => ?_
    obtain ⟨i, hai⟩ := h.declared a ha
    obtain ⟨j, hbj⟩ := h.declared b hb
    obtain ⟨-, rfl⟩ := (hai.grows hg).unique ha'
    obtain ⟨-, heq⟩ := (hbj.grows hg).unique hb'
    exact hne _ hai (heq ▸ hbj)

structure Placed (w : World) : Prop where
  types : ∀ unit, w.Enumerates unit [] (w.unit unit).types
  members : ∀ id info unit path, w.class? id = some info → info.origin = .source unit path →
    w.Enumerates unit path info.members
  declared : ∀ id info unit path source, w.class? id = some info → info.origin = .source unit path →
    w.sources.find? unit = some source → source.Declares path info

structure Spread (w : World) (unit : UnitId) (ids : List TypeId) : Prop where
  declared : ∀ id ∈ ids, ∃ path, w.DeclaredAt id unit path
  beside : ids.Pairwise fun a b => ∀ path path', w.DeclaredAt a unit path →
    w.DeclaredAt b unit path' → Beside path path'

theorem Enumerates.spread (h : w.Enumerates unit path ids) : w.Spread unit ids where
  declared id hid := by
    obtain ⟨index, hat⟩ := h.declared id hid
    exact ⟨_, hat⟩
  beside := by
    refine h.distinct.imp_of_mem fun {a b} ha hb hne p q hp hq => ?_
    obtain ⟨i, hi⟩ := h.declared a ha
    obtain ⟨j, hj⟩ := h.declared b hb
    obtain ⟨-, rfl⟩ := hi.unique hp
    obtain ⟨-, rfl⟩ := hj.unique hq
    exact beside_siblings fun heq => hne _ hp (heq ▸ hq)

theorem Placed.enumerates_members (hw : w.Placed) (h : w.DeclaredAt id unit path) :
    w.Enumerates unit path (((w.class? id).map (·.members)).getD []) := by
  obtain ⟨info, hi, ho⟩ := h
  rw [hi]
  exact hw.members id info unit path hi ho

theorem Spread.descend (hw : w.Placed) {rest : List TypeId} (h : w.Spread unit (id :: rest)) :
    w.Spread unit (((w.class? id).map (·.members)).getD [] ++ rest) := by
  obtain ⟨path, hat⟩ := h.declared id (List.mem_cons_self ..)
  have hme := hw.enumerates_members hat
  obtain ⟨hf, hr⟩ := List.pairwise_cons.1 h.beside
  refine ⟨fun other ho => ?_, List.pairwise_append.2 ⟨hme.spread.beside, hr, ?_⟩⟩
  · obtain ho | ho := List.mem_append.1 ho
    · exact hme.spread.declared other ho
    · exact h.declared other (List.mem_cons_of_mem _ ho)
  · intro member hm other ho p q hp hq
    obtain ⟨i, hm⟩ := hme.declared member hm
    obtain ⟨-, rfl⟩ := hm.unique hp
    exact (hf other ho path q hat hq).within (List.prefix_append ..)

theorem Spread.typesBelow (hw : w.Placed) (h : w.Spread unit ids) (fuel : Nat) :
    ∀ id ∈ w.typesBelow fuel ids, ∃ outer ∈ ids, ∃ path path', w.DeclaredAt outer unit path ∧
      w.DeclaredAt id unit path' ∧ path <+: path' := by
  induction fuel generalizing ids with
  | zero => cases ids <;> simp [typesBelow]
  | succ fuel ih =>
    cases ids with
    | nil => simp [typesBelow]
    | cons first rest =>
      obtain ⟨path, hf⟩ := h.declared first (List.mem_cons_self ..)
      intro id hid
      rw [typesBelow, List.mem_cons] at hid
      obtain rfl | hid := hid
      · exact ⟨id, List.mem_cons_self .., path, path, hf, hf, List.prefix_refl _⟩
      obtain ⟨outer, ho, p, q, hp, hq, hle⟩ := ih (h.descend hw) id hid
      obtain ho | ho := List.mem_append.1 ho
      · obtain ⟨i, hm⟩ := (hw.enumerates_members hf).declared outer ho
        obtain ⟨-, rfl⟩ := hm.unique hp
        exact ⟨first, List.mem_cons_self .., path, q, hf, hq, (List.prefix_append ..).trans hle⟩
      · exact ⟨outer, List.mem_cons_of_mem _ ho, p, q, hp, hq, hle⟩

theorem Spread.apart_typesBelow (hw : w.Placed) (h : w.Spread unit ids) (fuel : Nat) : (w.typesBelow fuel ids).Pairwise
    fun a b => ∀ pos, w.DeclaredAt a unit pos → ¬ w.DeclaredAt b unit pos := by
  induction fuel generalizing ids with
  | zero => cases ids <;> simp [World.typesBelow]
  | succ fuel ih =>
    cases ids with
    | nil => simp [World.typesBelow]
    | cons first rest =>
      rw [World.typesBelow]
      refine List.pairwise_cons.2 ⟨fun id hid pos hf hat => ?_, ih (h.descend hw)⟩
      obtain ⟨outer, ho, p, q, hp, hq, hle⟩ := (h.descend hw).typesBelow hw fuel id hid
      obtain ⟨-, rfl⟩ := hat.unique hq
      obtain ho | ho := List.mem_append.1 ho
      · -- A member is one position further in than its class.
        obtain ⟨i, hm⟩ := (hw.enumerates_members hf).declared outer ho
        obtain ⟨-, rfl⟩ := hm.unique hp
        exact absurd hle.length_le (by simp)
      · exact ((List.pairwise_cons.1 h.beside).1 outer ho q p hf hp).2 hle

theorem Spread.nodup_typesBelow (hw : w.Placed) (h : w.Spread unit ids) (fuel : Nat) :
    (w.typesBelow fuel ids).Nodup := by
  refine (h.apart_typesBelow hw fuel).imp_of_mem fun {a b} ha _ hne heq => ?_
  obtain ⟨_, _, _, path, _, hat, _⟩ := h.typesBelow hw fuel a ha
  exact hne path hat (heq ▸ hat)

theorem closed_typesBelow {fuel : Nat} (hl : (w.typesBelow fuel ids).length < fuel) :
    ids ⊆ w.typesBelow fuel ids ∧ ∀ id ∈ w.typesBelow fuel ids, ∀ info, w.class? id = some info →
      info.members ⊆ w.typesBelow fuel ids := by
  induction fuel generalizing ids with
  | zero => cases hl
  | succ fuel ih =>
    cases ids with
    | nil => simp [typesBelow]
    | cons first rest =>
      rw [typesBelow] at hl ⊢
      obtain ⟨hn, hc⟩ := ih (Nat.lt_of_succ_lt_succ hl)
      refine ⟨List.cons_subset_cons _ (List.Subset.trans (List.subset_append_right ..) hn), ?_⟩
      intro id hid info hi
      obtain rfl | hid := List.mem_cons.1 hid
      · refine List.Subset.trans ?_ (List.subset_cons_of_subset _ hn)
        rw [hi]
        exact List.subset_append_left ..
      · exact List.subset_cons_of_subset _ (hc id hid info hi)

inductive Within (w : World) (unit : UnitId) : TypeId → Prop
  | listed {id : TypeId} : id ∈ (w.unit unit).types → Within w unit id
  | member {id member : TypeId} {info : ClassInfo} : Within w unit id → w.class? id = some info →
    member ∈ info.members → Within w unit member

theorem Within.typesBelow (h : ∀ id ∈ ids, w.Within unit id) (fuel : Nat) :
    ∀ id ∈ w.typesBelow fuel ids, w.Within unit id := by
  induction fuel generalizing ids with
  | zero => cases ids <;> simp [typesBelow]
  | succ fuel ih =>
    cases ids with
    | nil => simp [typesBelow]
    | cons first rest =>
      obtain ⟨hf, hr⟩ := List.forall_mem_cons.1 h
      rw [typesBelow]
      refine List.forall_mem_cons.2 ⟨hf, ih (List.forall_mem_append.2 ⟨fun member hm => ?_, hr⟩)⟩
      cases hi : w.class? first with
      | none => simp [hi] at hm
      | some info => exact .member hf hi (by simpa [hi] using hm)

theorem Within.declaredAt (hw : w.Placed) (h : w.Within unit id) : ∃ path, w.DeclaredAt id unit path := by
  induction h with
  | listed hid => exact (hw.types unit).spread.declared _ hid
  | member _ hi hm ih =>
    obtain ⟨path, _, hi', ho⟩ := ih
    cases hi.symm.trans hi'
    exact (hw.members _ _ unit path hi ho).spread.declared _ hm

theorem Placed.length_unitTypes (hw : w.Placed) (unit : UnitId) : (w.unitTypes unit).length ≤ w.types.size := by
  have hn : ((w.unitTypes unit).map (·.index)).Nodup :=
    ((hw.types unit).spread.nodup_typesBelow hw _).map fun a b heq => by cases a; cases b; simpa using heq
  have hr : (w.unitTypes unit).map (·.index) ⊆ List.range w.types.size := by
    intro i hin
    obtain ⟨id, hid, rfl⟩ := List.mem_map.1 hin
    obtain ⟨_, info, hi, -⟩ := (Within.typesBelow (fun _ => .listed) _ id hid).declaredAt hw
    exact List.mem_range.2 (lt_size_of_class? hi)
  simpa using (hn.subperm hr).length_le

theorem Placed.mem_unitTypes (hw : w.Placed) : id ∈ w.unitTypes unit ↔ w.Within unit id := by
  refine ⟨Within.typesBelow (fun _ => .listed) _ id, fun h => ?_⟩
  obtain ⟨hl, hc⟩ := closed_typesBelow (Nat.lt_succ_of_le (hw.length_unitTypes unit))
  induction h with
  | listed hid => exact hl hid
  | member _ hi hm ih => exact hc _ ih _ hi hm

theorem Within.of_same (hw : w.Placed) (ht : (w'.unit unit).types = (w.unit unit).types)
    (hme : ∀ id path, w.DeclaredAt id unit path → w.SameMembers w' id)
    (h : w'.Within unit id) : w.Within unit id := by
  induction h with
  | listed hid => exact .listed (ht ▸ hid)
  | member _ hi' hm ih =>
    obtain ⟨path, info, hi, ho⟩ := ih.declaredAt hw
    obtain ⟨_, hi'', -, hs⟩ := hme _ path ⟨info, hi, ho⟩ info hi (ClassInfo.isCompiled_of_source ho)
    cases hi'.symm.trans hi''
    exact .member ih hi (hs ▸ hm)

structure Staged (w : World) : Prop extends w.Placed where
  begun : ∀ unit, Stage.hierarchyConnected.rank ≤ (w.unit unit).stage.rank →
    ∀ id, w.Within unit id → w.Begun id
  built : ∀ unit, (w.unit unit).stage = .membersBuilt → ∀ id, w.Within unit id → w.Built id

theorem Placed.step (hw : w.Placed) (hg : w.Grows w') (hl : w.Lasts w')
    (ht : ∀ unit, (w'.unit unit).types = (w.unit unit).types ∨ w'.Enumerates unit [] (w'.unit unit).types)
    (hm : ∀ id unit path, w'.DeclaredAt id unit path → w.DeclaredAt id unit path ∧ w.SameMembers w' id ∨
        ∀ info, w'.class? id = some info → w'.Enumerates unit path info.members)
    (hd : ∀ id unit path src, w'.DeclaredAt id unit path → w'.sources.find? unit = some src →
        w.DeclaredAt id unit path ∧ w.sources.find? unit = some src ∨
          ∀ info, w'.class? id = some info → src.Declares path info) : w'.Placed where
  types unit := by
    obtain hs | hn := ht unit
    · rw [hs]
      exact (hw.types unit).grows hg
    · exact hn
  members id info' unit path hi' ho' := by
    obtain ⟨⟨info, hi, ho⟩, hs⟩ | hn := hm id unit path ⟨info', hi', ho'⟩
    · obtain ⟨_, hi'', -, heq⟩ := hs info hi (ClassInfo.isCompiled_of_source ho)
      cases hi'.symm.trans hi''
      rw [heq]
      exact (hw.members id info unit path hi ho).grows hg
    · exact hn info' hi'
  declared id info unit path src hi ho hso := by
    obtain ⟨⟨old, hi', ho'⟩, hso⟩ | hn := hd id unit path src ⟨info, hi, ho⟩ hso
    · obtain ⟨decl, hd, hn, hk⟩ := hw.declared id old unit path src hi' ho' hso
      obtain ⟨_, hi1, hke⟩ := hg.declared id old hi'
      cases hi.symm.trans hi1
      obtain ⟨_, hi2, hla⟩ := hl id old hi'
      cases hi.symm.trans hi2
      exact ⟨decl, hd, hn.trans hke.sourceName.symm, hk.trans hla.kind.symm⟩
    · exact hn info hi

def SameUnit (w w' : World) (unit : UnitId) : Prop :=
  (w'.unit unit).stage = (w.unit unit).stage ∧ (w'.unit unit).types = (w.unit unit).types ∧
    ∀ id path, w.DeclaredAt id unit path → w.SameMembers w' id

theorem Staged.step (hw : w.Staged) (hp : w'.Placed) (hg : w.Grows w') (hl : w.Lasts w')
    (h : ∀ unit, (w'.unit unit).stage = .typesBuilt ∨ w.SameUnit w' unit) : w'.Staged where
  toPlaced := hp
  begun unit hr id hid := by
    obtain hf | ⟨hs, ht, hm⟩ := h unit
    · simp [hf, Stage.rank] at hr
    · exact (hw.begun unit (hs ▸ hr) id (hid.of_same hw.toPlaced ht hm)).grows hg
  built unit hla id hid := by
    obtain hf | ⟨hs, ht, hm⟩ := h unit
    · cases hf.symm.trans hla
    · refine Built.lasts hl (hw.built unit (hs.symm.trans hla) id ?_)
      exact hid.of_same hw.toPlaced ht hm

structure Retains (w w' : World) : Prop where
  grows : w.Grows w'
  lasts : w.Lasts w'
  unit : ∀ unit, (w'.unit unit).stage = (w.unit unit).stage ∧
    (w'.unit unit).types = (w.unit unit).types
  sources : ∀ unit source, w'.sources.find? unit = some source → w.sources.find? unit = some source
  declared : ∀ id unit path, w'.DeclaredAt id unit path → w.DeclaredAt id unit path
  members : ∀ id, w.SameMembers w' id

theorem Staged.retains (hw : w.Staged) (h : w.Retains w') : w'.Staged := by
  refine hw.step (hw.toPlaced.step h.grows h.lasts (fun unit => .inl (h.unit unit).2) ?_ ?_) h.grows h.lasts
    fun unit => .inr ⟨(h.unit unit).1, (h.unit unit).2, fun id _ _ => h.members id⟩
  · exact fun id unit path hat => .inl ⟨h.declared id unit path hat, h.members id⟩
  · exact fun id unit path src hat hs => .inl ⟨h.declared id unit path hat, h.sources unit src hs⟩

namespace Retains

theorem spares (h : w.Spares w') (hu : ∀ unit, (w'.unit unit).stage = (w.unit unit).stage ∧
      (w'.unit unit).types = (w.unit unit).types := by exact fun _ => ⟨rfl, rfl⟩)
    (hs : ∀ unit source, w'.sources.find? unit = some source →
      w.sources.find? unit = some source := by exact fun _ _ h => h) : w.Retains w' where
  grows := .spares h
  lasts := .spares h
  unit := hu
  sources := hs
  declared _ _ _ hat := hat.of_spares h
  members _ := .spares h

theorem neutral (h : w.Neutral w') : w.Retains w' :=
  spares h.toSpares h.unit fun unit source hs => by rwa [h.declarations] at hs

theorem modifyUnit {change : UnitInfo → UnitInfo} (h : w.Aside (w.modifyUnit unit change))
    (hs : ∀ info, (change info).stage = info.stage) (ht : ∀ info, (change info).types = info.types) :
    w.Retains (w.modifyUnit unit change) :=
  spares h.toSpares (sameUnits_modifyUnit w unit hs ht).unit

theorem quiet (hw : w.Linked) (h : Move w w') (hq : w.Quiet w') : w.Retains w' where
  grows := h.grows
  lasts := Course.lasts_move hw h
  unit := hq.unit
  sources unit src hs := by rwa [hq.declarations] at hs
  declared id unit path hat := by
    obtain ⟨new, hn, hor⟩ := hat
    cases ho : w.class? id with
    | none =>
      -- A class that is new comes from a class file.
      have hc := (hq.fresh id new hn ho).isCompiled
      simp [ClassInfo.isCompiled_of_source hor] at hc
    | some old =>
      obtain ⟨_, hn', hk⟩ := h.grows.declared id old ho
      cases hn.symm.trans hn'
      exact ⟨old, ho, hk.origin.symm.trans hor⟩
  members _ := .quiet h.grows hq

theorem modifyClass {change : ClassInfo → ClassInfo}
    (hg : w.Grows (w.modifyClass id change)) (hl : w.Lasts (w.modifyClass id change))
    (h : ∀ info, w.class? id = some info → info.isCompiled = false →
      (change info).members = info.members) : w.Retains (w.modifyClass id change) := by
  have hor : ∀ info, w.class? id = some info → (change info).origin = info.origin := by
    intro info hi
    obtain ⟨_, hi', hk⟩ := hg.declared id info hi
    rw [class?_modifyClass, if_pos rfl, hi] at hi'
    cases hi'
    exact hk.origin
  refine ⟨hg, hl, fun _ => ⟨rfl, rfl⟩, fun _ _ hs => hs, ?_, fun other => ?_⟩
  · rintro other unit path ⟨new, hn, hat⟩
    obtain hn | ⟨rfl, old, ho, rfl⟩ := class?_of_modifyClass hn
    · exact ⟨new, hn, hat⟩
    · exact ⟨old, ho, (hor old ho).symm.trans hat⟩
  · exact .modifyClass id fun info hi _ hs => ⟨hor info hi, h info hi hs⟩

theorem beginHierarchy (id : TypeId) : w.Retains (w.beginHierarchy id) :=
  modifyClass (grows_beginHierarchy ..) (lasts_beginHierarchy _ _) fun _ _ _ => rfl

theorem endHierarchy (id : TypeId) : w.Retains (w.endHierarchy id) :=
  modifyClass (grows_endHierarchy ..) (lasts_endHierarchy _ _) fun _ _ _ => rfl

theorem release (unit : UnitId) : w.Retains (releaseUnit unit w).2 := by
  have hsp := (releaseUnit_aside w unit).toSpares
  rw [releaseUnit_eq] at hsp ⊢
  revert hsp
  split <;> intro hsp
  · refine spares hsp (fun _ => ⟨rfl, rfl⟩) fun other source hs => ?_
    rw [Table.find?_erase] at hs
    split at hs
    · cases hs
    · exact hs
  · exact spares { Apart.refl w with }

end Retains

namespace Staged

variable {path : List Nat} {src : SourceUnit} {w1 : World} {task : Task} (hw : w.Staged)

include hw

theorem declare (hl : w.Linked) {info : ClassInfo} (h : Move w (newListedClass info w).2)
    (hor : info.origin = .source unit path) (hm : info.members = [])
    (hso : w.sources.find? unit = some src) (hd : src.Declares path info) :
    (newListedClass info w).2.Staged := by
  obtain ⟨hq, hg⟩ := quiet_newListedClass w info
  have hu : w.SameUnits (newListedClass info w).2 := (Steady.types w _).toSameUnits.trans hq.toSameUnits
  have hs : ∀ id, w.SameMembers (newListedClass info w).2 id := fun id =>
    (SameMembers.addType w (.declared info) id).trans (.quiet hg hq)
  have hc : ∀ id other path', (newListedClass info w).2.DeclaredAt id other path' →
      w.DeclaredAt id other path' ∨ other = unit ∧ path' = path ∧
        ∀ new, (newListedClass info w).2.class? id = some new → new.members = [] ∧ src.Declares path new := by
    rintro id other path' ⟨new, hn, hor'⟩
    cases hmi : (w.addType (.declared info)).2.class? id with
    | none =>
      have hco := (hq.fresh id new hn hmi).isCompiled
      simp [ClassInfo.isCompiled_of_source hor'] at hco
    | some mid =>
      obtain ⟨_, hn', hk⟩ := hg.declared id mid hmi
      cases hn.symm.trans hn'
      obtain ⟨_, _, hn'', -, hqu⟩ := hq.kept id mid hmi
      cases hn.symm.trans hn''
      rw [hk.origin] at hor'
      rw [class?, type_addType] at hmi
      split at hmi
      · cases hmi
        cases hor.symm.trans hor'
        refine .inr ⟨rfl, rfl, fun new' hn' => ?_⟩
        cases hn.symm.trans hn'
        obtain ⟨decl, hd, hna, hki⟩ := hd
        exact ⟨hqu.members.trans hm, decl, hd, hna.trans hk.sourceName.symm, hki.trans hqu.kind.symm⟩
      · exact .inl ⟨mid, hmi, hor'⟩
  have hp : (newListedClass info w).2.Placed := by
    refine hw.toPlaced.step h.grows (Course.lasts_move hl h) (fun other => .inl (hu.unit other).2) ?_ ?_
    · intro id other path' hat
      obtain ho | ⟨-, -, hno⟩ := hc id other path' hat
      · exact .inl ⟨ho, hs id⟩
      refine .inr fun new hn => ?_
      rw [(hno new hn).1]
      exact ⟨by simp, .nil⟩
    · intro id other path' source' hat hso'
      rw [hu.declarations] at hso'
      obtain ho | ⟨rfl, rfl, hde⟩ := hc id other path' hat
      · exact .inl ⟨ho, hso'⟩
      · cases hso.symm.trans hso'
        exact .inr fun new hn => (hde new hn).2
  exact hw.step hp h.grows (Course.lasts_move hl h) fun other =>
    .inr ⟨(hu.unit other).1, (hu.unit other).2, fun id _ _ => hs id⟩

theorem enclose (hli : w.Linked) {outer member : TypeId} {i : Nat}
    (h : Move w (w.modifyClass outer fun info => { info with members := info.members ++ [member] }))
    (hst : (w.unit unit).stage = .typesBuilt) (hou : w.DeclaredAt outer unit path)
    (hm : w.DeclaredAt member unit (path ++ [i]))
    (hno : ∀ info, w.class? outer = some info → ∀ other ∈ info.members, ¬ w.DeclaredAt other unit (path ++ [i])) :
    (w.modifyClass outer fun info => { info with members := info.members ++ [member] }).Staged := by
  have hot : ∀ id, id ≠ outer → w.SameMembers
      (w.modifyClass outer fun info => { info with members := info.members ++ [member] }) id :=
    fun id hne => .modifyClass outer fun _ _ heq _ => absurd heq hne
  have hd : ∀ id other path', (w.modifyClass outer fun info =>
      { info with members := info.members ++ [member] }).DeclaredAt id other path' →
      w.DeclaredAt id other path' := by
    rintro id other path' ⟨new, hn, hor⟩
    obtain hn | ⟨rfl, old, ho, rfl⟩ := class?_of_modifyClass hn
    · exact ⟨new, hn, hor⟩
    · exact ⟨old, ho, hor⟩
  have hp : (w.modifyClass outer fun info =>
      { info with members := info.members ++ [member] }).Placed := by
    refine hw.toPlaced.step h.grows (Course.lasts_move hli h) (fun _ => .inl rfl) (fun id other path' hat => ?_)
      fun id other path' src hat hs => .inl ⟨hd id other path' hat, hs⟩
    by_cases heq : id = outer
    · subst heq
      obtain ⟨rfl, rfl⟩ := hou.unique (hd _ _ _ hat)
      refine .inr fun new hn => ?_
      rw [class?_modifyClass, if_pos rfl] at hn
      obtain ⟨old, ho, rfl⟩ := Option.map_eq_some_iff.1 hn
      obtain ⟨_, ho', hor⟩ := hou
      cases ho.symm.trans ho'
      have hme := hw.members id old _ _ ho hor
      refine Enumerates.grows h.grows ⟨fun other hot => ?_, List.pairwise_append.2
        ⟨hme.distinct, List.pairwise_singleton .., ?_⟩⟩
      · obtain hot | hot := List.mem_append.1 hot
        · exact hme.declared other hot
        · rw [List.mem_singleton.1 hot]
          exact ⟨i, hm⟩
      · intro other hot last hl pos hat hl'
        rw [List.mem_singleton.1 hl] at hl'
        obtain ⟨-, rfl⟩ := hm.unique hl'
        exact hno old ho other hot hat
    · exact .inl ⟨hd _ _ _ hat, hot id heq⟩
  refine hw.step hp h.grows (Course.lasts_move hli h) fun other => ?_
  by_cases heq : other = unit
  · exact .inl (heq ▸ hst)
  refine .inr ⟨rfl, rfl, fun id path' hat => hot id ?_⟩
  rintro rfl
  exact heq (hou.unique hat).1

theorem list (hl : w.Linked) {types : List TypeId}
    (h : Move w (w.modifyUnit unit fun info => { info with types }))
    (hst : (w.unit unit).stage = .typesBuilt) (ht : w.Enumerates unit [] types) :
    (w.modifyUnit unit fun info => { info with types }).Staged := by
  have hp : (w.modifyUnit unit fun info => { info with types }).Placed := by
    refine hw.toPlaced.step h.grows (Course.lasts_move hl h) (fun other => ?_)
      (fun id other path hat => .inl ⟨hat, fun info hi _ => ⟨info, hi, rfl, rfl⟩⟩)
      fun id other path src hat hso => .inl ⟨hat, hso⟩
    by_cases heq : other = unit
    · subst heq
      rcases unit_modifyUnit w other (fun info => { info with types }) other with hs | hn
      · exact .inl (by rw [hs])
      · exact .inr (by rw [hn]; exact ht.grows h.grows)
    · exact .inl (by rw [unit_modifyUnit_ne _ heq])
  refine hw.step hp h.grows (Course.lasts_move hl h) fun other => ?_
  by_cases heq : other = unit
  · left
    subst heq
    rcases unit_modifyUnit w other (fun info => { info with types }) other with hs | hn
    · rw [hs, hst]
    · rw [hn, hst]
  · exact .inr ⟨by rw [unit_modifyUnit_ne _ heq], by rw [unit_modifyUnit_ne _ heq],
      fun id _ _ info hi _ => ⟨info, hi, rfl, rfl⟩⟩

theorem opensUnit (hl : w.Linked) (h : w.OpensUnit unit src w') : w'.Staged := by
  have hsp := h.aside.toSpares
  obtain ⟨info, ht, hst, -, rfl, hw'⟩ := h
  have hu : ∀ other, w'.unit other = if other.index = w.units.size then info else w.unit other :=
    unit_push (by rw [hw'])
  have hp : w'.Placed := by
    refine hw.toPlaced.step (.spares hsp) (.spares hsp) (fun other => ?_)
      (fun id other path hat => .inl ⟨hat.of_spares hsp, .spares hsp⟩) ?_
    · rw [hu]
      split
      · exact .inr (by rw [ht]; exact ⟨by simp, .nil⟩)
      · exact .inl rfl
    · -- No class stands for a declaration of a unit that was not there.
      intro id other path source' hat hs
      obtain ⟨old, hi, ho⟩ := hat.of_spares hsp
      have hlt := (hl.source id old other path hi ho).1
      rw [hw', Table.find?_insert, if_neg (by rintro rfl; exact Nat.lt_irrefl _ hlt)] at hs
      exact .inl ⟨⟨old, hi, ho⟩, hs⟩
  refine hw.step hp (.spares hsp) (.spares hsp) fun other => ?_
  rw [SameUnit, hu]
  split
  · exact .inl hst
  · exact .inr ⟨rfl, rfl, fun _ _ _ => .spares hsp⟩

theorem opens (hl : w.Linked) (h : Opens task w w') : w'.Staged := by
  cases h with
  | @read w id part _ =>
    have hc := move_clear w id part
    have hm := hw.retains (.modifyClass hc.grows (Course.lasts_move hl hc) fun _ _ _ => rfl)
    exact hm.retains (.spares (aside_count _ part).toSpares)
  | imports => exact hw.retains (.modifyUnit (aside_beginImports ..) (fun _ => rfl) fun _ => rfl)
  | form h => exact hw.opensUnit hl h
  | found => exact hw

theorem tends (hl : w.Linked) (h : Tends task w w') : w'.Staged := by
  have hmo := h.move
  cases h with
  | fill reading hc _ _ =>
    refine hw.retains (.modifyClass hmo.grows (Course.lasts_move hl hmo) fun info hi hs => ?_)
    obtain ⟨_, hi', hc⟩ := hc
    cases hi.symm.trans hi'
    simp [hs] at hc
  | declare ho _ _ _ _ hme hs hd _ _ => exact hw.declare hl hmo ho hme hs hd
  | enclose hst hou hm hn => exact hw.enclose hl hmo hst hou hm hn
  | store _ hsi =>
    refine hw.retains (.modifyUnit (aside_modifyUnit _ fun _ simple id hid => ?_) (fun _ => rfl) fun _ => rfl)
    exact .inr (hsi simple id hid)
  | list hst ht hdi => exact hw.list hl hmo hst ⟨ht, hdi⟩
  | release => exact hw.retains (.release _)
  | retire | turn => exact hw.retains (.spares { Apart.refl w with })
  | ask => exact hw.retains (.neutral (neutral_asking ..))
  | mark | endow => exact hw.retains (.modifyClass hmo.grows (Course.lasts_move hl hmo) fun _ _ _ => rfl)

theorem worked (hl : w.Ledger) (h1 : Course none none w w1)
    (hw1 : w1.Staged) (hu : unit.index < w.units.size) {next : Stage}
    (hn : (w.unit unit).stage.next? = some next) (hwo : ∀ id ∈ w.unitTypes unit, w.role id = .declared →
      (next = .hierarchyConnected → w1.Joined id) ∧
      (next = .membersBuilt → w1.Built id ∨ w1.declaration? id = none)) (hid : w.Within unit id) :
    (Stage.hierarchyConnected.rank ≤ next.rank → w1.Begun id) ∧ (next = .membersBuilt → w1.Built id) := by
  obtain ⟨path, hat⟩ := hid.declaredAt hw.toPlaced
  have hde : w1.declaration? id ≠ none := by
    obtain ⟨info, hi, ho⟩ := hat.grows h1.grows
    cases hs : w1.sources.find? unit with
    | none =>
      -- A unit without declarations has been through all stages.
      rw [(h1.frame.unit unit hu (by simp) (by simp)).2] at hs
      rw [hl.released unit hu hs] at hn
      cases hn
    | some src =>
      obtain ⟨decl, hd, -⟩ := hw1.declared id info unit path src hi ho hs
      simp [declaration?, hi, ho, hs, hd]
  obtain ⟨hj, hb⟩ := hwo id (hw.toPlaced.mem_unitTypes.2 hid) hat.role
  refine ⟨fun hr => ?_, fun hla => (hb hla).resolve_right hde⟩
  cases next with
  | typesBuilt | importsResolved => simp [Stage.rank] at hr
  | hierarchyConnected => exact (hj rfl).resolve_right hde
  | membersBuilt =>
    refine (hw.begun unit ?_ id hid).grows h1.grows
    have hbe := Stage.rank_next? hn
    simp only [Stage.rank] at hbe ⊢
    omega

theorem promotes (hl : w.Ledger) (h1 : Course none none w w1)
    (hw1 : w1.Staged) (h : w.Promotes unit w1 w') : w'.Staged := by
  have hsp := h.aside.toSpares
  obtain ⟨next, hu, hn, hwo, hw'⟩ := h
  have ht : ∀ other, (w'.unit other).types = (w1.unit other).types := by
    intro other
    rw [hw']
    rcases unit_modifyUnit w1 unit (fun info => { info with stage := next }) other with h | h <;> rw [h]
  have hst : ∀ other, (w'.unit other).stage = if other = unit then next else (w1.unit other).stage := by
    intro other
    rw [hw']
    split
    · next heq => rw [heq, unit_modifyUnit_self _ (hu.trans_le h1.frame.units)]
    · next hne => rw [unit_modifyUnit_ne _ hne]
  have hs : ∀ {other id}, w'.Within other id → w1.Within other id := fun {other id} hid =>
    hid.of_same hw1.toPlaced (ht other) fun _ _ _ => .spares hsp
  have hwor : ∀ id, w'.Within unit id → _ := fun id hid =>
    hw.worked hl h1 hw1 hu hn hwo <|
      (hs hid).of_same hw.toPlaced (h1.frame.types unit hu (by simp)) fun id path hat =>
        h1.frame.members id unit path hat hu (by simp)
  refine ⟨?_, fun other hr id hid => ?_, fun other hla id hid => ?_⟩
  · refine hw1.toPlaced.step (.spares hsp) (.spares hsp) (fun other => .inl (ht other))
      (fun id other path hat => .inl ⟨hat.of_spares hsp, .spares hsp⟩)
      fun id other path src hat hso => .inl ⟨hat.of_spares hsp, ?_⟩
    rwa [hw'] at hso
  · refine Begun.grows (.spares hsp) ?_
    rw [hst] at hr
    split at hr
    · next heq =>
      subst heq
      exact (hwor id hid).1 hr
    · exact hw1.begun other hr id (hs hid)
  · refine Built.lasts (.spares hsp) ?_
    rw [hst] at hla
    split at hla
    · next heq =>
      subst heq
      exact (hwor id hid).2 hla
    · exact hw1.built other hla id (hs hid)

end Staged

theorem Course.staged (h : Course task stop w w') (hw : w.Sound) (hl : w.Ledger) (hst : w.Staged) : w'.Staged := by
  induction h with
  | halt _ _ ih | inside _ ih | serve _ ih | operate _ _ ih => exact ih hw hl hst
  | bracket h _ ih =>
    exact (ih (hw.move (.aside h.before.toAside)) (hl.sameUnits h.before.toSameUnits)
      (hst.retains (.neutral h.before))).retains (.neutral h.after)
  | abandon _ _ _ ih => exact (ih hw hl hst).retains (.spares (aside_turn ..).toSpares)
  | trans h1 _ ih1 ih2 | advance h1 _ _ ih1 ih2 => exact ih2 (h1.sound hw) (h1.frame.ledger hl) (ih1 hw hl hst)
  | move h hq => exact hst.retains (.quiet hw.linked h hq)
  | tend h => exact hst.tends hw.linked h
  | store id change h =>
    refine hst.retains (.modifyClass (.modifyClass id fun info hi => (h info hi).toKeptAs)
      (.modifyClass id fun info hi => (h info hi).toLastsAs) fun info hi _ => ?_)
    exact (h info hi).sameMembers
  | @connect id _ _ _ _ _ ih =>
    have hb := hst.retains (.beginHierarchy id)
    exact (ih (hw.beginHierarchy id) (hl.sameUnits { Apart.refl _ with }) hb).retains (.endHierarchy id)
  | broken _ _ ih =>
    exact ih (hw.beginHierarchy _) (hl.sameUnits { Apart.refl _ with }) (hst.retains (.beginHierarchy _))
  | nest h _ ih =>
    obtain ⟨_, h0, h1⟩ := h.moves
    exact ih ((hw.move h0).move h1) (h.frame.ledger hl) (hst.opens hw.linked h)
  | promote h1 h ih => exact hst.promotes hl h1 (ih hw hl hst) h
  | view h _ _ ih | unfilled h _ ih =>
    have hs := h.spares
    have hso := h.sound hw
    obtain ⟨_, _, _, -, -, -, -, rfl⟩ := h
    exact ih hso (hl.sameUnits { Apart.refl _ with }) (hst.retains (.spares hs))

end World

end Bindings
