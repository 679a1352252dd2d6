import Bindings.Proofs.MemberTypes.Lookup

/-! # Marks of classes without member types -/

open Relation

namespace Bindings

open Query

namespace World

variable {w w' : World} {id : TypeId}

/-- From a new world, by operations and resets. Where member types are asked for, nothing is left to
connect afterwards. -/
inductive Patient : World → Prop
  | initial (options : Options) (classPath : ClassPath) (log : ProblemLog) :
    Patient (.initial options classPath log)
  | step {w : World} (operation : Operation) (isLast : World → Bool) (fuel : Nat) : Patient w →
    (operation.task? = some .mark → (operation.run (.upTo isLast fuel) w).2.Calm) →
    Patient (operation.run (.upTo isLast fuel) w).2
  | reset {w : World} : Patient w → Patient w.reset

theorem Patient.reachable (h : w.Patient) : w.Reachable := by
  induction h with
  | initial options classPath log => exact .initial ..
  | step op isLast fuel _ _ ih => exact ih.step ⟨op, isLast, fuel, rfl⟩
  | reset _ ih => exact ih.reset

theorem Patient.after (h : w.Patient) {ops : List Operation}
    (hn : ∀ op ∈ ops, op.task? ≠ some .mark) : (w.after ops).Patient := by
  induction ops generalizing w with
  | nil => exact h
  | cons op rest ih =>
    rw [List.forall_mem_cons] at hn
    exact ih (.step op (fun _ => false) 1000000 h fun hm => absurd hm hn.1) hn.2

theorem truthful_initial (options : Options) (classPath : ClassPath) (log : ProblemLog) :
    (initial options classPath log).Truthful := by
  rintro id ⟨info, hi, -⟩
  exact absurd hi (no_class_initial options classPath log id info)

theorem Truthful.operation (h : w.Truthful) (hw : w.Sound) (hl : w.Ledger) (op : Operation)
    (isLast : World → Bool) (fuel : Nat)
    (hca : op.task? = some .mark → (op.run (.upTo isLast fuel) w).2.Calm) :
    (op.run (.upTo isLast fuel) w).2.Truthful := by
  have ho := Demand.orderly_upTo isLast fuel
  by_cases hm : op.task? = some .mark
  · have hk : op.run.KeepsTruth w fun _ _ => True := by
      cases op with
      | hasNoMemberTypes id => exact (hasNoMemberTypes_keepsTruth hw h id).discard hw (hasNoMemberTypes_runs hw id)
      | findMemberType scope recv name =>
        exact (findMemberType_keepsTruth hw h scope recv name).discard hw (findMemberType_runs hw scope recv name)
      | _ => cases hm
    exact (hk _ ho (hca hm)).1
  -- Nothing is marked, and what is barren stays barren.
  intro id hid
  have hc := course_run hw hl op isLast fuel
  have hn := hc.marksNothing hm (by cases op <;> simp)
  obtain ⟨_, hop⟩ := Step.course hw hl ⟨op, isLast, fuel, rfl⟩
  exact (h id (hn id hid)).later hop isFree_operate hw

theorem Patient.truthful (h : w.Patient) : w.Truthful := by
  induction h with
  | initial options classPath log => exact truthful_initial options classPath log
  | step op isLast fuel hp hc ih =>
    have hr := hp.reachable
    exact ih.operation hr.sound hr.ledger op isLast fuel hc
  | reset _ _ => exact truthful_initial _ _ _

/-- The class and the classes above it hold supertypes that are built on classes, or missing. -/
def TidyAbove (w : World) (id : TypeId) : Prop :=
  ∀ sub, ReflTransGen w.Supers id sub → ∀ info, w.class? sub = some info → ∀ slot ∈ info.supertypes,
    w.Settled slot ∨ w.StandsForMissing slot

theorem Barren.sterile (h : w.Barren id) (ht : w.TidyAbove id) : w.Sterile (ReflTransGen w.Supers id) := by
  intro sub hsu
  obtain ⟨hn, ho⟩ := h sub hsu
  obtain ⟨info, hi, hf, -⟩ := ho .superclass
  refine ⟨hn, info, hi, hf, fun part slot hs => ?_⟩
  have hm := ClassInfo.exists_supertypesOf.1 ⟨part, hs⟩
  refine (ht sub hsu info hi slot hm).imp_left fun ⟨base, hb, hr⟩ => ?_
  exact ⟨base, hb, hr, hsu.tail ⟨info, hi, slot, hm, base, hb, .self hr, hr⟩⟩

/-- Neither in this world nor later a class above this one declares a member type, and none is found in a type
that is built on the class. -/
def LacksMembers (w : World) (id : TypeId) : Prop :=
  ∀ later, ReflTransGen Step w later →
    (∀ super, ReflTransGen later.Supers id super → ∃ info, later.class? super = some info ∧
      info.members = [] ∧ (info.isCompiled → info.state.isPending .memberTypes = false)) ∧
    (later.TidyAbove id → ∀ receiver name isLast fuel hit w', later.erasureClass? receiver = some id →
      memberTypeInHierarchy receiver name (.upTo isLast fuel) later = (.ok hit, w') → hit = .none)

theorem Barren.lacksMembers (h : w.Barren id) (hw : w.Sound) (hl : w.Ledger) : w.LacksMembers id := by
  intro later hla
  have hk : ∀ w1 w2 stop, w1.Sound → Course (some .operate) stop w1 w2 → w1.Barren id ∧ w1.Sound →
      w2.Barren id ∧ w2.Sound := fun _ _ _ hw hc h =>
    ⟨h.1.later hc isFree_operate hw, hc.sound hw⟩
  obtain ⟨hba, hso⟩ := hw.steps hk hl ⟨h, hw⟩ hla
  refine ⟨fun super hs => (hba super hs).1, fun ht recv name isLast fuel hit w' hb hr => ?_⟩
  obtain ⟨info, hi, -⟩ := (hba id .refl).1
  have hle : later.Leads (ReflTransGen later.Supers id) recv := .inl ⟨id, hb, role_of_class? hi, .refl⟩
  obtain ⟨-, hn⟩ := memberTypeInHierarchy_none hso (hba.sterile ht) hle name
    (.upTo isLast fuel) (Demand.orderly_upTo isLast fuel)
  rw [hr] at hn
  exact hn hit rfl

/-- Where member types are asked for only when nothing is left to connect, a class that is marked, or said to
have no member types, has none and inherits none, now and later. -/
theorem Patient.marks_keep (h : w.Patient) :
    (∀ id, w.Marked id → w.LacksMembers id) ∧
    ∀ receiver base isLast fuel w₁, w.erasureClass? receiver = some base →
      hasNoMemberTypes receiver (.upTo isLast fuel) w = (.ok true, w₁) → w₁.Calm →
      ∀ id, w₁.Stands base id → w₁.role id = .declared → w₁.LacksMembers id := by
  have hreach := h.reachable
  refine ⟨fun id hid => (h.truthful id hid).lacksMembers hreach.sound hreach.ledger, ?_⟩
  intro receiver base isLast fuel w₁ hbase hrun hcalm id hid hrole
  have horderly := Demand.orderly_upTo isLast fuel
  obtain ⟨hcourse, -⟩ := hasNoMemberTypes_runs hreach.sound receiver _ horderly
  have hkeeps := hasNoMemberTypes_keepsTruth hreach.sound h.truthful receiver _ horderly
  rw [hrun] at hcourse hkeeps
  obtain ⟨target, hstands, hbarren⟩ := (hkeeps hcalm).2 true rfl rfl base hbase
  obtain rfl := hstands.unique hid
  exact (hbarren hrole).lacksMembers (hcourse.sound hreach.sound) (hcourse.frame.ledger hreach.ledger)

def isConnected (w : World) : Bool :=
  ((List.range w.units.size).all fun index =>
    Stage.importsResolved.rank ≤ (w.unit ⟨index⟩).stage.rank) &&
  (List.range w.types.size).all fun index =>
    (w.class? ⟨index⟩).all fun info => info.isCompiled || info.state.hierarchyEnded

theorem calm_of_test (hw : w.Linked) (h : w.isConnected) : w.Calm := by
  rw [isConnected, Bool.and_eq_true, List.all_eq_true, List.all_eq_true] at h
  obtain ⟨hun, hcl⟩ := h
  have he : ∀ id info, w.class? id = some info → info.isCompiled = false → info.state.hierarchyEnded := by
    intro id info hi hs
    have hc := hcl id.index (List.mem_range.2 (lt_size_of_class? hi))
    rwa [hi, Option.all_some, hs, Bool.false_or] at hc
  refine ⟨fun unit hu => ?_, fun id info hi hs _ => he id info hi hs, ?_⟩
  · exact of_decide_eq_true (hun unit.index (List.mem_range.2 hu))
  · exact fun id info hi hs _ => ⟨info, hi, hw.begun id info hi (he id info hi hs)⟩

def isTidy (w : World) : Bool :=
  (List.range w.types.size).all fun index => (w.class? ⟨index⟩).all fun info =>
    info.supertypes.all fun slot => (w.erasureClass? slot).any fun base => (w.class? base).isSome

theorem tidyAbove_of_test (h : w.isTidy) (id : TypeId) : w.TidyAbove id := by
  intro sub _ info hi slot hs
  have hc := List.all_eq_true.1 h sub.index (List.mem_range.2 (lt_size_of_class? hi))
  rw [hi, Option.all_some, List.all_eq_true] at hc
  obtain ⟨base, hb, hso⟩ := (Option.any_eq_true ..).1 (hc slot hs)
  exact .inl ⟨base, hb, role_eq_declared.2 (Option.isSome_iff_exists.1 hso)⟩

theorem Supers.superclass {sub super : TypeId} {info : ClassInfo} (hi : w.class? sub = some info)
    (hsu : info.superclass = some super) (hc : (w.class? super).isSome) : w.Supers sub super := by
  have hr : w.role super = .declared := role_eq_declared.2 (Option.isSome_iff_exists.1 hc)
  have hs : super ∈ info.supertypes := List.mem_append_left _ (Option.mem_toList.2 hsu)
  exact ⟨info, hi, super, hs, super, erasureClass?_self hr, .self hr, hr⟩

def leafClassPath : ClassPath := .ofClasses
  [{ name := "q/Stem", interfaces := ["q/Tag"] }, { name := "q/Tag", modifiers := .publicFlag ∪ .interfaceFlag }]

def leafUnit : SourceUnit :=
  { file := "Leaf.java", package := ⟨["p"]⟩
    types := [{ name := "Leaf"
                superclass := some (.ofSegments ["q", "Stem"]) }] }

def treeUnit : SourceUnit :=
  { file := "Tree.java", package := ⟨["p"]⟩
    types := [{ name := "Tree"
                superclass := some (.ofSegments ["Leaf"])
                members := [{ name := "Node" }] }] }

def leafWorld : World :=
  ((initial {} leafClassPath {}).after [.buildUnit leafUnit, .completeUnits]).after [.findMemberType ⟨0⟩ ⟨10⟩ "Node"]

def treeWorld : World := leafWorld.after [.buildUnit treeUnit, .completeUnits]

theorem marks_keep_leaf :
    leafWorld.Patient ∧ leafWorld.Marked ⟨10⟩ ∧ ReflTransGen Step leafWorld treeWorld ∧
    treeWorld.TidyAbove ⟨10⟩ ∧ (treeWorld.class? ⟨15⟩).map (·.members) = some [⟨16⟩] ∧
    treeWorld.Supers ⟨15⟩ ⟨10⟩ ∧
    (∀ super, ReflTransGen treeWorld.Supers ⟨10⟩ super → ∃ info, treeWorld.class? super = some info ∧
      info.members = []) ∧
    ∀ name isLast fuel hit w', memberTypeInHierarchy ⟨10⟩ name (.upTo isLast fuel) treeWorld =
      (.ok hit, w') → hit = .none := by
  have hread : leafWorld.isConnected = true ∧
      (leafWorld.class? ⟨10⟩).map (·.state.noMemberTypes) = some true ∧ treeWorld.isTidy = true ∧
      (treeWorld.class? ⟨15⟩).map (fun info => (info.members, info.superclass)) = some ([⟨16⟩], some ⟨10⟩) ∧
      (treeWorld.class? ⟨10⟩).isSome = true ∧ treeWorld.erasureClass? ⟨10⟩ = some ⟨10⟩ := by decide +kernel
  obtain ⟨hconnected, hmark, htidy, htree, hclass, herased⟩ := hread
  have hbefore : Patient ((initial {} leafClassPath {}).after [.buildUnit leafUnit, .completeUnits]) :=
    (Patient.initial {} leafClassPath {}).after (by simp)
  have hreach : leafWorld.Reachable := hbefore.reachable.after _
  have hpatient : leafWorld.Patient := .step (.findMemberType ⟨0⟩ ⟨10⟩ "Node") (fun _ => false) 1000000 hbefore
    fun _ => calm_of_test hreach.sound.linked hconnected
  have hmarked : leafWorld.Marked ⟨10⟩ := by
    obtain ⟨info, hinfo, hmark⟩ := Option.map_eq_some_iff.1 hmark
    exact ⟨info, hinfo, hmark⟩
  obtain ⟨info, hinfo, htree⟩ := Option.map_eq_some_iff.1 htree
  simp only [Prod.mk.injEq] at htree
  have hlater := later_after leafWorld [.buildUnit treeUnit, .completeUnits]
  obtain ⟨habove, hnone⟩ := hpatient.marks_keep.1 ⟨10⟩ hmarked treeWorld hlater
  refine ⟨hpatient, hmarked, hlater, tidyAbove_of_test htidy _, ?_, .superclass hinfo htree.2 hclass, ?_, ?_⟩
  · rw [hinfo, Option.map_some, htree.1]
  · intro super hsuper
    obtain ⟨info, hinfo, hmembers, -⟩ := habove super hsuper
    exact ⟨info, hinfo, hmembers⟩
  · exact fun name isLast fuel hit w' => hnone (tidyAbove_of_test htidy _) ⟨10⟩ name isLast fuel hit w' herased

def libClassPath : ClassPath := .ofClasses
  [{ name := "p/Lib", superclass := "p/Base" }, { name := "q/Root", members := ["q/Root$Node"] },
   { name := "q/Root$Node", enclosing := "q/Root" }]

def baseUnit : SourceUnit :=
  { file := "Base.java", package := ⟨["p"]⟩
    types := [{ name := "Base"
                superclass := some (.ofSegments ["q", "Root"]) }] }

def libWorld : World :=
  (initial {} libClassPath {}).after [.buildUnit baseUnit, .getType ⟨["p", "Lib"]⟩,
    .findMemberType ⟨0⟩ ⟨11⟩ "Node", .completeUnits]

/-- A compiled class is marked before its superclass is connected. Then the superclass inherits a member type,
which the marked class inherits as well, but it is not found there. -/
theorem marked_class_inherits :
    libWorld.Reachable ∧ libWorld.Marked ⟨11⟩ ∧ libWorld.Supers ⟨11⟩ ⟨10⟩ ∧
    (memberTypeInHierarchy ⟨11⟩ "Node" .standard libWorld).1 = .ok (.one ⟨15⟩) ∧
    (findMemberType ⟨0⟩ ⟨10⟩ "Node" .standard libWorld).1 = .ok (.found ⟨15⟩) ∧
    (findMemberType ⟨0⟩ ⟨11⟩ "Node" .standard libWorld).1 = .ok (.fail "Node" .notFound) := by
  have hread : (libWorld.class? ⟨11⟩).map (fun info => (info.state.noMemberTypes, info.superclass)) =
        some (true, some ⟨10⟩) ∧
      (libWorld.class? ⟨10⟩).isSome = true := by decide +kernel
  obtain ⟨hlib, hclass⟩ := hread
  obtain ⟨info, hinfo, hlib⟩ := Option.map_eq_some_iff.1 hlib
  simp only [Prod.mk.injEq] at hlib
  obtain ⟨hmark, hsuperclass⟩ := hlib
  exact ⟨(Reachable.initial {} libClassPath {}).after _, ⟨info, hinfo, hmark⟩, .superclass hinfo hsuperclass hclass,
    by decide +kernel⟩

end World

end Bindings
