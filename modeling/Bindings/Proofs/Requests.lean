import Bindings.Proofs.Reachable

/-! # Requests to the class path -/

open Relation

namespace Bindings.World

variable {w w' : World} {name : QName} {task : Task} {w1 : World}

theorem credit_congr (hpac : w'.packages = w.packages) (ht : w'.types = w.types) :
    w'.credit name = w.credit name ∧ w'.isStuck name = w.isStuck name := by
  have hpa : ∀ pkg, w'.package pkg = w.package pkg := fun pkg => by
    rw [World.package, hpac, World.package]
  have hn : ∀ name, w'.packageNamed? name = w.packageNamed? name := packageNamed?_congr fun pkg => by rw [hpa]
  have hp : ∀ id, w'.isPending id = w.isPending id := fun id => by
    rw [isPending, World.type, ht]
    rfl
  simp [credit, isStuck, isMet, isAbsent, listed?, known?, hpa, hn, hp]

structure Accounts (name : QName) (w w' : World) : Prop where
  spells : w.classPath.Spells name → w'.classPath.Spells name
  paid : w.classPath.Spells name → w'.isStuck name ∨
    w'.classPath.timesAsked name + w.credit name ≤ w.classPath.timesAsked name + w'.credit name

namespace Accounts

theorem trans {w2 : World} (h1 : Accounts name w w1) (h2 : Accounts name w1 w2)
    (hl : w1.Level w2) (hg : w1.Grows w2) : Accounts name w w2 where
  spells h := h2.spells (h1.spells h)
  paid h := by
    obtain hs | h1' := h1.paid h
    · exact .inl (hl.isStuck hg hs)
    · exact (h2.paid (h1.spells h)).imp_right fun h2' => by omega

theorem of_level (hp : w'.classPath = w.classPath) (hl : w.Level w') (hw : w.Registered)
    (hg : w.Grows w') : Accounts name w w' where
  spells h := hp ▸ h
  paid _ := by
    rw [hp]
    exact .inr (Nat.add_le_add_left (hl.credit hw hg) _)

theorem of_pays {asked : QName} (h : w.Pays asked w') (hl : w.Level w') (hw : w.Registered)
    (hg : w.Grows w') : Accounts name w w' where
  spells hs := h.classPath ▸ hs.find asked
  paid hs := by
    rw [h.classPath, ClassPath.timesAsked_find]
    by_cases heq : asked = name
    · subst heq
      rw [if_pos rfl]
      exact (h.earned hs).imp_right fun hlt => by omega
    · rw [if_neg heq]
      exact .inr (Nat.add_le_add_left (hl.credit hw hg) _)

theorem congr {u u' : World} (h : Accounts name u u') (hp : w.classPath = u.classPath)
    (hpa : w.packages = u.packages) (ht : w.types = u.types) (hp' : w'.classPath = u'.classPath)
    (hpa' : w'.packages = u'.packages) (ht' : w'.types = u'.types) : Accounts name w w' where
  spells := by
    rw [hp, hp']
    exact h.spells
  paid := by
    rw [hp, hp', (credit_congr hpa ht).1, (credit_congr hpa' ht').1, (credit_congr hpa' ht').2]
    exact h.paid

end Accounts

theorem Tends.classPath (h : Tends task w w') (ht : task ≠ .ask) : w'.classPath = w.classPath := by
  cases h with
  | release =>
    rw [releaseUnit_eq]
    split <;> rfl
  | ask => exact absurd rfl ht
  | declare => exact (quiet_newListedClass w _).1.classPath
  | _ => rfl

theorem Opens.classPath (h : Opens task w w') : w'.classPath = w.classPath := by
  cases h with
  | read | imports | found => rfl
  | form h =>
    obtain ⟨_, _, _, _, _, rfl⟩ := h
    rfl

theorem OpensView.classPath {view : MethodId} (h : w.OpensView view w') : w'.classPath = w.classPath := by
  obtain ⟨_, _, _, -, -, -, -, rfl⟩ := h
  rfl

theorem Promotes.classPath {unit : UnitId} (h : w.Promotes unit w1 w') : w'.classPath = w1.classPath := by
  obtain ⟨_, _, _, _, rfl⟩ := h
  rfl

theorem Course.accounts {task : Option Task} {stop : Option Halt} (h : Course task stop w w') (hw : w.Sound)
    (ha : task ≠ some .ask) (ho : task ≠ some .operate) : Accounts name w w' := by
  induction h with
  | halt _ _ ih => exact ih hw ha ho
  | abandon _ _ h ih =>
    exact (ih hw ha ho).trans (.of_level rfl {} (h.sound hw).registered
      (.spares (aside_turn ..).toSpares)) {} (.spares (aside_turn ..).toSpares)
  | trans h1 h2 ih1 ih2 => exact (ih1 hw ha ho).trans (ih2 (h1.sound hw) ha ho) h2.level h2.grows
  | move h hq => exact .of_level hq.classPath hq.toLevel hw.registered h.grows
  | bracket h hc ih =>
    have hs0 := hw.move (.aside h.before.toAside)
    cases h with
    | guard => exact (ih hs0 (by simp) (by simp)).congr rfl rfl rfl rfl rfl rfl
    | request asked hp =>
      exact .of_pays hp ((level_asking ..).trans hc.level hc.grows) hw.registered
        ((Grows.spares (neutral_asking ..).toSpares).trans hc.grows)
  | inside _ ih => exact ih hw (by simp) (by simp)
  | tend h => exact .of_level (h.classPath fun heq => ha (congrArg some heq)) h.level hw.registered h.move.grows
  | store id change h => exact .of_level rfl {} hw.registered (.modifyClass id fun info hi => (h info hi).toKeptAs)
  | @connect id w w1 _ h _ ih =>
    have hs0 := hw.beginHierarchy id
    have hb : Accounts name w (w.beginHierarchy id) := .of_level rfl {} hw.registered (grows_beginHierarchy ..)
    have he : Accounts name w1 (w1.endHierarchy id) := .of_level rfl {} (h.sound hs0).registered (grows_endHierarchy ..)
    exact (hb.trans (ih hs0 (by simp) (by simp)) h.level h.grows).trans he {} (grows_endHierarchy ..)
  | @broken _ id w _ _ h ih =>
    have hb : Accounts name w (w.beginHierarchy id) := .of_level rfl {} hw.registered (grows_beginHierarchy ..)
    exact hb.trans (ih (hw.beginHierarchy id) (by simp) (by simp)) h.level h.grows
  | nest h hin ih =>
    obtain ⟨_, h0, h1⟩ := h.moves
    refine .trans (.of_level h.classPath h.level hw.registered (h0.grows.trans h1.grows))
      (ih ((hw.move h0).move h1) ?_ ?_) hin.level hin.grows <;> cases h <;> simp
  | advance h1 _ h2 ih1 ih2 =>
    exact (ih1 hw (by simp) (by simp)).trans (ih2 (h1.sound hw) (by simp) (by simp)) h2.level h2.grows
  | promote h1 h ih =>
    have hg := Grows.spares h.aside.toSpares
    exact (ih hw (by simp) (by simp)).trans (.of_level h.classPath h.level (h1.sound hw).registered hg) h.level hg
  | serve _ ih => exact ih hw (by simp) (by simp)
  | operate => exact absurd rfl ho
  | view h hin _ ih | unfilled h hin ih =>
    exact .trans (.of_level h.classPath h.level hw.registered (.spares h.spares))
      (ih (h.sound hw) (by simp) (by simp)) hin.level hin.grows

def Proceeds (w w' : World) : Prop :=
  ∃ (operation : Operation) (isLast : World → Bool) (fuel : Nat), operation.task? ≠ some .ask ∧
    w' = (operation.run (.upTo isLast fuel) w).2

theorem Proceeds.step (h : w.Proceeds w') : w.Step w' := by
  obtain ⟨op, isLast, fuel, -, rfl⟩ := h
  exact ⟨op, isLast, fuel, rfl⟩

theorem Proceeds.course (h : w.Proceeds w') (hw : w.Sound) (hl : w.Ledger) :
    ∃ task stop, task ≠ some .ask ∧ task ≠ some .operate ∧ Course task stop w w' := by
  obtain ⟨op, isLast, fuel, ha, rfl⟩ := h
  exact ⟨_, _, ha, by cases op <;> simp, course_run hw hl op isLast fuel⟩

theorem Reachable.accounts (h : w.Reachable) (hr : ReflTransGen Proceeds w w') : Accounts name w w' := by
  induction hr with
  | refl => exact .of_level rfl (.refl w) h.sound.registered (.refl w)
  | @tail w1 w2 hr hs ih =>
    obtain ⟨hre, -⟩ := h.later (ReflTransGen.mono (fun _ _ => Proceeds.step) _ _ hr)
    obtain ⟨task, stop, ha, ho, hc⟩ := hs.course hre.sound hre.ledger
    exact ih.trans (hc.accounts hre.sound ha ho) hc.level hc.grows

theorem credit_initial (options : Options) (classPath : ClassPath) (log : ProblemLog) :
    (initial options classPath log).credit name = 0 := by
  have ha : ∀ pkg, ((initial options classPath log).package pkg).absent = [] := fun ⟨i⟩ => by
    rw [World.package, Array.getD_eq_getD_getElem?]
    cases i <;> rfl
  refine credit_eq_zero (Option.eq_none_iff_forall_ne_some.2 fun id hid => ?_) ?_
  · obtain ⟨pkg, -, hk⟩ := listed?_eq_some.1 hid
    rw [known?, (package_initial options classPath log pkg).2] at hk
    cases hk
  · rw [Bool.eq_false_iff]
    intro h
    obtain ⟨pkg, -, hm⟩ := isAbsent_iff.1 h
    rw [ha] at hm
    cases hm

/-- From a new world on a name is asked for twice at most, and twice only if it is absent and stands for
something all the same. -/
theorem asked_twice_at_most (options : Options) (classPath : ClassPath) (log : ProblemLog)
    (hrun : ReflTransGen Proceeds (initial options classPath log) w) (hspells : classPath.Spells name)
    (hstuck : ¬ w.isStuck name) :
    w.classPath.timesAsked name ≤ classPath.timesAsked name + 2 ∧
      (¬ (w.isAbsent name ∧ w.isMet name) →
        w.classPath.timesAsked name ≤ classPath.timesAsked name + 1) := by
  have hpaid := ((Reachable.initial options classPath log).accounts hrun).paid hspells
  have hle := hpaid.resolve_left hstuck
  rw [credit_initial, World.credit] at hle
  change w.classPath.timesAsked name + 0 ≤ classPath.timesAsked name + _ at hle
  cases habsent : w.isAbsent name <;> cases hmet : w.isMet name <;> simp_all <;> omega

theorem proceeds_after (w : World) {ops : List Operation}
    (h : ∀ op ∈ ops, op.task? ≠ some .ask) : ReflTransGen Proceeds w (w.after ops) := by
  induction ops generalizing w with
  | nil => exact .refl
  | cons op rest ih =>
    obtain ⟨hf, hr⟩ := List.forall_mem_cons.1 h
    exact .head ⟨op, fun _ => false, 1000000, hf, rfl⟩ (ih _ hr)

def goneClassPath : ClassPath := .ofClasses
  [{ name := "p/User", fields := [{ name := "x", descriptor := "Lp/Gone;" }] }]

def goneWorld : World :=
  (initial {} goneClassPath {}).after
    [.getType ⟨["p", "Gone"]⟩, .getType ⟨["p", "User"]⟩, .fields ⟨10⟩, .resolved ⟨11⟩]

theorem missing_name_asked_twice : goneWorld.classPath.timesAsked ⟨["p", "Gone"]⟩ = 2 := by decide +kernel

def metWorld : World :=
  (initial {} boxClassPath {}).after
    [.getType ⟨["p", "Box"]⟩, .fields ⟨10⟩, .getType ⟨["p", "Item"]⟩, .resolved ⟨11⟩, .getType ⟨["p", "Item"]⟩]

theorem asked_twice_at_most_met :
    metWorld.classPath.timesAsked ⟨["p", "Item"]⟩ = 1 ∧
      metWorld.classPath.timesAsked ⟨["p", "Item"]⟩ ≤ boxClassPath.timesAsked ⟨["p", "Item"]⟩ + 1 := by
  have hspells : decide (boxClassPath.Spells ⟨["p", "Item"]⟩) = true := by decide +kernel
  have hread : metWorld.isStuck ⟨["p", "Item"]⟩ = false ∧ metWorld.isAbsent ⟨["p", "Item"]⟩ = false := by decide +kernel
  obtain ⟨hstuck, habsent⟩ := hread
  have hrun : ReflTransGen Proceeds (initial {} boxClassPath {}) metWorld :=
    proceeds_after _ (by simp)
  exact ⟨by decide +kernel, (asked_twice_at_most {} boxClassPath {} hrun (of_decide_eq_true hspells)
    (by simp [hstuck])).2
    (by simp [habsent])⟩

end Bindings.World
