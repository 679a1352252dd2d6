import Bindings.Proofs.ClassFiles
import Bindings.Proofs.Replay.Types

/-! # Names -/

open Relation

namespace Bindings

open World Query

variable {outer segs : List String}

namespace World

variable {w w' : World} {task : Option Task} {stop : Option Halt}

def findsPackage (w : World) (segments : List String) : Bool :=
  (w.enterPackage w.classPath.isPackage segments defaultPackage).1.isSome

theorem findsPackage_of_prefix (hw : w.PackageTree) (hs : outer <+: segs) (h : w.findsPackage outer) :
    (w.enterPackage w.classPath.isPackage segs defaultPackage).2.findsPackage outer := by
  obtain ⟨rest, rfl⟩ := hs
  have hro : defaultPackage.index < w.packages.size := hw.root
  cases hr : w.enterPackage w.classPath.isPackage outer defaultPackage with
  | mk found w1 =>
    rw [findsPackage, hr] at h
    obtain ⟨pkg, hp⟩ := Option.isSome_iff_exists.1 h
    have he := (enterPackage_some hw hro (by rw [hr]; exact hp)).1
    rw [hr] at he
    obtain rfl : found = some pkg := hp
    rw [enterPackage_append, hr]
    have hl := subpackage?_mono (enterPackage_grows w.classPath.isPackage rest pkg).child he
    rw [findsPackage, enterPackage_of_subpackage? hl]
    rfl

theorem findsPackage_again (hw : w.PackageTree) (hst : outer <+: segs) (h : w.findsPackage outer = false) :
    (w.enterPackage w.classPath.isPackage segs defaultPackage).2.findsPackage outer = false := by
  obtain ⟨rest, rfl⟩ := hst
  have hro : defaultPackage.index < w.packages.size := hw.root
  have hg := enterPackage_grows (w := w) w.classPath.isPackage outer defaultPackage
  cases hr : w.enterPackage w.classPath.isPackage outer defaultPackage with
  | mk found w1 =>
    rw [findsPackage, hr] at h
    obtain rfl : found = none := by simpa using h
    have hp : w1.classPath = w.classPath := by
      rw [hr] at hg
      have hs : w1 = { w with packages := w1.packages } := hg.same
      rw [hs]
    rw [enterPackage_append, hr]
    dsimp only
    rw [findsPackage, hp, enterPackage_again hw hro hr]
    rfl

theorem findsPackage_mono (hs : outer <+: segs) (h : w.findsPackage segs) : w.findsPackage outer := by
  obtain ⟨rest, rfl⟩ := hs
  rw [findsPackage, enterPackage_append] at h
  rw [findsPackage]
  cases hr : w.enterPackage w.classPath.isPackage outer defaultPackage with
  | mk found w1 =>
    rw [hr] at h
    cases found with
    | none => exact h
    | some pkg => rfl

def NoNewPackages (w w' : World) (name : QName) : Prop :=
  ∀ outer, outer <+: name.parent.segments → w'.findsPackage outer → w.findsPackage outer

/-- What is found for a name, given by its segments from the last to the first: a class that a package
lists, or a member of what is found for the enclosing name, if at the start this was no package. -/
inductive Means (start w : World) : List String → TypeId → Prop
  | listed {simple : String} {outer : List String} {id : TypeId} :
    w.Lists ⟨(simple :: outer).reverse⟩ id → Means start w (simple :: outer) id
  | member {simple : String} {outer : List String} {enclosing id : TypeId} {info : ClassInfo} :
    start.findsPackage outer.reverse = false → Means start w outer enclosing →
    w.class? enclosing = some info → (info.isCompiled → info.state.isPending .memberTypes = false) →
    (info.members.find? fun member => (w.class? member).any (·.isNamed simple)) = some id →
    Means start w (simple :: outer) id

namespace Means

variable {start : World} {segs : List String} {id : TypeId} (h : Means start w segs id)

include h

theorem role : w.role id = .declared := by
  cases h with
  | listed h =>
    obtain ⟨_, -, -, hr⟩ := h
    exact hr
  | member _ _ _ _ hf =>
    obtain ⟨inner, hi, -⟩ := isNamed_of_find? hf
    exact role_of_class? hi

theorem of_grows (hg : w.Grows w') (hw : w.Membered)
    (hme : ∀ id info, w.class? id = some info → (info.isCompiled → info.state.isPending .memberTypes = false) →
      ∃ info', w'.class? id = some info' ∧
        (info'.isCompiled → info'.state.isPending .memberTypes = false) ∧ info'.members = info.members) :
    Means start w' segs id := by
  induction h with
  | listed h => exact .listed (h.grows hg)
  | @member simple _ _ _ info hst _ hi hr hf ih =>
    obtain ⟨info', hi', hr', hs⟩ := hme _ info hi hr
    refine .member hst ih hi' hr' ?_
    -- The members are classes, and classes keep their names.
    have hn : ∀ member ∈ info.members, (w'.class? member).any (·.isNamed simple) =
        (w.class? member).any (·.isNamed simple) := by
      intro member hm
      obtain ⟨inner, hin⟩ := role_eq_declared.1 (hw _ info hi member hm)
      obtain ⟨inner', hin', hk⟩ := hg.declared member inner hin
      rw [hin, hin', Option.any_some, Option.any_some, hk.isNamed]
    rw [hs, List.find?_congr hn, hf]

theorem packagesGrow (hg : w.PackagesGrow w') : Means start w' segs id := by
  have hc : ∀ id, w'.class? id = w.class? id := fun id => by rw [class?, hg.type, class?]
  induction h with
  | listed h => exact .listed (h.grows (.packagesGrow hg))
  | member hs _ hi hr hf ih =>
    refine .member hs ih ((hc _).trans hi) hr ?_
    simpa only [hc] using hf

theorem later (hc : Course task stop w w') (hw : w.Sound)
    (hm : w.Membered) (hr : ∀ id, task ≠ some (.read id .memberTypes))
    (hf : ∀ unit, task ≠ some (.form unit)) : Means start w' segs id := by
  refine h.of_grows hc.grows hm fun id info hi hp => ?_
  cases hco : info.isCompiled with
  | true =>
    obtain ⟨info', _, hi', -, hr', -, hs⟩ := hc.retainsPart hw (hr id) info hi hco (hp hco)
    exact ⟨info', hi', fun _ => hr', hs⟩
  | false =>
    obtain ⟨unit, path, ho⟩ := ClassInfo.source_of_isCompiled hco
    have hu := (hw.linked.source id info unit path hi ho).1
    obtain ⟨info', hi', ho', hs⟩ := hc.frame.members id unit path ⟨info, hi, ho⟩ hu (hf unit) info hi hco
    refine ⟨info', hi', fun hco' => ?_, hs⟩
    rw [ClassInfo.isCompiled_of_source (ho'.trans ho)] at hco'
    cases hco'

end Means

end World

namespace Query

variable {w start : World}

theorem typeOfReversed_means (hw : w.Sound) (hme : w.Membered) (segs : List String)
    (hs : ∀ outer, outer <+: segs.reverse → w.findsPackage outer = false → start.findsPackage outer = false) :
    (typeOfReversed segs).Runs w fun found w' => ∀ id, found = some id → Means start w' segs id := by
  induction segs generalizing w with
  | nil => exact .pure (by simp)
  | cons simple outer ih =>
    rw [List.reverse_cons] at hs
    rw [typeOfReversed]
    have hc : (Edit.getPackage ⟨outer.reverse⟩).Orderly := inferInstance
    have hc := hc.course w hw
    rw [parent_ofReversed]
    refine .lift_bind hw fun hw1 hg1 => ?_
    split
    · next pkg hp =>
      have hp := (enterPackage_some hw.registered.tree hw.registered.tree.root hp).1
      refine (typeInPackage_runs hw1 ?_).mono fun found w' hl id hid => .listed (hl id hid)
      rwa [parent_ofReversed]
    rename_i hn
    have hme1 := hc.membered hme
    have hs1 : ∀ inner, inner <+: outer.reverse → (Edit.getPackage ⟨outer.reverse⟩ w).2.findsPackage inner = false →
        start.findsPackage inner = false := by
      intro inner hin hfin
      refine hs inner (hin.trans (List.prefix_append ..)) ?_
      by_contra hf
      have := findsPackage_of_prefix hw.registered.tree hin (by simpa using hf)
      exact absurd (this.symm.trans hfin) (by simp)
    refine .bind hw1 (ih hw1 hme1 hs1).courses ?_
    rintro encl w2 hw2 - ⟨hm, hc2⟩
    cases encl with
    | some encl =>
      have hm := hm encl rfl
      refine (directMemberType_finds hw2 hm.role simple).courses.mono ?_
      rintro found w' ⟨⟨info, hi, hr, hfi⟩, hc3⟩ id hid
      refine .member ?_ (hm.later hc3 hw2 (hc2.membered hme1) (by simp) (by simp)) hi hr (hfi.symm.trans hid)
      refine hs _ (List.prefix_append ..) ?_
      exact Option.isSome_eq_false_iff.2 (Option.isNone_iff_eq_none.2 hn)
    | none => exact .pure (by simp)

theorem directMemberType_of_read {encl : TypeId} {info : ClassInfo} (hi : w.class? encl = some info)
    (hr : info.isCompiled → info.state.isPending .memberTypes = false) (simple : String) (d : Demand) :
    directMemberType encl simple d w =
      (.ok (info.members.find? fun member => (w.class? member).any (·.isNamed simple)), w) := by
  have he : w.erasureClass? encl = some encl := by rw [erasureClass?, class?_eq_some.1 hi]
  have hm : memberTypes encl d w = (.ok info.members, w) := by
    rw [memberTypes, bind_ok d w (resolved_apply hi d), get_bind_apply, he]
    dsimp only
    rw [get_bind_apply]
    split
    · next hc =>
      rw [hi] at hc
      have hd : info.state.isPending .memberTypes = false := hr hc
      have hs : completeMemberTypes encl d w = (.ok (), w) := readPart_of_read .memberTypes (by simpa [hi] using hd) d
      rw [bind_ok d w hs, get_bind_apply, hi]
      rfl
    · rw [get_bind_apply, hi]
      rfl
  rw [directMemberType, get_bind_apply, he]
  dsimp only
  rw [bind_ok d w hm]
  rfl

theorem typeOfReversed_of_means (hw : w.PackageTree) {id : TypeId} (h : Means start w segs id)
    (hp : ∀ outer, outer <+: segs.tail.reverse → start.findsPackage outer = false →
      w.findsPackage outer = false) (d : Demand) :
    ∃ w', typeOfReversed segs d w = (.ok (some id), w') ∧ w.PackagesGrow w' := by
  induction segs generalizing w id with
  | nil => cases h
  | cons simple outer ih =>
    rw [List.tail_cons] at hp
    cases h with
    | listed h =>
      have hr := getType_of_lists (by simp) h d
      rw [getType, List.reverse_reverse] at hr
      exact ⟨w, hr, .refl w⟩
    | @member _ _ encl _ info hs hm hi hre hf =>
      have hn := hp _ (List.prefix_refl _) hs
      have hg1 := enterPackage_grows (w := w) w.classPath.isPackage outer.reverse defaultPackage
      have ht1 := hw.enterPackage w.classPath.isPackage outer.reverse defaultPackage hw.root
      have hp1 : ∀ inner, inner <+: outer.tail.reverse → start.findsPackage inner = false →
          (w.enterPackage w.classPath.isPackage outer.reverse defaultPackage).2.findsPackage inner =
            false := by
        intro inner hin hfi
        have hsh : inner <+: outer.reverse := hin.trans <| by
          cases outer with
          | nil => exact List.prefix_refl _
          | cons first rest => simp
        exact findsPackage_again hw hsh (hp inner hsh hfi)
      obtain ⟨w2, hr2, hg2⟩ := ih ht1 (hm.packagesGrow hg1) hp1
      have hg := hg1.trans hg2
      have hc : ∀ id, w2.class? id = w.class? id := fun id => by
        rw [class?, hg.type, class?]
      have hl : (liftM (Edit.getPackage ⟨outer.reverse⟩) : Query (Option PackageId)) d w =
          (.ok none, (w.enterPackage w.classPath.isPackage outer.reverse defaultPackage).2) := by
        refine Prod.ext (congrArg Except.ok ?_) rfl
        exact Option.not_isSome_iff_eq_none.1 (Bool.eq_false_iff.1 hn)
      refine ⟨w2, ?_, hg⟩
      rw [typeOfReversed, parent_ofReversed, bind_ok d w hl]
      dsimp only
      rw [bind_ok d _ hr2]
      dsimp only
      rw [directMemberType_of_read ((hc _).trans hi) hre simple d]
      simp only [hc, hf]

end Query

namespace World

variable {w w₁ w₂ : World}

theorem membered_initial (options : Options) (classPath : ClassPath) (log : ProblemLog) :
    (initial options classPath log).Membered := by
  intro id info hi
  exact absurd hi (no_class_initial options classPath log id info)

theorem Reachable.membered (h : w.Reachable) : w.Membered := h.fact membered_initial fun _ hc => hc.membered

/-- Once a name was found to denote a class it denotes this class, if its parent was a package or none of
the names around it has become one since. -/
theorem Reachable.getType_again (h : w.Reachable) {name : QName} {isLast : World → Bool} {fuel : Nat}
    {id : TypeId} (hfirst : getType name (.upTo isLast fuel) w = (.ok (some id), w₁))
    (hlater : ReflTransGen Step w₁ w₂)
    (hpackages : w.findsPackage name.parent.segments ∨ w.NoNewPackages w₂ name) (d : Demand) :
    (getType name d w₂).1 = .ok (some id) := by
  have hruns := typeOfReversed_means h.sound h.membered name.segments.reverse (fun _ _ hnone => hnone)
  obtain ⟨hcourse, hmeans⟩ := hruns _ (Demand.orderly_upTo isLast fuel)
  rw [← getType, hfirst] at hcourse hmeans
  have hw₁ := hcourse.sound h.sound
  have hkept : ∀ w₁ w₂ stop, w₁.Sound → Course (some .operate) stop w₁ w₂ →
      w₁.Membered ∧ Means w w₁ name.segments.reverse id →
      w₂.Membered ∧ Means w w₂ name.segments.reverse id := fun w₁ w₂ _ hw hcourse hfact =>
    ⟨hcourse.membered hfact.1, hfact.2.later hcourse hw hfact.1 (by simp) (by simp)⟩
  have hledger₁ := hcourse.frame.ledger h.ledger
  have hmeans₁ : Means w w₁ name.segments.reverse id := hmeans (some id) rfl id rfl
  have hmeans₂ := (hw₁.steps hkept hledger₁ ⟨hcourse.membered h.membered, hmeans₁⟩ hlater).2
  have hw₂ : w₂.Sound := hw₁.steps (fun _ _ _ hw hcourse _ => hcourse.sound hw) hledger₁ hw₁ hlater
  have hpackages : w.NoNewPackages w₂ name := by
    rcases hpackages with hparent | hpackages
    · exact fun outer hstart _ => findsPackage_mono hstart hparent
    · exact hpackages
  have hagain := typeOfReversed_of_means hw₂.registered.tree hmeans₂ (fun outer hstart hnone => ?_) d
  · obtain ⟨_, hrun, -⟩ := hagain
    rw [getType, hrun]
  · rw [List.tail_reverse, List.reverse_reverse] at hstart
    by_contra hfound
    exact absurd (hpackages outer hstart (by simpa using hfound)) (by simp [hnone])

def outerClassPath : ClassPath := .ofClasses
  [{ name := "p/Outer", members := ["p/Outer$Inner"] }, { name := "p/Outer$Inner", enclosing := "p/Outer" },
   { name := "p/User", fields := [{ name := "x", descriptor := "Lp/Outer/Other;" }] }]

def outerWorld : World := initial {} outerClassPath {}

def innerName : QName := ⟨["p", "Outer", "Inner"]⟩

def innerWorld : World := (getType innerName .standard outerWorld).2

def noNewPackages (w w' : World) (name : QName) : Bool :=
  name.parent.segments.inits.all fun outer => !w'.findsPackage outer || w.findsPackage outer

theorem noNewPackages_of_test {w' : World} {name : QName} (h : w.noNewPackages w' name) :
    w.NoNewPackages w' name := by
  intro outer hs hf
  simpa [hf] using List.all_eq_true.1 h outer ((List.mem_inits ..).2 hs)

theorem getType_again_inner :
    (getType innerName .standard outerWorld).1 = .ok (some ⟨12⟩) ∧
      (getType innerName .standard (innerWorld.after [.getType ⟨["p", "User"]⟩])).1 =
        .ok (some ⟨12⟩) := by
  have hread : (getType innerName .standard outerWorld).1 = .ok (some ⟨12⟩) ∧
      outerWorld.noNewPackages (innerWorld.after [.getType ⟨["p", "User"]⟩]) innerName = true := by
    decide +kernel
  obtain ⟨hfirst, hpackages⟩ := hread
  have hreach : outerWorld.Reachable := .initial {} outerClassPath {}
  exact ⟨hfirst, hreach.getType_again (run_standard hfirst) (later_after _ _)
    (.inr (noNewPackages_of_test hpackages)) .standard⟩

def redirection : List Operation := [.getType ⟨["p", "User"]⟩, .fields ⟨13⟩]

/-- The name of a member is taken for that of a class in the new package, where there is none. -/
theorem getType_redirected :
    outerWorld.Undisturbed ∧ (getType innerName .standard outerWorld).1 = .ok (some ⟨12⟩) ∧
      innerWorld.finishes redirection ∧
      (getType innerName .standard (innerWorld.after redirection)).1 = .ok none :=
  ⟨.initial {} outerClassPath {}, by decide +kernel⟩

end World

end Bindings
