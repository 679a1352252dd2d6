import Bindings.Proofs.Reachable

/-!
# Selecting methods

A selected method is the target of a candidate in the first phase in which any candidate is applicable. It is seen,
and at least as specific as every other target that is seen (`selectMethod_sound`). Each of these answers is given in
the world that the question before it left.
-/

namespace Bindings

def Applicability.targets : Applicability → List MethodId
  | applicable method => [method]
  | _ => []

namespace Query

variable {α β : Type} {d : Demand} {w w' : World} {list : List α} {arguments : List TypeId} {site : Site}
  {candidates : List MethodId} {phase : Phase} {refused : Option (Reason × MethodId)} {screening : Screening}
  {selector : String} {first method : MethodId} {others : List MethodId}

/-! ## Asking one after another -/

theorem mapM_cons_ok {f : α → Query β} {a : α} {b : β} {answers : List β} {u : World} (asked : f a d w = (.ok b, u))
    (rest : list.mapM f d u = (.ok answers, w')) : (a :: list).mapM f d w = (.ok (b :: answers), w') := by
  rw [List.mapM_cons, bind_ok d w asked, bind_ok d u rest]
  rfl

/-- The members of a list whose answer is `true`. -/
def passing (list : List α) (flags : List Bool) : List α := ((list.zip flags).filter (·.2)).map (·.1)

theorem filterM_asks {f : α → Query Bool} {kept : List α} (run : list.filterM f d w = (.ok kept, w')) :
    ∃ flags, list.mapM f d w = (.ok flags, w') ∧ kept = passing list flags := by
  have asks : ∀ (start result : List α) (u : World), list.filterAuxM f start d u = (.ok result, w') →
      ∃ flags, list.mapM f d u = (.ok flags, w') ∧ result = (passing list flags).reverse ++ start := by
    clear run
    induction list with
    | nil =>
      intro start result u run
      cases run
      exact ⟨[], rfl, rfl⟩
    | cons a rest ih =>
      intro start result u run
      rw [List.filterAuxM] at run
      obtain ⟨passes, v, asked, run⟩ := of_bind_ok d u run
      obtain ⟨flags, asks, rfl⟩ := ih _ result v run
      refine ⟨passes :: flags, mapM_cons_ok asked asks, ?_⟩
      cases passes <;> simp [passing]
  rw [List.filterM] at run
  obtain ⟨result, u, run, last⟩ := of_bind_ok d w run
  cases last
  obtain ⟨flags, asks, rfl⟩ := asks [] result w run
  exact ⟨flags, asks, by simp⟩

/-- What passes was asked about after everything before it in the list. -/
theorem mapM_of_passing {f : α → Query Bool} {flags : List Bool} {a : α} (run : list.mapM f d w = (.ok flags, w'))
    (mem : a ∈ passing list flags) : ∃ before after asked u v, list = before ++ a :: after ∧
      before.mapM f d w = (.ok asked, u) ∧ f a d u = (.ok true, v) := by
  induction list generalizing w flags with
  | nil => simp [passing] at mem
  | cons head rest ih =>
    rw [List.mapM_cons] at run
    obtain ⟨passes, u, asked, run⟩ := of_bind_ok d w run
    obtain ⟨more, v, run, last⟩ := of_bind_ok d u run
    cases last
    by_cases here : passes = true ∧ a = head
    · obtain ⟨rfl, rfl⟩ := here
      exact ⟨[], rest, [], w, u, rfl, rfl, asked⟩
    have mem : a ∈ passing rest more := by
      cases passes with
      | false => simpa [passing] using mem
      | true =>
        have other : a ≠ head := fun same => here ⟨rfl, same⟩
        simpa [passing, other] using mem
    obtain ⟨before, after, answers, u', v', rfl, earlier, asked'⟩ := ih run mem
    exact ⟨head :: before, after, passes :: answers, u', v', rfl, mapM_cons_ok asked earlier, asked'⟩

theorem relatedToOthers_asks {related : MethodId → MethodId → Query Bool}
    (run : relatedToOthers related candidates method d w = (.ok true, w')) :
    ∃ answers, (candidates.filter (· ≠ method)).mapM (related method) d w = (.ok answers, w') ∧
      ∀ answer ∈ answers, answer = true := by
  rw [relatedToOthers] at run
  induction candidates generalizing w with
  | nil =>
    cases run
    exact ⟨[], rfl, by simp⟩
  | cons other rest ih =>
    rw [List.allM_cons] at run
    obtain ⟨passes, u, asked, run⟩ := of_bind_ok d w run
    cases passes with
    | false => cases run
    | true =>
      obtain ⟨answers, asks, all⟩ := ih run
      by_cases same : other = method
      · rw [if_pos same] at asked
        cases asked
        exact ⟨answers, by simpa [same] using asks, all⟩
      rw [if_neg same] at asked
      refine ⟨true :: answers, ?_, by simpa using all⟩
      rw [List.filter_cons_of_pos (by simpa using same)]
      exact mapM_cons_ok asked asks

/-! ## Phases -/

theorem screen_asks (run : screen arguments site phase candidates refused d w = (.ok screening, w')) :
    ∃ answers, candidates.mapM (applicability phase arguments site) d w = (.ok answers, w') ∧
      screening.applicable = answers.flatMap Applicability.targets := by
  rw [screen] at run
  suffices asks : ∃ answers, candidates.mapM (applicability phase arguments site) d w = (.ok answers, w') ∧
      screening.applicable = ({ refused } : Screening).applicable ++ answers.flatMap Applicability.targets from asks
  generalize ({ refused } : Screening) = start at run ⊢
  induction candidates generalizing start w with
  | nil =>
    cases run
    exact ⟨[], rfl, by simp⟩
  | cons candidate rest ih =>
    rw [List.foldlM_cons] at run
    obtain ⟨next, u, step, run⟩ := of_bind_ok d w run
    obtain ⟨answer, v, asked, step⟩ := of_bind_ok d w step
    obtain ⟨added, rfl⟩ : next.applicable = start.applicable ++ answer.targets ∧ v = u := by
      cases answer <;> cases step <;> simp [Applicability.targets]
    obtain ⟨answers, asks, found⟩ := ih next run
    exact ⟨answer :: answers, mapM_cons_ok asked asks, by simp [found, added]⟩

/-- No candidate is applicable in the phases before the one that is taken. -/
theorem screenPhases_asks {phases : List Phase}
    (run : screenPhases arguments site candidates refused phases d w = (.ok (phase, screening), w'))
    (some : screening.applicable ≠ []) : ∃ earlier later tried u answers, phases = earlier ++ phase :: later ∧
      earlier.mapM (fun other => candidates.mapM (applicability other arguments site)) d w = (.ok tried, u) ∧
      (∀ row ∈ tried, ∀ answer ∈ row, answer.targets = []) ∧
      candidates.mapM (applicability phase arguments site) d u = (.ok answers, w') ∧
      screening.applicable = answers.flatMap Applicability.targets := by
  induction phases generalizing w refused with
  | nil =>
    cases run
    exact absurd rfl some
  | cons head phases ih =>
    rw [screenPhases] at run
    obtain ⟨result, u, screened, run⟩ := of_bind_ok d w run
    obtain ⟨answers, asks, found⟩ := screen_asks screened
    split at run
    · next empty =>
      obtain ⟨earlier, later, tried, v, answers', rfl, before, none, last⟩ := ih run
      rw [List.isEmpty_iff.1 empty] at found
      refine ⟨head :: earlier, later, answers :: tried, v, answers', rfl, mapM_cons_ok asks before, ?_, last⟩
      exact List.forall_mem_cons.2 ⟨fun answer mem => List.flatMap_eq_nil_iff.1 found.symm answer mem, none⟩
    · cases run
      exact ⟨[], phases, [], w, answers, rfl, rfl, by simp, asks, found⟩

/-! ## The most specific target -/

theorem findM?_mem {f : α → Query Bool} {a : α} (run : list.findM? f d w = (.ok (some a), w')) : a ∈ list := by
  induction list generalizing w with
  | nil => cases run
  | cons head rest ih =>
    rw [List.findM?] at run
    obtain ⟨passes, u, -, run⟩ := of_bind_ok d w run
    cases passes with
    | false => exact .tail _ (ih run)
    | true =>
      cases run
      exact .head _

theorem breakTie_mem (run : breakTie selector first others d w = (.ok (.found method), w')) :
    method ∈ first :: others := by
  rw [breakTie] at run
  obtain ⟨erased, u, -, run⟩ := of_bind_ok d w run
  obtain ⟨agree, v, -, run⟩ := of_bind_ok d u run
  split at run
  · cases run
  rw [get_bind_apply] at run
  generalize concrete : List.filter _ (first :: others) = concretes at run
  obtain _ | ⟨only, _ | ⟨_, _⟩⟩ := concretes
  · obtain ⟨found, x, search, run⟩ := of_bind_ok d v run
    cases found with
    | none => cases run
    | some id =>
      cases run
      exact findM?_mem search
  · cases run
    exact List.mem_of_mem_filter (concrete ▸ List.mem_singleton_self _)
  · cases run

/-- Among the targets the method is seen. When it was its turn, it was found at least as specific as each other target
that is seen. -/
def Chosen (scope : ScopeId) (receiver : TypeId) (phase : Phase) (targets : List MethodId) (method : MethodId)
    (d : Demand) (w : World) : Prop :=
  ∃ seen before after asked answers u v w', targets.mapM (canSeeMethod scope receiver) d w = (.ok seen, u) ∧
    passing targets seen = before ++ method :: after ∧
    before.mapM (relatedToOthers (isMoreSpecific phase) (passing targets seen)) d u = (.ok asked, v) ∧
    ((passing targets seen).filter (· ≠ method)).mapM (isMoreSpecific phase method) d v = (.ok answers, w') ∧
    ∀ answer ∈ answers, answer = true

theorem mostSpecific_asks (run : mostSpecific selector phase first others d w = (.ok (.found method), w')) :
    ∃ before after asked answers u v, first :: others = before ++ method :: after ∧
      before.mapM (relatedToOthers (isMoreSpecific phase) (first :: others)) d w = (.ok asked, u) ∧
      ((first :: others).filter (· ≠ method)).mapM (isMoreSpecific phase method) d u = (.ok answers, v) ∧
      ∀ answer ∈ answers, answer = true := by
  rw [mostSpecific] at run
  split at run
  · next alone =>
    cases run
    rw [List.isEmpty_iff.1 alone]
    exact ⟨[], [], [], [], w, w, rfl, rfl, by simp, by simp⟩
  obtain ⟨maximal, u, filtered, run⟩ := of_bind_ok d w run
  obtain ⟨flags, asks, kept⟩ := filterM_asks filtered
  have mem : method ∈ maximal := by
    obtain _ | ⟨id, _ | ⟨next, rest⟩⟩ := maximal
    · cases run
    · cases run
      exact .head _
    · exact breakTie_mem run
  obtain ⟨before, after, asked, v, x, parts, earlier, turn⟩ := mapM_of_passing asks (kept ▸ mem)
  obtain ⟨answers, compared, all⟩ := relatedToOthers_asks turn
  exact ⟨before, after, asked, answers, v, x, parts, earlier, compared, all⟩

variable {scope : ScopeId} {receiver : TypeId}

/-- The candidates are asked phase by phase, in the order of the phases, until one is applicable. The method is chosen
among the targets of that phase. -/
theorem selectMethod_sound
    (hrun : selectMethod scope receiver selector candidates arguments site d w = (.ok (.found method), w')) :
    ∃ earlier phase later tried answers u v, w.options.phases = earlier ++ phase :: later ∧
      earlier.mapM (fun other => candidates.mapM (applicability other arguments site)) d w = (.ok tried, u) ∧
      (∀ row ∈ tried, ∀ answer ∈ row, answer.targets = []) ∧
      candidates.mapM (applicability phase arguments site) d u = (.ok answers, v) ∧
      Chosen scope receiver phase (answers.flatMap Applicability.targets) method d v := by
  cases candidates with
  | nil => cases hrun
  | cons candidate rest =>
    rw [selectMethod, get_bind_apply] at hrun
    obtain ⟨⟨phase, screening⟩, v, screened, run⟩ := of_bind_ok d w hrun
    dsimp only at run
    cases applicable : screening.applicable with
    | nil =>
      rw [applicable] at run
      cases refused : screening.refused <;> rw [refused] at run <;> cases run
    | cons first others =>
      obtain ⟨earlier, later, tried, u, answers, phases, before, none, asks, found⟩ :=
        screenPhases_asks screened (by simp [applicable])
      refine ⟨earlier, phase, later, tried, answers, u, v, phases, before, none, asks, ?_⟩
      rw [← found, applicable]
      rw [applicable] at run
      obtain ⟨visible, x, filtered, run⟩ := of_bind_ok d v run
      obtain ⟨seen, looked, kept⟩ := filterM_asks filtered
      cases visible with
      | nil => cases run
      | cons firstVisible others =>
        obtain ⟨resolution, y, specific, run⟩ := of_bind_ok d x run
        obtain rfl : resolution = .found method := by
          cases resolution with
          | found other =>
            dsimp only at run
            rw [get_bind_apply] at run
            split at run
            · obtain ⟨_, z, -, run⟩ := of_bind_ok d y run
              cases run
              rfl
            · cases run
              rfl
          | failed failure => cases run
        obtain ⟨ahead, after, asked, answers', z, z', parts, turn, compared, all⟩ := mostSpecific_asks specific
        rw [kept] at parts turn compared
        exact ⟨seen, ahead, after, asked, answers', x, z, z', looked, parts, turn, compared, all⟩

end Query

namespace World

def shopClassPath : ClassPath := .ofClasses
  [{ name := "p/Item" },
   { name := "p/Shop"
     methods := [{ selector := "take", descriptor := "(Ljava/lang/Object;)V" },
       { selector := "take", descriptor := "(Lp/Item;)V" }] }]

def shopUnit : SourceUnit :=
  { file := "Buyer", package := ⟨["p"]⟩
    types := [{ name := "Buyer", modifiers := .empty }] }

def shopWorld : World :=
  (initial {} shopClassPath {}).after
    [.getType ⟨["p", "Shop"]⟩, .getType ⟨["p", "Item"]⟩, .methods ⟨10⟩, .buildUnit shopUnit, .completeUnits]

theorem selectMethod_sound_shop :
    (Query.selectMethod ⟨1⟩ ⟨10⟩ "take" [⟨0⟩, ⟨1⟩] [⟨11⟩] {} .standard shopWorld).1 = .ok (.found ⟨1⟩) ∧
      ∃ earlier phase later tried answers u v, shopWorld.options.phases = earlier ++ phase :: later ∧
        earlier.mapM (fun other => [⟨0⟩, ⟨1⟩].mapM (Query.applicability other [⟨11⟩] {})) .standard shopWorld =
          (.ok tried, u) ∧ (∀ row ∈ tried, ∀ answer ∈ row, answer.targets = []) ∧
        [⟨0⟩, ⟨1⟩].mapM (Query.applicability phase [⟨11⟩] {}) .standard u = (.ok answers, v) ∧
        Query.Chosen ⟨1⟩ ⟨10⟩ phase (answers.flatMap Applicability.targets) ⟨1⟩ .standard v := by
  have found : (Query.selectMethod ⟨1⟩ ⟨10⟩ "take" [⟨0⟩, ⟨1⟩] [⟨11⟩] {} .standard shopWorld).1 = .ok (.found ⟨1⟩) := by
    decide +kernel
  exact ⟨found, Query.selectMethod_sound (Query.run_standard found)⟩

/-! ## Candidates of type variables -/

def baseClassPath : ClassPath := .ofClasses
  [{ name := "p/Base", methods := [{ selector := "run", descriptor := "()V" }] },
   { name := "p/Box", signature := "<U:Lp/Base;T:TU;>Ljava/lang/Object;" }]

def baseWorld : World :=
  (initial {} baseClassPath {}).after
    [.getType ⟨["p", "Base"]⟩, .methods ⟨10⟩, .superclass ⟨10⟩, .superInterfaces ⟨10⟩, .getType ⟨["p", "Box"]⟩,
      .superclass ⟨13⟩, .superInterfaces ⟨13⟩]

/-- A bound that is a type variable itself contributes no candidates. -/
theorem no_methods_of_variable_bound : baseWorld.Reachable ∧
    (Query.superclass ⟨15⟩ .standard baseWorld).1 = .ok (some ⟨14⟩) ∧
    (Query.superInterfaces ⟨15⟩ .standard baseWorld).1 = .ok [] ∧
    (Query.collectMethods ⟨14⟩ "run" .standard baseWorld).1 = .ok [⟨0⟩] ∧
    (Query.collectMethods ⟨15⟩ "run" .standard baseWorld).1 = .ok [] :=
  ⟨(Reachable.initial {} baseClassPath {}).after _, by decide +kernel⟩

end World

end Bindings
