import Bindings.Proofs.Reachable

/-! # Static contexts -/

namespace Bindings

open World Query

variable {inner outer : List ScopeId}

namespace World

variable {w w' : World} {id : ScopeId} {stop : Option Halt} {task : Option Task}

/-- From inside the scope there is no instance of the next class further out. -/
def isBoundary (w : World) (id : ScopeId) : Bool :=
  match (w.scope id).kind with
  | .method _ isStatic _ => isStatic
  | .type type => w.isStaticType type
  | .unit .. | .block => false

def typesAmong (w : World) (scopes : List ScopeId) : Nat :=
  scopes.countP fun id => (w.scopeType? id).isSome

theorem isStaticType_of_course (hw : w.Sound)
    (h : Course task stop w w') {id : TypeId} (hs : w.isStaticType id) : w'.isStaticType id := by
  rw [isStaticType, Option.any_eq_true] at hs ⊢
  obtain ⟨info, hi, hs⟩ := hs
  obtain ⟨new, hn, hk⟩ := h.grows.declared id info hi
  obtain ⟨_, hla, hl⟩ := h.lasts hw id info hi
  cases hn.symm.trans hla
  refine ⟨new, hn, ?_⟩
  rwa [hl.modifiers, hl.isInterface, ← Option.not_isSome, hk.enclosed, Option.not_isSome]

theorem scopeType?_of_level (h : w.Level w') (hlt : id.index < w.scopes.size) : w'.scopeType? id = w.scopeType? id := by
  rw [scopeType?, (h.scope id hlt).2.1, scopeType?]

theorem typesAmong_of_level (h : w.Level w') {scopes : List ScopeId}
    (hlt : ∀ id ∈ scopes, id.index < w.scopes.size) : w'.typesAmong scopes = w.typesAmong scopes :=
  List.countP_congr fun id hid => by rw [scopeType?_of_level h (hlt id hid)]

theorem isBoundary_of_course (hw : w.Sound)
    (h : Course task stop w w') (hlt : id.index < w.scopes.size) (hid : w.isBoundary id) : w'.isBoundary id := by
  rw [isBoundary, (h.level.scope id hlt).2.1]
  rw [isBoundary] at hid
  split
  · next heq => simpa only [heq] using hid
  · next heq =>
    simp only [heq] at hid
    exact isStaticType_of_course hw h hid
  · next heq => simp [heq] at hid
  · next heq => simp [heq] at hid

end World

namespace Query

section

variable {α : Type} {find : Nat → Bool → List ScopeId → Query (Resolution α × Nat)}
  {free : α → Nat → World → Prop} {w : World}

/-- A lookup that climbs a chain of scopes. It is told how many types it has left behind and whether
instance members of the next type are out of reach, where it finds members only that are free of
instances. Beyond all types it finds no other members either. -/
structure Climbs (find : Nat → Bool → List ScopeId → Query (Resolution α × Nat))
    (free : α → Nat → World → Prop) : Prop where
  nil : ∀ (w : World) (depth : Nat) (isStatic : Bool),
    (find depth isStatic []).Runs w fun answer _ => ∀ a, answer.1 ≠ .found a
  block : ∀ {w : World} {id : ScopeId} {depth : Nat} {isStatic : Bool} {outer : List ScopeId}
    {post : Resolution α × Nat → World → Prop}, (w.scope id).kind = .block →
    (find depth isStatic outer).Runs w post → (find depth isStatic (id :: outer)).Runs w post
  method : ∀ {w : World} {id : ScopeId} {method : Option MethodId} {staticMethod : Bool} {vars : List TypeId}
    {depth : Nat} {isStatic : Bool} {outer : List ScopeId} {post : Resolution α × Nat → World → Prop},
    (w.scope id).kind = .method method staticMethod vars →
    (find depth (isStatic || staticMethod) outer).Runs w post →
    (find depth isStatic (id :: outer)).Runs w post
  unit : ∀ {w : World} {id : ScopeId} {unit : UnitId} {package : PackageId} (depth : Nat) (isStatic : Bool)
    (outer : List ScopeId), w.Sound → (w.scope id).kind = .unit unit package →
    (find depth isStatic (id :: outer)).Runs w fun answer w' => ∀ a, answer.1 = .found a → free a answer.2 w'
  type : ∀ {w : World} {id : ScopeId} {type : TypeId} {depth : Nat} {isStatic : Bool} {outer : List ScopeId}
    {post : Resolution α × Nat → World → Prop}, w.Sound → (w.scope id).kind = .type type →
    (∀ answer w', (∀ a, answer.1 = .found a → answer.2 = depth ∧ (isStatic → free a depth w')) →
      post answer w') →
    (∀ w1, w1.Sound → Course none none w w1 →
      (find (depth + 1) (w1.isStaticType type) outer).Runs w1 post) →
    (find depth isStatic (id :: outer)).Runs w post

namespace Climbs

theorem beyond (h : Climbs find free) (hw : w.Sound) (depth : Nat) (isStatic : Bool) (chain : List ScopeId) :
    (find depth isStatic chain).Runs w fun ans w' => ∀ a, ans.1 = .found a →
      free a ans.2 w' ∨ depth ≤ ans.2 ∧ (isStatic → depth < ans.2) := by
  induction chain generalizing w depth isStatic with
  | nil => exact (h.nil w depth isStatic).mono fun _ _ hn a ha => absurd ha (hn a)
  | cons id outer ih =>
    cases hk : (w.scope id).kind with
    | block => exact h.block hk (ih hw depth isStatic)
    | unit unit pkg => exact (h.unit depth isStatic _ hw hk).mono fun _ _ hf a ha => .inl (hf a ha)
    | method m staticMethod vars =>
      refine h.method hk ((ih hw depth _).mono fun ans w' han a ha => ?_)
      refine (han a ha).imp_right (And.imp_right fun hd hs => hd ?_)
      rw [hs, Bool.true_or]
    | type type =>
      refine h.type hw hk (fun ans w' hh a ha => ?_) fun w1 hw1 _ =>
        (ih hw1 (depth + 1) _).mono fun ans w' han a ha => ?_
      · obtain ⟨hd, hf⟩ := hh a ha
        cases isStatic with
        | false => exact .inr ⟨Nat.le_of_eq hd.symm, fun hs => by cases hs⟩
        | true => exact .inl (hd ▸ hf rfl)
      · exact (han a ha).imp_right fun hde => ⟨Nat.le_of_lt hde.1, fun _ => hde.1⟩

theorem boundary (h : Climbs find free) (hw : w.Sound) (depth : Nat) (isStatic : Bool) {boundary : ScopeId}
    (hlt : ∀ id ∈ inner ++ [boundary], id.index < w.scopes.size) (hb : w.isBoundary boundary) :
    (find depth isStatic (inner ++ boundary :: outer)).Runs w fun ans w' => ∀ a, ans.1 = .found a →
      ans.2 = depth + w.typesAmong (inner ++ [boundary]) → free a ans.2 w' := by
  induction inner generalizing w depth isStatic with
  | nil =>
    simp only [List.nil_append]
    cases hk : (w.scope boundary).kind with
    | block => simp [isBoundary, hk] at hb
    | unit unit pkg => simp [isBoundary, hk] at hb
    | method m staticMethod vars =>
      have hs : staticMethod := by simpa [isBoundary, hk] using hb
      refine h.method hk ((h.beyond hw depth _ outer).mono fun ans w' han a ha hd => ?_)
      refine (han a ha).resolve_right fun hbe => ?_
      have hde := hbe.2 (by rw [hs, Bool.or_true])
      have hn : w.typesAmong [boundary] = 0 := by simp [typesAmong, scopeType?, hk]
      omega
    | type type =>
      have hs : w.isStaticType type := by simpa [isBoundary, hk] using hb
      have hon : w.typesAmong [boundary] = 1 := by simp [typesAmong, scopeType?, hk]
      rw [hon]
      refine h.type hw hk (fun ans w' hh a ha hd => ?_) fun w1 hw1 hc =>
        (h.beyond hw1 (depth + 1) _ outer).mono fun ans w' han a ha hd => ?_
      · have := (hh a ha).1
        omega
      · refine (han a ha).resolve_right fun hbe => ?_
        have := hbe.2 (isStaticType_of_course hw hc hs)
        omega
  | cons id inner ih =>
    have hr : ∀ other ∈ inner ++ [boundary], other.index < w.scopes.size := fun other ho =>
      hlt other (List.mem_cons_of_mem _ ho)
    have hco : w.typesAmong (id :: (inner ++ [boundary])) = w.typesAmong (inner ++ [boundary]) +
        if (w.scopeType? id).isSome then 1 else 0 := List.countP_cons ..
    rw [scopeType?] at hco
    simp only [List.cons_append]
    cases hk : (w.scope id).kind with
    | block => exact h.block hk (by simpa [hco, hk] using ih hw depth isStatic hr hb)
    | unit unit pkg => exact (h.unit depth isStatic _ hw hk).mono fun _ _ hf a ha _ => hf a ha
    | method m staticMethod vars => exact h.method hk (by simpa [hco, hk] using ih hw depth _ hr hb)
    | type type =>
      simp only [hco, hk, Option.isSome_some, if_true]
      refine h.type hw hk (fun ans w' hh a ha hd => ?_) fun w1 hw1 hc => ?_
      · have := (hh a ha).1
        omega
      have hlt1 : ∀ other ∈ inner ++ [boundary], other.index < w1.scopes.size := fun other ho =>
        (hc.level.scope other (hr other ho)).1
      have hb1 := isBoundary_of_course hw hc (hr boundary (by simp)) hb
      refine (ih hw1 (depth + 1) _ hlt1 hb1).mono fun ans w' han a ha hd => ?_
      refine han a ha ?_
      rw [typesAmong_of_level hc.level hr]
      omega

end Climbs

end

variable {w : World} {scope : ScopeId}

theorem staticField_static (hw : w.Sound) (name : String) (site : Site) (id : TypeId) :
    (staticField scope name site id).Runs w fun found w' =>
      ∀ field, found = some field → (w'.field field).isStatic := by
  refine .after hw fun res w' hw' _ => ?_
  split
  · next field =>
    refine .get (.pure fun found hf => ?_)
    split at hf
    · next hs => cases hf; exact hs
    · cases hf
  · exact .pure fun _ hf => by cases hf

theorem firstStaticField_static (hw : w.Sound) (name : String) (site : Site) (types : List TypeId) :
    (firstStaticField scope name site types).Runs w fun found w' =>
      ∀ field, found = some field → (w'.field field).isStatic := by
  induction types generalizing w with
  | nil => exact .pure fun _ hf => by cases hf
  | cons id rest ih =>
    rw [firstStaticField]
    refine .bind hw (staticField_static hw name site id) fun found w' hw' _ hs => ?_
    split
    · exact .pure hs
    · exact ih hw'

theorem onlyStaticField_static (hw : w.Sound) (name : String) (site : Site) (types : List TypeId)
    {found : Option FieldId} (hf : ∀ field, found = some field → (w.field field).isStatic) :
    (onlyStaticField scope name site found types).Runs w fun res w' =>
      ∀ field, res = .found field → (w'.field field).isStatic := by
  induction types generalizing w found with
  | nil =>
    cases found with
    | none => exact .pure fun _ h => by cases h
    | some field => exact .pure fun _ h => by cases h; exact hf field rfl
  | cons id rest ih =>
    rw [onlyStaticField]
    refine .bind hw (staticField_static hw name site id).courses fun next w' hw' _ ⟨hs, hc⟩ => ?_
    have hst : ∀ field, found = some field → (w'.field field).isStatic := fun field h =>
      hc.level.isStatic field (hf field h)
    split
    · exact ih hw' hst
    · exact ih hw' hs
    split
    · exact ih hw' hst
    · exact .pure fun _ h => by cases h

theorem importedField_static (hw : w.Sound) (unit : UnitId) (name : String) (site : Site) :
    (importedField unit scope name site).Runs w fun res w' =>
      ∀ field, res = .found field → (w'.field field).isStatic := by
  refine .get ?_
  refine .bind hw (firstStaticField_static hw name site _) fun found w' hw' _ hs => ?_
  split
  · exact .pure fun _ h => by cases h; exact hs _ rfl
  · exact onlyStaticField_static hw' name site _ fun _ h => by cases h

theorem confirmInherited_same (hw : w.Sound) (name : String) (hit : FieldId) (chain : List ScopeId) :
    (confirmInherited name hit chain).Runs w fun res _ =>
      ∀ field, res = .found field → field = hit := by
  induction chain generalizing w with
  | nil => exact .pure fun _ h => by cases h; rfl
  | cons id outer ih =>
    rw [confirmInherited]
    refine .get ?_
    split
    · exact .pure fun _ h => by cases h; rfl
    · exact ih hw
    · exact ih hw
    refine .after hw fun direct w' hw' _ => ?_
    split
    · split
      · exact ih hw'
      · exact .pure fun _ h => by cases h
    · exact ih hw'

theorem fieldInChain_climbs (scope : ScopeId) (name : String) (site : Site) :
    Climbs (fieldInChain scope name site) fun field _ w => (w.field field).isStatic where
  nil w depth isStatic := .pure fun _ h => by cases h
  block hk h := by
    rw [fieldInChain]
    exact .get (by rwa [hk])
  method hk h := by
    rw [fieldInChain]
    exact .get (by rwa [hk])
  unit _ _ _ hw hk := by
    rw [fieldInChain]
    refine .get ?_
    rw [hk]
    exact .bind hw (importedField_static hw _ name site) fun _ _ _ _ hst => .pure hst
  type {w id type depth isStatic outer post} hw hk hh hn := by
    rw [fieldInChain]
    refine .get ?_
    rw [hk]
    refine .bind hw (RunsIn.of_orderly hw).courses fun resolution w1 hw1 _ hc => ?_
    split
    · next field =>
      refine .get ?_
      dsimp only
      split
      · exact .pure (hh _ _ fun _ h => by cases h)
      rename_i hr
      have hfr : isStatic → (w1.field field).isStatic := fun hst => by simpa [hst] using hr
      split
      · exact .pure (hh _ _ fun _ h => by cases h; exact ⟨rfl, hfr⟩)
      refine .bind hw1 (confirmInherited_same hw1 name field outer).courses
        fun resolution w2 _ _ hs => .pure (hh _ _ fun found hf => ⟨rfl, fun hst => ?_⟩)
      rw [hs.1 found hf]
      exact hs.2.level.isStatic field (hfr hst)
    split
    · exact .get (hn w1 hw1 hc.2)
    · exact .pure (hh _ _ fun _ h => by cases h)

/-- The climb passes no class that has a method of the name and comes to the unit, whose static imports answer
with the method. Each step is one of the run itself. -/
inductive ByImport (scope : ScopeId) (selector : String) (arguments : List TypeId) (site : Site) (d : Demand)
    (method : MethodId) (w' : World) : List ScopeId → World → Prop
  | block {w : World} {id : ScopeId} {outer : List ScopeId} : (w.scope id).kind = .block →
    ByImport scope selector arguments site d method w' outer w →
    ByImport scope selector arguments site d method w' (id :: outer) w
  | method {w : World} {id : ScopeId} {outer : List ScopeId} {inside : Option MethodId} {isStatic : Bool}
    {vars : List TypeId} : (w.scope id).kind = .method inside isStatic vars →
    ByImport scope selector arguments site d method w' outer w →
    ByImport scope selector arguments site d method w' (id :: outer) w
  | type {w w1 : World} {id : ScopeId} {outer : List ScopeId} {type : TypeId} : (w.scope id).kind = .type type →
    collectMethods type selector d w = (.ok [], w1) →
    ByImport scope selector arguments site d method w' outer w1 →
    ByImport scope selector arguments site d method w' (id :: outer) w
  | unit {w : World} {id : ScopeId} {outer : List ScopeId} {unit : UnitId} {package : PackageId} :
    (w.scope id).kind = .unit unit package →
    importedMethod unit scope selector arguments site d w = (.ok (.found method), w') →
    ByImport scope selector arguments site d method w' (id :: outer) w

/-- What no static import answers is found as many types further out as the count begins later. -/
theorem methodInChain_deeper {selector : String} {arguments : List TypeId} {site : Site} {d : Demand}
    {method : MethodId} {w' : World} {depth found : Nat} {isStatic : Bool} {chain : List ScopeId}
    (run : methodInChain scope selector arguments site depth isStatic chain d w = (.ok (.found method, found), w')) :
    found = 0 ∧ ByImport scope selector arguments site d method w' chain w ∨
      methodInChain scope selector arguments site (depth + 1) isStatic chain d w =
        (.ok (.found method, found + 1), w') := by
  induction chain generalizing w depth isStatic with
  | nil => cases run
  | cons id outer ih =>
    rw [methodInChain, get_bind_apply] at run ⊢
    cases kind : (w.scope id).kind with
    | block =>
      simp only [kind] at run ⊢
      exact (ih run).imp_left (And.imp_right (.block kind))
    | method inside staticMethod vars =>
      simp only [kind] at run ⊢
      exact (ih run).imp_left (And.imp_right (.method kind))
    | unit unit package =>
      simp only [kind] at run
      obtain ⟨resolution, w1, imported, answered⟩ := of_bind_ok _ _ run
      cases answered
      exact .inl ⟨rfl, .unit kind imported⟩
    | type type =>
      simp only [kind] at run ⊢
      obtain ⟨methods, w1, collected, next⟩ := of_bind_ok _ _ run
      rw [bind_ok d w collected]
      cases methods with
      | nil =>
        simp only [List.isEmpty_nil, if_true, get_bind_apply] at next ⊢
        exact (ih next).imp_left (And.imp_right (.type kind collected))
      | cons first rest =>
        simp only [List.isEmpty_cons, Bool.false_eq_true, if_false] at next ⊢
        obtain ⟨resolution, w2, sought, answered⟩ := of_bind_ok _ _ next
        rw [bind_ok d w1 sought]
        cases isStatic with
        | false =>
          cases answered
          exact .inr rfl
        | true =>
          simp only [if_true, get_bind_apply] at answered ⊢
          generalize inStaticContext w2 selector resolution = answer at answered ⊢
          cases answered
          exact .inr rfl

theorem isStatic_or_of_inStaticContext {selector : String} {res : Resolution MethodId} {m : MethodId}
    (h : inStaticContext w selector res = .found m) :
    (w.method m).isStatic ∨ (w.method m).isConstructor := by
  cases res with
  | failed failure => cases h
  | found hit =>
    rw [inStaticContext] at h
    split at h
    · next hf =>
      cases h
      exact Bool.or_eq_true .. ▸ hf
    · cases h

theorem methodInChain_climbs (scope : ScopeId) (selector : String) (args : List TypeId) (site : Site) :
    Climbs (methodInChain scope selector args site)
      fun method depth w => depth = 0 ∨ (w.method method).isStatic ∨ (w.method method).isConstructor where
  nil w depth isStatic := .pure fun _ h => by cases h
  block hk h := by
    rw [methodInChain]
    exact .get (by rwa [hk])
  method hk h := by
    rw [methodInChain]
    exact .get (by rwa [hk])
  unit {w id unit pkg} _ _ _ hw hk := by
    rw [methodInChain]
    refine .get ?_
    rw [hk]
    exact .bind hw (RunsIn.of_orderly hw) fun _ _ _ _ _ => .pure fun _ _ => .inl rfl
  type {w id type depth isStatic outer post} hw hk hh hn := by
    rw [methodInChain]
    refine .get ?_
    rw [hk]
    refine .bind hw (RunsIn.of_orderly hw).courses fun methods w1 hw1 _ hc => ?_
    split
    · exact .get (hn w1 hw1 hc.2)
    refine .after hw1 fun resolution w2 _ _ => ?_
    split
    · refine .get (.pure (hh _ _ fun method hm => ⟨rfl, fun _ => ?_⟩))
      exact .inr (isStatic_or_of_inStaticContext hm)
    · next hi => exact .pure (hh _ _ fun _ _ => ⟨rfl, fun hs => absurd hs hi⟩)

end Query

namespace World

variable {w : World} {id : ScopeId}

theorem lt_of_scopeChainFrom {fuel : Nat} {scope : ScopeId} {last : ScopeId}
    (h : w.scopeChainFrom fuel scope = inner ++ last :: outer) (hid : id ∈ inner) : id.index < w.scopes.size := by
  induction fuel generalizing scope inner with
  | zero => simp [scopeChainFrom] at h
  | succ fuel ih =>
    cases inner with
    | nil => cases hid
    | cons first inner =>
      rw [scopeChainFrom] at h
      split at h
      · next parent hp =>
        obtain ⟨rfl, hr⟩ := List.cons.inj h
        obtain rfl | hid := List.mem_cons.1 hid
        · exact lt_size_of_parent hp
        · exact ih hr hid
      · simp at h

theorem lt_of_isBoundary (h : w.isBoundary id) : id.index < w.scopes.size := by
  by_contra hge
  rw [isBoundary, scope, Array.getD_eq_getD_getElem?, Array.getElem?_eq_none (Nat.le_of_not_lt hge)] at h
  cases h

/-- In a static context no instance member of the next class is found. The context is that of a static
method or a static type, and the next class is the one that lies so many types further out. Methods by static
imports, which are no members of it, are counted as if they were found in the innermost class. -/
theorem Reachable.static_boundary (h : w.Reachable) {scope boundary : ScopeId} {inner outer : List ScopeId}
    (hchain : w.scopeChain scope = inner ++ boundary :: outer) (hboundary : w.isBoundary boundary)
    (isLast : World → Bool) (fuel : Nat) :
    (∀ name site field w', resolveField scope name site (.upTo isLast fuel) w =
      (.ok (.found field, w.typesAmong (inner ++ [boundary])), w') → (w'.field field).isStatic) ∧
    ∀ selector arguments site method w',
      resolveMethod scope selector arguments site (.upTo isLast fuel) w =
        (.ok (.found method, w.typesAmong (inner ++ [boundary])), w') →
      (w'.method method).isStatic ∨ (w'.method method).isConstructor ∨
        w.typesAmong (inner ++ [boundary]) = 0 ∧
          ByImport scope selector arguments site (.upTo isLast fuel) method w' (w.scopeChain scope) w := by
  have hlt : ∀ id ∈ inner ++ [boundary], id.index < w.scopes.size := by
    intro id hid
    rcases List.mem_append.1 hid with hid | hid
    · exact lt_of_scopeChainFrom hchain hid
    · exact List.mem_singleton.1 hid ▸ lt_of_isBoundary hboundary
  have horderly := Demand.orderly_upTo isLast fuel
  refine ⟨fun name site field w' hrun => ?_, fun selector arguments site method w' hrun => ?_⟩
  · obtain ⟨-, hfield⟩ := (fieldInChain_climbs scope name site).boundary h.sound 0 false hlt hboundary
      (.upTo isLast fuel) horderly
    rw [← hchain] at hfield
    change fieldInChain scope name site 0 false (w.scopeChain scope) (.upTo isLast fuel) w = _ at hrun
    rw [hrun] at hfield
    exact hfield _ rfl field rfl (Nat.zero_add _).symm
  · change methodInChain scope selector arguments site 0 false (w.scopeChain scope)
      (.upTo isLast fuel) w = _ at hrun
    obtain himported | hdeeper := methodInChain_deeper hrun
    · exact .inr (.inr himported)
    obtain ⟨-, hmethod⟩ := (methodInChain_climbs scope selector arguments site).boundary h.sound 1 false
      hlt hboundary (.upTo isLast fuel) horderly
    rw [← hchain, hdeeper] at hmethod
    obtain hzero | hstatic := hmethod _ rfl method rfl (Nat.add_comm ..)
    · cases hzero
    · exact hstatic.imp_right .inl

def houseUnit : SourceUnit :=
  { file := "House.java", package := ⟨["p"]⟩
    types := [{ name := "House"
                fields := [{ name := "x", modifiers := .empty, type := .base .int },
                  { name := "count", modifiers := .staticFlag, type := .base .int }]
                methods := [{ selector := "run", result := some (.base .void) }]
                members := [{ name := "Room", modifiers := .empty },
                  { name := "Plan", modifiers := .staticFlag }] }] }

def houseWorld : World :=
  (initial {} .rootOnly {}).after [.buildUnit houseUnit, .completeUnits, .newMethodScope ⟨2⟩ none true]

theorem reachable_houseWorld : houseWorld.Reachable := (Reachable.initial {} .rootOnly {}).after _

theorem static_boundary_plan :
    houseWorld.scopeChain ⟨3⟩ = [] ++ ⟨3⟩ :: [⟨1⟩, ⟨0⟩] ∧ houseWorld.isBoundary ⟨3⟩ ∧
    (resolveField ⟨3⟩ "x" {} .standard houseWorld).1 =
      .ok (.failNear "x" .instanceInStaticContext ⟨0⟩, 0) ∧
    (resolveField ⟨3⟩ "count" {} .standard houseWorld).1 = .ok (.found ⟨1⟩, 1) ∧
    ((resolveField ⟨3⟩ "count" {} .standard houseWorld).2.field ⟨1⟩).isStatic := by
  have hread : houseWorld.scopeChain ⟨3⟩ = [] ++ ⟨3⟩ :: [⟨1⟩, ⟨0⟩] ∧ houseWorld.isBoundary ⟨3⟩ = true ∧
      houseWorld.typesAmong ([] ++ [⟨3⟩]) = 1 ∧
      (resolveField ⟨3⟩ "count" {} .standard houseWorld).1 = .ok (.found ⟨1⟩, 1) := by decide +kernel
  obtain ⟨hsplit, hboundary, hdepth, hcount⟩ := hread
  refine ⟨hsplit, hboundary, by decide +kernel, hcount, ?_⟩
  refine (reachable_houseWorld.static_boundary hsplit hboundary (fun _ => false) 1000000).1 "count" {} ⟨1⟩ _ ?_
  rw [hdepth]
  exact run_standard hcount

/-- A static method of the inner class finds instance members of the class around it: beyond the inner class
it is forgotten that there is no instance. -/
theorem static_method_forgotten :
    houseWorld.Reachable ∧ houseWorld.scopeChain ⟨5⟩ = [⟨5⟩, ⟨2⟩, ⟨1⟩, ⟨0⟩] ∧ houseWorld.isBoundary ⟨5⟩ ∧
    (resolveField ⟨5⟩ "x" {} .standard houseWorld).1 = .ok (.found ⟨0⟩, 1) ∧
    (houseWorld.field ⟨0⟩).isStatic = false ∧
    (resolveMethod ⟨5⟩ "run" [] {} .standard houseWorld).1 = .ok (.found ⟨0⟩, 1) ∧
    (houseWorld.method ⟨0⟩).isStatic = false ∧ (houseWorld.method ⟨0⟩).isConstructor = false :=
  ⟨reachable_houseWorld, by decide +kernel⟩

end World

end Bindings
