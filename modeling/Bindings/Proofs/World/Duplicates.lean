import Bindings.Proofs.World.Frame

/-!
# What becomes of declarations

A declaration gets a class, or it is part of one whose name is taken and that is reported.
-/

namespace Bindings

open Edit

theorem TypeDecl.memberAt?_append (decl : TypeDecl) (path rest : List Nat) :
    decl.memberAt? (path ++ rest) = (decl.memberAt? path).bind (·.memberAt? rest) := by
  induction path generalizing decl with
  | nil => rfl
  | cons first path ih => cases h : decl.members[first]? <;> simp [memberAt?, h, ih]

theorem TypeDecl.memberAt?_cons (decl : TypeDecl) (first : Nat) (path : List Nat) :
    decl.memberAt? (first :: path) = decl.members[first]?.bind (·.memberAt? path) := rfl

theorem SourceUnit.typeAt?_append {src : SourceUnit} {path : List Nat} {decl : TypeDecl}
    (h : src.typeAt? path = some decl) (rest : List Nat) : src.typeAt? (path ++ rest) = decl.memberAt? rest := by
  cases path with
  | nil => cases h
  | cons first path =>
    rw [typeAt?] at h
    obtain ⟨top, ht, hd⟩ := Option.bind_eq_some_iff.1 h
    rw [List.cons_append, typeAt?, ht]
    exact (top.memberAt?_append path rest).trans (by rw [hd]; rfl)

namespace World

variable {w w' w1 : World} {unit : UnitId} {src : SourceUnit} {place : Place} {path : List Nat} {simple : String}
  {name : QName} {reports : List Problem} {these first second : List Nat → Prop}

/-- The name that a declaration at the path has, or would have. -/
def NamesAt (w : World) (unit : UnitId) (source : SourceUnit) (path : List Nat) (simple : String)
    (name : QName) : Prop :=
  path.length = 1 ∧ name = source.package.child simple ∨ ∃ outer info, w.class? outer = some info ∧
    info.origin = .source unit path.dropLast ∧ name = info.name.child simple

def DealtWith (w : World) (unit : UnitId) (source : SourceUnit) (reports : List Problem) (path : List Nat) : Prop :=
  (∃ id, w.DeclaredAt id unit path) ∨ ∃ outer decl name, outer <+: path ∧ source.typeAt? outer = some decl ∧
    w.NamesAt unit source outer decl.name name ∧ ⟨.duplicateType, [name.dotted]⟩ ∈ reports

/-- From one world to another the declarations at these paths were dealt with. -/
def DealsWith (w w' : World) (unit : UnitId) (source : SourceUnit) (these : List Nat → Prop) : Prop :=
  ∃ reports : List Problem, w'.log = reports.foldl .add w.log ∧
    ∀ path, these path → (source.typeAt? path).isSome → w'.DealtWith unit source reports path

theorem NamesAt.grows (hg : w.Grows w') (h : w.NamesAt unit src path simple name) :
    w'.NamesAt unit src path simple name := by
  refine h.imp_right fun ⟨outer, info, hi, ho, hn⟩ => ?_
  obtain ⟨info', hi', hk⟩ := hg.declared outer info hi
  exact ⟨outer, info', hi', hk.origin.trans ho, by rw [hn, hk.name]⟩

theorem DealtWith.grows (hg : w.Grows w') {more : List Problem} (hr : reports ⊆ more)
    (h : w.DealtWith unit src reports path) : w'.DealtWith unit src more path := by
  obtain ⟨id, hid⟩ | ⟨outer, decl, name, ho, hd, hn, hm⟩ := h
  · exact .inl ⟨id, hid.grows hg⟩
  · exact .inr ⟨outer, decl, name, ho, hd, hn.grows hg, hr hm⟩

theorem DealsWith.trans (h1 : w.DealsWith w1 unit src first) (h2 : w1.DealsWith w' unit src second) (hg : w1.Grows w')
    (h : ∀ path, these path → first path ∨ second path) : w.DealsWith w' unit src these := by
  obtain ⟨reports1, hl1, ha1⟩ := h1
  obtain ⟨reports2, hl2, ha2⟩ := h2
  refine ⟨reports1 ++ reports2, by rw [hl2, hl1, List.foldl_append], fun path hp hs => ?_⟩
  obtain hp | hp := h path hp
  · exact (ha1 path hp hs).grows hg (List.subset_append_left ..)
  · exact (ha2 path hp hs).grows (.refl _) (List.subset_append_right ..)

theorem DealsWith.declared {id : TypeId} (hl : w'.log = w.log) (h : w'.DeclaredAt id unit path) :
    w.DealsWith w' unit src (· = path) :=
  ⟨[], hl, fun _ hp _ => .inl ⟨id, hp ▸ h⟩⟩

/-- Where a class is to be made for a declaration. -/
structure Sites (w : World) (source : SourceUnit) (place : Place) : Prop where
  top : place.enclosing = none → place.path.length = 1 ∧ w.packageNamed? source.package = some place.package
  inner : ∀ outer ∈ place.enclosing, w.DeclaredAt outer place.unit place.path.dropLast

theorem Sites.namesAt (h : w.Sites src place) (hw : w.Registered) (simple : String) :
    w.NamesAt place.unit src place.path simple (w.declaredName place.package place.enclosing simple) := by
  cases he : place.enclosing with
  | none =>
    obtain ⟨hl, hp⟩ := h.top he
    exact .inl ⟨hl, by rw [← (hw.tree.packageNamed?_iff.1 hp).2]; rfl⟩
  | some outer =>
    obtain ⟨info, hi, ho⟩ := h.inner outer he
    exact .inr ⟨outer, info, hi, ho, by rw [declaredName, Option.bind_some, hi]⟩

/-- A declaration whose name is taken, with everything in it. -/
theorem DealsWith.reported {decl : TypeDecl} (hw : w.Registered) (hs : w.Sites src place)
    (hd : src.typeAt? place.path = some decl) : w.DealsWith
      (w.report .duplicateType [(w.declaredName place.package place.enclosing decl.name).dotted]) place.unit src
      (place.path <+: ·) := by
  refine ⟨[_], rfl, fun path hp _ => .inr ⟨place.path, decl, _, hp, hd, (hs.namesAt hw decl.name).grows ?_, .head _⟩⟩
  exact .spares { Apart.refl w with }

end World

namespace Edit

variable {α β : Type} {edit : Edit α} {next : α → Edit β}

def LeavesLog (edit : Edit α) : Prop := ∀ w, (edit w).2.log = w.log

theorem LeavesLog.bind (h : edit.LeavesLog) (hn : ∀ a, (next a).LeavesLog) : (edit >>= next).LeavesLog :=
  fun w => (hn _ _).trans (h w)

theorem leavesLog_registerType (pkg : PackageId) (simple : String) (id : TypeId) :
    (registerType pkg simple id).LeavesLog := by
  intro w
  refine World.registerType_elim w pkg simple id (fun _ => rfl) fun existing name hp => ?_
  obtain ⟨_, _, _, hw⟩ := World.swapPlaceholder_with (w := w.list pkg simple id) id hp
  rw [hw]
  rfl

theorem leavesLog_newVariables (owner : VariableOwner) (rank : Nat) (names : List String) :
    (newVariables owner rank names).LeavesLog := by
  induction names generalizing rank with
  | nil => exact fun _ => rfl
  | cons name names ih => exact .bind (fun _ => rfl) fun _ => .bind (ih _) fun _ _ => rfl

theorem leavesLog_newSourceClass (place : Place) (name : String) (kind : ClassKind) (mods : Modifiers)
    (typeParams : List TypeParam) : (newSourceClass place name kind mods typeParams).LeavesLog := by
  have hc : ∀ info, (newListedClass info).LeavesLog := by
    intro info
    refine .bind (fun _ => rfl) fun id => ?_
    dsimp only
    split
    · exact .bind (leavesLog_registerType _ _ _) fun _ _ => rfl
    · exact fun _ => rfl
  have hv : ∀ id, (declareVariables id typeParams).LeavesLog := by
    intro id
    refine .bind (fun _ => rfl) fun w => ?_
    dsimp only
    split
    · exact .bind (leavesLog_newVariables _ _ _) fun _ _ => rfl
    · exact fun _ => rfl
  exact .bind (fun _ => rfl) fun _ => .bind (hc _) fun _ => .bind (fun _ => rfl) fun _ => .bind (hv _) fun _ _ => rfl

theorem leavesLog_createPackage (name : QName) : (createPackage name).LeavesLog := by
  intro w
  have hs := (World.enterPackage_grows (w := w) (fun _ => true) name.segments World.defaultPackage).same
  exact (congrArg World.log hs).trans rfl

end Edit

end Bindings
