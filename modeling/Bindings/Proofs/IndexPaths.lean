import Bindings.Proofs.Units

/-!
# Index paths

A type of a unit remembers the path of its declaration. Duplicates are left out, so the types form a thinner tree
than the declarations.
-/

namespace Bindings

open Edit

theorem ProblemLog.problems_foldl_add {log : ProblemLog} (h : log.silent = false) (reports : List Problem) :
    (reports.foldl add log).problems.toList = log.problems.toList ++ reports := by
  induction reports generalizing log with
  | nil => simp
  | cons report reports ih =>
    have ha : log.add report = { log with problems := log.problems.push report } := by simp [add, h]
    rw [List.foldl_cons, ha, ih (by exact h)]
    simp

namespace World

variable {w : World} {unit : UnitId} {src : SourceUnit} {id other : TypeId}

theorem Staged.declaration (hw : w.Staged) (hs : w.sources.find? unit = some src) (hid : id ∈ w.unitTypes unit) :
    ∃ info path decl, w.class? id = some info ∧ info.origin = .source unit path ∧
      src.typeAt? path = some decl ∧ w.declaration? id = some (unit, decl) ∧
      decl.name = info.sourceName ∧ decl.kind = info.kind := by
  obtain ⟨path, info, hi, ho⟩ := (hw.mem_unitTypes.1 hid).declaredAt hw.toPlaced
  obtain ⟨decl, hd, hn, hk⟩ := hw.declared id info unit path src hi ho hs
  exact ⟨info, path, decl, hi, ho, hd, by simp [declaration?, hi, ho, hs, hd], hn, hk⟩

/-- The path of each type of a unit leads to a declaration with the name and the kind of the type, and different types
have different paths. A declaration that gets no type is, or lies inside, one that is reported as a duplicate, whether
or not the log keeps its reports. -/
theorem paths_find_declarations (w : World) : (w.Reachable → ∀ unit source, w.sources.find? unit = some source →
      (∀ id ∈ w.unitTypes unit, ∃ info path decl, w.class? id = some info ∧ info.origin = .source unit path ∧
        source.typeAt? path = some decl ∧ w.declaration? id = some (unit, decl) ∧
        decl.name = info.sourceName ∧ decl.kind = info.kind) ∧
      ∀ id ∈ w.unitTypes unit, ∀ other ∈ w.unitTypes unit, id ≠ other →
        ∀ path, w.DeclaredAt id unit path → ¬ w.DeclaredAt other unit path) ∧
    (w.Sound → ∀ source,
      let unit := (buildUnit source w).1
      let w' := (buildUnit source w).2
      w'.sources.find? unit = some source ∧ ∃ reports : List Problem, w'.log = reports.foldl .add w.log ∧
        ∀ path decl, source.typeAt? path = some decl →
          (∃ id, w'.DeclaredAt id unit path) ∨ ∃ outer duplicate name, outer <+: path ∧
            source.typeAt? outer = some duplicate ∧ w'.NamesAt unit source outer duplicate.name name ∧
            ⟨.duplicateType, [name.dotted]⟩ ∈ reports) := by
  refine ⟨fun hreach unit source hsource => ⟨fun id hid => hreach.staged.declaration hsource hid, ?_⟩, ?_⟩
  · have hapart := (hreach.staged.types unit).spread.apart_typesBelow hreach.staged.toPlaced (w.types.size + 1)
    have hsymm : Std.Symm fun a b => ∀ path, w.DeclaredAt a unit path → ¬ w.DeclaredAt b unit path :=
      ⟨fun _ _ h path hb ha => h path ha hb⟩
    exact fun id hid other hother hne => hapart.forall hid hother hne
  · intro hsound source
    obtain ⟨-, -, -, -, hsource, reports, hlog, hdealt⟩ := buildUnit_runs hsound source
    exact ⟨hsource, reports, hlog, fun path decl hdecl => hdealt path trivial (by rw [hdecl]; rfl)⟩

/-- A member has the name of its class, two members have the same name, and so have two classes. -/
def trunkUnit : SourceUnit :=
  { file := "Chest", package := ⟨["p"]⟩
    types :=
      [{ name := "Chest", members := [{ name := "Chest", members := [{ name := "Key" }] }, { name := "Lid" },
           { name := "Lid", kind := .interface }, { name := "Lock", kind := .enumeration }] }, { name := "Chest" }] }

def trunkWorld : World := (initial {} ClassPath.rootOnly {}).after [.buildUnit trunkUnit]

theorem paths_find_declarations_trunk : trunkWorld.Reachable ∧ trunkWorld.unitTypes ⟨0⟩ = [⟨10⟩, ⟨11⟩, ⟨12⟩] ∧
    (∃ info path decl, trunkWorld.class? ⟨12⟩ = some info ∧ info.origin = .source ⟨0⟩ path ∧
      trunkUnit.typeAt? path = some decl ∧ trunkWorld.declaration? ⟨12⟩ = some (⟨0⟩, decl) ∧
      decl.name = info.sourceName ∧ decl.kind = info.kind) ∧
    (∀ path, trunkWorld.DeclaredAt ⟨11⟩ ⟨0⟩ path → ¬ trunkWorld.DeclaredAt ⟨12⟩ ⟨0⟩ path) ∧
    ((∃ id, trunkWorld.DeclaredAt id ⟨0⟩ [0, 0, 0]) ∨ ∃ outer duplicate name, outer <+: [0, 0, 0] ∧
      trunkUnit.typeAt? outer = some duplicate ∧ trunkWorld.NamesAt ⟨0⟩ trunkUnit outer duplicate.name name ∧
      ⟨.duplicateType, [name.dotted]⟩ ∈ trunkWorld.log.problems.toList) ∧
    trunkWorld.log.problems = #[⟨.duplicateType, ["p.Chest.Chest"]⟩, ⟨.duplicateType, ["p.Chest.Lid"]⟩,
      ⟨.duplicateType, ["p.Chest"]⟩] := by
  have hread : (buildUnit trunkUnit (initial {} ClassPath.rootOnly {})).1 = ⟨0⟩ ∧
      trunkWorld.unitTypes ⟨0⟩ = [⟨10⟩, ⟨11⟩, ⟨12⟩] := by decide +kernel
  obtain ⟨hunit, htypes⟩ := hread
  have hreach : trunkWorld.Reachable := (Reachable.initial ..).after _
  have hworld : ∀ w source, (buildUnit source w).2 = w.after [.buildUnit source] := fun _ _ => rfl
  have hbuilt := (paths_find_declarations (initial {} ClassPath.rootOnly {})).2 (sound_initial ..) trunkUnit
  dsimp only at hbuilt
  rw [hunit, hworld, ← trunkWorld] at hbuilt
  obtain ⟨hsource, reports, hlog, hdealt⟩ := hbuilt
  obtain ⟨hpaths, hapart⟩ := (paths_find_declarations trunkWorld).1 hreach ⟨0⟩ trunkUnit hsource
  refine ⟨hreach, htypes, hpaths ⟨12⟩ (by rw [htypes]; decide),
    hapart ⟨11⟩ (by rw [htypes]; decide) ⟨12⟩ (by rw [htypes]; decide) (by decide),
    (hdealt [0, 0, 0] _ rfl).imp_right ?_, by decide +kernel⟩
  rintro ⟨outer, duplicate, name, hprefix, hat, hnames, hreported⟩
  refine ⟨outer, duplicate, name, hprefix, hat, hnames, ?_⟩
  rw [hlog, ProblemLog.problems_foldl_add rfl]
  exact List.mem_append_right _ hreported

end World

end Bindings
