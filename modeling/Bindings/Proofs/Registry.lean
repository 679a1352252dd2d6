import Bindings.Proofs.Reachable
import Bindings.Proofs.World.Filed

/-! # The registry -/

open Relation

namespace Bindings.World

open Edit

variable {w w' : World} {name : QName} {package : PackageId}

theorem Reachable.filed (h : w.Reachable) : w.Filed := h.fact filed_initial fun hr hc => hc.filed hr.sound

theorem enterPackage_of_named (mayAdd : QName → Bool) (h : w.packageNamed? name = some package) :
    w.enterPackage mayAdd name.segments defaultPackage = (some package, w) :=
  enterPackage_of_subpackage? h

theorem createPackage_of_named (h : w.packageNamed? name = some package) : createPackage name w = (package, w) := by
  rw [createPackage, modifyGet_apply, enterPackage_of_named _ h]
  rfl

theorem getPackage_of_named (h : w.packageNamed? name = some package) : getPackage name w = (some package, w) := by
  rw [getPackage, modifyGet_apply, enterPackage_of_named _ h]

theorem named_of_createPackage (h : w.PackageTree) (hc : createPackage name w = (package, w')) :
    w'.PackageTree ∧ w'.packageNamed? name = some package := by
  obtain ⟨rfl, rfl⟩ := Prod.mk.inj hc
  exact ⟨h.enterPackage _ _ _ h.root, (packageNamed?_createPackage h name).1⟩

theorem named_of_getPackage (h : w.PackageTree) (hg : getPackage name w = (some package, w')) :
    w'.PackageTree ∧ w'.packageNamed? name = some package := by
  obtain ⟨hf, rfl⟩ := Prod.mk.inj hg
  exact ⟨h.enterPackage _ _ _ h.root, (enterPackage_some h h.root hf).1⟩

/-- The registry is a function of names: of packages and of the classes that were registered. What it says
of a class it says for good. -/
theorem Reachable.registry_by_name (h : w.Reachable) :
    (∀ name package, w.packageNamed? name = some package ↔
      package.index < w.packages.size ∧ (w.package package).name = name) ∧
    (∀ a b, a.index < w.packages.size → b.index < w.packages.size →
      (w.package a).name = (w.package b).name → a = b) ∧
    (∀ name package w', createPackage name w = (package, w') →
      package.index < w'.packages.size ∧ (w'.package package).name = name ∧
        createPackage name w' = (package, w')) ∧
    (∀ name package w', getPackage name w = (some package, w') →
      package.index < w'.packages.size ∧ (w'.package package).name = name) ∧
    (∀ name package, w.packageNamed? name = some package →
      createPackage name w = (package, w) ∧ getPackage name w = (some package, w)) ∧
    (∀ package simple id info, w.known? package simple = some id → w.class? id = some info →
      info.package = package ∧ (info.name ≠ .root → info.name = (w.package package).name.child simple)) ∧
    (∀ id info, w.class? id = some info →
      (info.isListed ↔ ∃ package simple, w.known? package simple = some id)) ∧
    ∀ w', ReflTransGen Step w w' →
      (∀ package simple id, w.known? package simple = some id → (w.class? id).isSome →
        w'.known? package simple = some id ∧ (w'.class? id).isSome) ∧
      ∀ a b info info', w.class? a = some info → info.isListed → w'.class? b = some info' → info'.isListed →
        info.package = info'.package → info.key = info'.key → a = b := by
  have htree := h.sound.registered.tree
  have hfiled := h.filed
  refine ⟨fun name package => htree.packageNamed?_iff, ?_, ?_, ?_, ?_, ?_, ?_, ?_⟩
  · intro a b ha hb hname
    have hnamed := htree.packageNamed?_iff.2 ⟨ha, hname⟩
    exact Option.some.inj (hnamed.symm.trans (htree.packageNamed?_iff.2 ⟨hb, rfl⟩))
  · intro name package w' hcreate
    obtain ⟨htree', hnamed⟩ := named_of_createPackage htree hcreate
    obtain ⟨hlt, hname⟩ := htree'.packageNamed?_iff.1 hnamed
    exact ⟨hlt, hname, createPackage_of_named hnamed⟩
  · intro name package w' hget
    obtain ⟨htree', hnamed⟩ := named_of_getPackage htree hget
    exact htree'.packageNamed?_iff.1 hnamed
  · exact fun name package hnamed => ⟨createPackage_of_named hnamed, getPackage_of_named hnamed⟩
  · intro package simple id info hid hinfo
    obtain ⟨-, hpackage, -, hname⟩ := hfiled.entry package simple id info hid hinfo
    exact ⟨hpackage, hname⟩
  · intro id info hinfo
    refine ⟨fun hlisted => ⟨_, _, hfiled.listed id info hinfo hlisted⟩, ?_⟩
    rintro ⟨package, simple, hid⟩
    exact (hfiled.entry package simple id info hid hinfo).1
  · intro w' hlater
    obtain ⟨hreach', hgrows⟩ := h.later hlater
    refine ⟨fun package simple id hid hclass => ?_, fun a b info info' ha hlisted hb hlisted' hpackage hkey => ?_⟩
    · have hrole := TypeInfo.role_eq_declared.2 hclass
      exact ⟨hgrows.entry package simple id hid hrole, TypeInfo.role_eq_declared.1 (hgrows.role_declared hrole)⟩
    have hbefore := hgrows.entry _ _ _ (hfiled.listed a info ha hlisted) (role_of_class? ha)
    have hafter := hreach'.filed.listed b info' hb hlisted'
    rw [← hpackage, ← hkey] at hafter
    exact Option.some.inj (hbefore.symm.trans hafter)

def knotClassPath : ClassPath := .ofClasses
  [{ name := "p/Knot", enclosing := "p/Knot", fields := [{ name := "end", descriptor := "Lp/Loop;" }] }]

def loopUnit : SourceUnit :=
  { file := "Loop.java", package := ⟨["p"]⟩
    types := [{ name := "Loop" }] }

def loopWorld : World :=
  (initial {} knotClassPath {}).after [.getType ⟨["p", "Knot"]⟩, .fields ⟨11⟩, .buildUnit loopUnit]

theorem reachable_loopWorld : loopWorld.Reachable := (Reachable.initial {} knotClassPath {}).after _

theorem registry_by_name_loop :
    loopWorld.type ⟨10⟩ = .placeholder ⟨["p", "Knot"]⟩ (some ⟨11⟩) ∧
    loopWorld.type ⟨12⟩ = .placeholder ⟨["p", "Loop"]⟩ (some ⟨13⟩) ∧
    ∀ operations, (loopWorld.after operations).known? ⟨1⟩ "Knot" = some ⟨11⟩ ∧
      (loopWorld.after operations).known? ⟨1⟩ "Loop" = some ⟨13⟩ ∧
      ∀ id info, (loopWorld.after operations).class? id = some info → info.isListed →
        info.package = ⟨1⟩ → info.key = "Loop" → id = ⟨13⟩ := by
  have hread : loopWorld.known? ⟨1⟩ "Knot" = some ⟨11⟩ ∧ loopWorld.known? ⟨1⟩ "Loop" = some ⟨13⟩ ∧
      (loopWorld.class? ⟨11⟩).isSome = true ∧
      ((loopWorld.class? ⟨13⟩).map fun info => (info.isListed, info.package, info.key)) =
        some (true, ⟨1⟩, "Loop") := by
    decide +kernel
  obtain ⟨hknownKnot, hknownLoop, hclass, hread⟩ := hread
  simp only [Option.map_eq_some_iff, Prod.mk.injEq] at hread
  obtain ⟨info, hinfo, hlisted, hpackage, hkey⟩ := hread
  obtain ⟨-, -, -, -, -, -, -, hkept⟩ := reachable_loopWorld.registry_by_name
  refine ⟨by decide +kernel, by decide +kernel, fun operations => ?_⟩
  obtain ⟨hentries, honce⟩ := hkept _ (later_after loopWorld operations)
  refine ⟨(hentries _ _ _ hknownKnot hclass).1,
    (hentries _ _ _ hknownLoop (Option.isSome_iff_exists.2 ⟨info, hinfo⟩)).1, ?_⟩
  intro id info' hid hlisted' hpackage' hkey'
  exact (honce _ id info info' hinfo hlisted hid hlisted' (hpackage.trans hpackage'.symm)
    (hkey.trans hkey'.symm)).symm

end Bindings.World
