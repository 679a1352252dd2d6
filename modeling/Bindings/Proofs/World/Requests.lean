import Bindings.Proofs.World.Quiet

/-! # Requests -/

namespace Bindings

variable {pkg : QName} {types : List TypeDecl}

def declares (package : QName) (types : List TypeDecl) (name : QName) : Prop :=
  package = name.parent ∧ ∃ decl ∈ types, name.last? = some decl.name

instance (name : QName) : Decidable (declares pkg types name) := inferInstanceAs (Decidable (_ ∧ _))

def Supply.Declares (supply : Supply) (name : QName) : Prop :=
  match supply with
  | .compiled file => file.qname = name
  | .unit source => declares source.package source.types name
  | .loose package types => declares package types name

theorem Table.mem_of_findIn {κ α : Type} [DecidableEq κ] {key : κ} {value : α}
    {entries : List (κ × α)} (h : Table.findIn key entries = some value) : (key, value) ∈ entries := by
  induction entries with
  | nil => cases h
  | cons first rest ih => grind [Table.findIn]

namespace ClassPath

structure Spells (path : ClassPath) (name : QName) : Prop where
  compiled : ∀ file, path.compiled.find? name.dotted = some file → file.qname = name
  sources : ∀ source, (name.dotted, source) ∈ path.sources.entries →
    declares source.package source.types name

theorem spells_iff {path : ClassPath} {name : QName} : path.Spells name ↔
    (path.compiled.find? name.dotted).all (fun file => decide (file.qname = name)) ∧
      ∀ entry ∈ path.sources.entries, entry.1 = name.dotted → declares entry.2.package entry.2.types name := by
  refine ⟨fun h => ⟨?_, ?_⟩, fun h => ⟨?_, ?_⟩⟩
  · cases hf : path.compiled.find? name.dotted with
    | none => rfl
    | some file => simpa using h.compiled file hf
  · rintro ⟨_, src⟩ he rfl
    exact h.sources src he
  · intro file hf
    simpa [hf] using h.1
  · exact fun src hs => h.2 _ hs rfl

instance (path : ClassPath) (name : QName) : Decidable (path.Spells name) := decidable_of_iff' _ spells_iff

def timesAsked (path : ClassPath) (name : QName) : Nat := path.asked.count name

variable {path : ClassPath} {name : QName}

theorem declares_of_takeLoose {groups left : List (QName × List TypeDecl)}
    (h : takeLoose name groups = some ((pkg, types), left)) : declares pkg types name := by
  induction groups generalizing left with
  | nil => cases h
  | cons group rest ih =>
    rw [takeLoose] at h
    split at h
    · next hg =>
      cases h
      obtain ⟨decl, hd, hn⟩ := List.any_eq_true.1 hg.2
      exact ⟨hg.1, decl, hd, (beq_iff_eq.1 hn).symm⟩
    obtain ⟨⟨_, others⟩, hr, heq⟩ := Option.map_eq_some_iff.1 h
    cases heq
    exact ih hr

theorem Spells.declares (h : path.Spells name) {supply : Supply}
    (hf : (path.find name).1 = some supply) : supply.Declares name := by
  rw [find] at hf
  dsimp only at hf
  split at hf
  · next file hfi =>
    cases hf
    exact h.compiled file hfi
  split at hf
  · next src hs =>
    cases hf
    exact h.sources src (Table.mem_of_findIn hs)
  split at hf
  · next hl =>
    cases hf
    exact declares_of_takeLoose hl
  · cases hf

theorem find_world (path : ClassPath) (name : QName) :
    ∃ sources loose, (path.find name).2 = { path with asked := path.asked.push name, sources, loose } ∧
      sources.entries ⊆ path.sources.entries := by
  rw [find]
  dsimp only
  split
  · exact ⟨_, _, rfl, List.Subset.refl _⟩
  split
  · refine ⟨_, _, rfl, ?_⟩
    exact List.Subset.trans (List.filter_subset_self _) (List.filter_subset_self _)
  split <;> exact ⟨_, _, rfl, List.Subset.refl _⟩

theorem isPackage_find (path : ClassPath) (name other : QName) :
    (path.find name).2.isPackage other = path.isPackage other := by
  obtain ⟨_, _, h, -⟩ := path.find_world name
  rw [h]
  rfl

theorem Spells.find (h : path.Spells name) (other : QName) : (path.find other).2.Spells name := by
  obtain ⟨sources, loose, hf, hso⟩ := path.find_world other
  rw [hf]
  exact ⟨h.compiled, fun src hs => h.sources src (hso hs)⟩

theorem timesAsked_find (path : ClassPath) (name other : QName) :
    (path.find name).2.timesAsked other = path.timesAsked other + if name = other then 1 else 0 := by
  obtain ⟨_, _, h, -⟩ := path.find_world name
  rw [h, timesAsked, Array.count_push, timesAsked]
  simp

end ClassPath

namespace World

variable {w w' : World} {name : QName}

variable {id : TypeId}

def listed? (w : World) (name : QName) : Option TypeId :=
  (w.packageNamed? name.parent).bind (w.known? · name.simple)

def isAbsent (w : World) (name : QName) : Bool :=
  (w.packageNamed? name.parent).any fun package => (w.package package).absent.contains name.simple

def Lists (w : World) (name : QName) (id : TypeId) : Prop :=
  ∃ package, w.packageNamed? name.parent = some package ∧ w.known? package name.simple = some id ∧
    w.role id = .declared

def isMet (w : World) (name : QName) : Bool := (w.listed? name).any fun id => !w.isPending id

def credit (w : World) (name : QName) : Nat := (w.isAbsent name).toNat + (w.isMet name).toNat

/-- A name that reads as the root of the hierarchy, and for which there is nothing. It is asked for over
and over, because the query that asks is stopped. -/
def isStuck (w : World) (name : QName) : Bool :=
  name.dotted == WellKnown.object.dotted && w.isAbsent name && (w.listed? name).isSome

theorem isAbsent_iff : w.isAbsent name ↔ ∃ pkg, w.packageNamed? name.parent = some pkg ∧
    name.simple ∈ (w.package pkg).absent := by
  simp [isAbsent, Option.any_eq_true]

theorem listed?_eq_some : w.listed? name = some id ↔
    ∃ pkg, w.packageNamed? name.parent = some pkg ∧ w.known? pkg name.simple = some id :=
  Option.bind_eq_some_iff

theorem isMet_iff : w.isMet name ↔ ∃ id, w.listed? name = some id ∧ w.isPending id = false := by
  simp [isMet, Option.any_eq_true]

theorem Registered.listed?_of_pending (hw : w.Registered)
    (hp : w.type id = .placeholder name none) : w.listed? name = some id := by
  obtain ⟨pkg, hpa, hk⟩ := hw.listed_of_pending hp
  exact listed?_eq_some.2 ⟨pkg, hpa, hk⟩

theorem isMet_of_declared (he : w.listed? name = some id) (hr : w.role id = .declared) : w.isMet name := by
  refine isMet_iff.2 ⟨id, he, ?_⟩
  obtain ⟨info, hi⟩ := role_eq_declared.1 hr
  rw [isPending, class?_eq_some.1 hi]
  rfl

theorem ListsClass.exists_lists {pkg : PackageId} (h : w.ListsClass pkg name.simple)
    (hp : w.packageNamed? name.parent = some pkg) : ∃ id, w.Lists name id := by
  obtain ⟨id, hid, hr⟩ := h
  exact ⟨id, pkg, hp, hid, hr⟩

theorem Lists.grows (h : w.Grows w') (hl : w.Lists name id) : w'.Lists name id := by
  obtain ⟨pkg, hp, hk, hr⟩ := hl
  exact ⟨pkg, h.named _ _ hp, h.entry _ _ _ hk hr, h.role_declared hr⟩

theorem Lists.isMet (h : w.Lists name id) : w.isMet name := by
  obtain ⟨pkg, hp, hk, hr⟩ := h
  exact isMet_of_declared (listed?_eq_some.2 ⟨pkg, hp, hk⟩) hr

section

variable (h : w.Level w')

include h

theorem Level.listed? (hg : w.Grows w') (he : w.listed? name = some id) :
    w'.listed? name = some id ∨ ∃ other, w'.listed? name = some other ∧ w'.role other = .declared := by
  obtain ⟨pkg, hp, hid⟩ := listed?_eq_some.1 he
  have hp' := hg.named _ _ hp
  refine (h.entry pkg _ id hid).imp (fun hid => ?_) fun ⟨other, ho, hr⟩ => ⟨other, ?_, hr⟩
  · exact listed?_eq_some.2 ⟨pkg, hp', hid⟩
  · exact listed?_eq_some.2 ⟨pkg, hp', ho⟩

theorem Level.isSome_listed? (hg : w.Grows w') (he : (w.listed? name).isSome) :
    (w'.listed? name).isSome := by
  obtain ⟨id, hid⟩ := Option.isSome_iff_exists.1 he
  obtain h | ⟨_, h, -⟩ := h.listed? hg hid <;> rw [h] <;> rfl

theorem Level.isMet (hw : w.Registered) (hg : w.Grows w') (hm : w.isMet name) :
    w'.isMet name := by
  obtain ⟨id, hid, hp⟩ := isMet_iff.1 hm
  obtain hid' | ⟨other, ho, hr⟩ := h.listed? hg hid
  · obtain ⟨pkg, hpa, hk⟩ := listed?_eq_some.1 hid
    obtain hr | ⟨listed, tgt, hr, -⟩ := hw.entry pkg _ id hk
    · exact isMet_of_declared hid' (hg.role_declared hr)
    refine isMet_iff.2 ⟨id, hid', ?_⟩
    cases tgt with
    | none =>
      rw [isPending, TypeInfo.role_eq_placeholder.1 hr] at hp
      cases hp
    | some tgt =>
      rw [isPending, TypeInfo.role_eq_placeholder.1 (hg.resolved id listed tgt hr)]
      rfl
  · exact isMet_of_declared ho hr

theorem Level.isAbsent (hg : w.Grows w') (ha : w.isAbsent name) :
    w'.isAbsent name ∨ w.listed? name = none ∧ w'.isMet name := by
  obtain ⟨pkg, hp, hs⟩ := isAbsent_iff.1 ha
  have hp' := hg.named _ _ hp
  refine (h.absent pkg _ hs).imp (fun h => isAbsent_iff.2 ⟨pkg, hp', h⟩) ?_
  rintro ⟨hn, id, hid, hr⟩
  refine ⟨?_, isMet_of_declared (listed?_eq_some.2 ⟨pkg, hp', hid⟩) hr⟩
  rw [World.listed?, hp]
  exact hn

theorem Level.credit (hw : w.Registered) (hg : w.Grows w') : w.credit name ≤ w'.credit name := by
  have hme : w.isMet name → w'.isMet name := h.isMet hw hg
  have hab : w.isAbsent name → w'.isAbsent name ∨ w.isMet name = false ∧ w'.isMet name := by
    refine fun hab => (h.isAbsent hg hab).imp_right fun ⟨hn, hme⟩ => ⟨?_, hme⟩
    rw [World.isMet, hn]
    rfl
  rw [World.credit, World.credit]
  cases hm : w.isMet name <;> cases ha : w.isAbsent name <;> grind

theorem Level.credit_lt (hg : w.Grows w') (he : (w.listed? name).isSome)
    (hno : w.isMet name = false) (hm : w'.isMet name) : w.credit name < w'.credit name := by
  have hab : w.isAbsent name → w'.isAbsent name := fun hab =>
    (h.isAbsent hg hab).resolve_right fun ⟨hn, _⟩ => by
      rw [hn] at he
      cases he
  rw [World.credit, World.credit, hno, hm]
  cases ha : w.isAbsent name <;> simp_all

end

theorem credit_eq_zero (he : w.listed? name = none) (ha : w.isAbsent name = false) : w.credit name = 0 := by
  simp [credit, isMet, he, ha]

theorem Level.isStuck (h : w.Level w') (hg : w.Grows w') (hs : w.isStuck name) : w'.isStuck name := by
  simp only [World.isStuck, Bool.and_eq_true] at hs ⊢
  obtain ⟨⟨hna, ha⟩, he⟩ := hs
  refine ⟨⟨hna, ?_⟩, h.isSome_listed? hg he⟩
  refine (h.isAbsent hg ha).resolve_right fun ⟨hn, _⟩ => ?_
  rw [hn] at he
  cases he

def asking (w : World) (name : QName) : World :=
  { w with
    classPath := (w.classPath.find name).2
    stats := { w.stats with requests := w.stats.requests + 1 } }

theorem neutral_asking (w : World) (name : QName) : w.Neutral (w.asking name) := { Apart.refl w with
    isPackage := w.classPath.isPackage_find name }

theorem level_asking (w : World) (name : QName) : w.Level (w.asking name) := {}

structure Pays (w : World) (name : QName) (w' : World) : Prop where
  classPath : w'.classPath = (w.classPath.find name).2
  earned : w.classPath.Spells name → w'.isStuck name ∨ w.credit name < w'.credit name

end World

end Bindings
