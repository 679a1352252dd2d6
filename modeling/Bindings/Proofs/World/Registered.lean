import Bindings.Proofs.Run
import Bindings.Proofs.World.Packages

/-! # Placeholders and the registry -/

namespace Bindings

open Edit TypeInfo

variable {name' : QName} {target' : Option TypeId}

inductive Role where
  | declared
  | missing
  | placeholder (name : QName) (target : Option TypeId)
  | other
  deriving DecidableEq

namespace TypeInfo

variable {info : TypeInfo} {src : TypeId} {tgt : TypeId}

def role : TypeInfo → Role
  | declared _ => .declared
  | missing .. => .missing
  | placeholder name target => .placeholder name target
  | _ => .other

@[simp] def isResolved : TypeInfo → Bool
  | placeholder _ (some _) => true
  | _ => false

theorem role_eq_placeholder {name : QName} {target : Option TypeId} :
    info.role = .placeholder name target ↔ info = .placeholder name target := by
  cases info <;> simp [role]

theorem role_eq_declared : info.role = .declared ↔ info.class?.isSome := by cases info <;> simp [role]

theorem role_eq_missing : info.role = .missing ↔ info.isMissing := by cases info <;> simp [role]

theorem role_swap : (info.swap src tgt).role = info.role := by cases info <;> rfl

theorem isResolved_swap : (info.swap src tgt).isResolved = info.isResolved := by cases info <;> rfl

end TypeInfo

namespace World

variable {w w' : World} {id : TypeId} {pkg : PackageId} {name : QName}

def role (w : World) (id : TypeId) : Role := (w.type id).role

theorem lt_size_of_role_ne (h : w.role id ≠ .other) : id.index < w.types.size :=
  lt_size_of_type_ne fun ht => h (by rw [role, ht]; rfl)

/-- What is listed under the name of a placeholder: the placeholder itself, or a class that it stands
for or that came too late for it. -/
def Supersedes (w : World) (listed id : TypeId) (target : Option TypeId) : Prop :=
  listed = id ∨
    w.role listed = .declared ∧ ∃ t, target = some t ∧ (t = listed ∨ w.role t = .missing)

structure Registered (w : World) : Prop where
  tree : w.PackageTree
  entry : ∀ package simple id, w.known? package simple = some id →
    w.role id = .declared ∨ ∃ name target, w.role id = .placeholder name target ∧
      w.packageNamed? name.parent = some package ∧ name.simple = simple ∧
      ∀ t, target = some t → w.role t = .missing
  placeholder : ∀ id name target, w.role id = .placeholder name target →
    ∃ package listed, w.packageNamed? name.parent = some package ∧
      w.known? package name.simple = some listed ∧ w.Supersedes listed id target
  unique : ∀ a b name name' target target', w.role a = .placeholder name target →
    w.role b = .placeholder name' target' → name.parent = name'.parent →
    name.simple = name'.simple → a = b
  resolutions : w.stats.placeholderResolutions = w.countTypes isResolved

theorem Registered.role_target (h : w.Registered) {tgt : TypeId}
    (hid : w.role id = .placeholder name (some tgt)) : w.role tgt = .declared ∨ w.role tgt = .missing := by
  obtain ⟨pkg, listed, -, hl, hsu⟩ := h.placeholder id name _ hid
  obtain rfl | ⟨hc, t, ht, hs⟩ := hsu
  · obtain hc | ⟨name', target', hr, -, -, hm⟩ := h.entry _ _ _ hl
    · rw [hid] at hc
      cases hc
    · rw [hid] at hr
      cases hr
      exact .inr (hm tgt rfl)
  cases ht
  obtain rfl | hm := hs
  · exact .inl hc
  · exact .inr hm

theorem Registered.eq_of_package (h : w.Registered) {a b : TypeId}
    {tgt : Option TypeId} (ha : w.role a = .placeholder name tgt) (hb : w.role b = .placeholder name' target')
    (hp : w.packageNamed? name.parent = w.packageNamed? name'.parent)
    (hs : name.simple = name'.simple) : a = b := by
  obtain ⟨pkg, _, hn, -⟩ := h.placeholder a name tgt ha
  exact h.unique a b name name' tgt target' ha hb (h.tree.packageNamed?_inj hn (hp ▸ hn)) hs

def RolesStay (w w' : World) : Prop :=
  ∀ id, w.role id = .declared ∨ w.role id = .missing → w'.role id = w.role id

theorem RolesStay.declared (h : w.RolesStay w') (hid : w.role id = .declared) : w'.role id = .declared := by
  rw [h id (.inl hid), hid]

theorem RolesStay.missing (h : w.RolesStay w') (hid : w.role id = .missing) : w'.role id = .missing := by
  rw [h id (.inr hid), hid]

theorem Supersedes.stay {listed : TypeId} {target : Option TypeId} (hst : w.RolesStay w')
    (h : w.Supersedes listed id target) : w'.Supersedes listed id target := by
  obtain rfl | ⟨hc, t, ht, hs⟩ := h
  · exact .inl rfl
  · exact .inr ⟨hst.declared hc, t, ht, hs.imp_right hst.missing⟩

theorem Registered.congr (h : w.Registered) (hr : ∀ id, w.role id ≠ .other → w'.role id = w.role id)
    (hn : ∀ id name target, w'.role id = .placeholder name target → w.role id ≠ .other) (htr : w'.PackageTree)
    (hnam : ∀ name package, w.packageNamed? name = some package → w'.packageNamed? name = some package)
    (hk : ∀ package simple, w'.known? package simple = w.known? package simple)
    (hre : w'.stats.placeholderResolutions = w.stats.placeholderResolutions)
    (hco : w'.countTypes isResolved = w.countTypes isResolved) : w'.Registered := by
  have hba : ∀ {id name target}, w'.role id = .placeholder name target →
      w.role id = .placeholder name target := fun hid => by
    rw [← hr _ (hn _ _ _ hid), hid]
  have hst : w.RolesStay w' := fun id hid => hr id (by rcases hid with hid | hid <;> simp [hid])
  refine { tree := htr, entry := ?_, placeholder := ?_, unique := ?_, resolutions := ?_ }
  · intro package simple id hid
    rw [hk] at hid
    obtain hc | ⟨name, target, hid, hna, hsi, hm⟩ := h.entry package simple id hid
    · exact .inl (hst.declared hc)
    · exact .inr ⟨name, target, by rw [hr _ (by simp [hid]), hid], hnam _ _ hna, hsi, fun t ht => hst.missing (hm t ht)⟩
  · intro id name target hid
    obtain ⟨package, listed, hna, hl, hs⟩ := h.placeholder id name target (hba hid)
    exact ⟨package, listed, hnam _ _ hna, by rw [hk, hl], hs.stay hst⟩
  · intro a b name name' target target' ha hb
    exact h.unique a b name name' target target' (hba ha) (hba hb)
  · rw [hre, hco, h.resolutions]

def list (w : World) (package : PackageId) (simple : String) (id : TypeId) : World :=
  w.modifyPackage package fun info => { info with types := info.types.insert simple id }

section

variable (pkg : PackageId) (simple : String) (id : TypeId) (other : PackageId)

theorem list_packages :
    ((w.list pkg simple id).package other).packages = (w.package other).packages := by
  rw [list, package_modifyPackage]
  split <;> rfl

theorem list_name :
    ((w.list pkg simple id).package other).name = (w.package other).name :=
  name_modifyPackage pkg (by exact fun _ => rfl) other

theorem known?_list (s : String) :
    (w.list pkg simple id).known? other s =
      if other = pkg ∧ pkg.index < w.packages.size ∧ s = simple then some id else w.known? other s := by
  rw [known?, list, package_modifyPackage]
  split
  · next h =>
    rw [Table.find?_insert]
    simp [h.1, h.2, known?]
  rename_i h
  rw [if_neg fun hs => h ⟨hs.1, hs.2.1⟩]
  rfl

end

theorem lt_size_of_known? {simple : String} (h : w.known? pkg simple = some id) : pkg.index < w.packages.size :=
  lt_size_of_read (fun info : PackageInfo => info.types.find? simple = some id) h nofun

theorem packageNamed?_congr (h : ∀ package, (w'.package package).packages =
    (w.package package).packages) (name : QName) : w'.packageNamed? name = w.packageNamed? name := by
  have hs : ∀ segs cur, w'.subpackage? segs cur = w.subpackage? segs cur := by
    intro segs
    induction segs with
    | nil => exact fun _ => rfl
    | cons seg rest ih =>
      intro cur
      have : w'.subpackage? rest = w.subpackage? rest := funext ih
      rw [subpackage?, subpackage?, h, this]
  exact hs _ _

theorem PackageTree.congr (ht : w.PackageTree) (hs : w'.packages.size = w.packages.size)
    (h : ∀ pkg, (w'.package pkg).packages = (w.package pkg).packages)
    (hn : ∀ pkg, (w'.package pkg).name = (w.package pkg).name) : w'.PackageTree where
  root := hs ▸ ht.root
  child outer seg inner hi := by
    rw [h] at hi
    exact hs ▸ ht.child _ _ _ hi
  nonroot outer seg inner hi := by
    rw [h] at hi
    exact ht.nonroot _ _ _ hi
  place outer outer' seg segment' inner hi hi' := by
    rw [h] at hi hi'
    exact ht.place _ _ _ _ _ hi hi'
  rootName := (hn _).trans ht.rootName
  childName outer seg inner hi := by
    rw [h] at hi
    rw [hn, hn, ht.childName _ _ _ hi]
  listed inner hlt hne := by
    obtain ⟨outer, seg, hb, hl⟩ := ht.listed inner (hs ▸ hlt) hne
    exact ⟨outer, seg, hb, by rwa [h]⟩

section

variable (pkg : PackageId) (simple : String)

theorem size_list (id : TypeId) :
    (w.list pkg simple id).packages.size = w.packages.size :=
  Array.size_modify

theorem removeAbsent_packages (other : PackageId) :
    ((w.modifyPackage pkg (·.removeAbsent simple)).package other).packages = (w.package other).packages := by
  rw [package_modifyPackage]
  split <;> rfl

theorem removeAbsent_name (other : PackageId) :
    ((w.modifyPackage pkg (·.removeAbsent simple)).package other).name = (w.package other).name :=
  name_modifyPackage pkg (by exact fun _ => rfl) other

theorem known?_removeAbsent (other : PackageId) (s : String) :
    (w.modifyPackage pkg (·.removeAbsent simple)).known? other s = w.known? other s := by
  rw [known?, package_modifyPackage]
  split <;> rfl

theorem removeAbsent_size :
    (w.modifyPackage pkg (·.removeAbsent simple)).packages.size = w.packages.size :=
  Array.size_modify

end

def entered (w : World) (name : QName) : World :=
  (w.enterPackage (fun _ => true) name.segments defaultPackage).2

theorem createPackage_world (w : World) (name : QName) : (createPackage name w).2 = w.entered name := rfl

theorem packageNamed?_createPackage (h : w.PackageTree) (name : QName) :
    (w.entered name).packageNamed? name = some (createPackage name w).1 ∧
      (createPackage name w).1.index < (w.entered name).packages.size := by
  obtain ⟨found, hf⟩ := Option.isSome_iff_exists.1 (enterPackage_isSome (w := w) name.segments defaultPackage)
  have hr : (createPackage name w).1 = found := by simp only [createPackage, modifyGet_apply, hf, Option.getD_some]
  rw [hr]
  exact enterPackage_some h h.root hf

theorem Registered.packagesGrow (h : w.Registered) (hg : w.PackagesGrow w') (ht : w'.PackageTree) : w'.Registered := by
  have hr : ∀ id, w'.role id = w.role id := fun id => by rw [role, hg.type, role]
  refine h.congr (fun id _ => hr id) (fun id name tgt hid => ?_) ht (fun _ _ => hg.packageNamed?) hg.known ?_ ?_
  · rw [← hr, hid]
    simp
  · rw [hg.same]
  · rw [hg.same]
    rfl

theorem Registered.entered (h : w.Registered) (name : QName) : (w.entered name).Registered :=
  h.packagesGrow (enterPackage_grows ..) (h.tree.enterPackage _ _ _ h.tree.root)

theorem Registered.addPlaceholder (h : w.Registered) (hp : w.packageNamed? name.parent = some pkg)
    (hlt : pkg.index < w.packages.size) (hn : w.known? pkg name.simple = none) :
    ((w.addType (.placeholder name none)).2.list pkg name.simple ⟨w.types.size⟩).Registered := by
  generalize hw' : (w.addType (.placeholder name none)).2.list pkg name.simple ⟨w.types.size⟩ = w'
  have hr : ∀ id, w'.role id =
      if id.index = w.types.size then .placeholder name none else w.role id := fun id => by
    have hre : w'.type id = (w.addType (.placeholder name none)).2.type id := by subst hw'; rfl
    rw [role, hre, type_addType]
    split <;> rfl
  have ho : ∀ id, w.role id ≠ .other → w'.role id = w.role id := fun id hid => by
    rw [hr, if_neg (Nat.ne_of_lt (lt_size_of_role_ne hid))]
  have hst : w.RolesStay w' := fun id hid => ho id (by rcases hid with hid | hid <;> simp [hid])
  have hk : ∀ other s, w'.known? other s =
      if other = pkg ∧ s = name.simple then some ⟨w.types.size⟩ else w.known? other s := by
    intro other s
    rw [← hw', known?_list]
    exact if_congr (by simp [hlt, World.addType]) rfl rfl
  have hpac : ∀ other, (w'.package other).packages = (w.package other).packages := fun other => by
    rw [← hw', list_packages]
    rfl
  have hnam := packageNamed?_congr hpac
  -- An older placeholder of this name would have something listed under it.
  have hot : ∀ {id name' tgt}, w.role id = .placeholder name' tgt →
      ¬(name'.parent = name.parent ∧ name'.simple = name.simple) := by
    rintro id name' tgt hid ⟨hpa, hsi⟩
    obtain ⟨package', listed, hna, hl, -⟩ := h.placeholder id name' tgt hid
    rw [hpa, hp] at hna
    cases hna
    rw [hsi, hn] at hl
    cases hl
  refine { tree := ?_, entry := ?_, placeholder := ?_, unique := ?_, resolutions := ?_ }
  · refine h.tree.congr (by rw [← hw', size_list]; rfl) hpac fun other => ?_
    rw [← hw', list_name]
    rfl
  · intro other s id hid
    rw [hk] at hid
    split at hid
    · next hs =>
      cases hid
      refine .inr ⟨name, none, by rw [hr, if_pos rfl], ?_, hs.2.symm, fun t ht => by cases ht⟩
      rw [hnam, hp, hs.1]
    obtain hc | ⟨name', tgt, hid, hna, hsi, hm⟩ := h.entry other s id hid
    · exact .inl (hst.declared hc)
    · exact .inr ⟨name', tgt, by rw [ho _ (by simp [hid]), hid], by rw [hnam, hna],
        hsi, fun t ht => hst.missing (hm t ht)⟩
  · intro id name' tgt hid
    rw [hr] at hid
    split at hid
    · next hi =>
      cases hid
      obtain rfl : id = ⟨w.types.size⟩ := TypeId.ext hi
      exact ⟨pkg, _, by rw [hnam, hp], by rw [hk, if_pos ⟨rfl, rfl⟩], .inl rfl⟩
    obtain ⟨package', listed, hna, hl, hsu⟩ := h.placeholder id name' tgt hid
    refine ⟨package', listed, by rw [hnam, hna], ?_, hsu.stay hst⟩
    rw [hk, if_neg, hl]
    rintro ⟨rfl, hsi⟩
    rw [hsi, hn] at hl
    cases hl
  · intro a b name1 name2 target1 target2 ha hb hpa hsi
    rw [hr] at ha hb
    split at ha <;> split at hb <;> rename_i hia hib
    · exact TypeId.ext (hia.trans hib.symm)
    · cases ha
      exact absurd ⟨hpa.symm, hsi.symm⟩ (hot hb)
    · cases hb
      exact absurd ⟨hpa, hsi⟩ (hot ha)
    · exact h.unique a b _ _ _ _ ha hb hpa hsi
  · have hco := countTypes_addType (w := w) isResolved (.placeholder name none)
    rw [← hw']
    exact h.resolutions.trans hco.symm

theorem typeOrPlaceholder_world (w : World) (name : QName) : (typeOrPlaceholder name w).2 =
      let pkg := (createPackage name.parent w).1
      let entered := w.entered name.parent
      if (entered.known? pkg name.simple).isSome then entered
      else (entered.addType (.placeholder name none)).2.list pkg name.simple ⟨entered.types.size⟩ := by
  simp only [typeOrPlaceholder, bind_apply, get_apply, createPackage_world]
  cases (w.entered name.parent).known? (createPackage name.parent w).1 name.simple with
  | none => rfl
  | some known => rfl

theorem Registered.typeOrPlaceholder (h : w.Registered) (name : QName) : (typeOrPlaceholder name w).2.Registered := by
  obtain ⟨hna, hlt⟩ := packageNamed?_createPackage h.tree name.parent
  simp only [typeOrPlaceholder_world]
  split
  · exact h.entered _
  · next hn =>
    exact (h.entered _).addPlaceholder hna hlt (by simpa using hn)

section Swap

variable {placeholder tgt : TypeId} {name : QName} {id : TypeId}

theorem role_swapPlaceholder (tgt : TypeId) (h : w.type placeholder = .placeholder name none) (id : TypeId) :
    (w.swapPlaceholder placeholder tgt).role id =
      if id = placeholder then .placeholder name (some tgt) else w.role id :=
  read_swapPlaceholder TypeInfo.role h (fun _ => TypeInfo.role_swap) id

theorem rolesStay_swap (tgt : TypeId) (h : w.type placeholder = .placeholder name none) :
    w.RolesStay (w.swapPlaceholder placeholder tgt) := by
  intro id hid
  rw [role_swapPlaceholder tgt h, if_neg]
  rintro rfl
  simp [role, h, TypeInfo.role] at hid

theorem role_of_swap (h : w.type placeholder = .placeholder name none)
    (hid : (w.swapPlaceholder placeholder tgt).role id = .placeholder name' target') :
    ∃ before, w.role id = .placeholder name' before := by
  rw [role_swapPlaceholder tgt h] at hid
  split at hid
  · next heq =>
    subst heq
    cases hid
    exact ⟨none, by rw [role, h]; rfl⟩
  · exact ⟨target', hid⟩

section

variable (tgt : TypeId) (h : w.type placeholder = .placeholder name none)

include h

theorem countTypes_isResolved_swapPlaceholder :
    (w.swapPlaceholder placeholder tgt).countTypes isResolved = w.countTypes isResolved + 1 := by
  have hlt : placeholder.index < w.types.size := lt_size_of_type_ne (by rw [h]; simp)
  have ho := countTypes_modifyType_of_lt (.setTarget tgt) isResolved hlt
  rw [countTypes_swapPlaceholder h fun _ => isResolved_swap]
  simpa [h, setTarget] using ho

theorem swapPlaceholder_package :
    (w.swapPlaceholder placeholder tgt).package = w.package := by
  obtain ⟨types, methods, fields, hw⟩ := swapPlaceholder_with tgt h
  rw [hw]
  rfl

theorem swapPlaceholder_packages :
    (w.swapPlaceholder placeholder tgt).packages = w.packages := by
  obtain ⟨types, methods, fields, hw⟩ := swapPlaceholder_with tgt h
  rw [hw]
  rfl

theorem swapPlaceholder_resolutions :
    (w.swapPlaceholder placeholder tgt).stats.placeholderResolutions = w.stats.placeholderResolutions + 1 := by
  obtain ⟨types, methods, fields, hw⟩ := swapPlaceholder_with tgt h
  rw [hw]
  rfl

end

theorem Registered.listed_of_pending (h : w.Registered) (hp : w.type placeholder = .placeholder name none) :
    ∃ pkg, w.packageNamed? name.parent = some pkg ∧ w.known? pkg name.simple = some placeholder := by
  obtain ⟨pkg, listed, hn, hl, hs⟩ := h.placeholder placeholder name none (by rw [role, hp]; rfl)
  obtain rfl | ⟨-, t, ht, -⟩ := hs
  · exact ⟨pkg, hn, hl⟩
  · cases ht

theorem Registered.vanish (h : w.Registered) (hp : w.type placeholder = .placeholder name none)
    (hta : w.role tgt = .missing) : (w.swapPlaceholder placeholder tgt).Registered := by
  have hr := role_swapPlaceholder tgt hp
  have hpa := swapPlaceholder_package tgt hp
  have hpl : w.role placeholder = .placeholder name none := by rw [role, hp]; rfl
  have hst : w.RolesStay (w.swapPlaceholder placeholder tgt) := rolesStay_swap tgt hp
  have hna : ∀ name, (w.swapPlaceholder placeholder tgt).packageNamed? name = w.packageNamed? name :=
    packageNamed?_congr fun pkg => by rw [hpa]
  have hk : ∀ pkg simple, (w.swapPlaceholder placeholder tgt).known? pkg simple = w.known? pkg simple :=
    fun pkg simple => by rw [known?, hpa, known?]
  refine { tree := ?_, entry := ?_, placeholder := ?_, unique := ?_, resolutions := ?_ }
  · exact h.tree.congr (by rw [swapPlaceholder_packages tgt hp]) (fun pkg => by rw [hpa]) fun pkg => by rw [hpa]
  · intro pkg simple id hid
    rw [hk] at hid
    obtain hc | ⟨name', target', hid, hn, hsi, hm⟩ := h.entry pkg simple id hid
    · exact .inl (hst.declared hc)
    by_cases heq : id = placeholder
    · subst heq
      rw [hpl] at hid
      cases hid
      refine .inr ⟨name, some tgt, by rw [hr, if_pos rfl], by rw [hna, hn], hsi, ?_⟩
      rintro t ht
      cases ht
      exact hst.missing hta
    · exact .inr ⟨name', target', by rw [hr, if_neg heq, hid], by rw [hna, hn], hsi,
        fun t ht => hst.missing (hm t ht)⟩
  · intro id name' target' hid
    rw [hr] at hid
    split at hid
    · next heq =>
      subst heq
      cases hid
      obtain ⟨pkg, hn, hl⟩ := h.listed_of_pending hp
      exact ⟨pkg, id, by rw [hna, hn], by rw [hk, hl], .inl rfl⟩
    · obtain ⟨pkg, listed, hn, hl, hs⟩ := h.placeholder id name' target' hid
      exact ⟨pkg, listed, by rw [hna, hn], by rw [hk, hl], hs.stay hst⟩
  · intro a b name1 name2 target1 target2 ha hb
    obtain ⟨target1', ha⟩ := role_of_swap hp ha
    obtain ⟨target2', hb⟩ := role_of_swap hp hb
    exact h.unique a b _ _ _ _ ha hb
  · rw [swapPlaceholder_resolutions tgt hp, countTypes_isResolved_swapPlaceholder tgt hp, h.resolutions]

theorem Registered.relist (h : w.Registered) (pkg : PackageId) (simple : String)
    (hid : w.role id = .declared) (hpr : ∀ x, w.known? pkg simple = some x →
      ∃ name tgt, w.role x = .placeholder name tgt ∧ w'.role x = .placeholder name (some (tgt.getD id)))
    (ho : ∀ x, w.known? pkg simple ≠ some x → w'.role x = w.role x) (hk : ∀ other s, w'.known? other s =
      if other = pkg ∧ s = simple then some id else w.known? other s) (htr : w'.PackageTree)
    (hna : ∀ name, w'.packageNamed? name = w.packageNamed? name)
    (hre : w'.stats.placeholderResolutions = w'.countTypes isResolved) : w'.Registered := by
  have hst : w.RolesStay w' := by
    refine fun x hx => ho x fun hl => ?_
    obtain ⟨name, tgt, hr, -⟩ := hpr x hl
    simp [hr] at hx
  -- What is listed under the name was a placeholder of this very name.
  have he : ∀ {x name tgt}, w.known? pkg simple = some x →
      w.role x = .placeholder name tgt → w.packageNamed? name.parent = some pkg ∧
        name.simple = simple ∧ ∀ t, tgt = some t → w.role t = .missing := by
    intro x name tgt hx hr
    obtain hc | ⟨name', target', hr', hn⟩ := h.entry pkg simple x hx
    · rw [hr] at hc
      cases hc
    rw [hr] at hr'
    cases hr'
    exact hn
  have hba : ∀ {x name tgt}, w'.role x = .placeholder name tgt →
      ∃ before, w.role x = .placeholder name before := by
    intro x name tgt hr
    by_cases hx : w.known? pkg simple = some x
    · obtain ⟨name', before, hbe, haf⟩ := hpr x hx
      rw [hr] at haf
      cases haf
      exact ⟨before, hbe⟩
    · exact ⟨tgt, by rw [← ho x hx, hr]⟩
  refine { tree := htr, entry := ?_, placeholder := ?_, unique := ?_, resolutions := hre }
  · intro other s x hx
    rw [hk] at hx
    split at hx
    · cases hx
      exact .inl (hst.declared hid)
    rename_i hp
    obtain hc | ⟨name, tgt, hr, hn, hsi, hm⟩ := h.entry other s x hx
    · exact .inl (hst.declared hc)
    refine .inr ⟨name, tgt, ?_, by rw [hna, hn], hsi, fun t ht => hst.missing (hm t ht)⟩
    rw [ho, hr]
    intro hl
    obtain ⟨hn', hsi', -⟩ := he hl hr
    rw [hn, Option.some.injEq] at hn'
    exact hp ⟨hn', hsi.symm.trans hsi'⟩
  · intro x name tgt hr
    by_cases hx : w.known? pkg simple = some x
    · obtain ⟨name', before, hbe, haf⟩ := hpr x hx
      rw [hr] at haf
      cases haf
      obtain ⟨hn, hsi, hm⟩ := he hx hbe
      refine ⟨pkg, id, by rw [hna, hn], by rw [hk, if_pos ⟨rfl, hsi⟩], .inr ⟨hst.declared hid, _, rfl, ?_⟩⟩
      cases before with
      | none => exact .inl rfl
      | some t => exact .inr (hst.missing (hm t rfl))
    rw [ho x hx] at hr
    obtain ⟨package', listed, hn, hl, hs⟩ := h.placeholder x name tgt hr
    refine ⟨package', listed, by rw [hna, hn], ?_, hs.stay hst⟩
    rw [hk, if_neg, hl]
    rintro ⟨rfl, rfl⟩
    obtain rfl | ⟨hc, -⟩ := hs
    · exact hx hl
    obtain ⟨name', before, hbe, -⟩ := hpr listed hl
    rw [hc] at hbe
    cases hbe
  · intro a b name1 name2 target1 target2 ha hb
    obtain ⟨target1', ha⟩ := hba ha
    obtain ⟨target2', hb⟩ := hba hb
    exact h.unique a b _ _ _ _ ha hb

theorem registerType_cases (w : World) (pkg : PackageId) (simple : String) (id : TypeId) :
    (w.known? pkg simple = none ∧ (registerType pkg simple id w).2 =
      (w.list pkg simple id).modifyPackage pkg (·.removeAbsent simple)) ∨
    (∃ existing name, w.known? pkg simple = some existing ∧
      w.type existing = .placeholder name none ∧ (registerType pkg simple id w).2 =
        (w.list pkg simple id).swapPlaceholder existing id) ∨
    (∃ existing name tgt, w.known? pkg simple = some existing ∧ w.type existing = .placeholder name (some tgt) ∧
        (registerType pkg simple id w).2 = w.list pkg simple id) ∨
    (registerType pkg simple id w).2 = w := by
  simp only [registerType, bind_apply, get_apply]
  cases hk : w.known? pkg simple with
  | none => exact .inl ⟨rfl, rfl⟩
  | some existing =>
    cases ht : w.type existing with
    | placeholder name tgt =>
      cases tgt with
      | none => exact .inr (.inl ⟨existing, name, rfl, ht, by simp only [ht]; rfl⟩)
      | some tgt => exact .inr (.inr (.inl ⟨existing, name, tgt, rfl, ht, by simp only [ht]; rfl⟩))
    | _ => exact .inr (.inr (.inr (by simp only [ht]; rfl)))

/-- Listing a type changes packages, unless the type takes the place of a placeholder. -/
@[elab_as_elim]
theorem registerType_elim {motive : World → Prop} (w : World) (pkg : PackageId) (simple : String) (id : TypeId)
    (listed : ∀ packages, motive { w with packages })
    (swapped : ∀ existing name, w.type existing = .placeholder name none →
      motive ((w.list pkg simple id).swapPlaceholder existing id)) : motive (registerType pkg simple id w).2 := by
  rcases registerType_cases w pkg simple id with
    ⟨-, h⟩ | ⟨existing, name, -, hp, h⟩ | ⟨existing, name, tgt, -, -, h⟩ | h <;> rw [h]
  exacts [listed _, swapped existing name hp, listed _, listed _]

theorem Registered.registerType (h : w.Registered) (hid : w.role id = .declared)
    (pkg : PackageId) (simple : String) : (registerType pkg simple id w).2.Registered := by
  rcases registerType_cases w pkg simple id with
    ⟨hn, hw⟩ | ⟨existing, name, hl, ht, hw⟩ |
    ⟨existing, name, tgt, hl, ht, hw⟩ | hw
  · rw [hw]
    by_cases hlt : pkg.index < w.packages.size
    · refine h.relist pkg simple hid (fun x hx => ?_) (fun x _ => rfl) (fun other s => ?_) ?_ ?_ h.resolutions
      · rw [hn] at hx
        cases hx
      · rw [known?_removeAbsent, known?_list]
        exact if_congr (by simp [hlt]) rfl rfl
      · exact h.tree.congr (by rw [removeAbsent_size, size_list])
          (fun other => by rw [removeAbsent_packages, list_packages])
          fun other => by rw [removeAbsent_name, list_name]
      · exact packageNamed?_congr fun other => by rw [removeAbsent_packages, list_packages]
    have hle := Nat.le_of_not_lt hlt
    rw [list, modifyPackage_of_size_le _ hle, modifyPackage_of_size_le _ hle]
    exact h
  · have hlt := lt_size_of_known? hl
    have ht' : (w.list pkg simple id).type existing = .placeholder name none := ht
    have hr := role_swapPlaceholder id ht'
    have hp := swapPlaceholder_package id ht'
    rw [hw]
    refine h.relist pkg simple hid (fun x hx => ?_) (fun x hx => ?_) (fun other s => ?_) ?_ ?_ ?_
    · rw [hl, Option.some.injEq] at hx
      subst hx
      exact ⟨name, none, by rw [role, ht]; rfl, by rw [hr, if_pos rfl]; rfl⟩
    · rw [hr, if_neg]
      · rfl
      · rintro rfl
        exact hx hl
    · rw [known?, hp]
      exact (known?_list ..).trans (if_congr (by simp [hlt]) rfl rfl)
    · exact h.tree.congr (by rw [swapPlaceholder_packages id ht', size_list])
        (fun other => by rw [hp, list_packages]) fun other => by rw [hp, list_name]
    · exact packageNamed?_congr fun other => by rw [hp, list_packages]
    · rw [swapPlaceholder_resolutions id ht', countTypes_isResolved_swapPlaceholder id ht']
      exact congrArg (· + 1) h.resolutions
  · have hlt := lt_size_of_known? hl
    rw [hw]
    refine h.relist pkg simple hid (fun x hx => ?_) (fun x _ => rfl) (fun other s => ?_) ?_ ?_ h.resolutions
    · rw [hl, Option.some.injEq] at hx
      subst hx
      have : w.role existing = .placeholder name (some tgt) := by rw [role, ht]; rfl
      exact ⟨name, some tgt, this, this⟩
    · exact (known?_list ..).trans (if_congr (by simp [hlt]) rfl rfl)
    · exact h.tree.congr (size_list ..) (list_packages _ _ _) (list_name _ _ _)
    · exact packageNamed?_congr (list_packages _ _ _)
  · rw [hw]
    exact h

end Swap

end World

end Bindings
