import Mathlib.Data.List.Induction
import Bindings.Registry
import Bindings.Proofs.World.Reading

/-! # The package tree -/

namespace Bindings

open World

theorem QName.parent_child_simple {name : QName} (h : name ≠ .root) : name.parent.child name.simple = name := by
  obtain ⟨segs⟩ := name
  have hne : segs ≠ [] := fun hn => h (by rw [hn]; rfl)
  simp [parent, child, simple, last?, List.getLast?_eq_some_getLast hne, List.dropLast_append_getLast]

namespace World

variable {w w' : World} {change : PackageInfo → PackageInfo} {cur found id outer pkg : PackageId}
  {mayAdd : QName → Bool} {name : QName} {seg : String} {segs : List String}

def subpackage? (w : World) : List String → PackageId → Option PackageId
  | [], current => some current
  | segment :: rest, current =>
    ((w.package current).packages.find? segment).bind (w.subpackage? rest)

def packageNamed? (w : World) (name : QName) : Option PackageId :=
  w.subpackage? name.segments defaultPackage

structure PackageTree (w : World) : Prop where
  root : 0 < w.packages.size
  child : ∀ outer segment inner, (w.package outer).packages.find? segment = some inner →
    inner.index < w.packages.size
  nonroot : ∀ outer segment inner, (w.package outer).packages.find? segment = some inner →
    inner ≠ defaultPackage
  place : ∀ outer outer' segment segment' inner,
    (w.package outer).packages.find? segment = some inner →
    (w.package outer').packages.find? segment' = some inner → outer = outer' ∧ segment = segment'
  rootName : (w.package defaultPackage).name = .root
  childName : ∀ outer segment inner, (w.package outer).packages.find? segment = some inner →
    (w.package inner).name = (w.package outer).name.child segment
  listed : ∀ inner, inner.index < w.packages.size → inner ≠ defaultPackage →
    ∃ outer segment, outer.index < inner.index ∧
      (w.package outer).packages.find? segment = some inner

structure PackagesGrow (w w' : World) : Prop where
  same : w' = { w with packages := w'.packages }
  known : ∀ package simple, w'.known? package simple = w.known? package simple
  absent : ∀ package, (w'.package package).absent = (w.package package).absent
  child : ∀ outer segment inner, (w.package outer).packages.find? segment = some inner →
    (w'.package outer).packages.find? segment = some inner
  size : w.packages.size ≤ w'.packages.size
  name : ∀ package, package.index < w.packages.size → (w'.package package).name = (w.package package).name

theorem PackagesGrow.refl (w : World) : w.PackagesGrow w :=
  ⟨rfl, fun _ _ => rfl, fun _ => rfl, fun _ _ _ h => h, Nat.le_refl _, fun _ _ => rfl⟩

theorem PackagesGrow.trans {w1 w2 : World} (h1 : w.PackagesGrow w1) (h2 : w1.PackagesGrow w2) : w.PackagesGrow w2 where
  same := by rw [h2.same, h1.same]
  known pkg simple := by rw [h2.known, h1.known]
  absent pkg := by rw [h2.absent, h1.absent]
  child outer seg inner h := h2.child _ _ _ (h1.child _ _ _ h)
  size := Nat.le_trans h1.size h2.size
  name pkg hlt := (h2.name pkg (Nat.lt_of_lt_of_le hlt h1.size)).trans (h1.name pkg hlt)

theorem PackagesGrow.type (h : w.PackagesGrow w') (id : TypeId) : w'.type id = w.type id := by
  rw [h.same]
  rfl

theorem subpackage?_mono (h : ∀ outer seg inner, (w.package outer).packages.find? seg = some inner →
      (w'.package outer).packages.find? seg = some inner) (hf : w.subpackage? segs cur = some found) :
    w'.subpackage? segs cur = some found := by
  induction segs generalizing cur with
  | nil => exact hf
  | cons seg rest ih =>
    obtain ⟨inner, hi, hr⟩ := Option.bind_eq_some_iff.1 hf
    rw [subpackage?, h _ _ _ hi]
    exact ih hr

theorem PackagesGrow.packageNamed? (h : w.PackagesGrow w')
    (hf : w.packageNamed? name = some found) : w'.packageNamed? name = some found :=
  subpackage?_mono h.child hf

theorem subpackage?_append (segs : List String) (seg : String) (current : PackageId) :
    w.subpackage? (segs ++ [seg]) current =
      (w.subpackage? segs current).bind fun outer => (w.package outer).packages.find? seg := by
  induction segs generalizing current with
  | nil =>
    change ((w.package current).packages.find? seg).bind some = _
    exact Option.bind_fun_some _
  | cons first rest ih =>
    have hr : w.subpackage? (rest ++ [seg]) = _ := funext ih
    rw [List.cons_append, subpackage?, subpackage?, hr, Option.bind_assoc]

theorem PackageTree.lt_of_named (h : w.PackageTree)
    (hp : w.packageNamed? name = some pkg) : pkg.index < w.packages.size := by
  have hs : ∀ (segs : List String) (cur : PackageId), cur.index < w.packages.size →
      w.subpackage? segs cur = some pkg → pkg.index < w.packages.size := by
    intro segs
    induction segs with
    | nil =>
      rintro cur hc ⟨⟩
      exact hc
    | cons seg rest ih =>
      intro cur _ hf
      obtain ⟨inner, hi, hr⟩ := Option.bind_eq_some_iff.1 hf
      exact ih inner (h.child _ _ _ hi) hr
  exact hs _ _ h.root hp

theorem PackageTree.packageNamed?_inj (h : w.PackageTree) {name' : QName}
    (hn : w.packageNamed? name = some found) (hn' : w.packageNamed? name' = some found) : name = name' := by
  obtain ⟨segs⟩ := name
  obtain ⟨segments'⟩ := name'
  simp only [packageNamed?, QName.mk.injEq] at hn hn' ⊢
  induction segs using List.reverseRecOn generalizing segments' found with
  | nil =>
    cases hn
    cases segments' using List.reverseRecOn with
    | nil => rfl
    | append_singleton outer seg =>
      rw [subpackage?_append] at hn'
      obtain ⟨pkg, -, hl⟩ := Option.bind_eq_some_iff.1 hn'
      exact absurd rfl (h.nonroot _ _ _ hl)
  | append_singleton outer seg ih =>
    rw [subpackage?_append] at hn
    obtain ⟨pkg, hp, hl⟩ := Option.bind_eq_some_iff.1 hn
    cases segments' using List.reverseRecOn with
    | nil =>
      cases hn'
      exact absurd rfl (h.nonroot _ _ _ hl)
    | append_singleton outer' segment' =>
      rw [subpackage?_append] at hn'
      obtain ⟨package', hp', hl'⟩ := Option.bind_eq_some_iff.1 hn'
      obtain ⟨rfl, rfl⟩ := h.place _ _ _ _ _ hl hl'
      rw [ih hp outer' hp']

theorem lt_size_of_child {inner : PackageId}
    (h : (w.package outer).packages.find? seg = some inner) : outer.index < w.packages.size :=
  lt_size_of_read (fun info : PackageInfo => info.packages.find? seg = some inner) h nofun

theorem PackageTree.packageNamed?_name (h : w.PackageTree) (i : Nat) (hlt : i < w.packages.size) :
    w.packageNamed? (w.package ⟨i⟩).name = some ⟨i⟩ := by
  -- By induction on the order in which packages are added: the one around it came before.
  induction i using Nat.strongRecOn with
  | ind i ih =>
    by_cases hr : (⟨i⟩ : PackageId) = defaultPackage
    · rw [hr, h.rootName]
      rfl
    obtain ⟨⟨outer⟩, seg, hb, hl⟩ := h.listed ⟨i⟩ hlt hr
    have ho := ih outer hb (Nat.lt_trans hb hlt)
    rw [packageNamed?] at ho
    rw [h.childName _ _ _ hl, packageNamed?, QName.child, subpackage?_append, ho]
    exact hl

theorem PackageTree.packageNamed?_iff (h : w.PackageTree) : w.packageNamed? name = some pkg ↔
      pkg.index < w.packages.size ∧ (w.package pkg).name = name := by
  constructor
  · intro hn
    have hlt := h.lt_of_named hn
    exact ⟨hlt, h.packageNamed?_inj (h.packageNamed?_name _ hlt) hn⟩
  · rintro ⟨hlt, rfl⟩
    exact h.packageNamed?_name _ hlt

theorem package_modifyPackage (other : PackageId) : (w.modifyPackage id change).package other =
      if other = id ∧ id.index < w.packages.size then change (w.package other) else w.package other := by
  cases id
  cases other
  simp only [package, modifyPackage, getD_modify, PackageId.mk.injEq]

theorem absent_modifyPackage (id other : PackageId) (h : ∀ info, (change info).absent = info.absent) :
    ((w.modifyPackage id change).package other).absent = (w.package other).absent := read_modify _ _ _ _ h

theorem name_modifyPackage (id : PackageId) (h : ∀ info, (change info).name = info.name) (other : PackageId) :
    ((w.modifyPackage id change).package other).name = (w.package other).name := read_modify _ _ _ _ h

theorem modifyPackage_of_size_le (change : PackageInfo → PackageInfo)
    (h : w.packages.size ≤ id.index) : w.modifyPackage id change = w := by
  rw [modifyPackage, modify_of_size_le _ h]

theorem read_pushPackage {α : Type} (read : PackageInfo → α) {info : PackageInfo} (h : read info = read default)
    (other : PackageId) :
    read (({ w with packages := w.packages.push info } : World).package other) = read (w.package other) := by
  rw [package, getD_push]
  split
  · next heq => rw [h, package, Array.getD_eq_getD_getElem?, Array.getElem?_eq_none (Nat.le_of_eq heq.symm),
      Option.getD_none]
  · rfl

theorem package_addPackage (outer : PackageId) (seg : String) (other : PackageId) :
    ((w.addPackage outer seg).2.package other).types.find? = (w.package other).types.find? ∧
      ∀ s, ((w.addPackage outer seg).2.package other).packages.find? s =
        if other = outer ∧ outer.index ≤ w.packages.size ∧ s = seg then some ⟨w.packages.size⟩
        else (w.package other).packages.find? s := by
  simp only [addPackage, package_modifyPackage, Array.size_push]
  split
  · next h =>
    refine ⟨by rw [read_pushPackage PackageInfo.types (by exact rfl)], fun s => ?_⟩
    have hle := Nat.le_of_lt_succ h.2
    rw [Table.find?_insert, read_pushPackage PackageInfo.packages (by exact rfl)]
    simp [h.1, hle]
  rename_i h
  refine ⟨by rw [read_pushPackage PackageInfo.types (by exact rfl)], fun s => ?_⟩
  rw [read_pushPackage PackageInfo.packages (by exact rfl), if_neg]
  exact fun hs => h ⟨hs.1, Nat.lt_succ_of_le hs.2.1⟩

theorem absent_addPackage (outer : PackageId) (seg : String) (other : PackageId) :
    ((w.addPackage outer seg).2.package other).absent = (w.package other).absent := by
  rw [addPackage]
  dsimp only
  rw [absent_modifyPackage outer other (by exact fun _ => rfl)]
  exact read_pushPackage PackageInfo.absent (by exact rfl) other

theorem name_addPackage (outer : PackageId) (seg : String) (other : PackageId) :
    ((w.addPackage outer seg).2.package other).name =
      if other.index = w.packages.size then (w.package outer).name.child seg else (w.package other).name := by
  rw [addPackage]
  dsimp only
  rw [name_modifyPackage outer (by exact fun _ => rfl)]
  rw [package, getD_push]
  split <;> rfl

theorem addPackage_grows (h : (w.package outer).packages.find? seg = none) :
    w.PackagesGrow (w.addPackage outer seg).2 where
  same := rfl
  known pkg simple := by rw [known?, (package_addPackage outer seg pkg).1, known?]
  absent pkg := absent_addPackage outer seg pkg
  child other s inner hi := by
    rw [(package_addPackage outer seg other).2, if_neg]
    · exact hi
    · rintro ⟨rfl, -, rfl⟩
      rw [h] at hi
      cases hi
  size := by simp [addPackage, modifyPackage]
  name pkg hlt := by rw [name_addPackage, if_neg (Nat.ne_of_lt hlt)]

theorem find?_addPackage (h : outer.index < w.packages.size) (seg : String) :
    ((w.addPackage outer seg).2.package outer).packages.find? seg = some (w.addPackage outer seg).1 := by
  rw [(package_addPackage outer seg outer).2, if_pos ⟨rfl, Nat.le_of_lt h, rfl⟩]
  rfl

theorem size_addPackage (outer : PackageId) (seg : String) :
    (w.addPackage outer seg).2.packages.size = w.packages.size + 1 := by
  simp [addPackage, modifyPackage]

theorem PackageTree.addPackage (h : w.PackageTree)
    (ho : outer.index < w.packages.size) (hno : (w.package outer).packages.find? seg = none) :
    (w.addPackage outer seg).2.PackageTree where
  root := by rw [size_addPackage]; omega
  child other s inner hi := by
    rw [(package_addPackage outer seg other).2] at hi
    rw [size_addPackage]
    split at hi
    · cases hi
      exact Nat.lt_succ_self _
    · exact Nat.lt_succ_of_lt (h.child _ _ _ hi)
  nonroot other s inner hi := by
    rw [(package_addPackage outer seg other).2] at hi
    split at hi
    · cases hi
      exact fun heq => Nat.ne_of_gt h.root (congrArg PackageId.index heq)
    · exact h.nonroot _ _ _ hi
  place other other' s s' inner hi hi' := by
    rw [(package_addPackage outer seg other).2] at hi
    rw [(package_addPackage outer seg other').2] at hi'
    -- The new package is beyond all that were listed before.
    split at hi <;> split at hi'
    · next hn hn' => exact ⟨hn.1.trans hn'.1.symm, hn.2.2.trans hn'.2.2.symm⟩
    · cases hi
      exact absurd (h.child _ _ _ hi') (Nat.lt_irrefl _)
    · cases hi'
      exact absurd (h.child _ _ _ hi) (Nat.lt_irrefl _)
    · exact h.place _ _ _ _ _ hi hi'
  rootName := by
    have hlt : defaultPackage.index < w.packages.size := h.root
    rw [name_addPackage, if_neg (Nat.ne_of_lt hlt), h.rootName]
  childName other s inner hi := by
    rw [(package_addPackage outer seg other).2] at hi
    rw [name_addPackage, name_addPackage]
    split at hi
    · next hn =>
      cases hi
      obtain ⟨rfl, -, rfl⟩ := hn
      rw [if_pos rfl, if_neg (Nat.ne_of_lt ho)]
    · rw [if_neg (Nat.ne_of_lt (h.child _ _ _ hi)), if_neg (Nat.ne_of_lt (lt_size_of_child hi))]
      exact h.childName _ _ _ hi
  listed inner hlt hne := by
    rw [size_addPackage] at hlt
    obtain hlt | heq := Nat.lt_succ_iff_lt_or_eq.1 hlt
    · obtain ⟨other, s, hb, hl⟩ := h.listed inner hlt hne
      exact ⟨other, s, hb, (addPackage_grows hno).child _ _ _ hl⟩
    refine ⟨outer, seg, heq ▸ ho, (find?_addPackage ho seg).trans ?_⟩
    cases inner
    exact congrArg some (congrArg PackageId.mk heq.symm)

theorem enterPackage_grows (mayAdd : QName → Bool) (segs : List String) (cur : PackageId) :
    w.PackagesGrow (w.enterPackage mayAdd segs cur).2 := by
  induction segs generalizing w cur with
  | nil => exact .refl w
  | cons seg rest ih =>
    rw [enterPackage]
    split
    · exact ih _
    rename_i h
    split
    · exact (addPackage_grows h).trans (ih _)
    · exact .refl w

theorem lt_size_addPackage (outer : PackageId) (seg : String) :
    (w.addPackage outer seg).1.index < (w.addPackage outer seg).2.packages.size := by
  rw [size_addPackage]
  exact Nat.lt_succ_self _

theorem PackageTree.enterPackage (h : w.PackageTree) (mayAdd : QName → Bool)
    (segs : List String) (cur : PackageId) (hc : cur.index < w.packages.size) :
    (w.enterPackage mayAdd segs cur).2.PackageTree := by
  induction segs generalizing w cur with
  | nil => exact h
  | cons seg rest ih =>
    rw [enterPackage]
    split
    · next inner hi => exact ih h inner (h.child _ _ _ hi)
    rename_i hn
    split
    · exact ih (h.addPackage hc hn) _ (lt_size_addPackage cur seg)
    · exact h

theorem enterPackage_some (h : w.PackageTree) (hc : cur.index < w.packages.size)
    (hf : (w.enterPackage mayAdd segs cur).1 = some found) :
    (w.enterPackage mayAdd segs cur).2.subpackage? segs cur = some found ∧
      found.index < (w.enterPackage mayAdd segs cur).2.packages.size := by
  induction segs generalizing w cur with
  | nil =>
    cases hf
    exact ⟨rfl, hc⟩
  | cons seg rest ih =>
    rw [enterPackage] at hf ⊢
    split at hf
    · next inner hi =>
      have hr := ih h (h.child _ _ _ hi) hf
      refine ⟨?_, hr.2⟩
      have := (enterPackage_grows (w := w) mayAdd rest inner).child _ _ _ hi
      rw [subpackage?, this]
      exact hr.1
    rename_i hn
    split at hf
    · next hm =>
      have hr := ih (h.addPackage hc hn) (lt_size_addPackage cur seg) hf
      have hch := find?_addPackage hc seg
      simp only [hm, if_true]
      refine ⟨?_, hr.2⟩
      rw [subpackage?, (enterPackage_grows mayAdd rest _).child _ _ _ hch]
      exact hr.1
    · cases hf

theorem enterPackage_of_subpackage? (h : w.subpackage? segs cur = some found) :
    w.enterPackage mayAdd segs cur = (some found, w) := by
  induction segs generalizing cur with
  | nil =>
    cases h
    rfl
  | cons seg rest ih =>
    obtain ⟨inner, hi, hr⟩ := Option.bind_eq_some_iff.1 h
    rw [enterPackage, hi]
    exact ih hr

theorem enterPackage_append (mayAdd : QName → Bool) (first rest : List String) (cur : PackageId) :
    w.enterPackage mayAdd (first ++ rest) cur = match w.enterPackage mayAdd first cur with
      | (some inner, w') => w'.enterPackage mayAdd rest inner
      | (none, w') => (none, w') := by
  induction first generalizing w cur with
  | nil => rfl
  | cons seg first ih =>
    rw [List.cons_append, enterPackage, enterPackage]
    split
    · exact ih _
    split
    · exact ih _
    · rfl

theorem enterPackage_again (h : w.PackageTree) (hc : cur.index < w.packages.size)
    (hn : w.enterPackage mayAdd segs cur = (none, w')) :
    w'.enterPackage mayAdd segs cur = (none, w') := by
  induction segs generalizing w cur with
  | nil => cases hn
  | cons seg rest ih =>
    have hch : ∀ {w1 : World} {inner : PackageId}, w1.enterPackage mayAdd rest inner = (none, w') →
        (w1.package cur).packages.find? seg = some inner →
        w'.enterPackage mayAdd rest inner = (none, w') →
        w'.enterPackage mayAdd (seg :: rest) cur = (none, w') := by
      intro w1 inner hr hi ha
      have hg := enterPackage_grows (w := w1) mayAdd rest inner
      rw [hr] at hg
      rw [enterPackage, hg.child _ _ _ hi]
      exact ha
    rw [enterPackage] at hn
    split at hn
    · next inner hi => exact hch hn hi (ih h (h.child _ _ _ hi) hn)
    rename_i hm
    split at hn
    · exact hch hn (find?_addPackage hc seg) (ih (h.addPackage hc hm) (lt_size_addPackage cur seg) hn)
    rename_i hma
    cases hn
    rw [enterPackage, hm]
    simp [hma]

theorem enterPackage_isSome (segs : List String) (cur : PackageId) :
    (w.enterPackage (fun _ => true) segs cur).1.isSome := by
  induction segs generalizing w cur with
  | nil => rfl
  | cons seg rest ih =>
    rw [enterPackage]
    split
    · exact ih _
    · exact ih _

end World

end Bindings
