import Mathlib.Data.List.MinMax
import Bindings.Proofs.ClassFiles
import Bindings.Proofs.Widening

/-! # Meets -/

open Relation

namespace Bindings

open Query

namespace Query

variable {d : Demand} {w u : World} {below : TypeId → TypeId → Bool} {calm : World → Prop}
  {list types ids : List TypeId} {id : TypeId} {v : World}

/-- Nothing in the list is below the type but what it is below itself, and of these it is the first. -/
def IsFirstLeast (below : TypeId → TypeId → Bool) (list : List TypeId) (id : TypeId) : Prop :=
  ∀ other ∈ list, below other id → below id other ∧ list.idxOf id ≤ list.idxOf other

instance : Decidable (IsFirstLeast below list id) :=
  inferInstanceAs (Decidable (∀ other ∈ list, below other id → below id other ∧ list.idxOf id ≤ list.idxOf other))

def firstLeast (below : TypeId → TypeId → Bool) (list : List TypeId) : List TypeId :=
  list.filter fun id => IsFirstLeast below list id

def downset (below : TypeId → TypeId → Bool) (list : List TypeId) (id : TypeId) : Finset TypeId :=
  list.toFinset.filter (below · id)

theorem mem_downset {other : TypeId} : other ∈ downset below list id ↔ other ∈ list ∧ below other id := by
  simp [downset]

section

variable (htrans : ∀ a ∈ list, ∀ b ∈ list, ∀ c ∈ list, below a b → below b c → below a c)
  (hrefl : ∀ id ∈ list, below id id)

include htrans hrefl

theorem isFirstLeast_of_card (hid : id ∈ list)
    (h : ∀ other ∈ list, below other id → (downset below list other).card ≤ (downset below list id).card →
      (downset below list id).card ≤ (downset below list other).card ∧ list.idxOf id ≤ list.idxOf other) :
    IsFirstLeast below list id := by
  intro other ho hb
  have hsu : downset below list other ⊆ downset below list id := by
    intro third ht
    obtain ⟨hm, ht⟩ := mem_downset.1 ht
    exact mem_downset.2 ⟨hm, htrans third hm other ho id hid ht hb⟩
  obtain ⟨hc, hf⟩ := h other ho hb (Finset.card_le_card hsu)
  have hs : id ∈ downset below list other := by
    rw [Finset.eq_of_subset_of_card_le hsu hc]
    exact mem_downset.2 ⟨hid, hrefl id hid⟩
  exact ⟨(mem_downset.1 hs).2, hf⟩

/-- Below every member there is one that keeps its place: the first of those with the fewest members below them. -/
theorem exists_firstLeast_below (hid : id ∈ list) : ∃ low ∈ firstLeast below list, below low id := by
  let rank (other : TypeId) : Nat := if below other id then (downset below list other).card else list.length + 1
  have hr : ∀ other, below other id → rank other = (downset below list other).card := fun other h => if_pos h
  have hs : ∀ other, (downset below list other).card ≤ list.length := fun other =>
    (Finset.card_filter_le ..).trans (List.toFinset_card_le list)
  obtain ⟨low, hl⟩ := Option.ne_none_iff_exists'.1 fun hn =>
    List.ne_nil_of_mem hid ((List.argmin_eq_none (f := rank)).1 hn)
  obtain ⟨hm, hlea, hf⟩ := List.mem_argmin_iff.1 hl
  have hb : below low id := by
    by_contra hno
    have hle := hlea id hid
    have hc := hs id
    rw [hr id (hrefl id hid), show rank low = list.length + 1 from if_neg hno] at hle
    omega
  refine ⟨low, List.mem_filter.2 ⟨hm, ?_⟩, hb⟩
  refine decide_eq_true (isFirstLeast_of_card htrans hrefl hm fun other ho hu hc => ?_)
  have ho' := hr other (htrans other ho low hm id hid hu hb)
  rw [← hr low hb, ← ho'] at hc ⊢
  exact ⟨hlea other ho, hf other ho hc⟩

end

theorem firstLeast_pairwise (hn : list.Nodup) :
    (firstLeast below list).Pairwise fun a b => below a b = false ∧ below b a = false := by
  have hap : ∀ a ∈ firstLeast below list, ∀ b ∈ firstLeast below list, a ≠ b → below a b = false := by
    intro a ha b hb hne
    obtain ⟨ha, hl⟩ := List.mem_filter.1 ha
    obtain ⟨hb, hl'⟩ := List.mem_filter.1 hb
    by_contra hbe
    obtain ⟨hba, hle⟩ := of_decide_eq_true hl' a ha (by simpa using hbe)
    have hle' := (of_decide_eq_true hl b hb hba).2
    exact hne ((List.idxOf_inj ha).1 (Nat.le_antisymm hle' hle))
  refine (hn.filter _).imp_of_mem fun ha hb hne => ?_
  exact ⟨hap _ ha _ hb hne, hap _ hb _ ha hne.symm⟩

/-- In calm worlds the comparisons of the members of a list have the given answers and leave the world calm. -/
def ComparesAs (d : Demand) (calm : World → Prop) (list : List TypeId) (below : TypeId → TypeId → Bool) : Prop :=
  ∀ u, calm u → ∀ a ∈ list, ∀ b ∈ list,
    (compatible a b).Delivers d u fun answer v => calm v ∧ answer = below a b

def StaysCalm (calm : World → Prop) (u v : World) : Prop := calm u ∧ calm v

theorem StaysCalm.refl (h : StaysCalm calm u v) : StaysCalm calm v v := ⟨h.2, h.2⟩

theorem StaysCalm.trans {x : World} (h : StaysCalm calm u v) (h' : StaysCalm calm v x) :
    StaysCalm calm u x := ⟨h.1, h'.2⟩

theorem compatible_self (hu : u.Sound) (hd : d.Orderly) {post : Bool → World → Prop}
    (h : (compatible id id).Delivers d u post) : ∃ v, post true v := by
  obtain ⟨ans, v, hr, hp⟩ := h
  refine ⟨v, ?_⟩
  change compatibleFrom d.fuel id id d u = _ at hr
  cases hf : d.fuel with
  | zero => rw [hf] at hr; cases hr
  | succ fuel =>
    rw [hf, compatibleFrom] at hr
    obtain ⟨src, u1, hfi, hr⟩ := of_bind_ok d u hr
    have hru := resolved_runs hu id d hd
    rw [hfi] at hru
    rw [bind_ok d u1 (resolved_of_stands (hru.2 src rfl) d), if_pos rfl] at hr
    cases hr
    exact hp

theorem isRedundant_delivers (h : ComparesAs d calm list below) (hn : list.Nodup) {index : Nat}
    (hid : list[index]? = some id) (hu : calm u) : (isRedundant list id index).Delivers d u fun ans v =>
      StaysCalm calm u v ∧ (ans = true ↔ ¬ IsFirstLeast below list id) := by
  have hpl : ∀ other i, (other, i) ∈ list.zipIdx → other ∈ list ∧ list.idxOf other = i := by
    intro other i hm
    obtain ⟨hlt, hg⟩ := List.getElem?_eq_some_iff.1 (List.mk_mem_zipIdx_iff_getElem?.1 hm)
    subst hg
    exact ⟨List.getElem_mem hlt, hn.idxOf_getElem i hlt⟩
  obtain ⟨hm, hi⟩ := hpl id index (List.mem_zipIdx_iff_getElem?.2 hid)
  refine (Delivers.anyM (w := u) (fun _ => StaysCalm.refl) StaysCalm.trans
      (p := fun pair => pair.2 ≠ index ∧ below pair.1 id = true ∧
      (below id pair.1 = false ∨ pair.2 < index)) ?_ ⟨hu, hu⟩).mono ?_
  · rintro ⟨other, i⟩ hp v ⟨-, hv⟩
    have ho := (hpl other i hp).1
    refine .ite (fun heq => .pure ⟨⟨hv, hv⟩, by simp [heq]⟩) fun hne => ?_
    refine .bind (h v hv other ho id hm) fun ans x ⟨hx, ha⟩ => ?_
    subst ha
    cases hb : below other id with
    | false => exact .pure ⟨⟨hv, hx⟩, by simp⟩
    | true =>
      refine .bind (h x hx id hm other ho) fun ans y ⟨hy, ha⟩ => ?_
      subst ha
      cases hba : below id other <;> exact .pure ⟨⟨hv, hy⟩, by simp [hne]⟩
  · rintro ans v ⟨hv, ha⟩
    refine ⟨hv, ha.trans ?_⟩
    rw [IsFirstLeast]
    push Not
    constructor
    · rintro ⟨⟨other, i⟩, hp, -, hb, hba⟩
      obtain ⟨ho, rfl⟩ := hpl other i hp
      refine ⟨other, ho, hb, fun hmu => ?_⟩
      rw [hi]
      exact hba.resolve_left (by simp [hmu])
    · rintro ⟨other, ho, hb, hf⟩
      have hp : (other, list.idxOf other) ∈ list.zipIdx := List.mem_zipIdx_iff_getElem?.2 (List.getElem?_idxOf ho)
      rw [hi] at hf
      refine ⟨(other, list.idxOf other), hp, fun heq => ?_, hb, ?_⟩
      · obtain rfl := (List.idxOf_inj ho).1 (heq.trans hi.symm)
        exact Nat.lt_irrefl _ (heq ▸ hf hb)
      · cases hmu : below id other with
        | false => exact .inl rfl
        | true => exact .inr (hf hmu)

theorem nodup_eraseDups (ids : List TypeId) : ids.eraseDups.Nodup := by
  induction hl : ids.length using Nat.strong_induction_on generalizing ids with
  | _ length ih =>
    cases ids with
    | nil => simp
    | cons id rest =>
      have hs : (rest.filter fun b => !b == id).length < length := by
        rw [← hl, List.length_cons]
        exact Nat.lt_succ_of_le (List.length_filter_le ..)
      rw [List.eraseDups_cons, List.nodup_cons]
      exact ⟨by simp, ih _ hs _ rfl⟩

theorem resolvedUnique_eq (h : types.mapM resolved d w = (.ok ids, u)) (unique : List TypeId) :
    resolvedUnique types unique d w = (.ok (unique ++ (ids.filter (· ∉ unique)).eraseDups), u) := by
  induction types generalizing w ids unique with
  | nil =>
    cases h
    simp [resolvedUnique]
  | cons type rest ih =>
    rw [List.mapM_cons] at h
    obtain ⟨id, w1, hf, h⟩ := of_bind_ok d w h
    obtain ⟨others, w2, hr, h⟩ := of_bind_ok d w1 h
    cases h
    rw [resolvedUnique, bind_ok d w hf, ih hr]
    by_cases hm : id ∈ unique
    · simp [hm]
    have ht : (others.filter fun b => !b == id && decide (b ∉ unique)) = others.filter (· ∉ unique ++ [id]) :=
      List.filter_congr fun b _ => by by_cases h : b = id <;> simp [h]
    rw [if_neg (by simpa using hm), List.filter_cons_of_pos (by simpa using hm), List.eraseDups_cons,
      List.filter_filter, ht, List.append_assoc, List.singleton_append]

theorem greatestLowerBound_delivers (hr : types.mapM resolved d w = (.ok ids, u))
    (h : ComparesAs d calm ids below) (hu : calm u) : (greatestLowerBound types).Delivers d w fun ans v =>
      calm v ∧ ans = if 1 < ((firstLeast below ids.eraseDups).filter fun id =>
          (v.type id).isClassLike && !isInterfaceType v id).length then none
        else some (firstLeast below ids.eraseDups) := by
  have hun : resolvedUnique types [] d w = (.ok ids.eraseDups, u) := by simpa using resolvedUnique_eq hr []
  refine .step hun ?_
  have hm : ∀ id ∈ ids.eraseDups, id ∈ ids := fun id hid => List.mem_eraseDups.1 hid
  have hc : ComparesAs d calm ids.eraseDups below := fun v hv a ha b hb => h v hv a (hm a ha) b (hm b hb)
  refine .bind (.filterM (w := u) (fun _ => StaysCalm.refl) StaysCalm.trans
    (p := fun pair => IsFirstLeast below ids.eraseDups pair.1) ?_ ⟨hu, hu⟩) ?_
  · rintro ⟨id, i⟩ hp v ⟨-, hv⟩
    have hid := List.mem_zipIdx_iff_getElem?.1 hp
    refine .bind (isRedundant_delivers hc (nodup_eraseDups ids) hid hv) fun ans x ⟨hx, han⟩ => .pure ⟨hx, ?_⟩
    cases ans <;> simp_all
  · rintro kept v ⟨⟨-, hv⟩, rfl⟩
    refine .get (.pure ⟨hv, ?_⟩)
    have hk : ∀ p : TypeId → Bool,
        (ids.eraseDups.zipIdx.filter (p ∘ (·.1))).map (·.1) = ids.eraseDups.filter p := fun p => by
      rw [← List.filter_map, List.zipIdx_map_fst]
    rw [firstLeast, ← hk]
    rfl

theorem comparesAs_of_known (hw : w.Sound) (hs : w.searchSteps < d.fuel)
    (h : ∀ id ∈ list, w.IsLeaf id ∧ ((w.class? id).isSome → w.HierarchyKnown id))
    (hbe : ∀ a ∈ list, ∀ b ∈ list, below a b = true ↔ w.Widens a 0 b 0) (hf : w.Formed) :
    ComparesAs d (fun v => w.Beside v ∧ v.comparing = []) list below := by
  rintro u ⟨hu, hn⟩ a ha b hb
  have hd : Decides (compatibleFrom d.fuel) d w a 0 b 0 :=
    compatibleFrom_decides hw (h a ha).1 (h b hb).1 (h a ha).2 hs.le (by rw [UInt32.toNat_zero]; omega)
  have hab : u.NotedAbove 0 := by
    rw [World.NotedAbove, hn]
    simp
  refine (hd u a b hu ((h a ha).1.self.beside hw hf hu) ((h b hb).1.self.beside hw hf hu)
    hab).mono fun ans v hr => ⟨⟨hu.trans hr.1, hr.2.1.trans hn⟩, ?_⟩
  exact Bool.eq_iff_iff.2 (hr.2.2.trans (hbe a ha b hb).symm)

end Query

namespace World

variable {w u : World}

/-- A meet keeps the first of each class of least types and has no others, and there is none exactly if two classes
are left that are no interfaces. -/
theorem Reachable.greatestLowerBound_least (hw : w.Reachable) {d : Demand} (hd : d.Orderly)
    {types ids : List TypeId} (hresolved : types.mapM resolved d w = (.ok ids, u)) {calm : World → Prop}
    (hcalm : calm u) {below : TypeId → TypeId → Bool} (hstable : ComparesAs d calm ids below)
    (htrans : ∀ a ∈ ids, ∀ b ∈ ids, ∀ c ∈ ids, below a b → below b c → below a c) :
    ∃ answer v, greatestLowerBound types d w = (.ok answer, v) ∧ calm v ∧
      (answer = none ↔ 2 ≤ (firstLeast below ids.eraseDups).countP fun id =>
        (v.type id).isClassLike && !Query.isInterfaceType v id) ∧
      (∀ least, answer = some least → least = firstLeast below ids.eraseDups) ∧
      (firstLeast below ids.eraseDups).Pairwise (fun a b => below a b = false ∧ below b a = false) ∧
      ∀ id ∈ ids, ∃ low ∈ firstLeast below ids.eraseDups, below low id := by
  have hsound : u.Sound := by
    have hcourse := (inferInstance : (types.mapM resolved).Orderly).runs w hw.sound d hd
    rw [hresolved] at hcourse
    exact hcourse.1.sound hw.sound
  have hmem : ∀ {id}, id ∈ ids.eraseDups ↔ id ∈ ids := List.mem_eraseDups
  have hrefl : ∀ id ∈ ids, below id id := fun id hid =>
    let ⟨_, _, hself⟩ := compatible_self hsound hd (hstable u hcalm id hid id hid)
    hself.symm
  obtain ⟨answer, v, hrun, hv, hanswer⟩ := greatestLowerBound_delivers hresolved hstable hcalm
  refine ⟨answer, v, hrun, hv, ?_, ?_, firstLeast_pairwise (nodup_eraseDups ids), fun id hid => ?_⟩
  · rw [hanswer, List.countP_eq_length_filter]
    simp [Nat.lt_iff_add_one_le]
  · intro least hleast
    rw [hleast] at hanswer
    split at hanswer <;> simp_all
  · refine exists_firstLeast_below (fun a ha b hb c hc => ?_) (fun id hid => hrefl id (hmem.1 hid)) (hmem.2 hid)
    exact htrans a (hmem.1 ha) b (hmem.1 hb) c (hmem.1 hc)

theorem greatestLowerBound_least_ring :
    ringWorld.parents ⟨10⟩ = [⟨11⟩] ∧ ⟨10⟩ ∈ ringWorld.parents ⟨11⟩ ∧ ringWorld.isObject ⟨14⟩ = true ∧
      (greatestLowerBound [⟨14⟩, ⟨11⟩, ⟨10⟩, ⟨11⟩] .standard ringWorld).1 = .ok (some [⟨11⟩]) := by
  have hread : ringWorld.types.size = 17 ∧ ringWorld.parents ⟨10⟩ = [⟨11⟩] ∧ ⟨10⟩ ∈ ringWorld.parents ⟨11⟩ ∧
      ringWorld.parents ⟨14⟩ = [] ∧ ringWorld.isObject ⟨14⟩ = true ∧ ringWorld.searchSteps < Demand.standard.fuel ∧
      ([⟨14⟩, ⟨11⟩, ⟨10⟩, ⟨11⟩].all fun id => (ringWorld.class? id).isSome && ringWorld.base? id == none) = true ∧
      (ringWorld.isObject ⟨10⟩ = false ∧ ringWorld.isObject ⟨11⟩ = false) ∧
      ringWorld.isClosed (·.supertypesKnown) [⟨10⟩, ⟨11⟩, ⟨12⟩, ⟨14⟩] = true := by
    decide +kernel
  obtain ⟨hsize, hup, hdown, htop, hobject, hsteps, hclasses, ⟨hnot, hnot'⟩, hclosed⟩ := hread
  have hreach : ringWorld.Reachable := (Reachable.initial {} ringClassPath {}).after _
  have hmem : ∀ id : TypeId, id ∈ ([⟨14⟩, ⟨11⟩, ⟨10⟩, ⟨11⟩] : List TypeId) → id = ⟨14⟩ ∨ id = ⟨11⟩ ∨ id = ⟨10⟩ := by
    simp
  have hclass : ∀ id ∈ ([⟨14⟩, ⟨11⟩, ⟨10⟩, ⟨11⟩] : List TypeId), (ringWorld.class? id).isSome ∧
      ringWorld.base? id = none := by
    simpa using hclasses
  have hresolved : ([⟨14⟩, ⟨11⟩, ⟨10⟩, ⟨11⟩] : List TypeId).mapM resolved .standard ringWorld =
      (.ok [⟨14⟩, ⟨11⟩, ⟨10⟩, ⟨11⟩], ringWorld) := by
    refine mapM_still id fun id hid => ?_
    obtain ⟨_, hinfo⟩ := Option.isSome_iff_exists.1 (hclass id hid).1
    exact resolved_apply hinfo _
  have hcompares : ComparesAs .standard (fun v => ringWorld.Beside v ∧ v.comparing = [])
      [⟨14⟩, ⟨11⟩, ⟨10⟩, ⟨11⟩] fun a b => a != ⟨14⟩ || b == ⟨14⟩ := by
    refine comparesAs_of_known hreach.sound (d := .standard) hsteps
      (fun id hid => ⟨⟨?_, .inr (hclass id hid).1⟩, fun _ => ?_⟩) ?_
      hreach.formed
    · rcases hmem id hid with rfl | rfl | rfl <;> exact Nat.lt_of_lt_of_eq (by decide) hsize.symm
    · refine hierarchyKnown_of_closed hclosed ?_
      rcases hmem id hid with rfl | rfl | rfl <;> decide
    intro a ha b hb
    have hbase := (hclass a ha).2
    by_cases hroot : b = ⟨14⟩
    · subst hroot
      simpa using Widens.object (by simp [IsBase, hbase]) hobject
    have hb' := (hmem b hb).resolve_left hroot
    have hplain : ringWorld.isObject b = false := by
      rcases hb' with rfl | rfl
      · exact hnot'
      · exact hnot
    rw [widens_classes_iff hbase hplain]
    rcases hmem a ha with rfl | ha
    · refine ⟨fun h => absurd h (by simpa using hroot), fun h => ?_⟩
      rcases h.cases_head with h | ⟨parent, hparent, -⟩
      · exact absurd h.symm hroot
      · rw [Inherits, htop] at hparent
        cases hparent
    have hpath : ReflTransGen ringWorld.Inherits a b := by
      rcases ha with rfl | rfl <;> rcases hb' with rfl | rfl
      · exact .refl
      · exact .single hdown
      · exact .single (show ⟨11⟩ ∈ ringWorld.parents ⟨10⟩ by rw [hup]; exact .head _)
      · exact .refl
    have hlow : a ≠ ⟨14⟩ := by rcases ha with rfl | rfl <;> decide
    simpa [hlow] using hpath
  obtain ⟨answer, v, hrun, -, hnone, hsome, -⟩ := hreach.greatestLowerBound_least (d := .standard)
    Demand.orderly_standard hresolved
    ⟨.refl hreach.sound hreach.formed, hreach.comparing⟩ hcompares (by decide)
  have hleast : firstLeast (fun a b => a != ⟨14⟩ || b == ⟨14⟩)
      ([⟨14⟩, ⟨11⟩, ⟨10⟩, ⟨11⟩] : List TypeId).eraseDups = [⟨11⟩] := by
    decide
  rw [hleast] at hnone hsome
  refine ⟨hup, hdown, hobject, ?_⟩
  cases answer with
  | none =>
    have htwo := (hnone.1 rfl).trans List.countP_le_length
    exact absurd htwo (by decide)
  | some least => rw [hrun, hsome least rfl]

end World

end Bindings
