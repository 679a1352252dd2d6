import Bindings.Proofs.Delivers
import Bindings.Proofs.Replay.Types
import Bindings.Proofs.Terms.Handles

/-! # Substitution on terms -/

namespace Bindings

open TypeInfo World Edit Term

variable {info : WildcardInfo} {leaf : TypeId} {name : Symbol}

/-- What at most a placeholder is not. -/
def TypeInfo.IsLoose (good : TypeInfo → Prop) : Prop := ∀ info : TypeInfo, info.isPlaceholder = false → good info

theorem TypeInfo.isLoose_solid : IsLoose fun info => info.isPlaceholder = false := fun _ h => h

theorem TypeInfo.isLoose_loaded : IsLoose fun info => info.isPending = false := fun _ => isPending_of_isPlaceholder

namespace World

variable {w u : World} {id : TypeId}

theorem Keeps.respells (h : w.Keeps u) : w.Respells u where
  size := h.grows.size
  type id hid := by
    obtain hsa | ⟨_, _, ho, hn, -⟩ := h.type_cases hid
    · exact .inl hsa
    · exact .inr ⟨by rw [ho]; rfl, by rw [hn]; rfl⟩

structure Onward (w u : World) : Prop where
  keeps : w.Keeps u
  sound : u.Sound
  formed : u.Formed

theorem Onward.refl (hw : w.Sound) (hfo : w.Formed) : w.Onward w := ⟨.refl w, hw, hfo⟩

theorem Onward.trans {v : World} (h1 : w.Onward u) (h2 : u.Onward v) : w.Onward v :=
  ⟨h1.keeps.trans h2.keeps, h2.sound, h2.formed⟩

theorem Onward.of_edit {α : Type} (edit : Edit α) [ho : edit.Orderly] (hk : w.Keeps (edit w).2)
    (hw : w.Sound) (hfo : w.Formed) : w.Onward (edit w).2 :=
  have hc := ho.course w hw
  ⟨hk, hc.sound hw, hc.formed hw hfo⟩

section

variable (h : w.Onward u) (hw : w.Sound)

include h hw

theorem Onward.throughout {good : TypeInfo → Prop} (hg : TypeInfo.IsLoose good)
    (hid : w.Knows id) : w.Throughout good id → u.Throughout good id :=
  h.keeps.respells.throughout hw.wellBuilt (fun info hi => hg info (by cases info <;> first | rfl | cases hi)) hid

theorem Onward.solid (hid : w.Knows id) (hso : w.Solid id) : u.Solid id :=
  h.throughout hw isLoose_solid hid hso

theorem Onward.loaded (hid : w.Knows id) (hl : w.Loaded id) : u.Loaded id :=
  h.throughout hw isLoose_loaded hid hl

theorem Onward.term (hfo : w.Formed) (hid : w.Knows id) : u.term id = w.term id :=
  h.keeps.respells.term hfo hw.wellBuilt h.formed hid

end

theorem follow_of_not_placeholder (h : (w.type id).isPlaceholder = false) : w.follow id = id := by
  rw [follow]
  split
  · next ht =>
    rw [ht] at h
    cases h
  · rfl

end World

namespace Query

variable {w : World} {d : Demand} {id : TypeId}

theorem resolved_eq_follow (d : Demand) (h : w.isPending id = false) : resolved id d w = (.ok (w.follow id), w) := by
  rw [resolved, get_bind_apply, World.follow]
  cases ht : w.type id with
  | placeholder name tgt =>
    cases tgt with
    | none =>
      rw [World.isPending, ht] at h
      cases h
    | some tgt => rfl
  | _ => rfl

theorem arrayType_delivers (hw : w.Sound) (hfo : w.Formed) {comp : TypeId} (hc : w.Knows comp) (dims : UInt32) :
    (liftM (Edit.arrayType comp dims) : Query TypeId).Delivers d w fun array u =>
      w.Onward u ∧ u.Knows array ∧ u.term array = (w.term comp).raise dims ∧
        ∀ good, TypeInfo.IsLoose good → w.Throughout good comp → u.Throughout good array := by
  have ho : w.Onward (Edit.arrayType comp dims w).2 := .of_edit _ (Furthering.furthers w hw).toKeeps hw hfo
  -- The component is taken apart once, into what is no array and its dimensions.
  obtain ⟨leaf, total, hr, hl, hte, hi⟩ : ∃ leaf total,
      Edit.arrayType comp dims w = (if total = 0 then pure leaf else Edit.arrayOf leaf total : Edit TypeId) w ∧
      w.Knows leaf ∧ (w.term comp).raise dims = (w.term leaf).raise total ∧
      ∀ good, w.Throughout good comp → w.Throughout good leaf := by
    rw [Edit.arrayType, Edit.bind_apply, Edit.get_apply]
    cases ht : w.type comp with
    | array leaf inner =>
      have hm : leaf ∈ (w.type comp).parts := by simp [ht]
      refine ⟨leaf, inner + dims, rfl, ?_, ?_, fun good hg => (throughout_iff.1 hg).2 leaf hm⟩
      · exact hw.wellBuilt.known comp leaf (parts_subset_components hm)
      · rw [hfo.term_array ht, raise_raise]
    | _ => exact ⟨comp, dims, rfl, hc, rfl, fun _ => id⟩
  refine .lift ⟨ho, ?_⟩
  rw [hr] at ho ⊢
  by_cases hto : total = 0
  · rw [if_pos hto]
    exact ⟨hl, by rw [hte, hto, raise_zero]; rfl, fun good _ => hi good⟩
  rw [if_neg hto] at ho ⊢
  have ht := arrayOf_type hw hl total
  refine ⟨lt_size_of_type_ne (by rw [ht]; simp), ?_, fun good hlo hg => ?_⟩
  · rw [ho.formed.term_array ht, ho.term hw hfo hl, hte]
  · refine throughout_iff.2 ⟨hlo _ (by rw [ht]; rfl), fun part hp => ?_⟩
    rw [ht, parts, List.mem_singleton] at hp
    exact hp ▸ ho.throughout hw hlo hl (hi good hg)

end Query

namespace Substitution

variable {s : Substitution} {var : TypeId}

theorem mem_domain_iff : var ∈ s.domain ↔ ∃ type, s.get? var = some type := by
  rw [domain, get?, Table.find?]
  induction s.map.entries with
  | nil => simp [Table.findIn]
  | cons entry rest ih =>
    obtain ⟨other, type⟩ := entry
    rw [List.map_cons, List.mem_cons, ih, Table.findIn]
    by_cases h : other = var
    · simp [h]
    · simp [h, Ne.symm h]

theorem get?_of_isEmpty (h : s.isEmpty) (var : TypeId) : s.get? var = none := by
  rw [isEmpty, Bool.and_eq_true, List.isEmpty_iff] at h
  rw [get?, Table.find?, h.1]
  rfl

theorem get?_orElse (s outer : Substitution) (var : TypeId) :
    (s.orElse outer).get? var = (s.get? var).or (outer.get? var) := by
  have ho : outer.get? var = Table.findIn var outer.map.entries := rfl
  rw [ho, orElse, get?, get?]
  dsimp only
  generalize s.map = map
  induction outer.map.entries generalizing map with
  | nil => exact (Option.or_none).symm
  | cons entry rest ih =>
    obtain ⟨other, type⟩ := entry
    rw [List.foldl_cons, ih, Table.findIn]
    by_cases hv : other = var
    · subst hv
      cases hf : map.find? other <;> simp [hf]
    · have hne : var ≠ other := Ne.symm hv
      by_cases hso : (map.find? other).isSome <;> simp [hso, hv, hne]

def terms (s : Substitution) (w : World) (var : TypeId) : Term :=
  ((s.get? var).map w.term).getD (.atom var 0)

structure Maps (s : Substitution) (w : World) (id result : TypeId) (u : World) : Prop where
  knows : u.Knows result
  term : u.term result = (w.term id).subst (s.terms w)
  throughout : ∀ good, TypeInfo.IsLoose good → w.Throughout good id →
    (∀ var type, s.get? var = some type → w.Throughout good type) → u.Throughout good result

end Substitution

namespace Substitution.Maps

variable {s : Substitution} {w u v : World} {id res : TypeId} {list results : List TypeId}

theorem solid (h : s.Maps w id res u) :
    w.Solid id → (∀ var type, s.get? var = some type → w.Solid type) → u.Solid res :=
  h.throughout _ isLoose_solid

theorem onward (hu : w.Onward u) (huv : u.Onward v) (h : s.Maps w id res u) : s.Maps w id res v where
  knows := huv.keeps.knows h.knows
  term := (huv.term hu.sound hu.formed h.knows).trans h.term
  throughout good hg hid hi := huv.throughout hu.sound hg h.knows (h.throughout good hg hid hi)

theorem terms (h : list.Forall₂ (s.Maps w · · u) results) :
    results.map u.term = list.map fun id => (w.term id).subst (s.terms w) := by
  induction h with
  | nil => rfl
  | cons hf _ ih => rw [List.map_cons, List.map_cons, hf.term, ih]

theorem of_parts (hw : w.Formed) (hu : u.Formed) (hid : (w.type id).symbol? = some name)
    (hr : (u.type res).symbol? = some name)
    (hpar : (w.type id).parts.Forall₂ (s.Maps w · · u) (u.type res).parts) : s.Maps w id res u where
  knows := lt_size_of_type_ne fun hv => by
    rw [hv] at hr
    cases hr
  term := by
    rw [hu.term_symbol hr, terms hpar, hw.term_symbol hid, subst_apply, List.map_map]
    rfl
  throughout good hg hid hi := by
    refine throughout_iff.2 ⟨hg _ ?_, fun part hp => ?_⟩
    · cases ht : u.type res <;> first | rfl | (rw [ht] at hr; cases hr)
    · obtain ⟨old, ho, hm⟩ := exists_of_mem_forall₂ hpar hp
      exact hm.throughout good hg ((throughout_iff.1 hid).2 old ho) hi

theorem of_get?_none (hr : u.Knows res) (ha : (u.type res).isAtomic)
    (hte : w.term id = .atom res 0) (hg : s.get? res = none) : s.Maps w id res u where
  knows := hr
  term := by
    rw [term_atomic ha, hte, subst, Substitution.terms, hg]
    exact raise_zero.symm
  throughout _ hgo _ _ := by
    refine throughout_iff.2 ⟨hgo _ ?_, fun part hp => ?_⟩
    · cases ht : u.type res <;> first | rfl | (rw [ht] at ha; cases ha)
    · rw [parts_of_isAtomic ha] at hp
      cases hp

theorem of_get? (hw : w.Sound) (hfo : w.Formed) (hu : w.Onward u) (hs : s.Known w)
    (ht : w.term id = .atom id 0) (hg : s.get? id = some res) : s.Maps w id res u where
  knows := hu.keeps.knows (hs.get? hg)
  term := by
    rw [hu.term hw hfo (hs.get? hg), ht, subst, raise_zero, Substitution.terms, hg]
    rfl
  throughout _ hgo _ hi := hu.throughout hw hgo (hs.get? hg) (hi id res hg)

theorem of_placeholder (hw : w.Sound) (hu : w.Onward u) (hg : s.get? res = none) {name : QName}
    (ht : w.type id = .placeholder name (some res)) : s.Maps w id res u := by
  have hp := hw.registered.type_target ht
  have hk : u.Knows res := hu.keeps.knows <| World.lt_size_of_type_ne fun hv => by
    obtain ⟨_, h⟩ | ⟨_, _, _, h⟩ := hp <;> rw [hv] at h <;> cases h
  have hl : u.type id = .placeholder name (some res) :=
    (hu.keeps.type_eq (World.lt_size_of_type_ne (by rw [ht]; nofun)) (by rw [World.class?, ht]; rfl)).trans ht
  refine .of_get?_none hk ?_ (World.term_placeholder ht) hg
  obtain ⟨_, h⟩ | ⟨_, _, _, h⟩ := hu.sound.registered.type_target hl <;> rw [h] <;> rfl

end Substitution.Maps

namespace Query

variable {w : World} {d : Demand} {s : Substitution} {fuel : Nat}

section

variable {u : World} {id : TypeId} {f : TypeId → Query TypeId} (hw : w.Sound) (hfo : w.Formed)
  (hu : w.Onward u) (hid : w.Knows id)

include hfo hu hid

theorem rebuilt_delivers {x : World} (hux : u.Onward x) (hna : (w.type id).symbol? = some name)
    {new : TypeInfo} (hn : new.symbol? = some name)
    (hf : (w.type id).parts.Forall₂ (s.Maps w · · x) new.parts) {p : Prop} [Decidable p]
    (hk : p → w.type id = new) {make : Edit TypeId} [make.Orderly] (hke : x.Keeps (make x).2)
    (hma : (∀ part ∈ new.parts, x.Knows part) → (make x).2.type (make x).1 = new) :
    Delivers (if p then return id else make) d x fun res v => x.Onward v ∧ s.Maps w id res v := by
  have hm : ∀ {res y}, x.Onward y → y.type res = new → s.Maps w id res y := by
    intro res y hxy hr
    refine .of_parts hfo hxy.formed hna (by rw [hr, hn]) ?_
    rw [hr]
    exact hf.imp fun _ _ => .onward (hu.trans hux) hxy
  refine .ite (fun hp => .pure ?_) fun _ => .lift ?_
  · have hre : x.Onward x := .refl hux.sound hux.formed
    have hc : w.class? id = none := by
      rw [World.class?]
      cases ht : w.type id <;> first | rfl | (rw [ht] at hna; cases hna)
    exact ⟨hre, hm hre (((hu.trans hux).keeps.type_eq hid hc).trans (hk hp))⟩
  · have he : x.Onward (make x).2 := .of_edit make hke hux.sound hux.formed
    refine ⟨he, hm he (hma fun part hpa => ?_)⟩
    obtain ⟨_, -, hm⟩ := exists_of_mem_forall₂ hf hpa
    exact hm.knows

variable (hpar : ∀ part ∈ (w.type id).parts, ∀ v, u.Onward v →
  (f part).Delivers d v fun res x => v.Onward x ∧ s.Maps w part res x)

include hpar

theorem array_delivers {dims : UInt32} (ht : w.type id = .array leaf dims) : Delivers (do
      let newLeaf ← f leaf
      if newLeaf = leaf then return id else arrayType newLeaf dims) d u
      fun res v => u.Onward v ∧ s.Maps w id res v := by
  have hl : leaf ∈ (w.type id).parts := by simp [ht]
  have hsa : u.type id = .array leaf dims := (hu.keeps.type_eq hid (by rw [World.class?, ht]; rfl)).trans ht
  refine .bind (hpar leaf hl u (.refl hu.sound hu.formed)) ?_
  rintro newLeaf v ⟨huv, hm⟩
  have hte : (v.term newLeaf).raise dims = (w.term id).subst (s.terms w) := by
    rw [hm.term, hfo.term_array ht, subst_raise]
  have hin : ∀ good, TypeInfo.IsLoose good → w.Throughout good id →
      (∀ var type, s.get? var = some type → w.Throughout good type) → v.Throughout good newLeaf :=
    fun good hg hid => hm.throughout good hg ((World.throughout_iff.1 hid).2 leaf hl)
  refine .ite (fun hk => .pure ⟨huv, ?_⟩) fun _ => ?_
  · have ht' : v.type id = .array leaf dims :=
      (huv.keeps.type_eq (hu.keeps.knows hid) (by rw [World.class?, hsa]; rfl)).trans hsa
    refine ⟨huv.keeps.knows (hu.keeps.knows hid), ?_, fun good hg hid hi => ?_⟩
    · rw [huv.formed.term_array ht', ← hk, hte]
    refine World.throughout_iff.2 ⟨hg _ (by rw [ht']; rfl), fun part hp => ?_⟩
    rw [ht', parts, List.mem_singleton] at hp
    rw [hp, ← hk]
    exact hin good hg hid hi
  · refine (arrayType_delivers huv.sound huv.formed hm.knows dims).mono ?_
    rintro res x ⟨hvx, hkn, hr, hin'⟩
    exact ⟨huv.trans hvx, hkn, hr.trans hte, fun good hg hid hi => hin' good hg (hin good hg hid hi)⟩

include hw

theorem parameterized_delivers {gen : TypeId} {args : List TypeId} {encl : Option TypeId}
    (ht : w.type id = .parameterized gen args encl) :
    Delivers (do
      let newArguments ← args.mapM f
      let newEnclosing ← encl.mapM f
      if newArguments = args ∧ newEnclosing = encl then return id
      else parameterizedType gen newArguments newEnclosing) d u
      fun res v => u.Onward v ∧ s.Maps w id res v := by
  have hm : ∀ {part}, part ∈ (w.type id).parts ↔ part ∈ args ∨ part ∈ encl := by simp [ht]
  refine .bind (.mapM (s.Maps w) (fun v hv => .refl hv.sound hv.formed) .trans
    (fun huv hvx => Substitution.Maps.onward (hu.trans huv) hvx) (.refl hu.sound hu.formed)
    fun part hp => hpar part (hm.2 (.inl hp))) ?_
  rintro newArguments v ⟨huv, ha⟩
  refine .bind (.optionMapM (s.Maps w) (.refl huv.sound huv.formed) fun part hp => hpar part (hm.2 (.inr hp)) v huv) ?_
  rintro newEnclosing x ⟨hvx, he, hso⟩
  have hux := huv.trans hvx
  have ha : args.Forall₂ (s.Maps w · · x) newArguments := ha.imp fun _ _ => .onward (hu.trans huv) hvx
  have hf : (w.type id).parts.Forall₂ (s.Maps w · · x) (newArguments ++ newEnclosing.toList) := by
    rw [ht]
    exact List.rel_append ha he
  have hg : x.Knows gen := (hu.trans hux).keeps.knows <| hw.wellBuilt.known id gen (by simp [ht])
  have hn : (parameterized gen newArguments newEnclosing).symbol? =
      some (.parameterized gen encl.isSome) := by rw [symbol?, hso]
  refine (rebuilt_delivers hfo hu hid hux (congrArg symbol? ht) hn hf
    (fun hk => by rw [ht, hk.1, hk.2]) (Furthering.parameterizedType_keeps hux.sound _)
    (parameterizedType_type hux.sound hg)).mono ?_
  exact fun res y h => ⟨hux.trans h.1, h.2⟩

theorem wildcard_delivers (ht : w.type id = .wildcard info) : Delivers (do
      let bound ← info.bound.mapM f
      let otherBounds ← info.otherBounds.mapM f
      if bound = info.bound ∧ otherBounds = info.otherBounds then return id
      else wildcard info.generic info.rank bound otherBounds info.kind) d u
      fun result v => u.Onward v ∧ s.Maps w id result v := by
  have hm : ∀ {part}, part ∈ (w.type id).parts ↔ part ∈ info.bound ∨ part ∈ info.otherBounds := by simp [ht]
  have hr : u.Onward u := .refl hu.sound hu.formed
  refine .bind (.optionMapM (s.Maps w) hr fun part hp => hpar part (hm.2 (.inl hp)) u hr) ?_
  rintro bound v ⟨huv, hb, hso⟩
  refine .bind (.mapM (s.Maps w) (fun v hv => .refl hv.sound hv.formed) .trans
    (fun huv hvx => Substitution.Maps.onward (hu.trans huv) hvx) huv
    fun part hp => hpar part (hm.2 (.inr hp))) ?_
  rintro otherBounds x ⟨hvx, ho⟩
  have hux := huv.trans hvx
  have hb : info.bound.toList.Forall₂ (s.Maps w · · x) bound.toList := hb.imp fun _ _ => .onward (hu.trans huv) hvx
  have hf : (w.type id).parts.Forall₂ (s.Maps w · · x) (bound.toList ++ otherBounds) := by
    rw [ht]
    exact List.rel_append hb ho
  have hg : ∀ generic ∈ info.generic, x.Knows generic := fun generic hg =>
    (hu.trans hux).keeps.knows <| hw.wellBuilt.known id generic (by simp_all)
  have hno : info.kind = .unbounded → bound = none := by
    have hno := hfo.normal id
    rw [ht] at hno
    intro hki
    rwa [hno hki, Option.isSome_none, Option.isSome_eq_false_iff, Option.isNone_iff_eq_none] at hso
  let new : WildcardInfo := { info with bound, otherBounds }
  have hmak : (∀ part ∈ (wildcard new).parts, x.Knows part) →
      (wildcard info.generic info.rank bound otherBounds info.kind x).2.type
        (wildcard info.generic info.rank bound otherBounds info.kind x).1 = .wildcard new :=
    wildcard_type hux.sound hno hg
  have hn : (wildcard new).symbol? =
      some (.wildcard info.generic info.rank info.kind info.bound.isSome) := by rw [symbol?, hso]
  refine (rebuilt_delivers hfo hu hid hux (congrArg symbol? ht) hn hf
    (fun hk => by simp only [ht, new, hk.1, hk.2]) (Furthering.furthers x hux.sound).toKeeps hmak).mono ?_
  exact fun result y h => ⟨hux.trans h.1, h.2⟩

end

section

variable (hw : w.Sound) (hfo : w.Formed) (hs : s.Known w) (hra : s.raw = false)
  (hva : ∀ var type, s.get? var = some type → w.IsVariable var) {id : TypeId} {u : World}

include hw hfo hs hra hva

theorem substituteFrom_delivers (hid : w.Knows id) (hl : w.Loaded id) (hf : (w.term id).cost < fuel) (hu : w.Onward u) :
    (substituteFrom s fuel id).Delivers d u fun result v => u.Onward v ∧ s.Maps w id result v := by
  refine hfo.induction (motive := fun id => ∀ fuel u, w.Knows id → w.Loaded id → (w.term id).cost < fuel →
    w.Onward u → (substituteFrom s fuel id).Delivers d u fun result v => u.Onward v ∧ s.Maps w id result v)
    ?_ id fuel u hid hl hf hu
  intro id ih fuel u hid hl hf hu
  obtain ⟨fuel, rfl⟩ := Nat.exists_eq_succ_of_ne_zero (Nat.ne_zero_of_lt hf)
  obtain ⟨hp, hl'⟩ := World.throughout_iff.1 hl
  have hpar : ∀ part ∈ (w.type id).parts, ∀ v, u.Onward v →
      (substituteFrom s fuel part).Delivers d v fun result x => v.Onward x ∧ s.Maps w part result x := by
    intro part hpa v huv
    have hlt := hfo.cost_lt hw.wellBuilt hpa
    exact ih part hpa fuel v (hw.wellBuilt.known id part (parts_subset_components hpa))
      (hl' part hpa) (by omega) (hu.trans huv)
  have hr : u.Onward u := .refl hu.sound hu.formed
  have hno : ∀ other, ¬ w.IsVariable other → s.get? other = none := fun other hnot =>
    Option.eq_none_iff_forall_ne_some.2 fun type hg => hnot (hva other type hg)
  rw [substituteFrom]
  refine .step (resolved_eq_follow d (World.throughout_iff.1 (hu.loaded hw hid hl)).1) (.get ?_)
  -- A class may have been read further in between. Any other type is as it was.
  have hsa : w.class? id = none → u.type id = w.type id := hu.keeps.type_eq hid
  rw [World.class?] at hsa
  cases ht : w.type id with
  | array leaf dims =>
    rw [ht] at hsa
    rw [World.follow_of_not_placeholder (by rw [hsa rfl]; rfl), hsa rfl]
    exact array_delivers hfo hu hid hpar ht
  | parameterized gen args encl =>
    rw [ht] at hsa
    rw [World.follow_of_not_placeholder (by rw [hsa rfl]; rfl), hsa rfl, hra]
    exact parameterized_delivers hw hfo hu hid hpar ht
  | wildcard info =>
    rw [ht] at hsa
    rw [World.follow_of_not_placeholder (by rw [hsa rfl]; rfl), hsa rfl]
    exact wildcard_delivers hw hfo hu hid hpar ht
  | «variable» info =>
    rw [ht] at hsa
    rw [World.follow_of_not_placeholder (by rw [hsa rfl]; rfl), hsa rfl]
    have ha : w.term id = .atom id 0 := World.term_atomic (by rw [ht]; rfl)
    dsimp only
    split
    · next replacement hg => exact .pure ⟨hr, .of_get? hw hfo hu hs ha hg⟩
    rename_i hg
    rw [hra]
    exact .pure ⟨hr, .of_get?_none (hu.keeps.knows hid) (by rw [hsa rfl]; rfl) ha hg⟩
  | placeholder name tgt =>
    rw [ht] at hsa hp
    cases tgt with
    | none => cases hp
    | some tgt =>
      have hm : s.Maps w id tgt u := .of_placeholder hw hu (hno tgt (hw.registered.not_isVariable_target ht)) ht
      rw [World.follow, hsa rfl]
      obtain ⟨_, h⟩ | ⟨_, _, _, h⟩ := hu.sound.registered.type_target (hsa rfl) <;> simp only [h] <;>
        exact .pure ⟨hr, hm⟩
  | declared old =>
    obtain ⟨new, hn, -⟩ := hu.keeps.class? (World.class?_eq_some.2 ht)
    rw [World.class?_eq_some] at hn
    rw [World.follow_of_not_placeholder (by rw [hn]; rfl), hn]
    exact .pure ⟨hr, .of_get?_none (hu.keeps.knows hid) (by rw [hn]; rfl)
      (World.term_atomic (by rw [ht]; rfl)) (hno id (by simp [World.IsVariable, ht, sort]))⟩
  | base | raw | capture | missing =>
    rw [ht] at hsa
    rw [World.follow_of_not_placeholder (by rw [hsa rfl]; rfl), hsa rfl]
    exact .pure ⟨hr, .of_get?_none (hu.keeps.knows hid) (by rw [hsa rfl]; rfl)
      (World.term_atomic (by rw [ht]; rfl)) (hno id (by simp [World.IsVariable, ht, sort]))⟩

theorem substitute_delivers (hid : w.Knows id) (hl : w.Loaded id) (hf : (w.term id).cost < d.fuel) (hu : w.Onward u) :
    (substitute s id).Delivers d u fun res v => u.Onward v ∧ s.Maps w id res v := by
  rw [substitute]
  refine .ite (fun he => ?_) fun _ => .fuel ?_
  · have ht : ∀ var, s.terms w var = .atom var 0 := fun var => by
      rw [Substitution.terms, Substitution.get?_of_isEmpty he]
      rfl
    refine .pure ⟨.refl hu.sound hu.formed, hu.keeps.knows hid, ?_, fun _ hg hgo _ => hu.throughout hw hg hid hgo⟩
    rw [hu.term hw hfo hid]
    have hn : ∀ var, s.terms w var = .atom var 0 ↔ var ∉ [] := by simp [ht]
    exact ((subst_eq_self_iff hn).2 (mentions_nil _)).symm
  · exact substituteFrom_delivers hw hfo hs hra hva hid hl hf hu

end

theorem mapM_self {f : TypeId → Query TypeId} {list : List TypeId} (h : ∀ id ∈ list, f id d w = (.ok id, w)) :
    list.mapM f d w = (.ok list, w) := by
  rw [mapM_still id h, List.map_id]

theorem optionMapM_self {f : TypeId → Query TypeId} {option : Option TypeId}
    (h : ∀ id ∈ option, f id d w = (.ok id, w)) : option.mapM f d w = (.ok option, w) := by
  rw [optionMapM_still id h, Option.map_id, id]

theorem substituteFrom_untouched (hb : w.WellBuilt) (hfo : w.Formed) (hra : s.raw = false)
    {vars : List TypeId} (hva : ∀ var, var ∉ vars → s.get? var = none) {id : TypeId} (hso : w.Solid id)
    (hn : (w.term id).mentions vars = false) (hf : (w.term id).cost < fuel) :
    substituteFrom s fuel id d w = (.ok id, w) := by
  refine hfo.induction (motive := fun id => ∀ fuel, w.Solid id → (w.term id).mentions vars = false →
    (w.term id).cost < fuel → substituteFrom s fuel id d w = (.ok id, w)) ?_ id fuel hso hn hf
  intro id ih fuel hso hn hf
  obtain ⟨fuel, rfl⟩ := Nat.exists_eq_succ_of_ne_zero (Nat.ne_zero_of_lt hf)
  obtain ⟨hpl, hi⟩ := throughout_iff.1 hso
  have hpar : (∀ part ∈ (w.type id).parts, (w.term part).mentions vars = false) →
      ∀ part ∈ (w.type id).parts, substituteFrom s fuel part d w = (.ok part, w) := by
    intro hn part hpa
    have hlt := hfo.cost_lt hb hpa
    exact ih part hpa fuel (hi part hpa) (hn part hpa) (by omega)
  have hp : w.isPending id = false := isPending_of_isPlaceholder hpl
  rw [substituteFrom, bind_ok d w (resolved_eq_follow d hp), follow_of_not_placeholder hpl, get_bind_apply]
  cases ht : w.type id with
  | array leaf dims =>
    have hl : substituteFrom s fuel leaf d w = (.ok leaf, w) := by
      refine hpar (fun part hpa => ?_) leaf (by simp [ht])
      rw [ht, parts, List.mem_singleton] at hpa
      rwa [hpa, ← mentions_raise vars dims, ← hfo.term_array ht]
    dsimp only
    rw [bind_ok d w hl, if_pos rfl]
    rfl
  | parameterized gen args encl =>
    have hse := hpar fun _ => hfo.mentions_part (congrArg symbol? ht) hn
    simp only [ht, parts, List.mem_append, Option.mem_toList] at hse
    dsimp only
    rw [hra, if_neg Bool.false_ne_true, bind_ok d w (mapM_self fun part hpa => hse part (.inl hpa)),
      bind_ok d w (optionMapM_self fun part hpa => hse part (.inr hpa)), if_pos ⟨rfl, rfl⟩]
    rfl
  | wildcard info =>
    have hse := hpar fun _ => hfo.mentions_part (congrArg symbol? ht) hn
    simp only [ht, parts, List.mem_append, Option.mem_toList] at hse
    dsimp only
    rw [bind_ok d w (optionMapM_self fun part hpa => hse part (.inl hpa)),
      bind_ok d w (mapM_self fun part hpa => hse part (.inr hpa)), if_pos ⟨rfl, rfl⟩]
    rfl
  | «variable» info =>
    rw [term_atomic (by rw [ht]; rfl), Term.mentions, List.contains_eq_mem, decide_eq_false_iff_not] at hn
    dsimp only
    rw [hva id hn, hra]
    rfl
  | placeholder => rw [ht] at hpl; cases hpl
  | _ => rfl

end Query

end Bindings
