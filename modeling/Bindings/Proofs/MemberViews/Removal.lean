import Bindings.Proofs.Substitution

/-! # Substitutions that remove variables -/

open Relation

namespace Bindings

open TypeInfo World

namespace World

variable {w u v : World} {touched vars : List TypeId} {id : TypeId}

structure Along (touched : List TypeId) (w u : World) : Prop where
  size : w.types.size ≤ u.types.size
  type : ∀ id, w.Knows id →
    (w.type id).ReadTo (u.type id) ∨ id ∈ touched ∧ w.IsVariable id ∧ u.IsVariable id
  method : ∀ id info, w.method? id = some info → u.method? id = some info
  object : u.object = w.object
  sound : u.Sound
  formed : u.Formed

theorem Onward.along (h : w.Onward u) (touched : List TypeId) : Along touched w u where
  size := h.keeps.grows.size
  type id hid := .inl (h.keeps.type id hid)
  method id info hi := by rwa [method?, h.keeps.same]
  object := h.keeps.object
  sound := h.sound
  formed := h.formed

namespace Along

theorem knows (h : Along touched w u) (hid : w.Knows id) : u.Knows id := Nat.lt_of_lt_of_le hid h.size

theorem readTo_variable {info new : TypeInfo} (h : info.ReadTo new)
    (hv : info.sort = .typeVariable ∨ new.sort = .typeVariable) : new = info := by
  cases h with
  | refl => rfl
  | declared => rcases hv with hv | hv <;> cases hv

theorem isVariable (h : Along touched w u) (hid : w.IsVariable id) : u.IsVariable id := by
  obtain hr | ⟨-, -, hv⟩ := h.type id hid.lt_size
  · rw [IsVariable, readTo_variable hr (.inl hid)]
    exact hid
  · exact hv

theorem trans (h1 : Along touched w u) (h2 : Along touched u v) : Along touched w v where
  size := Nat.le_trans h1.size h2.size
  type id hid := by
    obtain hr | ⟨hm, hv, hv'⟩ := h1.type id hid
    · obtain hr' | ⟨hm, hv, hv'⟩ := h2.type id (h1.knows hid)
      · exact .inl (hr.trans hr')
      · refine .inr ⟨hm, ?_, hv'⟩
        rw [IsVariable, ← readTo_variable hr (.inr hv)]
        exact hv
    · exact .inr ⟨hm, hv, h2.isVariable hv'⟩
  method id info hi := h2.method id info (h1.method id info hi)
  object := h2.object.trans h1.object
  sound := h2.sound
  formed := h2.formed

section

variable (h : Along touched w u)

include h

theorem mono {more : List TypeId} (hsu : touched ⊆ more) : Along more w u :=
  { h with type := fun id hid => (h.type id hid).imp_right fun ⟨hm, hv⟩ => ⟨hsu hm, hv⟩ }

theorem untouched (hn : ∀ id ∈ touched, ¬ w.Knows id) : Along [] w u :=
  { h with type := fun id hid => .inl ((h.type id hid).resolve_right fun ⟨hm, _⟩ => hn id hm hid) }

theorem respells : w.Respells u where
  size := h.size
  type id hid := by
    obtain hr | ⟨-, hv, hv'⟩ := h.type id hid
    · generalize w.type id = old at hr ⊢
      generalize u.type id = new at hr ⊢
      cases hr with
      | refl => exact .inl rfl
      | declared => exact .inr ⟨rfl, rfl⟩
    obtain ⟨_, ho⟩ := isVariable_iff.1 hv
    obtain ⟨_, hn⟩ := isVariable_iff.1 hv'
    exact .inr ⟨by rw [ho]; rfl, by rw [hn]; rfl⟩

theorem type_variable (hid : w.IsVariable id) (hn : id ∉ touched) : u.type id = w.type id :=
  readTo_variable ((h.type id hid.lt_size).resolve_right fun ⟨hm, _⟩ => hn hm) (.inl hid)

theorem term (hw : w.Sound) (hfor : w.Formed) (hid : w.Knows id) : u.term id = w.term id :=
  h.respells.term hfor hw.wellBuilt h.formed hid

theorem loaded (hw : w.Sound) (hid : w.Knows id) (hl : w.Loaded id) : u.Loaded id :=
  h.respells.throughout hw.wellBuilt (fun info hi => by cases info <;> first | rfl | cases hi) hid hl

end

end Along

structure Free (w : World) (vars : List TypeId) (id : TypeId) : Prop where
  knows : w.Knows id
  mentions : (w.term id).mentions vars = false

theorem Free.along (h : w.Free vars id) (hw : w.Sound) (hfor : w.Formed) (hu : Along touched w u) :
    u.Free vars id :=
  ⟨hu.knows h.knows, by rw [hu.term hw hfor h.knows, h.mentions]⟩

def BoundsFree (w : World) (vars : List TypeId) (var : TypeId) : Prop :=
  ∀ bound ∈ (w.type var).slots, w.Free vars bound

theorem BoundsFree.along (h : w.BoundsFree vars id) (hw : w.Sound) (hfor : w.Formed) (hid : w.IsVariable id)
    (hu : Along touched w u) (ht : ∀ new ∈ touched, u.BoundsFree vars new) : u.BoundsFree vars id := by
  by_cases hm : id ∈ touched
  · exact ht id hm
  intro bound hb
  rw [hu.type_variable hid hm] at hb
  exact (h bound hb).along hw hfor hu

structure Tractable (w : World) (budget : Nat) (id : TypeId) : Prop where
  knows : w.Knows id
  loaded : w.Loaded id
  cost : (w.term id).cost < budget

theorem Tractable.along {budget : Nat} (h : w.Tractable budget id) (hw : w.Sound) (hfor : w.Formed)
    (hu : Along touched w u) : u.Tractable budget id :=
  ⟨hu.knows h.knows, hu.loaded hw h.knows h.loaded, by rw [hu.term hw hfor h.knows]; exact h.cost⟩

end World

namespace Substitution

variable {s : Substitution} {pairs : List (TypeId × TypeId)} {var type : TypeId}

theorem raw_insertAll : (pairs.foldl (fun s (var, type) => s.insert var type) s).raw = s.raw := by
  induction pairs generalizing s with
  | nil => rfl
  | cons _ _ ih => exact ih

theorem orElse_empty : s.orElse {} = s := by
  rw [orElse, Bool.or_false]
  rfl

theorem get?_insertAll (h : (pairs.foldl (fun s (var, type) => s.insert var type) s).get? var = some type) :
    (var, type) ∈ pairs ∨ s.get? var = some type := by
  induction pairs generalizing s with
  | nil => exact .inr h
  | cons pair rest ih =>
    obtain hm | hg := ih h
    · exact .inl (.tail _ hm)
    have hi : (if var = pair.1 then some pair.2 else s.get? var) = some type :=
      (Table.find?_insert s.map pair.1 var pair.2).symm.trans hg
    split at hi
    · next heq =>
      cases hi
      exact .inl (heq ▸ .head _)
    · exact .inr hi

theorem isSome_insertAll : ((pairs.foldl (fun s (var, type) => s.insert var type) s).get? var).isSome ↔
    var ∈ pairs.map Prod.fst ∨ (s.get? var).isSome := by
  induction pairs generalizing s with
  | nil => simp
  | cons pair rest ih =>
    have hi : (s.insert pair.1 pair.2).get? var = if var = pair.1 then some pair.2 else s.get? var :=
      Table.find?_insert s.map pair.1 var pair.2
    rw [List.foldl_cons, ih, hi, List.map_cons, List.mem_cons]
    split
    · next heq => simp [heq]
    · next hne => simp [hne]

end Substitution

structure Substitution.Removes (s : Substitution) (vars : List TypeId) (w : World) : Prop where
  raw : s.raw = false
  known : s.Known w
  isVariable : ∀ var type, s.get? var = some type → w.IsVariable var
  free : ∀ var type, s.get? var = some type → (w.term type).mentions vars = false
  covers : ∀ var ∈ vars, (s.get? var).isSome

namespace Substitution.Removes

variable {w u : World} {s : Substitution} {vars touched : List TypeId}

theorem along (h : s.Removes vars w) (hw : w.Sound) (hfor : w.Formed) (hu : Along touched w u) : s.Removes vars u where
  raw := h.raw
  known entry he := hu.knows (h.known entry he)
  isVariable var type hg := hu.isVariable (h.isVariable var type hg)
  free var type hg := by rw [hu.term hw hfor (h.known.get? hg), h.free var type hg]
  covers := h.covers

theorem terms (h : s.Removes vars w) (var : TypeId) : (s.terms w var).mentions vars = false := by
  rw [Substitution.terms]
  cases hg : s.get? var with
  | some type => exact h.free var type hg
  | none =>
    have hn : var ∉ vars := fun hm => by
      have := h.covers var hm
      rw [hg] at this
      cases this
    simpa [Term.mentions] using hn

theorem insertAll (h : s.Removes vars w) {pairs : List (TypeId × TypeId)}
    (hpa : ∀ pair ∈ pairs, w.IsVariable pair.1 ∧ w.Free vars pair.2) :
    (pairs.foldl (fun s (var, type) => s.insert var type) s).Removes vars w where
  raw := raw_insertAll.trans h.raw
  known := h.known.insertAll fun pair hp => (hpa pair hp).2.knows
  isVariable var type hg := by
    obtain hm | hg := get?_insertAll hg
    · exact (hpa _ hm).1
    · exact h.isVariable var type hg
  free var type hg := by
    obtain hm | hg := get?_insertAll hg
    · exact (hpa _ hm).2.mentions
    · exact h.free var type hg
  covers var hv := isSome_insertAll.2 (.inr (h.covers var hv))

end Substitution.Removes

namespace Query

variable {w u : World} {d : Demand} {s : Substitution} {vars touched : List TypeId}

section

variable (hw : w.Sound) (hfor : w.Formed) (hu : Along touched w u) (hs : s.Removes vars u)

include hw hfor hu hs

theorem substitute_removes {id : TypeId} (hid : w.Tractable d.fuel id) :
    (substitute s id).Delivers d u fun res v => u.Onward v ∧ v.Free vars res := by
  obtain ⟨hk, hl, hc⟩ := hid.along hw hfor hu
  refine (substitute_delivers hu.sound hu.formed hs.known hs.raw hs.isVariable hk hl hc
    (.refl hu.sound hu.formed)).mono ?_
  rintro res v ⟨huv, hm⟩
  exact ⟨huv, hm.knows, by rw [hm.term, Term.mentions_subst hs.terms]⟩

theorem substituteAll_removes {list : List TypeId} (hl : ∀ id ∈ list, w.Tractable d.fuel id) :
    (list.mapM (substitute s)).Delivers d u fun results v => u.Onward v ∧ results.length = list.length ∧
      ∀ res ∈ results, v.Free vars res := by
  let good (_ res : TypeId) (v : World) : Prop := v.Free vars res
  have hre : u.Onward u := .refl hu.sound hu.formed
  refine (Delivers.mapM good (fun v hv => .refl hv.sound hv.formed) .trans
    (fun huv hvx hf => hf.along huv.sound huv.formed (hvx.along [])) hre
    fun id hid v huv => ?_).mono ?_
  · have hv := huv.along touched
    exact substitute_removes hw hfor (hu.trans hv) (hs.along hu.sound hu.formed hv) (hl id hid)
  rintro results v ⟨huv, hfo⟩
  refine ⟨huv, hfo.length_eq.symm, fun res hr => ?_⟩
  obtain ⟨_, -, hf⟩ := exists_of_mem_forall₂ hfo hr
  exact hf

end

end Query

namespace World

def EnclosedBy (w : World) (inner outer : TypeId) : Prop :=
  ∃ generic arguments stored, w.type inner = .parameterized generic arguments (some stored) ∧
    w.follow stored = outer

def NoRaw (w : World) (id : TypeId) : Prop :=
  ∀ outer, ReflTransGen w.EnclosedBy id outer → ∀ generic enclosing, w.type outer ≠ .raw generic enclosing

end World

structure Substitution.Arises (s : Substitution) (w : World) (receiver : TypeId) : Prop where
  raw : w.NoRaw (w.follow receiver) → s.raw = false
  known : s.Known w
  isVariable : ∀ var type, s.get? var = some type → w.IsVariable var
  within : ∀ var type, s.get? var = some type → w.Contains receiver type
  covers : ∀ generic arguments enclosing info, w.type receiver = .parameterized generic arguments enclosing →
    w.class? generic = some info → arguments.length = info.typeVariables.length →
    ∀ var ∈ info.typeVariables, (s.get? var).isSome

namespace Query

variable {w : World} {d : Demand} {args arguments : List TypeId} {encl enclosing : Option TypeId}
  {gen generic recv receiver : TypeId}

theorem ofPairs_arises (hw : w.Sound) (hfor : w.Formed) {id : TypeId}
    (ht : w.type id = .parameterized generic arguments enclosing)
    {outer : Substitution} (hr : w.NoRaw (w.follow id) → outer.raw = false) (hk : outer.Known w)
    (hva : ∀ var type, outer.get? var = some type → w.IsVariable var)
    (hwi : ∀ var type, outer.get? var = some type → w.Contains id type) :
    ((Substitution.ofPairs (((w.class? generic).map (·.typeVariables)).getD []) arguments).orElse outer).Arises
      w id := by
  have hp : ∀ arg ∈ arguments, arg ∈ (w.type id).parts := fun arg hm => by
    simp [ht, hm]
  have hkn : ∀ arg ∈ arguments, w.Knows arg := fun arg hm =>
    hw.wellBuilt.known id arg (parts_subset_components (hp arg hm))
  have hg : ∀ {vars var type}, (Substitution.ofPairs vars arguments).get? var = some type →
      var ∈ vars ∧ type ∈ arguments := fun h =>
    List.of_mem_zip ((Substitution.get?_insertAll h).resolve_right (by rintro ⟨⟩))
  refine ⟨fun hn => ?_, .orElse (.ofPairs _ hkn) hk, fun var type h => ?_, fun var type h => ?_, ?_⟩
  · rw [Substitution.orElse, hr hn, Bool.or_false]
    exact Substitution.raw_insertAll
  · rw [Substitution.get?_orElse, Option.or_eq_some_iff] at h
    obtain h | ⟨-, h⟩ := h
    · have hm := (hg h).1
      cases hc : w.class? generic with
      | none =>
        rw [hc] at hm
        cases hm
      | some info =>
        rw [hc] at hm
        exact hfor.parameters generic info hc var hm
    · exact hva var type h
  · rw [Substitution.get?_orElse, Option.or_eq_some_iff] at h
    obtain h | ⟨-, h⟩ := h
    · exact .single (hp type (hg h).2)
    · exact hwi var type h
  · intro generic' arguments' enclosing' info ht' hi hl var hv
    cases ht.symm.trans ht'
    have hm : var ∈ (info.typeVariables.zip arguments).map Prod.fst := by rwa [List.map_fst_zip (by omega)]
    have hso := Substitution.isSome_insertAll (s := {}).2 (.inl hm)
    rw [hi, Substitution.get?_orElse, Option.isSome_or]
    exact Bool.or_eq_true_iff.2 (.inl hso)

theorem substitutionForFrom_arises (hw : w.Sound) (hfor : w.Formed) {fuel : Nat}
    (hl : w.Loaded receiver) (hf : (w.term receiver).cost < fuel) :
    ∃ s, substitutionForFrom fuel receiver d w = (.ok s, w) ∧ s.Arises w receiver := by
  refine hfor.induction (motive := fun id => ∀ fuel, w.Loaded id → (w.term id).cost < fuel →
    ∃ s, substitutionForFrom fuel id d w = (.ok s, w) ∧ s.Arises w id) ?_ receiver fuel hl hf
  intro id ih fuel hl hf
  obtain ⟨fuel, rfl⟩ := Nat.exists_eq_succ_of_ne_zero (Nat.ne_zero_of_lt hf)
  obtain ⟨hp, hi⟩ := throughout_iff.1 hl
  have he : (∀ generic arguments enclosing, w.type id ≠ .parameterized generic arguments enclosing) →
      ({} : Substitution).Arises w id := fun hno =>
    ⟨fun _ => rfl, by rintro _ ⟨⟩, by rintro _ _ ⟨⟩, by rintro _ _ ⟨⟩, fun _ _ _ _ ht => absurd ht (hno _ _ _)⟩
  rw [substitutionForFrom, bind_ok d w (resolved_eq_follow d hp), get_bind_apply]
  cases ht : w.type id with
  | placeholder name tgt =>
    cases tgt with
    | none =>
      rw [ht] at hp
      cases hp
    | some tgt =>
      -- What a placeholder stands for is not parameterized.
      refine ⟨{}, ?_, he (by simp [ht])⟩
      rw [follow, ht]
      obtain ⟨_, h⟩ | ⟨_, _, _, h⟩ := hw.registered.type_target ht <;> simp only [h] <;> rfl
  | parameterized generic arguments enclosing =>
    have hfo : w.follow id = id := World.follow_of_not_placeholder (by rw [ht]; rfl)
    rw [hfo, ht]
    cases enclosing with
    | none =>
      have hn : ({} : Substitution).Known w := by rintro _ ⟨⟩
      have ha := ofPairs_arises hw hfor ht (fun _ => rfl) hn (by rintro _ _ ⟨⟩) (by rintro _ _ ⟨⟩)
      rw [Substitution.orElse_empty] at ha
      exact ⟨_, rfl, ha⟩
    | some outer =>
      have hou : outer ∈ (w.type id).parts := by simp [ht]
      have hlt := hfor.cost_lt hw.wellBuilt hou
      obtain ⟨s, hr, hs⟩ := ih outer hou fuel (hi outer hou) (by omega)
      have hra : w.NoRaw (w.follow id) → s.raw = false := fun hn => hs.raw fun other ho =>
        hn other (.head (hfo.symm ▸ ⟨generic, arguments, outer, ht, rfl⟩) ho)
      refine ⟨_, ?_, ofPairs_arises hw hfor ht hra hs.known hs.isVariable fun var type hg =>
        .head hou (hs.within var type hg)⟩
      dsimp only
      rw [bind_ok d w hr]
      rfl
  | raw generic enclosing =>
    have hfo : w.follow id = id := World.follow_of_not_placeholder (by rw [ht]; rfl)
    refine ⟨{ raw := true }, ?_, fun hn => ?_, by rintro _ ⟨⟩, by rintro _ _ ⟨⟩, by rintro _ _ ⟨⟩,
      fun _ _ _ _ ht' => ?_⟩
    · rw [hfo, ht]
      rfl
    · rw [hfo] at hn
      exact absurd ht (hn id .refl generic enclosing)
    · cases ht.symm.trans ht'
  | _ =>
    refine ⟨{}, ?_, he (by simp [ht])⟩
    rw [follow_of_not_placeholder (by rw [ht]; rfl), ht]
    rfl

theorem substitutionFor_removes (hw : w.Sound) (hfor : w.Formed)
    (hre : w.type recv = .parameterized gen args encl) {info : ClassInfo}
    (hge : w.class? gen = some info) (hc : args.length = info.typeVariables.length)
    (hf : ∀ part ∈ args ++ encl.toList, w.mentions info.typeVariables part = false)
    (hra : w.NoRaw recv) (htr : w.Tractable d.fuel recv) :
    ∃ s, substitutionFor recv d w = (.ok s, w) ∧ s.Removes info.typeVariables w := by
  have hpl : (w.type recv).isPlaceholder = false := by rw [hre]; rfl
  obtain ⟨s, hr, hs⟩ := substitutionForFrom_arises hw hfor htr.loaded htr.cost
  have hra : w.NoRaw (w.follow recv) := by rwa [World.follow_of_not_placeholder hpl]
  have ht : (w.term recv).mentions info.typeVariables = false := by
    rw [hfor.term_symbol (congrArg symbol? hre), hre, Term.mentions_apply,
      Bool.or_eq_false_iff, List.any_map, List.any_eq_false]
    refine ⟨rfl, fun part hp => ne_true_of_eq_false ?_⟩
    have hm : part ∈ (w.type recv).parts := by rwa [hre]
    have hk := hw.wellBuilt.known recv part (parts_subset_components hm)
    exact (hfor.mentions_eq (hfor.parameters gen info hge) hw.registered hk).symm.trans (hf part hp)
  exact ⟨s, hr, hs.raw hra, hs.known, hs.isVariable, fun var type hg =>
    hfor.mentions_contains ht (hs.within var type hg),
    hs.covers gen args encl info hre hge hc⟩

end Query

end Bindings
