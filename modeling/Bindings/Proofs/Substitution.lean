import Bindings.Proofs.Reachable
import Bindings.Proofs.Terms.Substitution

/-!
# Substitution

Substitution touches exactly the types that mention a variable it replaces
(`Reachable.substitute_touches_mentioned`), and two substitutions are one (`Reachable.substitute_twice`).
-/

namespace Bindings

open Query

variable {var : TypeId}

namespace World

variable {w : World}

theorem Reachable.formed (h : w.Reachable) : w.Formed := h.fact formed_initial fun hr hc => hc.formed hr.sound

theorem Formed.eq_variable_of_term (hw : w.Formed) (hb : w.WellBuilt) (hr : w.Registered)
    {id : TypeId} (hv : w.IsVariable var) (h : w.term id = .atom var 0) : id = var :=
  hw.eq_of_term_eq_atom hb h fun _ ht => hr.not_isVariable_target ht hv

theorem Reachable.substitute_touches_mentioned (h : w.Reachable) {s : Substitution} (hs : s.Known w)
    (hraw : s.raw = false) (hvars : ∀ var ∈ s.domain, w.IsVariable var)
    (hmoves : ∀ var type, s.get? var = some type → type ≠ var) {id : TypeId} (hid : w.Knows id)
    (hsolid : w.Solid id) : ∃ budget, ∀ d : Demand, budget ≤ d.fuel →
      (w.mentions s.domain id = false → substitute s id d w = (.ok id, w)) ∧
      (w.mentions s.domain id = true →
        ∃ result w', substitute s id d w = (.ok result, w') ∧ result ≠ id) := by
  have hw := h.sound
  have hformed := h.formed
  have hmentions := hformed.mentions_eq hvars hw.registered hid
  have hdomain : ∀ var type, s.get? var = some type → w.IsVariable var := fun var type hget =>
    hvars var (Substitution.mem_domain_iff.2 ⟨type, hget⟩)
  refine ⟨(w.term id).cost + 1, fun d hfuel => ⟨fun hnot => ?_, fun hmentioned => ?_⟩⟩
  · have hnone : ∀ var, var ∉ s.domain → s.get? var = none := fun var hvar =>
      Option.eq_none_iff_forall_ne_some.2 fun type hget => hvar (Substitution.mem_domain_iff.2 ⟨type, hget⟩)
    rw [substitute]
    split
    · rfl
    · exact substituteFrom_untouched hw.wellBuilt hformed hraw hnone hsolid (hmentions ▸ hnot) hfuel
  · obtain ⟨result, w', hrun, honward, hmaps⟩ := substitute_delivers hw hformed hs hraw hdomain hid
      hsolid.loaded hfuel (.refl hw hformed)
    refine ⟨result, w', hrun, ?_⟩
    rintro rfl
    have hterms : ∀ var, s.terms w var = .atom var 0 ↔ var ∉ s.domain := by
      intro var
      rw [Substitution.mem_domain_iff, Substitution.terms]
      cases hget : s.get? var with
      | none => simp
      | some type =>
        have hne : w.term type ≠ .atom var 0 := fun hterm =>
          hmoves var type hget (hformed.eq_variable_of_term hw.wellBuilt hw.registered (hdomain var type hget) hterm)
        simpa using hne
    have hsame : (w.term result).subst (s.terms w) = w.term result := by
      rw [← hmaps.term, honward.term hw hformed hid]
    rw [hmentions, (Term.subst_eq_self_iff hterms).1 hsame] at hmentioned
    cases hmentioned

def pairClassPath : ClassPath := .ofClasses
  [{ name := "p/Pair", signature := "<A:Ljava/lang/Object;B:Ljava/lang/Object;>Ljava/lang/Object;" }]

def pairWorld : World :=
  (initial {} pairClassPath {}).after
    [.getType ⟨["p", "Pair"]⟩, .arrayType ⟨11⟩ 2, .parameterizedType ⟨10⟩ [⟨15⟩, ⟨12⟩] none]

theorem reachable_pairWorld : pairWorld.Reachable := (Reachable.initial {} pairClassPath {}).after _

theorem substitute_touches_mentioned_pair :
    let s : Substitution := { map := ⟨[(⟨12⟩, ⟨15⟩)]⟩ }
    pairWorld.mentions s.domain ⟨15⟩ = false ∧ pairWorld.mentions s.domain ⟨16⟩ = true ∧
      ∃ budget, ∀ d : Demand, budget ≤ d.fuel →
        substitute s ⟨15⟩ d pairWorld = (.ok ⟨15⟩, pairWorld) ∧
        ∃ result w', substitute s ⟨16⟩ d pairWorld = (.ok result, w') ∧ result ≠ ⟨16⟩ := by
  intro s
  have hread : pairWorld.types.size = 17 ∧ (pairWorld.type ⟨12⟩).sort = .typeVariable ∧
      pairWorld.isSolid 3 ⟨15⟩ = true ∧ pairWorld.isSolid 3 ⟨16⟩ = true ∧
      pairWorld.mentions [⟨12⟩] ⟨15⟩ = false ∧ pairWorld.mentions [⟨12⟩] ⟨16⟩ = true := by decide +kernel
  obtain ⟨hsize, hvar, harray, hpair, hnot, hmentioned⟩ := hread
  have hknows : ∀ index, index < 17 → pairWorld.Knows ⟨index⟩ := fun index h => Nat.lt_of_lt_of_eq h hsize.symm
  have hvars : ∀ var ∈ s.domain, pairWorld.IsVariable var := fun var hmem => List.eq_of_mem_singleton hmem ▸ hvar
  have hknown : s.Known pairWorld := fun entry hmem =>
    List.eq_of_mem_singleton hmem ▸ hknows 15 (by decide)
  have hmoves : ∀ var type, s.get? var = some type → type ≠ var := by
    intro var type hget
    have hmem : (var, type) ∈ s.map.entries := Table.mem_of_findIn hget
    cases List.eq_of_mem_singleton hmem
    decide
  obtain ⟨budget, h₁⟩ := reachable_pairWorld.substitute_touches_mentioned hknown rfl hvars hmoves
    (hknows 15 (by decide)) (solid_of_test harray)
  obtain ⟨budget', h₂⟩ := reachable_pairWorld.substitute_touches_mentioned hknown rfl hvars hmoves
    (hknows 16 (by decide)) (solid_of_test hpair)
  exact ⟨hnot, hmentioned, budget + budget', fun d hfuel =>
    ⟨(h₁ d (by omega)).1 hnot, (h₂ d (by omega)).2 hmentioned⟩⟩

end World

def Query.substituteEntry (s : Substitution) (entry : TypeId × TypeId) : Query (TypeId × TypeId) := do
  return (entry.1, ← substitute s entry.2)

/-- One substitution after another: what the first puts in is substituted by the second, which also
replaces whatever the first does not. -/
def Query.compose (first second : Substitution) : Query Substitution := do
  let entries ← first.map.entries.mapM (substituteEntry second)
  return ({ map := ⟨entries⟩ } : Substitution).orElse second

namespace Substitution

variable {s first second : Substitution} {w u : World} {type : TypeId}

structure Composes (s first second : Substitution) (w u : World) : Prop where
  raw : s.raw = false
  known : s.Known u
  get? : ∀ var, first.get? var = none ∧ s.get? var = second.get? var ∨
    ∃ type result, first.get? var = some type ∧ s.get? var = some result ∧ second.Maps w type result u

theorem findIn_forall₂ (good : TypeId → TypeId → Prop) {list results : List (TypeId × TypeId)}
    (h : list.Forall₂ (fun entry res => res.1 = entry.1 ∧ good entry.2 res.2) results) (var : TypeId) :
    Table.findIn var list = none ∧ Table.findIn var results = none ∨
      ∃ type res, Table.findIn var list = some type ∧ Table.findIn var results = some res ∧
        good type res := by
  induction h with
  | nil => exact .inl ⟨rfl, rfl⟩
  | @cons entry res _ _ hf _ ih =>
    obtain ⟨other, type⟩ := entry
    obtain ⟨_, res⟩ := res
    obtain ⟨rfl, hg⟩ := hf
    rw [Table.findIn, Table.findIn]
    split
    · exact .inr ⟨type, res, rfl, rfl, hg⟩
    · exact ih

theorem terms_onward (hs : s.Known w) (hw : w.Sound) (hf : w.Formed) (hu : w.Onward u) : s.terms u = s.terms w := by
  funext var
  rw [terms, terms]
  cases hg : s.get? var with
  | none => rfl
  | some type => exact hu.term hw hf (hs.get? hg)

theorem Composes.terms (h : s.Composes first second w u) (hs : second.Known w) (hw : w.Sound)
    (hfo : w.Formed) (hu : w.Onward u) (var : TypeId) :
    s.terms u var = (first.terms w var).subst (second.terms w) := by
  rw [Substitution.terms, Substitution.terms]
  obtain ⟨hf, hg⟩ | ⟨type, res, hf, hg, hm⟩ := h.get? var
  · rw [hf, hg, ← Substitution.terms, terms_onward hs hw hfo hu]
    exact Term.raise_zero.symm
  · rw [hf, hg]
    exact hm.term

theorem Composes.isVariable (h : s.Composes first second w u)
    (hf : ∀ var type, first.get? var = some type → u.IsVariable var)
    (hse : ∀ var type, second.get? var = some type → u.IsVariable var)
    (hg : s.get? var = some type) : u.IsVariable var := by
  obtain ⟨-, hs⟩ | ⟨_, _, hf', -, -⟩ := h.get? var
  · exact hse var type (hs ▸ hg)
  · exact hf var _ hf'

theorem Composes.solid (h : s.Composes first second w u) (hw : w.Sound) (hu : w.Onward u) (hk : second.Known w)
    (hf : ∀ var type, first.get? var = some type → w.Solid type)
    (hse : ∀ var type, second.get? var = some type → w.Solid type)
    (hg : s.get? var = some type) : u.Solid type := by
  obtain ⟨-, hs⟩ | ⟨_, _, hf', hg', hm⟩ := h.get? var
  · rw [hs] at hg
    exact hu.solid hw (hk.get? hg) (hse var type hg)
  · cases hg.symm.trans hg'
    exact hm.solid (hf var _ hf') hse

end Substitution

namespace Query

variable {w : World} {d : Demand} {first second : Substitution}

theorem compose_delivers (hw : w.Sound) (hfo : w.Formed) (hfi : first.Known w) (hse : second.Known w)
    (hr : second.raw = false) (hv : ∀ var type, second.get? var = some type → w.IsVariable var)
    (hso : ∀ entry ∈ first.map.entries, w.Loaded entry.2)
    (hf : ∀ entry ∈ first.map.entries, (w.term entry.2).cost < d.fuel) :
    (compose first second).Delivers d w fun s u => w.Onward u ∧ s.Composes first second w u := by
  let good (entry result : TypeId × TypeId) (u : World) : Prop := result.1 = entry.1 ∧ second.Maps w entry.2 result.2 u
  have he : ∀ entry ∈ first.map.entries, ∀ u, w.Onward u →
      (substituteEntry second entry).Delivers d u fun result v => u.Onward v ∧ good entry result v :=
    fun entry he u hu =>
      .bind (substitute_delivers hw hfo hse hr hv (hfi entry he) (hso entry he)
        (hf entry he) hu) fun result v ⟨huv, hm⟩ => .pure ⟨huv, rfl, hm⟩
  refine .bind (.mapM good (fun u hu => .refl hu.sound hu.formed) .trans
    (fun hu huv h => ⟨h.1, h.2.onward hu huv⟩) (.refl hw hfo) he) fun entries u ⟨hu, hfor⟩ => ?_
  refine .pure ⟨hu, ?_, ?_, fun var => ?_⟩
  · exact hr
  · refine .orElse (fun entry he => ?_) (World.Stays.grows hu.keeps.grows hse)
    obtain ⟨_, -, -, hm⟩ := exists_of_mem_forall₂ hfor he
    exact hm.knows
  · rw [Substitution.get?_orElse]
    rcases Substitution.findIn_forall₂ (second.Maps w · · u) hfor var with
      ⟨hn, hn'⟩ | ⟨type, result, hs, hs', hm⟩
    · refine .inl ⟨hn, ?_⟩
      have hem : ({ map := ⟨entries⟩ } : Substitution).get? var = none := hn'
      rw [hem, Option.none_or]
    refine .inr ⟨type, result, hs, ?_, hm⟩
    have hg : ({ map := ⟨entries⟩ } : Substitution).get? var = some result := hs'
    rw [hg, Option.some_or]

end Query

namespace World

variable {w : World} {term : Term}

structure Spelled (w : World) (id : TypeId) (term : Term) : Prop where
  knows : w.Knows id
  term : w.term id = term
  solid : w.Solid id

theorem Spelled.onward {u : World} {id : TypeId} (hw : w.Sound) (hf : w.Formed)
    (h : w.Spelled id term) (hu : w.Onward u) : u.Spelled id term where
  knows := hu.keeps.knows h.knows
  term := (hu.term hw hf h.knows).trans h.term
  solid := hu.solid hw h.knows h.solid

theorem Spelled.unique {id other : TypeId} (hw : w.Sound) (hf : w.Formed)
    (h : w.Spelled id term) (ho : w.Spelled other term) : other = id :=
  hf.term_inj hw.wellBuilt ho.solid h.solid (ho.term.trans h.term.symm)

end World

namespace Query

variable {w u : World} {d : Demand} {id : TypeId} {term : Term}

theorem substitute_spelled {s : Substitution} (hw : w.Sound) (hfo : w.Formed) (hs : s.Known w)
    (hr : s.raw = false) (hv : ∀ var type, s.get? var = some type → w.IsVariable var)
    (hp : ∀ var type, s.get? var = some type → w.Solid type) (hid : w.Spelled id term)
    (hf : term.cost < d.fuel) (hu : w.Onward u) :
    (substitute s id).Delivers d u fun res v => u.Onward v ∧ v.Spelled res (term.subst (s.terms w)) := by
  obtain ⟨hk, rfl, hso⟩ := hid
  refine (substitute_delivers hw hfo hs hr hv hk hso.loaded hf hu).mono ?_
  exact fun res v ⟨huv, hm⟩ => ⟨huv, hm.knows, hm.term, hm.solid hso hp⟩

theorem substitute_twice_spelled {first second : Substitution} (hw : w.Sound) (hfo : w.Formed)
    (hk : first.Known w ∧ second.Known w) (hra : first.raw = false ∧ second.raw = false)
    (hfi : ∀ var type, first.get? var = some type → w.IsVariable var ∧ w.Solid type)
    (hs : ∀ var type, second.get? var = some type → w.IsVariable var ∧ w.Solid type)
    (hid : w.Spelled id term) (hf : term.cost < d.fuel) (hf' : (term.subst (first.terms w)).cost < d.fuel)
    (hu : w.Onward u) : (substitute first id >>= substitute second).Delivers d u fun res v =>
      u.Onward v ∧ v.Spelled res (term.subst fun var => (first.terms w var).subst (second.terms w)) := by
  refine .bind (substitute_spelled hw hfo hk.1 hra.1 (fun var type hg => (hfi var type hg).1)
    (fun var type hg => (hfi var type hg).2) hid hf hu) fun middle v ⟨huv, hm⟩ => ?_
  have hv := hu.trans huv
  have ha := substitute_spelled (d := d) hv.sound hv.formed (World.Stays.grows hv.keeps.grows hk.2) hra.2
    (fun var type hg => (hs var type hg).1.grows hv.keeps.grows)
    (fun var type hg => hv.solid hw (hk.2.get? hg) (hs var type hg).2) hm hf'
    (.refl hv.sound hv.formed)
  rw [Substitution.terms_onward hk.2 hw hfo hv, Term.subst_subst] at ha
  exact ha.mono fun res x ⟨hvx, hr⟩ => ⟨huv.trans hvx, hr⟩

end Query

namespace World

variable {w : World}

/-- Two substitutions one after the other are one substitution: the handles that come out are the same,
whichever is asked for first. -/
theorem Reachable.substitute_twice (h : w.Reachable) {first second : Substitution}
    (hfirst : first.Known w) (hsecond : second.Known w) (hraw : first.raw = false ∧ second.raw = false)
    (hvars : ∀ var ∈ first.domain ++ second.domain, w.IsVariable var)
    (hplain : ∀ entry ∈ first.map.entries ++ second.map.entries, w.Solid entry.2) {id : TypeId}
    (hid : w.Knows id) (hsolid : w.Solid id) : ∃ budget, ∀ d : Demand, budget ≤ d.fuel →
      ∃ s w₁, compose first second d w = (.ok s, w₁) ∧
        (∃ result w₂, (substitute first id >>= substitute second) d w₁ = (.ok result, w₂) ∧
          (substitute s id d w₂).1 = .ok result) ∧
        (∃ result w₂, substitute s id d w₁ = (.ok result, w₂) ∧
          ((substitute first id >>= substitute second) d w₂).1 = .ok result) := by
  have hw := h.sound
  have hformed := h.formed
  have hget₁ : ∀ var type, first.get? var = some type → w.IsVariable var ∧ w.Solid type := fun var type hget =>
    ⟨hvars var (List.mem_append_left _ (Substitution.mem_domain_iff.2 ⟨type, hget⟩)),
      hplain (var, type) (List.mem_append_left _ (Table.mem_of_findIn hget))⟩
  have hget₂ : ∀ var type, second.get? var = some type → w.IsVariable var ∧ w.Solid type := fun var type hget =>
    ⟨hvars var (List.mem_append_right _ (Substitution.mem_domain_iff.2 ⟨type, hget⟩)),
      hplain (var, type) (List.mem_append_right _ (Table.mem_of_findIn hget))⟩
  refine ⟨(first.map.entries.map fun entry => (w.term entry.2).cost).sum + (w.term id).cost +
    ((w.term id).subst (first.terms w)).cost + 1, fun d hfuel => ?_⟩
  have hentries : ∀ entry ∈ first.map.entries, (w.term entry.2).cost < d.fuel := fun entry hentry => by
    have := List.single_le_sum (fun _ _ => Nat.zero_le _) _
      (List.mem_map_of_mem (f := fun entry => (w.term entry.2).cost) hentry)
    omega
  obtain ⟨s, w₁, hrun, h₁, hcomposes⟩ := compose_delivers (d := d) hw hformed hfirst hsecond hraw.2
    (fun var type hget => (hget₂ var type hget).1)
    (fun entry hentry => (hplain entry (List.mem_append_left _ hentry)).loaded) hentries
  have hspelled : w.Spelled id (w.term id) := ⟨hid, rfl, hsolid⟩
  have htwice := fun u (hu : w₁.Onward u) => substitute_twice_spelled (d := d) hw hformed
    ⟨hfirst, hsecond⟩ hraw hget₁ hget₂ hspelled (by omega) (by omega) (h₁.trans hu)
  have honce := fun u (hu : w₁.Onward u) => substitute_spelled (d := d) h₁.sound h₁.formed hcomposes.known
    hcomposes.raw (fun var type => hcomposes.isVariable
      (fun var type hget => (hget₁ var type hget).1.grows h₁.keeps.grows)
      (fun var type hget => (hget₂ var type hget).1.grows h₁.keeps.grows))
    (fun var type => hcomposes.solid hw h₁ hsecond (fun var type hget => (hget₁ var type hget).2)
      (fun var type hget => (hget₂ var type hget).2)) (hspelled.onward hw hformed h₁) (by omega) hu
  rw [funext (hcomposes.terms hsecond hw hformed h₁)] at honce
  refine ⟨s, w₁, hrun, ?_, ?_⟩
  · obtain ⟨result, w₂, hrun₂, h₂, hresult⟩ := htwice w₁ (.refl h₁.sound h₁.formed)
    obtain ⟨other, w₃, hrun₃, h₃, hother⟩ := honce w₂ h₂
    refine ⟨result, w₂, hrun₂, ?_⟩
    rw [hrun₃, (hresult.onward h₂.sound h₂.formed h₃).unique h₃.sound h₃.formed hother]
  · obtain ⟨result, w₂, hrun₂, h₂, hresult⟩ := honce w₁ (.refl h₁.sound h₁.formed)
    obtain ⟨other, w₃, hrun₃, h₃, hother⟩ := htwice w₂ h₂
    refine ⟨result, w₂, hrun₂, ?_⟩
    rw [hrun₃, (hresult.onward h₂.sound h₂.formed h₃).unique h₃.sound h₃.formed hother]

theorem substitute_twice_pair :
    let first : Substitution := { map := ⟨[(⟨11⟩, ⟨12⟩), (⟨12⟩, ⟨15⟩)]⟩ }
    let second : Substitution := { map := ⟨[(⟨11⟩, ⟨16⟩), (⟨12⟩, ⟨14⟩)]⟩ }
    ∃ budget, ∀ d : Demand, budget ≤ d.fuel →
      ∃ s w₁, compose first second d pairWorld = (.ok s, w₁) ∧
        (∃ result w₂, (substitute first ⟨16⟩ >>= substitute second) d w₁ = (.ok result, w₂) ∧
          (substitute s ⟨16⟩ d w₂).1 = .ok result) ∧
        (∃ result w₂, substitute s ⟨16⟩ d w₁ = (.ok result, w₂) ∧
          ((substitute first ⟨16⟩ >>= substitute second) d w₂).1 = .ok result) := by
  intro first second
  have hread : pairWorld.types.size = 17 ∧ (pairWorld.type ⟨11⟩).sort = .typeVariable ∧
      (pairWorld.type ⟨12⟩).sort = .typeVariable ∧
      [⟨12⟩, ⟨14⟩, ⟨15⟩, ⟨16⟩].all (pairWorld.isSolid 3) = true := by decide +kernel
  simp only [List.all_cons, List.all_nil, Bool.and_true, Bool.and_eq_true] at hread
  obtain ⟨hsize, hvar₁, hvar₂, hsecond, hobject, harray, hpair⟩ := hread
  have hknows : ∀ index, index < 17 → pairWorld.Knows ⟨index⟩ := fun index h => Nat.lt_of_lt_of_eq h hsize.symm
  have hfirst' : first.Known pairWorld := by
    simp only [first, Substitution.Known, List.forall_mem_cons]
    exact ⟨hknows 12 (by decide), hknows 15 (by decide), List.forall_mem_nil _⟩
  have hsecond' : second.Known pairWorld := by
    simp only [second, Substitution.Known, List.forall_mem_cons]
    exact ⟨hknows 16 (by decide), hknows 14 (by decide), List.forall_mem_nil _⟩
  refine reachable_pairWorld.substitute_twice hfirst' hsecond' ⟨rfl, rfl⟩ ?_ ?_ (hknows 16 (by decide))
    (solid_of_test hpair)
  · simp only [first, second, Substitution.domain, List.map, List.cons_append, List.nil_append,
      List.forall_mem_cons]
    exact ⟨hvar₁, hvar₂, hvar₁, hvar₂, List.forall_mem_nil _⟩
  · simp only [first, second, List.cons_append, List.nil_append, List.forall_mem_cons]
    exact ⟨solid_of_test hsecond, solid_of_test harray, solid_of_test hpair, solid_of_test hobject,
      List.forall_mem_nil _⟩

end World

end Bindings
