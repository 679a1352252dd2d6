import Bindings.Proofs.MemberViews.Renewal

/-!
# Members seen through a receiver

The view of a method through a parameterized receiver does not mention the type variables of the class
(`Reachable.methodView_hides`), unless the receiver is built on a placeholder (`view_on_placeholder_leaks`).
-/

open Relation

namespace Bindings

open Query World

variable {m : MethodId} {info : MethodInfo} {gen : TypeId} {args : List TypeId}

namespace World

variable {w u : World} {vars : List TypeId}

def named (w : World) (method : MethodId) : List TypeId :=
  (w.method method).slots ++ (w.method method).typeVariables.flatMap fun var => (w.type var).slots

def Hides (w : World) (vars : List TypeId) (method : MethodId) : Prop :=
  ∀ type ∈ w.named method, w.mentions vars type = false

theorem mentions_of_types (h : u.types = w.types) (id : TypeId) : u.mentions vars id = w.mentions vars id := by
  have ht : ∀ id, u.type id = w.type id := fun id => by rw [type, h, type]
  have hf : ∀ fuel, u.mentionsFrom vars fuel = w.mentionsFrom vars fuel := by
    intro fuel
    induction fuel with
    | zero => rfl
    | succ fuel ih =>
      funext id
      rw [mentionsFrom, mentionsFrom, ht, ih]
  rw [mentions, mentions, h, hf]

theorem Hides.of_same (h : w.Hides vars m) (hty : u.types = w.types) (hm : u.methods = w.methods) : u.Hides vars m := by
  intro type ht
  rw [mentions_of_types hty]
  refine h type ?_
  simpa only [named, World.method, World.type, hty, hm] using ht

theorem hides_modifyMethod (hw : w.Sound) (hf : w.Formed) (hva : ∀ var ∈ vars, w.IsVariable var)
    (hi : w.method? m = some info)
    {change : MethodInfo → MethodInfo} (hsl : ∀ slot ∈ (change info).slots, w.Free vars slot)
    (hb : ∀ var ∈ (change info).typeVariables, w.BoundsFree vars var) :
    (w.modifyMethod m change).Hides vars m := by
  have hm : (w.modifyMethod m change).method m = change info := by
    rw [method_eq, method?_modifyMethod, if_pos rfl, hi]
    rfl
  intro type ht
  have hfr : w.Free vars type := by
    rw [named, hm, List.mem_append, List.mem_flatMap] at ht
    obtain ht | ⟨var, hv, ht⟩ := ht
    · exact hsl type ht
    · exact hb var hv type ht
  have hs : (w.modifyMethod m change).types = w.types := rfl
  rw [mentions_of_types hs, hf.mentions_eq hva hw.registered hfr.knows, hfr.mentions]

theorem free_object (hw : w.Sound) {object : TypeId} (ho : w.object = some object)
    (hv : ∀ var ∈ vars, w.IsVariable var) : w.Free vars object := by
  have hd := hw.linked.object object ho
  obtain ⟨info, hi⟩ := role_eq_declared.1 hd.role
  rw [class?_eq_some] at hi
  refine ⟨hd.knows, ?_⟩
  rw [term_atomic (by rw [hi]; rfl), Term.mentions]
  exact not_contains_of_not_isVariable hv (by simp [IsVariable, hi, TypeInfo.sort])

def opened (w : World) (receiver : TypeId) (method : MethodId) : MethodInfo :=
  { w.method method with declaring := receiver, origin := .view method receiver }

def withView (w : World) (receiver : TypeId) (method : MethodId) : World :=
  (w.addMethod (w.opened receiver method)).2.modifyCaches fun caches =>
    { caches with methodViews := caches.methodViews.insert (receiver, method) ⟨w.methods.size⟩ }

theorem method?_withView (w : World) (recv : TypeId) (m : MethodId) :
    (w.withView recv m).method? ⟨w.methods.size⟩ = some (w.opened recv m) :=
  (method?_addMethod ..).trans (if_pos rfl)

theorem along_withView (hw : w.Sound) (hf : w.Formed) (recv : TypeId) (m : MethodId) :
    Along [] w (w.withView recv m) := by
  have ho := opensView_addMethod hw m recv
  have hc : Course none none (w.addMethod (w.opened recv m)).2 (w.withView recv m) :=
    .apart { Apart.refl (w.addMethod _).2 with }
  refine ⟨Nat.le_refl _, fun id _ => .inl (.refl _), fun id info hi => ?_, rfl, hc.sound (ho.sound hw), hf.of_types rfl⟩
  refine (method?_addMethod ..).trans ((if_neg ?_).trans hi)
  rintro rfl
  rw [method?, Array.getElem?_size] at hi
  cases hi

end World

namespace Query

variable {w : World} {d : Demand} {s : Substitution} {vars : List TypeId} {object : TypeId}

theorem substituteView_delivers (hw : w.Sound) (hf : w.Formed) (ho : w.object = some object)
    (hr : w.Free vars object) (hs : s.Removes vars w) {view : MethodId} {src : MethodInfo}
    (hi : w.method? view = some info) (hsa : info.typeVariables = src.typeVariables)
    (how : ∀ var ∈ src.typeVariables, w.IsVariable var) (hslo : ∀ slot ∈ src.slots, w.Tractable d.fuel slot)
    (hb : ∀ var ∈ src.typeVariables, ∀ bound ∈ (w.type var).slots, w.Tractable d.fuel bound) :
    (substituteView view src s).Delivers d w fun _ x => x.Hides vars view ∧
      (x.method view).typeVariables.length = src.typeVariables.length ∧
      (x.method view).params.length = src.params.length ∧
      (x.method view).thrown.length = src.thrown.length := by
  have hp : ∀ param ∈ src.params, w.Tractable d.fuel param := fun param hm =>
    hslo param (by simp [hm])
  have hre : w.Tractable d.fuel src.result := hslo _ (by simp)
  have ht : ∀ type ∈ src.thrown, w.Tractable d.fuel type := fun type hm =>
    hslo type (by simp [hm])
  refine .bind (renewVariables_delivers hw hf ho hr hs view how hb) ?_
  rintro ⟨s1, renewed⟩ w1 ⟨h1, hs1, hc, hn⟩
  refine .bind (substituteAll_removes hw hf h1 hs1 hp) fun params w2 ⟨hst2, hle, hp⟩ => ?_
  have h2 := h1.trans (hst2.along [])
  have hs2 := hs1.along h1.sound h1.formed (hst2.along [])
  refine .bind (substitute_removes hw hf h2 hs2 hre) fun res w3 ⟨hst3, hre⟩ => ?_
  have h3 := h2.trans (hst3.along [])
  have hs3 := hs2.along h2.sound h2.formed (hst3.along [])
  refine .bind (substituteAll_removes hw hf h3 hs3 ht) fun thrown w4 ⟨hst4, hle', ht⟩ => ?_
  have hl : w1.Onward w4 := (hst2.trans hst3).trans hst4
  have hs4 := hs3.along h3.sound h3.formed (hst4.along [])
  have hi4 : w4.method? view = some info := (h3.trans (hst4.along [])).method view info hi
  refine ⟨_, _, rfl, hides_modifyMethod hl.sound hl.formed (fun var hv => ?_) hi4
    (fun slot hsl => ?_) fun var hv => ?_, ?_⟩
  · obtain ⟨type, hg⟩ := Option.isSome_iff_exists.1 (hs4.covers var hv)
    exact hs4.isVariable var type hg
  · obtain hsl | hsl := List.mem_append.1 hsl
    · exact (hp slot hsl).along hst2.sound hst2.formed ((hst3.trans hst4).along [])
    · obtain rfl | hsl := List.mem_cons.1 hsl
      · exact hre.along hst3.sound hst3.formed (hst4.along [])
      · exact ht slot hsl
  · obtain ⟨hva, hfr⟩ := hn var (by rwa [← hsa])
    exact hfr.along h1.sound h1.formed hva (hl.along []) nofun
  · rw [method_eq, method?_modifyMethod, if_pos rfl, hi4]
    exact ⟨by rw [← hc, ← hsa]; rfl, hle, hle'⟩

theorem noteMethod_same (id : MethodId) (w : World) :
    (noteMethod id w).2.types = w.types ∧ (noteMethod id w).2.methods = w.methods := by
  change (w.noteReferrers (.method id) (w.method id).slots).types = _ ∧
    (w.noteReferrers (.method id) (w.method id).slots).methods = _
  rw [(noteReferrers_notesMore _ _).same]
  exact ⟨rfl, rfl⟩

theorem methodView_delivers (hw : w.Sound) (hf : w.Formed) (ho : w.object = some object)
    {recv : TypeId} {encl : Option TypeId}
    (hre : w.type recv = .parameterized gen args encl) {info : ClassInfo}
    (hg : w.class? gen = some info) (hc : args.length = info.typeVariables.length)
    (hfr : ∀ part ∈ args ++ encl.toList, w.mentions info.typeVariables part = false)
    (hra : w.NoRaw recv) (htr : w.Tractable d.fuel recv)
    (hst : (w.method m).isStatic = false) (how : ∀ var ∈ (w.method m).typeVariables, w.IsVariable var)
    (hna : ∀ type ∈ w.named m, w.Tractable d.fuel type)
    (hn : w.caches.methodViews.find? (recv, m) = none) :
    (methodView recv m).Delivers d w fun view x => x.Hides info.typeVariables view ∧
      (x.method view).typeVariables.length = (w.method m).typeVariables.length ∧
      (x.method view).params.length = (w.method m).params.length ∧
      (x.method view).thrown.length = (w.method m).thrown.length := by
  -- The view is stored before the substitution is worked out, so all the rest happens in a later world.
  have ha := along_withView hw hf recv m
  have hty : (w.withView recv m).types = w.types := rfl
  obtain ⟨s, hr, hs⟩ := substitutionFor_removes ha.sound ha.formed hre hg hc
    (fun part hp => (mentions_of_types hty part).trans (hfr part hp)) hra
    (htr.along hw hf ha)
  have hro : w.Free info.typeVariables object := free_object hw ho (hf.parameters gen info hg)
  refine .get ?_
  dsimp only
  rw [hst, if_neg Bool.false_ne_true, hn]
  refine .lift_bind (.lift_bind (.step hr ?_))
  rw [hs.raw, if_neg Bool.false_ne_true]
  have hl : ∀ type ∈ w.named m, (w.withView recv m).Tractable d.fuel type := fun type ht =>
    (hna type ht).along hw hf ha
  refine .bind (substituteView_delivers ha.sound ha.formed ho (hro.along hw hf ha) hs
    (w.method?_withView recv m) rfl (fun var hv => ha.isVariable (how var hv))
    (fun slot hsl => hl slot (List.mem_append_left _ hsl)) fun var hv bound hb =>
      hl bound (List.mem_append_right _ (List.mem_flatMap.2 ⟨var, hv, hb⟩))) ?_
  rintro _ x ⟨hh, hle⟩
  obtain ⟨hty, hm⟩ := noteMethod_same ⟨w.methods.size⟩ x
  refine .lift_bind (.pure ⟨hh.of_same hty hm, ?_⟩)
  have hvi : (noteMethod ⟨w.methods.size⟩ x).2.method ⟨w.methods.size⟩ = x.method ⟨w.methods.size⟩ := by
    rw [method, hm, method]
  exact hvi.symm ▸ hle

end Query

namespace World

variable {w : World}

def DeclaresVariables (w : World) : Prop := ∀ method, ∀ var ∈ (w.method method).typeVariables, w.IsVariable var

theorem Reachable.declaresVariables (h : w.Reachable) : w.DeclaresVariables := by
  refine h.fact (fun _ _ _ m var hv => by cases hv) fun _ hc hva m var hv => ?_
  obtain ⟨other, hv⟩ | hv := hc.level.methodVariables m var hv
  · exact (hva other var hv).grows hc.grows
  · exact hv

theorem Reachable.methodView_hides (h : w.Reachable) (hroot : w.object.isSome) {receiver generic : TypeId}
    {arguments : List TypeId} {enclosing : Option TypeId}
    (hreceiver : w.type receiver = .parameterized generic arguments enclosing) {info : ClassInfo}
    (hgeneric : w.class? generic = some info) (hcount : arguments.length = info.typeVariables.length)
    (hfree : ∀ part ∈ arguments ++ enclosing.toList, w.mentions info.typeVariables part = false)
    (hraw : w.NoRaw receiver) {method : MethodId} (hstatic : (w.method method).isStatic = false)
    (hloaded : ∀ type ∈ receiver :: w.named method, w.Loaded type)
    (hnew : w.caches.methodViews.find? (receiver, method) = none) :
    ∃ budget, ∀ d : Demand, budget ≤ d.fuel → ∃ view u,
      Query.methodView receiver method d w = (.ok view, u) ∧ u.Hides info.typeVariables view ∧
      (u.method view).typeVariables.length = (w.method method).typeVariables.length ∧
      (u.method view).params.length = (w.method method).params.length ∧
      (u.method view).thrown.length = (w.method method).thrown.length := by
  have hw := h.sound
  obtain ⟨object, hobject⟩ := Option.isSome_iff_exists.1 hroot
  have hknows : ∀ type ∈ receiver :: w.named method, w.Knows type := by
    rw [List.forall_mem_cons, named]
    refine ⟨?_, List.forall_mem_append.2 ⟨hw.knows_method method, fun bound hbound => ?_⟩⟩
    · exact lt_size_of_type_ne (by rw [hreceiver]; nofun)
    · obtain ⟨var, -, hbound⟩ := List.mem_flatMap.1 hbound
      exact hw.stocked (.type var) bound hbound
  refine ⟨((receiver :: w.named method).map fun type => (w.term type).cost).sum + 1, fun d hfuel => ?_⟩
  have htractable : ∀ type ∈ receiver :: w.named method, w.Tractable d.fuel type := by
    intro type htype
    have hcost := List.le_sum_of_mem (List.mem_map_of_mem (f := fun type => (w.term type).cost) htype)
    exact ⟨hknows type htype, hloaded type htype, Nat.lt_of_lt_of_le (Nat.lt_succ_of_le hcost) hfuel⟩
  exact Query.methodView_delivers hw h.formed hobject hreceiver hgeneric hcount hfree hraw
    (htractable receiver (.head _)) hstatic (h.declaresVariables method)
    (fun type htype => htractable type (.tail _ htype)) hnew

theorem noRaw_of_unenclosed {id : TypeId} (h : w.type id = .parameterized gen args none) : w.NoRaw id := by
  intro outer ho generic' enclosing' hr
  obtain rfl | ⟨_, ⟨_, _, _, ht, -⟩, -⟩ := ReflTransGen.cases_head ho
  · cases h.symm.trans hr
  · cases h.symm.trans ht

def cellClassPath : ClassPath := .ofClasses
  [{ ClassFile.generic "p/Cell" with
     methods :=
       [{ selector := "swap", descriptor := "(Lp/Cell;)Ljava/lang/Object;", signature := "<U:TT;>(Lp/Cell<TU;>;)TT;" },
        { selector := "put", descriptor := "(Ljava/lang/Object;)V", signature := "(TT;)V"
          thrown := ["java.lang.Object"] }] }]

def cellWorld : World :=
  (initial {} cellClassPath {}).after
    [.getType ⟨["p", "Cell"]⟩, .methods ⟨10⟩, .parameterizedType ⟨10⟩ [⟨13⟩] none]

theorem reachable_cellWorld : cellWorld.Reachable := (Reachable.initial {} cellClassPath {}).after _

theorem methodView_hides_cell :
    cellWorld.type ⟨17⟩ = .parameterized ⟨10⟩ [⟨13⟩] none ∧ cellWorld.named ⟨0⟩ = [⟨15⟩, ⟨11⟩, ⟨11⟩, ⟨11⟩] ∧
      cellWorld.type ⟨15⟩ = .parameterized ⟨10⟩ [⟨14⟩] none ∧
      ∃ info, cellWorld.class? ⟨10⟩ = some info ∧ info.typeVariables = [⟨11⟩] ∧
      ∃ budget, ∀ d : Demand, budget ≤ d.fuel → ∃ view u,
        Query.methodView ⟨17⟩ ⟨0⟩ d cellWorld = (.ok view, u) ∧ u.Hides [⟨11⟩] view ∧
        (u.method view).typeVariables.length = 1 ∧ (u.method view).params.length = 1 ∧
        (u.method view).thrown.length = 0 := by
  have hread : cellWorld.type ⟨17⟩ = .parameterized ⟨10⟩ [⟨13⟩] none ∧
      (cellWorld.class? ⟨10⟩).map (·.typeVariables) = some [⟨11⟩] ∧ cellWorld.object.isSome = true ∧
      cellWorld.mentions [⟨11⟩] ⟨13⟩ = false ∧ (cellWorld.method ⟨0⟩).isStatic = false ∧
      (⟨17⟩ :: cellWorld.named ⟨0⟩).all (cellWorld.isSolid 3) = true ∧
      cellWorld.caches.methodViews.find? (⟨17⟩, ⟨0⟩) = none ∧
      (cellWorld.method ⟨0⟩).typeVariables.length = 1 ∧ (cellWorld.method ⟨0⟩).params.length = 1 ∧
      (cellWorld.method ⟨0⟩).thrown.length = 0 := by decide +kernel
  obtain ⟨hreceiver, hvars, hroot, hfree, hstatic, hsolid, hnew, hown, hparams, hthrown⟩ := hread
  obtain ⟨info, hinfo, hvars⟩ := Option.map_eq_some_iff.1 hvars
  have h := reachable_cellWorld.methodView_hides hroot hreceiver hinfo (by rw [hvars]; rfl)
    (fun part hpart => by rw [hvars, List.mem_singleton.1 hpart]; exact hfree) (noRaw_of_unenclosed hreceiver)
    hstatic (fun type htype => (solid_of_test (List.all_eq_true.1 hsolid type htype)).loaded) hnew
  rw [hvars, hown, hparams, hthrown] at h
  exact ⟨hreceiver, by decide +kernel, by decide +kernel, info, hinfo, hvars, h⟩

def catalogClassPath : ClassPath := .ofClasses
  [{ name := "p/Map", members := ["p/Map$Entry"]
     signature := "<K:Ljava/lang/Object;V:Ljava/lang/Object;>Ljava/lang/Object;"
     methods :=
       [{ selector := "get", descriptor := "(Ljava/lang/Object;)Ljava/lang/Object;", signature := "(TK;)TV;" }] },
   { name := "p/Map$Entry", enclosing := "p/Map"
     signature := "<K:Ljava/lang/Object;V:Ljava/lang/Object;>Ljava/lang/Object;" },
   { name := "p/Index", superclass := "p/Map", signature := "<V:Ljava/lang/Object;>Lp/Map<Lp/Map$Entry;TV;>;" }]

def catalogOperations : List Operation :=
  [.getType ⟨["p", "Index"]⟩, .parameterizedType ⟨10⟩ [⟨10⟩] none, .superclass ⟨14⟩, .methods ⟨21⟩]

def catalogWorld : World := (initial {} catalogClassPath {}).after catalogOperations

/-- Through a receiver that is built on a placeholder for the class, the type variables are seen. -/
theorem view_on_placeholder_leaks :
    catalogWorld.Undisturbed ∧ (catalogWorld.types.all fun type => !type.isPending) ∧
      catalogWorld.type ⟨24⟩ = .parameterized ⟨15⟩ [⟨18⟩, ⟨10⟩] none ∧ catalogWorld.follow ⟨15⟩ = ⟨21⟩ ∧
      (catalogWorld.class? ⟨21⟩).map (·.typeVariables) = some [⟨22⟩, ⟨23⟩] ∧
      (∀ part ∈ [⟨18⟩, ⟨10⟩], catalogWorld.mentions [⟨22⟩, ⟨23⟩] part = false) ∧
      (catalogWorld.method ⟨0⟩).isStatic = false ∧
      let made := Query.methodView ⟨24⟩ ⟨0⟩ .standard catalogWorld
      made.1 = .ok ⟨1⟩ ∧ ¬ made.2.Hides [⟨22⟩, ⟨23⟩] ⟨1⟩ := by
  refine ⟨(Undisturbed.initial {} catalogClassPath {}).after (by decide +kernel), ?_⟩
  unfold Hides
  decide +kernel

end World

end Bindings
