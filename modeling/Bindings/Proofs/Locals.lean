import Bindings.Proofs.Reachable

/-!
# Local variables

What a declaration changes for the lookups of local variables (`Reachable.declare_exposes`), and how local
variables share slots (`Reachable.placeAllLocals_places`).
-/

open Relation

namespace Bindings

open Edit

def LocalInfo.isLive (info : LocalInfo) : Bool := info.used || info.isArgument

namespace World

variable {w u v x : World} {id inner : ScopeId} {name : String} {var other : LocalId} {low mid high top fuel : Nat}
  {vars others : LocalId → Prop} {log : ProblemLog} {info : LocalInfo}

theorem Reachable.nested (h : w.Reachable) : w.Nested :=
  h.fact (fun _ _ _ _ => ⟨.nil, nofun, .nil, nofun⟩) fun _ hc => hc.level.nested

theorem kind_declared (id : ScopeId) : ((w.declared log info).scope id).kind = (w.scope id).kind := by
  rw [scope_declared]
  split <;> rfl

theorem scopeChain_declared (id : ScopeId) : (w.declared log info).scopeChain id = w.scopeChain id := by
  have hs : (w.declared log info).scopes.size = w.scopes.size := Array.size_modify
  rw [scopeChain, scopeChain, hs]
  generalize w.scopes.size + 1 = fuel
  induction fuel generalizing id with
  | zero => rfl
  | succ fuel ih =>
    have hp : ((w.declared log info).scope id).parent = (w.scope id).parent := by
      rw [scope_declared]
      split <;> rfl
    rw [scopeChainFrom, scopeChainFrom, hp]
    split
    · rw [ih]
    · rfl

theorem declaredLocal?_declared (h : w.Nested) (id : ScopeId) (name : String) :
    (w.declared log info).declaredLocal? ((w.declared log info).scope id) name =
      if id = info.scope ∧ info.scope.index < w.scopes.size ∧ info.name = name then some ⟨w.locals.size⟩
      else w.declaredLocal? (w.scope id) name := by
  have hn : ((w.declared log info).localVar ⟨w.locals.size⟩).name = info.name := by rw [localVar_declared, if_pos rfl]
  have ho : (w.scope id).locals.reverse.find? (fun var => ((w.declared log info).localVar var).name == name) =
      w.declaredLocal? (w.scope id) name := by
    refine List.find?_congr fun var hv => ?_
    rw [localVar_declared, if_neg (Nat.ne_of_lt ((h id).declared var (List.mem_reverse.1 hv)).1)]
  rw [declaredLocal?, scope_declared]
  by_cases hid : id = info.scope ∧ info.scope.index < w.scopes.size
  · rw [if_pos hid, List.reverse_append, List.reverse_singleton, List.singleton_append, List.find?_cons, hn, ho]
    by_cases hna : info.name = name
    · rw [if_pos ⟨hid.1, hid.2, hna⟩, beq_iff_eq.2 hna]
    · rw [if_neg fun h => hna h.2.2, beq_false_of_ne hna]
  · rw [if_neg hid, ho, if_neg fun h => hid ⟨h.1, h.2.1⟩]

/-- A lookup of the name passes the scope. -/
def Passes (w : World) (name : String) (id : ScopeId) : Prop :=
  (w.scope id).kind = .block ∧ w.declaredLocal? (w.scope id) name = none

/-- A lookup of the name comes from the one scope to the other. -/
inductive Exposes (w : World) (name : String) (id : ScopeId) : ScopeId → Prop
  | here : Exposes w name id id
  | outer {inner parent : ScopeId} : w.Passes name inner → (w.scope inner).parent = some parent →
    Exposes w name id parent → Exposes w name id inner

/-- The same within so many steps. -/
def ExposesIn (w : World) (name : String) (id : ScopeId) : Nat → ScopeId → Prop
  | 0, _ => False
  | fuel + 1, inner => inner = id ∨ w.Passes name inner ∧
    ∃ parent, (w.scope inner).parent = some parent ∧ w.ExposesIn name id fuel parent

theorem lt_size_of_isLocal (h : (w.scope id).isLocal) : id.index < w.scopes.size :=
  lt_size_of_read (fun scope : Scope => scope.isLocal) h nofun

open Classical in
theorem findLocalIn_cons_declared (h : w.Nested) (hl : (w.scope info.scope).isLocal) {chain : List ScopeId}
    {reached : Prop} (hc : (w.declared log info).findLocalIn name chain =
      if name = info.name ∧ reached then some ⟨w.locals.size⟩ else w.findLocalIn name chain) :
    (w.declared log info).findLocalIn name (inner :: chain) =
      if name = info.name ∧ (inner = info.scope ∨ w.Passes name inner ∧ reached) then some ⟨w.locals.size⟩
      else w.findLocalIn name (inner :: chain) := by
  have hlt := lt_size_of_isLocal hl
  rw [findLocalIn, findLocalIn, kind_declared, declaredLocal?_declared h, hc, Passes]
  by_cases hi : inner = info.scope
  · have hk : (∃ m isStatic vars, (w.scope inner).kind = .method m isStatic vars) ∨
        (w.scope inner).kind = .block := by
      rw [← hi, Scope.isLocal] at hl
      split at hl <;> simp_all
    obtain ⟨_, _, _, hk⟩ | hk := hk <;> rw [hk] <;> grind
  rw [if_neg fun h => hi h.1]
  cases hk : (w.scope inner).kind with
  | block => cases hd : w.declaredLocal? (w.scope inner) name <;> simp [hi]
  | _ => simp [hi]

open Classical in
theorem findLocalIn_declared (h : w.Nested) (hl : (w.scope info.scope).isLocal) (fuel : Nat) (inner : ScopeId) :
    (w.declared log info).findLocalIn name (w.scopeChainFrom fuel inner) =
      if name = info.name ∧ w.ExposesIn name info.scope fuel inner then some ⟨w.locals.size⟩
      else w.findLocalIn name (w.scopeChainFrom fuel inner) := by
  have hz : ∀ inner, (w.declared log info).findLocalIn name (w.scopeChainFrom 0 inner) =
      if name = info.name ∧ w.ExposesIn name info.scope 0 inner then some ⟨w.locals.size⟩
      else w.findLocalIn name (w.scopeChainFrom 0 inner) := by simp [findLocalIn, scopeChainFrom, ExposesIn]
  induction fuel generalizing inner with
  | zero => exact hz inner
  | succ fuel ih =>
    rw [scopeChainFrom, ExposesIn]
    cases hp : (w.scope inner).parent with
    | none => simpa [scopeChainFrom, ExposesIn] using findLocalIn_cons_declared h hl (hz inner)
    | some parent => simpa using findLocalIn_cons_declared h hl (ih parent)

theorem ExposesIn.exposes (h : w.ExposesIn name id fuel inner) : w.Exposes name id inner := by
  induction fuel generalizing inner with
  | zero => cases h
  | succ fuel ih =>
    obtain rfl | ⟨hpa, parent, hp, hr⟩ := h
    · exact .here
    · exact .outer hpa hp (ih hr)

theorem ExposesIn.succ (h : w.ExposesIn name id fuel inner) : w.ExposesIn name id (fuel + 1) inner := by
  induction fuel generalizing inner with
  | zero => cases h
  | succ fuel ih => exact h.imp_right fun ⟨hpa, parent, hp, hr⟩ => ⟨hpa, parent, hp, ih hr⟩

open Classical in
theorem le_card_exposesIn (h : w.ExposesIn name id (fuel + 1) inner) (hn : ¬ w.ExposesIn name id fuel inner) :
    fuel ≤ ((Finset.range w.scopes.size).filter fun i => w.ExposesIn name id (fuel + 1) ⟨i⟩).card := by
  induction fuel generalizing inner with
  | zero => exact Nat.zero_le _
  | succ fuel ih =>
    obtain heq | ⟨hpa, parent, hp, hr⟩ := h
    · exact absurd (.inl heq) hn
    have hf := ih hr fun hl => hn (.inr ⟨hpa, parent, hp, hl⟩)
    refine Nat.lt_of_le_of_lt hf (Finset.card_lt_card ?_)
    rw [Finset.ssubset_iff_of_subset (Finset.monotone_filter_right _ fun _ _ => ExposesIn.succ)]
    exact ⟨inner.index, by simpa [lt_size_of_parent hp] using .inr ⟨hpa, parent, hp, hr⟩, by simp [hn]⟩

/-- Every scope on the way has a scope around it, so there are no more steps than scopes. -/
theorem Exposes.exposesIn (h : w.Exposes name id inner) : w.ExposesIn name id (w.scopes.size + 1) inner := by
  classical
  induction h with
  | here => exact .inl rfl
  | outer hpa hp _ ih =>
    by_contra hn
    have hc := (le_card_exposesIn (.inr ⟨hpa, _, hp, ih⟩) hn).trans (Finset.card_filter_le _ _)
    rw [Finset.card_range] at hc
    omega

/-- A declaration is reported if the name was found from the scope before. From then on lookups of the name that come to
the scope find the new variable, and all others find what they found before. -/
theorem Reachable.declare_exposes (h : w.Reachable) (hid : (w.scope id).isLocal) {edit : Edit LocalId}
    (hedit : (∃ type modifiers, edit = declareLocal id name type modifiers) ∨
      ∃ type, edit = declareArgument id name type) (hrun : edit w = (var, v)) :
    v.log = (if (w.findLocal? id name).isSome then w.log.add ⟨.duplicateLocal, [name]⟩ else w.log) ∧
    ∀ scope other, (other = name ∧ w.Exposes name id scope → v.findLocal? scope other = some var) ∧
      (¬ (other = name ∧ w.Exposes name id scope) → v.findLocal? scope other = w.findLocal? scope other) := by
  obtain ⟨type, modifiers, isArgument, rfl⟩ :
      ∃ type modifiers isArgument, edit = declare id name type modifiers isArgument := by
    rcases hedit with ⟨type, modifiers, rfl⟩ | ⟨type, rfl⟩ <;> exact ⟨_, _, _, rfl⟩
  rw [declare_apply] at hrun
  cases hrun
  refine ⟨rfl, fun scope other => ?_⟩
  rw [findLocal?, scopeChain_declared, scopeChain, findLocalIn_declared h.nested hid]
  constructor
  · rintro ⟨rfl, hexposes⟩
    exact if_pos ⟨rfl, hexposes.exposesIn⟩
  · refine fun hnot => if_neg ?_
    rintro ⟨rfl, hexposes⟩
    exact hnot ⟨rfl, hexposes.exposes⟩

def cabinWorld : World :=
  (initial {} .rootOnly {}).after
    [.buildUnit { file := "Cabin.java", package := ⟨["p"]⟩
                  types := [{ name := "Cabin" }] },
      .newMethodScope ⟨1⟩ none false, .newBlockScope ⟨2⟩, .newBlockScope ⟨2⟩, .declareArgument ⟨2⟩ "n" (baseType .int),
      .declareLocal ⟨3⟩ "x" (baseType .long) .empty, .declareLocal ⟨4⟩ "y" (baseType .int) .empty, .markUsed ⟨1⟩,
      .markUsed ⟨2⟩]

theorem reachable_cabinWorld : cabinWorld.Reachable := (Reachable.initial {} .rootOnly {}).after _

theorem declare_exposes_cabin :
    ∃ v, declareLocal ⟨2⟩ "x" (baseType .int) .empty cabinWorld = (⟨3⟩, v) ∧
      v.findLocal? ⟨4⟩ "x" = some ⟨3⟩ ∧ v.findLocal? ⟨3⟩ "x" = some ⟨1⟩ := by
  have hread : (declareLocal ⟨2⟩ "x" (baseType .int) .empty cabinWorld).1 = ⟨3⟩ ∧ (cabinWorld.scope ⟨2⟩).isLocal ∧
      (cabinWorld.scope ⟨4⟩).kind = .block ∧ cabinWorld.declaredLocal? (cabinWorld.scope ⟨4⟩) "x" = none ∧
      (cabinWorld.scope ⟨4⟩).parent = some ⟨2⟩ ∧ cabinWorld.declaredLocal? (cabinWorld.scope ⟨3⟩) "x" = some ⟨1⟩ ∧
      cabinWorld.findLocal? ⟨3⟩ "x" = some ⟨1⟩ := by decide +kernel
  obtain ⟨hvar, hlocal, hkind, hnone, hparent, hdeclared, hfound⟩ := hread
  generalize hrun : declareLocal ⟨2⟩ "x" (baseType .int) .empty cabinWorld = result at hvar ⊢
  obtain ⟨var, v⟩ := result
  obtain rfl : var = ⟨3⟩ := hvar
  have hexposes := (reachable_cabinWorld.declare_exposes hlocal (.inl ⟨_, _, rfl⟩) hrun).2
  refine ⟨v, rfl, (hexposes ⟨4⟩ "x").1 ⟨rfl, .outer ⟨hkind, hnone⟩ hparent .here⟩, ?_⟩
  rw [(hexposes ⟨3⟩ "x").2, hfound]
  rintro ⟨-, h⟩
  cases h with
  | outer hpasses => exact absurd (hdeclared.symm.trans hpasses.2) nofun

def width (w : World) (var : LocalId) : Nat := w.localWidth (w.localVar var)

/-- Variables of type `long` and `double` take two slots. -/
theorem width_eq (w : World) (var : LocalId) : w.width var =
    if w.type (w.localVar var).type = .base .long ∨ w.type (w.localVar var).type = .base .double then 2 else 1 := by
  rw [width, localWidth, base?]
  cases w.type (w.localVar var).type with
  | base kind => cases kind <;> rfl
  | _ => simp [TypeInfo.base?]

open Classical in
/-- The first slot of a method that is not static holds the receiver. -/
theorem firstSlot_eq (w : World) (id : ScopeId) : w.firstSlot id =
    if ∃ method vars, (w.scope id).kind = .method method false vars then 1 else 0 := by
  rw [firstSlot]
  split <;> simp_all

def slotOf (w : World) (var : LocalId) : Option Nat := (w.localVar var).slot

/-- A method or block scope lies directly in another scope. -/
def HoldsScope (w : World) (id inner : ScopeId) : Prop := inner ∈ (w.scope id).children ∧ (w.scope inner).isLocal

/-- A scope is the other one or lies in it, with method and block scopes only in between. -/
def Encloses (w : World) : ScopeId → ScopeId → Prop := ReflTransGen w.HoldsScope

/-- The scope of one of the variables encloses the scope of the other, so both can be in use at the same time. -/
def Coexist (w : World) (var other : LocalId) : Prop :=
  w.Encloses (w.localVar var).scope (w.localVar other).scope ∨
    w.Encloses (w.localVar other).scope (w.localVar var).scope

/-- The arguments and the used variables of a scope and of the method and block scopes in it. -/
def LiveUnder (w : World) (id : ScopeId) (var : LocalId) : Prop :=
  (w.localVar var).isLive ∧ ∃ inner, w.Encloses id inner ∧ var ∈ (w.scope inner).locals

/-- Each of the variables gets slots of its own in the range from `low` to `high`, and two of them share a slot only if
they never coexist. One of the variables is the last in the range, unless the range is empty. Nothing else changes. -/
structure Places (w u v : World) (vars : LocalId → Prop) (low high : Nat) : Prop where
  same : w.SameButSlots v
  kept : ∀ var, ¬ vars var → v.slotOf var = u.slotOf var
  placed : ∀ var, vars var → ∃ slot, v.slotOf var = some slot ∧ low ≤ slot ∧ slot + w.width var ≤ high
  apart : ∀ var other, vars var → vars other → var ≠ other → w.Coexist var other → ∀ slot slot',
    v.slotOf var = some slot → v.slotOf other = some slot' → slot + w.width var ≤ slot' ∨ slot' + w.width other ≤ slot
  le : low ≤ high
  reached : high = low ∨ ∃ var slot, vars var ∧ v.slotOf var = some slot ∧ slot + w.width var = high

theorem SameButSlots.scope (h : w.SameButSlots v) (id : ScopeId) : v.scope id = w.scope id := by rw [h.world]; rfl

theorem SameButSlots.width (h : w.SameButSlots v) (var : LocalId) : v.width var = w.width var := by
  have ht : (v.localVar var).type = (w.localVar var).type := (congrArg LocalInfo.type (h.unplaced var) :)
  rw [World.width, World.width, localWidth, localWidth, ht, h.world]
  rfl

namespace Places

theorem none (h : w.SameButSlots u) (low : Nat) : Places w u u (fun _ => False) low low :=
  ⟨h, fun _ _ => rfl, nofun, nofun, Nat.le_refl _, .inl rfl⟩

theorem single (h : w.SameButSlots u) (hv : var.index < u.locals.size) (low : Nat) :
    Places w u (u.modifyLocal var fun info => { info with slot := some low }) (· = var) low (low + w.width var) := by
  have hs : (u.modifyLocal var fun info => { info with slot := some low }).slotOf var = some low := by
    rw [slotOf, localVar, modifyLocal, getD_modify, if_pos ⟨rfl, hv⟩]
  refine ⟨h.place var (some low), fun other ho => ?_, ?_, fun other other' ho ho' hne => ?_,
    Nat.le_add_right .., .inr ⟨var, low, rfl, hs, rfl⟩⟩
  · rw [slotOf, localVar, modifyLocal, getD_modify, if_neg, slotOf, localVar]
    exact fun heq => ho (by cases var; cases other; simp_all)
  · rintro _ rfl
    exact ⟨low, hs, Nat.le_refl _, Nat.le_refl _⟩
  · exact absurd (ho.trans ho'.symm) hne

/-- Variables that are placed later leave those before them where they are. They begin at the first free slot, or at
the same slot if none of them coexists with those before. -/
theorem join (h1 : Places w u v vars low mid) (h2 : Places w v x others top high)
    (ht : top = mid ∨ top = low ∧ ∀ var other, vars var → others other → ¬ w.Coexist var other)
    (hd : ∀ var, vars var → ¬ others var) : Places w u x (fun var => vars var ∨ others var) low (max mid high) := by
  have hle := h1.le
  have hk : ∀ var, vars var → x.slotOf var = v.slotOf var := fun var hv => h2.kept var (hd var hv)
  have hc : ∀ var other, vars var → others other → w.Coexist var other → ∀ slot slot', x.slotOf var = some slot →
      x.slotOf other = some slot' → slot + w.width var ≤ slot' := by
    intro var other hv ho hb slot slot' hs hs'
    obtain rfl : top = mid := ht.resolve_right fun h => h.2 var other hv ho hb
    obtain ⟨_, hp, -, he⟩ := h1.placed var hv
    obtain ⟨_, hp', hbe, -⟩ := h2.placed other ho
    cases hp.symm.trans ((hk var hv).symm.trans hs)
    cases hp'.symm.trans hs'
    omega
  refine ⟨h2.same, fun var hv => ?_, fun var hv => ?_, fun var other hv ho hne hb slot slot' hs hs' => ?_, by omega, ?_⟩
  · rw [not_or] at hv
    exact (h2.kept var hv.2).trans (h1.kept var hv.1)
  · obtain hv | hv := hv
    · obtain ⟨slot, hs, hl, hh⟩ := h1.placed var hv
      exact ⟨slot, (hk var hv).trans hs, hl, by omega⟩
    · obtain ⟨slot, hs, hl, hh⟩ := h2.placed var hv
      exact ⟨slot, hs, by omega, by omega⟩
  · obtain hv | hv := hv <;> rcases ho with ho | ho
    · exact h1.apart var other hv ho hne hb slot slot' (hk var hv ▸ hs) (hk other ho ▸ hs')
    · exact .inl (hc var other hv ho hb slot slot' hs hs')
    · exact .inr (hc other var ho hv hb.symm slot' slot hs' hs)
    · exact h2.apart var other hv ho hne hb slot slot' hs hs'
  · by_cases hm : high ≤ mid
    · rw [Nat.max_eq_left hm]
      refine h1.reached.imp_right fun ⟨var, slot, hv, hs, he⟩ => ?_
      exact ⟨var, slot, .inl hv, (hk var hv).trans hs, he⟩
    · rw [Nat.max_eq_right (by omega)]
      obtain heq | ⟨var, slot, hv, hs⟩ := h2.reached
      · omega
      · exact .inr ⟨var, slot, .inr hv, hs⟩

theorem congr (h : Places w u v vars low high) (hv : ∀ var, others var ↔ vars var) : Places w u v others low high := by
  obtain rfl : others = vars := funext fun var => propext (hv var)
  exact h

end Places

theorem placeLocals_places (h : w.SameButSlots u) {ids : List LocalId} (hi : ids.Nodup)
    (hk : ∀ var ∈ ids, var.index < u.locals.size) (low : Nat) :
    Places w u (u.placeLocals low ids).2 (fun var => var ∈ ids ∧ (w.localVar var).isLive) low
      (u.placeLocals low ids).1 := by
  induction ids generalizing u low with
  | nil => exact (Places.none h low).congr (by simp)
  | cons first rest ih =>
    rw [List.nodup_cons] at hi
    rw [List.forall_mem_cons] at hk
    have hl : (u.localVar first).isLive = (w.localVar first).isLive := (congrArg LocalInfo.isLive (h.unplaced first) :)
    rw [placeLocals, ← LocalInfo.isLive, hl]
    dsimp only
    split
    · next hf =>
      have hp := Places.single h hk.1 low
      have hs : (u.modifyLocal first fun info => { info with slot := some low }).locals.size = u.locals.size :=
        Array.size_modify
      have hwi : (u.modifyLocal first fun info => { info with slot := some low }).localWidth (u.localVar first) =
          w.width first := h.width first
      rw [hwi]
      have hr := ih hp.same hi.2 (hs ▸ hk.2) (low + w.width first)
      have hj := hp.join hr (.inl rfl) (by rintro _ rfl hm; exact hi.1 hm.1)
      rw [Nat.max_eq_right hr.le] at hj
      refine hj.congr fun var => ?_
      grind
    rename_i hd
    refine (ih h hi.2 hk.2 low).congr fun var => ?_
    grind

theorem liveUnder_iff : w.LiveUnder id var ↔ (var ∈ (w.scope id).locals ∧ (w.localVar var).isLive) ∨
    ∃ inner ∈ (w.scope id).children, (w.scope inner).isLocal ∧ w.LiveUnder inner var := by
  constructor
  · rintro ⟨hli, inner, hi, hv⟩
    obtain rfl | ⟨first, ⟨hm, hl⟩, hr⟩ := hi.cases_head
    · exact .inl ⟨hv, hli⟩
    · exact .inr ⟨first, hm, hl, hli, inner, hr, hv⟩
  · rintro (⟨hv, hli⟩ | ⟨first, hm, hl, hli, inner, hi, hv⟩)
    · exact ⟨hli, id, .refl, hv⟩
    · exact ⟨hli, inner, .head ⟨hm, hl⟩ hi, hv⟩

namespace Nested

variable (hw : w.Nested) {second first : ScopeId}

include hw

theorem le_of_encloses (h : w.Encloses id inner) : id.index ≤ inner.index := by
  induction h with
  | refl => exact Nat.le_refl _
  | tail _ hs ih => exact ih.trans (Nat.le_of_lt ((hw _).child _ hs.1).1)

theorem not_encloses (h : w.HoldsScope id inner) : ¬ w.Encloses inner id := fun hb =>
  absurd (hw.le_of_encloses hb) (Nat.not_le_of_lt ((hw id).child inner h.1).1)

theorem encloses_scope (h : w.LiveUnder id var) : w.Encloses id (w.localVar var).scope := by
  obtain ⟨-, inner, hi, hv⟩ := h
  rwa [((hw inner).declared var hv).2]

/-- Of the scopes that enclose a scope, only one lies directly in a given scope. -/
theorem eq_of_encloses (hf : w.HoldsScope id first) (hs : w.HoldsScope id second)
    (h1 : w.Encloses first inner) (h2 : w.Encloses second inner) : first = second := by
  have hp : ∀ {a b}, w.HoldsScope a b → (w.scope b).parent = some a := fun h => ((hw _).child _ h.1).2
  have hu : Relator.RightUnique (Function.swap w.HoldsScope) := fun _ _ _ ha hb =>
    Option.some.inj ((hp ha).symm.trans (hp hb))
  have hbe : ∀ {a b}, w.HoldsScope id a → w.HoldsScope id b → ReflTransGen (Function.swap w.HoldsScope) a b →
      a = b := by
    intro a b ha hb h
    obtain heq | ⟨c, hc, hr⟩ := h.cases_head
    · exact heq
    · cases hu hc ha
      exact absurd (reflTransGen_swap.1 hr) (hw.not_encloses hb)
  obtain h | h := ReflTransGen.total_of_right_unique hu (reflTransGen_swap.2 h1) (reflTransGen_swap.2 h2)
  · exact hbe hf hs h
  · exact (hbe hs hf h).symm

theorem not_coexist (hf : w.HoldsScope id first) (hs : w.HoldsScope id second)
    (hne : first ≠ second) (hv : w.LiveUnder first var) (ho : w.LiveUnder second other) :
    ¬ w.Coexist var other := by
  have hv := hw.encloses_scope hv
  have ho := hw.encloses_scope ho
  rintro (hi | hi)
  · exact hne (hw.eq_of_encloses hf hs (hv.trans hi) ho)
  · exact hne (hw.eq_of_encloses hf hs hv (ho.trans hi))

/-- Each of the inner scopes begins at the same slot. -/
theorem placeInner_places {place : ScopeId → World → Nat × World}
    (hp : ∀ inner ∈ (w.scope id).children, ∀ u, w.SameButSlots u →
      Places w u (place inner u).2 (w.LiveUnder inner) low (place inner u).1)
    {inners : List ScopeId} (hs : ∀ inner ∈ inners, inner ∈ (w.scope id).children) (hn : inners.Nodup)
    (hu : w.SameButSlots u) {state : Nat × World} (hst : state = inners.foldl (fun state inner =>
      if (state.2.scope inner).isLocal then (max state.1 (place inner state.2).1, (place inner state.2).2) else state)
        (low, u)) :
    Places w u state.2 (fun var => ∃ inner ∈ inners, (w.scope inner).isLocal ∧ w.LiveUnder inner var) low state.1 := by
  subst hst
  induction inners using List.reverseRecOn with
  | nil => exact (Places.none hu low).congr (by simp)
  | append_singleton inners last ih =>
    rw [List.nodup_append] at hn
    have hd := ih (fun inner hm => hs inner (List.mem_append_left _ hm)) hn.1
    rw [List.foldl_append, List.foldl_cons, List.foldl_nil]
    generalize inners.foldl _ (low, u) = state at hd
    rw [hd.same.scope]
    split
    · next hl =>
      have hla : w.HoldsScope id last := ⟨hs last (by simp), hl⟩
      have ha : ∀ var other, (∃ inner ∈ inners, (w.scope inner).isLocal ∧ w.LiveUnder inner var) →
          w.LiveUnder last other → ¬ w.Coexist var other := by
        rintro var other ⟨inner, hm, hi, hv⟩ ho
        exact hw.not_coexist ⟨hs inner (List.mem_append_left _ hm), hi⟩ hla (hn.2.2 inner hm last (by simp)) hv ho
      refine (hd.join (hp last hla.1 _ hd.same) (.inr ⟨rfl, ha⟩)
        fun var hv ho => ha var var hv ho (.inl .refl)).congr fun var => ?_
      simp [or_and_right, exists_or, hl]
    rename_i ho
    refine hd.congr fun var => ?_
    simp [or_and_right, exists_or, ho]

theorem placeScopes_places (hf : w.scopes.size < id.index + fuel) (hu : w.SameButSlots u) (low : Nat) :
    Places w u (placeScopes fuel id low u).2 (w.LiveUnder id) low (placeScopes fuel id low u).1 := by
  induction fuel generalizing id low u with
  | zero =>
    have hs : w.scope id = default := by
      rw [World.scope, Array.getD_eq_getD_getElem?, Array.getElem?_eq_none (by omega)]
      rfl
    refine (Places.none hu low).congr fun var => ?_
    rw [liveUnder_iff, hs]
    simp [show (default : Scope).locals = [] from rfl, show (default : Scope).children = [] from rfl]
  | succ fuel ih =>
    rw [placeScopes]
    dsimp only
    rw [hu.scope]
    have how := placeLocals_places hu (hw id).vars (fun var hv => hu.size ▸ ((hw id).declared var hv).1) low
    generalize u.placeLocals low (w.scope id).locals = state at how
    obtain ⟨mid, v⟩ := state
    have hi := hw.placeInner_places
      (fun inner hm x hx => ih (by have := ((hw id).child inner hm).1; omega) hx mid) (fun _ hm => hm)
      (hw id).children how.same rfl
    have hj := how.join hi (.inl rfl) ?_
    · rw [Nat.max_eq_right hi.le] at hj
      exact hj.congr fun var => liveUnder_iff
    · rintro var hv ⟨inner, hm, hl, ho⟩
      have hs := ((hw id).declared var hv.1).2
      exact hw.not_encloses ⟨hm, hl⟩ (hs ▸ hw.encloses_scope ho)

end Nested

/-- From the first slot on, placing gives slots to the arguments and the used variables of a scope and of the method and
block scopes in it, and it returns the number of slots. -/
theorem Reachable.placeAllLocals_places (h : w.Reachable) {count : Nat} (hrun : placeAllLocals id w = (count, v)) :
    Places w w v (w.LiveUnder id) (w.firstSlot id) count := by
  have hfuel : w.scopes.size < id.index + (w.scopes.size + 1) := by omega
  have hplaces := h.nested.placeScopes_places hfuel (.refl w) (w.firstSlot id)
  rwa [show placeScopes (w.scopes.size + 1) id (w.firstSlot id) w = (count, v) from hrun] at hplaces

theorem placeAllLocals_places_cabin :
    ∃ v, placeAllLocals ⟨2⟩ cabinWorld = (4, v) ∧ cabinWorld.firstSlot ⟨2⟩ = 1 ∧
      Places cabinWorld cabinWorld v (cabinWorld.LiveUnder ⟨2⟩) 1 4 := by
  have hcount : (placeAllLocals ⟨2⟩ cabinWorld).1 = 4 ∧ cabinWorld.firstSlot ⟨2⟩ = 1 := by decide +kernel
  generalize hrun : placeAllLocals ⟨2⟩ cabinWorld = result at hcount ⊢
  obtain ⟨count, v⟩ := result
  obtain ⟨rfl, hfirst⟩ : count = 4 ∧ _ := hcount
  exact ⟨v, rfl, hfirst, hfirst ▸ reachable_cabinWorld.placeAllLocals_places hrun⟩

/-- The number of variables in a scope and in those after it. -/
def localsFrom (w : World) (first : Nat) : Nat :=
  ∑ index ∈ Finset.Ico first w.scopes.size, (w.scope ⟨index⟩).locals.length

theorem localsFrom_anti {first later : Nat} (h : first ≤ later) : w.localsFrom later ≤ w.localsFrom first :=
  Finset.sum_le_sum_of_subset (Finset.Ico_subset_Ico_left h)

theorem length_locals_le (w : World) (id : ScopeId) :
    (w.scope id).locals.length + w.localsFrom (id.index + 1) ≤ w.localsFrom id.index := by
  by_cases hid : id.index < w.scopes.size
  · rw [localsFrom, localsFrom, Finset.sum_eq_sum_Ico_succ_bot hid]
  · have hnone : (w.scope id).locals = [] := by
      rw [World.scope, Array.getD_eq_getD_getElem?, Array.getElem?_eq_none (by omega)]
      rfl
    rw [hnone, List.length_nil, Nat.zero_add]
    exact localsFrom_anti (Nat.le_succ _)

theorem placeLocals_le (u : World) (low : Nat) (ids : List LocalId) :
    (u.placeLocals low ids).1 ≤ low + 2 * ids.length := by
  induction ids generalizing u low with
  | nil => exact Nat.le_refl _
  | cons first rest ih =>
    rw [placeLocals, List.length_cons]
    dsimp only
    split
    · refine (ih ..).trans ?_
      rw [localWidth]
      split <;> omega
    · refine (ih u low).trans (by omega)

theorem Nested.placeScopes_le (hw : w.Nested) (hu : w.SameButSlots u) (fuel : Nat) (id : ScopeId) (low : Nat) :
    (placeScopes fuel id low u).1 ≤ low + 2 * w.localsFrom id.index := by
  induction fuel generalizing id low u with
  | zero => exact Nat.le_add_right ..
  | succ fuel ih =>
    have hown := u.placeLocals_le low (w.scope id).locals
    have hlater := w.length_locals_le id
    rw [placeScopes]
    dsimp only
    rw [hu.scope]
    refine (List.foldlRecOn (motive := fun state : Nat × World => state.1 ≤ low + 2 * w.localsFrom id.index ∧
      w.SameButSlots state.2) _ _ ⟨by omega, hu.trans (u.placeLocals_same ..)⟩ ?_).1
    intro state hstate inner hinner
    split
    · have hle : w.localsFrom inner.index ≤ w.localsFrom (id.index + 1) := localsFrom_anti ((hw id).child inner hinner).1
      refine ⟨max_le hstate.1 ((ih hstate.2 ..).trans ?_), hstate.2.trans (placeScopes_same ..)⟩
      omega
    · exact hstate

/-- With fewer than `2 ^ 31` variables, slots stay below `2 ^ 32`. -/
theorem Reachable.placeAllLocals_lt (h : w.Reachable) (hlocals : w.localsFrom 0 < 2 ^ 31) (id : ScopeId) :
    (placeAllLocals id w).1 < 2 ^ 32 := by
  have hle := h.nested.placeScopes_le (.refl w) (w.scopes.size + 1) id (w.firstSlot id)
  have hfrom := localsFrom_anti (w := w) (Nat.zero_le id.index)
  have hfirst : w.firstSlot id ≤ 1 := by
    rw [firstSlot]
    split <;> omega
  change (placeScopes _ _ _ _).1 < _
  omega

end World
end Bindings
