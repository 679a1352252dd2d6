import Bindings.Proofs.Signature.Types

/-! # Reading and writing signatures -/

namespace Bindings

namespace Signature

variable {n : Nat} {text rest : List Char} {params : List ParamSig} {α : Type} {spells : α → List Char → Prop}
  {read : Nat → List Char → Except Fault α}

theorem toList_printMarked (mark : Char) (types : List TypeSig) :
    (TypeSig.printMarked mark.toString types).toList = markedText mark (·.print.toList) types := by
  simp [TypeSig.printMarked, markedText, String.toList_join, List.flatMap_map, Char.toString]

theorem toList_printMarked_empty (types : List TypeSig) :
    (TypeSig.printMarked "" types).toList = types.flatMap (·.print.toList) := by
  simp [TypeSig.printMarked, String.toList_join, List.flatMap_map]

def bounds (name : String) (fuel : Nat) : Reader ParamSig := fun text => do
  let (bound, text) ← classBound identifier fuel text
  let (interfaces, text) ← readMarked ':' (typeSig identifier fuel) fuel text
  .ok (⟨name, bound, interfaces⟩, text)

theorem bounds_colon (name : String) (fuel : Nat) (text : List Char) : bounds name (fuel + 1) (':' :: text) = (do
      let (first, text) ← typeSig identifier (fuel + 1) text
      let (rest, text) ← readMarked ':' (typeSig identifier (fuel + 1)) fuel text
      .ok (⟨name, none, first :: rest⟩, text)) := by
  show (readMarked ':' _ _ (':' :: text) >>= _) = _
  simp only [readMarked, if_pos, bind_assoc]
  rfl

theorem bounds_type (name : String) (fuel : Nat) (h : text.head? ≠ some ':') : bounds name fuel text = (do
      let (bound, text) ← typeSig identifier fuel text
      let (interfaces, text) ← readMarked ':' (typeSig identifier fuel) fuel text
      .ok (⟨name, some bound, interfaces⟩, text)) := by
  cases text with
  | nil => cases fuel <;> rfl
  | cons c text =>
    rw [bounds, classBound.eq_3 _ _ _ (by simp) fun _ hc => h (congrArg List.head? hc), bind_assoc]
    rfl

/-- What may stand after the first `:` of a type parameter. -/
abbrev Bounded (name : String) : ParamSig → List Char → Prop :=
  Spelt (fun param => param.bounds ≠ [] ∧ (∀ bound ∈ param.bounds, bound.WellFormed) ∧ param.name = name) fun param =>
    ((param.classBound.map TypeSig.print).getD "").toList ++ markedText ':' (·.print.toList) param.interfaceBounds

theorem bounds_parses (name : String) : Parses n give (bounds name) (Bounded name) (· ≠ ':') := by
  intro text ht
  have hp : Parses n give (fun fuel => typeSig identifier (fuel + 1)) TypeText fun _ => True :=
    fun text ht => (typeSig_parses text ht).shift 1
  by_cases h : text.head? = some ':'
  · obtain ⟨text, rfl⟩ := List.head?_eq_some_iff.1 h
    refine .cons (fun fuel other _ => bounds_colon name fuel other) (hp.andThen (fun first =>
      .bind (.marked (by decide) hp trivial) (fun rest => .ret (⟨name, none, first :: rest⟩ : ParamSig)) ?_)
      text (Nat.le_of_succ_le ht)) ?_ (by simp)
    · rintro _ _ _ _ ⟨⟨-, rfl⟩, after, rfl, ha⟩
      exact fun c hc => ⟨trivial, ha c hc⟩
    rintro ⟨name, bound, interfaces⟩ part
    cases bound with
    | none => cases interfaces <;> simp [markedText, and_assoc]
    | some bound =>
      refine iff_of_false ?_ (by simp)
      rintro ⟨⟨-, hb, -⟩, he⟩
      obtain ⟨c, more, hc, hs⟩ := print_cons (hb bound (by simp))
      simp only [Option.map_some, Option.getD_some, hc] at he
      exact startsType_ne hs rfl (List.cons.inj he).1.symm
  refine .congr (fun fuel other ha _ => bounds_type name fuel ((ha.2 ':' (by decide)).not.1 h))
    (Stops.imp (Parses.andThen typeSig_parses (fun bound => .bind (.marked (by decide) typeSig_parses trivial)
    (fun rest => .ret (⟨name, some bound, rest⟩ : ParamSig)) ?_) text ht) ?_ ?_)
  · rintro _ _ _ _ ⟨⟨-, rfl⟩, after, rfl, ha⟩
    exact fun c hc => ⟨trivial, ha c hc⟩
  · rintro _ _ ⟨bound, _, _, ⟨hb, rfl⟩, ⟨rest, _, _, ⟨hr, rfl⟩, ⟨rfl, rfl⟩, rfl⟩, rfl⟩
    exact ⟨⟨by simp, by simpa using ⟨hb, hr⟩, rfl⟩, by simp⟩
  rintro ⟨name, bound, interfaces⟩ part ⟨hp, after, rfl, -⟩
  cases bound with
  | none =>
    cases interfaces with
    | nil => simp at hp
    | cons bound interfaces => simp [hp.2, markedText] at h
  | some bound => simpa [and_assoc] using hp

theorem toList_printParam (param : ParamSig) : param.print.toList =
    param.name.toList ++ ':' :: (((param.classBound.map TypeSig.print).getD "").toList ++
      markedText ':' (·.print.toList) param.interfaceBounds) := by
  simp [ParamSig.print, ← toList_printMarked, Char.toString]

theorem typeParam_parses :
    Parses n give (typeParam identifier) (Spelt ParamSig.WellFormed (·.print.toList)) (· ≠ ':') := by
  refine .of_iff (.bind name_parses (fun name => .andThen (token_parses (by decide)) fun _ => bounds_parses name) ?_) ?_
  · rintro _ _ _ _ ⟨⟨_, _, _, rfl, -, rfl⟩, after, rfl, -⟩
    simp [isDelimiter]
  · intro param part
    simp [ParamSig.WellFormed, toList_printParam, and_assoc]

theorem toList_printParams (h : params ≠ []) :
    (ParamSig.printAll params).toList = '<' :: (params.flatMap (·.print.toList) ++ ['>']) := by
  cases params with
  | nil => exact absurd rfl h
  | cons param params => simp [ParamSig.printAll, String.toList_join, List.flatMap_map]

/-- The texts in front of a signature with these type parameters. -/
def IsFront (params : List ParamSig) (front : List Char) : Prop :=
  (∀ param ∈ params, param.WellFormed) ∧ (front = (ParamSig.printAll params).toList ∨ params = [] ∧ front = ['<', '>'])

theorem typeParams_parses : Parses n give (typeParams identifier) IsFront (· ≠ '<') := by
  intro text ht
  by_cases h : text.head? = some '<'
  · obtain ⟨text, rfl⟩ := List.head?_eq_some_iff.1 h
    have hw : ∀ param : ParamSig, param.WellFormed → Begins (fun c => c ≠ '>' ∧ c ≠ ':') param.print.toList := by
      -- A parameter starts with a name, so it is not taken for a bound of the one before it.
      intro param hp
      obtain ⟨c, rest, hc, hd⟩ := hp.1.toList_cons
      refine ⟨c, _, by rw [toList_printParam, hc, List.cons_append], ?_, ?_⟩ <;>
      · rintro rfl
        cases hd
    have hp := Parses.until (by decide) typeParam_parses (by decide) hw text (Nat.le_of_succ_le ht)
    refine .cons (fun _ _ _ => typeParams.eq_1 ..) ((hp.mono fun _ _ => trivial).shift 1) ?_ ?_
    · intro params part
      cases params with
      | nil => simp [IsFront, ParamSig.printAll]
      | cons param params => simp [IsFront, toList_printParams]
    · simp
  refine .skip [] (fun fuel other ha => typeParams.eq_2 _ _ _ (ha.ne_cons (by decide) h))
    ⟨by simp, .inl (by simp [ParamSig.printAll])⟩ ?_
  rintro params _ ⟨⟨-, rfl | ⟨-, rfl⟩⟩, after, rfl, -⟩
  · cases params with
    | nil => simp [ParamSig.printAll]
    | cons param params => simp [toList_printParams] at h
  · simp at h

/-- Types up to the end of the text, and what is made of them. -/
def typesThen (make : List TypeSig → α) (fuel : Nat) (text : List Char) : Except Fault α := do
  let types ← typesToEnd identifier (fuel + 1) text
  .ok (make types)

def Made (make : List TypeSig → α) (value : α) (part : List Char) : Prop :=
  ∃ types : List TypeSig, (∀ type ∈ types, type.WellFormed) ∧ value = make types ∧ part = types.flatMap (·.print.toList)

theorem Stops.types (make : TypeSig → List TypeSig → α)
    (h : ∀ rest make, rest.length ≤ text.length - 1 →
      Stops finish (typesThen make) (Made (α := α) make) (fun _ => False) rest) :
    Stops finish (fun fuel text => do
        let (type, text) ← typeSig identifier fuel text
        let rest ← typesToEnd identifier fuel text
        .ok (make type rest))
      (Seq TypeText fun type => Made (make type)) (fun _ => False) text := by
  refine .step (typeSig_parses text le_rfl) ?_ fun _ _ _ _ _ _ _ => trivial
  rintro type _ rest ⟨hw, rfl⟩ hl
  obtain ⟨c, more, hc, -⟩ := print_cons hw
  simp only [hc, List.length_cons] at hl ⊢
  exact (h rest (make type) (by omega)).shift more.length

theorem typesThen_parses (make : List TypeSig → α) : Parses n finish (typesThen make) (Made make) fun _ => False := by
  induction n using Nat.strong_induction_on generalizing make with
  | h n ih =>
    intro text ht
    by_cases h : text = []
    · subst h
      refine .skip (make []) (fun fuel other ha => by rw [ha.1.1 rfl]; rfl) ⟨[], by simp⟩ ?_
      rintro _ _ ⟨⟨types, hw, rfl, rfl⟩, after, he, -⟩
      cases types with
      | nil => exact ⟨rfl, rfl⟩
      | cons type types =>
        obtain ⟨c, rest, hc, -⟩ := print_cons (hw type (by simp))
        simp [hc] at he
    have hp := List.length_pos_iff.2 h
    refine .congr (fun fuel other ha _ => ?_) (.imp (.types (fun type types => make (type :: types))
      fun rest make hl => ih rest.length (by omega) make rest le_rfl) ?_ ?_)
    · rw [typesThen, typesToEnd.eq_3 _ _ _ (mt ha.1.2 h)]
      simp only [bind_assoc]
      rfl
    · rintro _ _ ⟨type, _, _, ⟨ht, rfl⟩, ⟨types, hw, rfl, rfl⟩, rfl⟩
      exact ⟨type :: types, by simpa using ⟨ht, hw⟩, rfl, by simp⟩
    · rintro _ _ ⟨⟨types, hw, rfl, rfl⟩, after, rfl, ha⟩
      cases types with
      | nil =>
        cases after with
        | nil => exact absurd rfl h
        | cons c after => exact (ha c rfl).elim
      | cons type types =>
        exact ⟨type, _, _, ⟨hw type (by simp), rfl⟩, ⟨types, fun t hm => hw t (by simp [hm]), rfl, rfl⟩, by simp⟩

theorem fieldSig_parses : Parses n finish (fieldSig identifier) TypeText fun _ => False := by
  refine .of_iff (typeSig_parses.andThen fun type => .ret type) fun type part => ?_
  simp [and_assoc]

/-- The texts of a method or class signature, which may begin with an empty list of type parameters. -/
def Fronted (good : α → Prop) (params : α → List ParamSig) (write : α → String) (sig : α) (text : List Char) : Prop :=
  good sig ∧ (text = (write sig).toList ∨ params sig = [] ∧ text = ("<>" ++ write sig).toList)

theorem methodSig_parses : Parses n finish (methodSig identifier)
    (Fronted MethodSig.WellFormed (·.typeParams) MethodSig.print) fun _ => False := by
  refine .of_iff (.bind typeParams_parses (fun params => .andThen (token_parses (by decide)) fun _ =>
    .andThen (.until (by decide) typeSig_parses trivial ?_) fun types => .andThen typeSig_parses fun result =>
    .bind (.marked (by decide) typeSig_parses trivial)
      (fun thrown => .ret (⟨params, types, result, thrown⟩ : MethodSig)) ?_) ?_) ?_
  · intro type hw
    obtain ⟨c, rest, hc, hs⟩ := print_cons hw
    exact ⟨c, rest, hc, startsType_ne hs rfl, trivial⟩
  · rintro _ _ _ _ ⟨⟨-, rfl⟩, after, rfl, ha⟩
    exact fun c hc => (ha c hc).elim
  · rintro _ _ _ _ ⟨⟨_, _, _, rfl, -, rfl⟩, after, rfl, -⟩
    simp
  · rintro ⟨params, types, result, thrown⟩ part
    cases params <;> simp [Fronted, IsFront, and_assoc, or_and_right, and_or_left, exists_or,
      MethodSig.WellFormed, MethodSig.print, ParamSig.printAll, toList_printMarked_empty, ← toList_printMarked,
      Char.toString]

theorem classSig_parses : Parses n finish (classSig identifier)
    (Fronted ClassSig.WellFormed (·.typeParams) ClassSig.print) fun _ => False := by
  refine .of_iff (.bind typeParams_parses (fun params text _ =>
    .types (fun superclass interfaces => (⟨params, superclass, interfaces⟩ : ClassSig))
      fun rest make _ => typesThen_parses make rest le_rfl) ?_) ?_
  · rintro _ _ _ _ ⟨⟨type, _, _, ⟨hw, rfl⟩, -, rfl⟩, after, rfl, -⟩
    obtain ⟨c, rest, hc, hs⟩ := print_cons hw
    simpa [hc] using startsType_ne hs rfl
  · rintro ⟨params, superclass, interfaces⟩ part
    cases params <;> simp [Made, Fronted, IsFront, and_assoc, or_and_right, and_or_left, exists_or,
      ClassSig.WellFormed, ClassSig.print, ParamSig.printAll, toList_printMarked_empty]

theorem parse_eq (text : String) :
    parse read text = (read (text.toList.length + 1) text.toList).mapError (·.toError text) := by
  rw [parse]
  cases read (text.toList.length + 1) text.toList <;> rfl

theorem parse_ok_iff (h : ∀ n, Parses n finish read spells fun _ => False) {text : String} {value : α} :
    parse read text = .ok value ↔ spells value text.toList := by
  obtain ⟨done, rest, found, hs⟩ := h _ text.toList le_rfl
  have hr := hs.reads (text.toList.length + 1) rest ⟨.rfl, fun _ _ => .rfl⟩
    (by rw [hs.parts, List.length_append]; omega)
  rw [← hs.parts] at hr
  rw [parse_eq, hr]
  constructor
  · intro hv
    cases found with
    | none => cases hv
    | some v =>
      cases rest with
      | nil =>
        cases hv
        rw [hs.parts, List.append_nil]
        exact hs.spelt value rfl
      | cons c rest => cases hv
  · intro hv
    obtain ⟨hd, rfl⟩ := hs.unique value _ ⟨hv, [], (List.append_nil _).symm, by simp⟩
    obtain rfl := List.append_right_eq_self.1 (hs.parts.symm.trans hd)
    rfl

end Signature

open Signature

/-- Reading is the exact inverse of writing: a text is read as a signature if and only if the
signature is well formed and the text is its own, up to an empty list of type parameters that may
stand in front of a method or class signature. -/
theorem parse_eq_ok_iff_print :
    (∀ text type, TypeSig.parse text = .ok type ↔ type.WellFormed ∧ text = type.print) ∧
    (∀ text sig, MethodSig.parse text = .ok sig ↔
      sig.WellFormed ∧ (text = sig.print ∨ sig.typeParams = [] ∧ text = "<>" ++ sig.print)) ∧
    (∀ text sig, ClassSig.parse text = .ok sig ↔
      sig.WellFormed ∧ (text = sig.print ∨ sig.typeParams = [] ∧ text = "<>" ++ sig.print)) := by
  refine ⟨fun text type => ?_, fun text sig => ?_, fun text sig => ?_⟩
  · rw [TypeSig.parse, parse_ok_iff fun _ => fieldSig_parses, TypeText, Spelt, String.toList_inj]
  · rw [MethodSig.parse, parse_ok_iff fun _ => methodSig_parses, Fronted, String.toList_inj, String.toList_inj]
  · rw [ClassSig.parse, parse_ok_iff fun _ => classSig_parses, Fronted, String.toList_inj, String.toList_inj]

end Bindings
