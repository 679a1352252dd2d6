import Bindings.Proofs.Signature.Readers

/-! # Reading types -/

namespace Bindings

theorem ArgSig.allWellFormed_iff {args : List ArgSig} : AllWellFormed args ↔ ∀ arg ∈ args, arg.WellFormed := by
  induction args with
  | nil => simp [AllWellFormed]
  | cons arg args ih => simp [AllWellFormed, ih]

theorem InnerSig.allWellFormed_iff {inner : List InnerSig} :
    AllWellFormed inner ↔ ∀ member ∈ inner, member.WellFormed := by
  induction inner with
  | nil => simp [AllWellFormed]
  | cons member inner ih => simp [AllWellFormed, ih]

namespace Signature

variable {n : Nat} {c : Char} {type : TypeSig} {arg : ArgSig} {args : List ArgSig} {next : Char → Prop}

/-- The text of a member after its `.`. -/
def innerText (inner : InnerSig) : List Char := inner.name.toList ++ (ArgSig.printAll inner.arguments).toList

theorem toList_printArguments (h : args ≠ []) :
    (ArgSig.printAll args).toList = '<' :: (args.flatMap (·.print.toList) ++ ['>']) := by
  have ht : ∀ args, (ArgSig.printTail args).toList = args.flatMap (·.print.toList) := by
    intro args
    induction args with
    | nil => simp [ArgSig.printTail]
    | cons arg args ih => simp [ArgSig.printTail, ih]
  cases args with
  | nil => exact absurd rfl h
  | cons arg args => simp [ArgSig.printAll, ht]

theorem toList_printInner (inner : List InnerSig) :
    (InnerSig.printAll inner).toList = markedText '.' innerText inner := by
  induction inner with
  | nil => simp [InnerSig.printAll, markedText]
  | cons member inner ih =>
    cases member
    simp [InnerSig.printAll, InnerSig.print, ih, markedText, innerText, InnerSig.name, InnerSig.arguments]

theorem print_ne (hc : startsType c = false) {part : List Char} :
    type.WellFormed → ¬ c :: part = type.print.toList := by
  intro h hp
  obtain ⟨d, rest, hd, hs⟩ := print_cons h
  rw [hd] at hp
  exact startsType_ne hs hc (List.cons.inj hp).1.symm

theorem printBase_ne {base : BaseType} (hc : BaseType.ofDescriptor? c = none) {part : List Char} :
    ¬ base = .null → ¬ c :: part = ((base.descriptor?.map Char.toString).getD "").toList := by
  intro h hp
  obtain ⟨d, hd, hb, -⟩ := exists_descriptor h
  obtain ⟨rfl, -⟩ := List.cons.inj (hp.trans (show _ = [d] by simp [hd, Char.toString]))
  rw [hc] at hb
  cases hb

theorem begins_argument (arg : ArgSig) (h : arg.WellFormed) : Begins (fun c => c ≠ '>' ∧ True) arg.print.toList := by
  cases arg with
  | unbounded => exact ⟨'*', [], by simp, by decide⟩
  | upper bound => exact ⟨'+', _, by simp; rfl, by decide⟩
  | lower bound => exact ⟨'-', _, by simp; rfl, by decide⟩
  | exactly type =>
    obtain ⟨c, text, ht, hc⟩ := print_cons h
    exact ⟨c, text, by rw [ArgSig.print, ht], startsType_ne hc rfl, trivial⟩

abbrev TypeText : TypeSig → List Char → Prop := Spelt TypeSig.WellFormed (·.print.toList)

section

variable {read : Nat → Reader TypeSig} (hread : Parses n give read TypeText fun _ => True)

include hread

theorem argument_parses : Parses n give (fun fuel => Signature.argument (read fuel))
    (Spelt ArgSig.WellFormed (·.print.toList)) fun _ => True := by
  intro text ht
  have hb : ∀ make : TypeSig → ArgSig, Parses n give
      (fun fuel rest => read fuel rest >>= fun found => .ok (make found.1, found.2))
      (Seq TypeText fun bound value part => value = make bound ∧ part = []) fun _ => True :=
    fun make => hread.andThen fun bound => .ret (make bound)
  have h0 : ∀ arg, Spelt ArgSig.WellFormed (·.print.toList) arg [] → ¬ True := by
    rintro arg ⟨h, hn⟩
    obtain ⟨_, _, ha, -⟩ := begins_argument arg h
    cases hn.trans ha
  by_cases hu : text.head? = some '*'
  · obtain ⟨text, rfl⟩ := List.head?_eq_some_iff.1 hu
    refine .cons (fun _ _ _ => argument.eq_1 ..) (.ret ArgSig.unbounded) (fun arg part => ?_) h0
    cases arg <;> simp
    exact print_ne rfl
  by_cases hup : text.head? = some '+'
  · obtain ⟨text, rfl⟩ := List.head?_eq_some_iff.1 hup
    refine .cons (fun _ _ _ => argument.eq_2 ..) ((hb .upper text (Nat.le_of_succ_le ht)).shift 1)
      (fun arg part => ?_) h0
    cases arg <;> simp
    exact print_ne rfl
  by_cases hl : text.head? = some '-'
  · obtain ⟨text, rfl⟩ := List.head?_eq_some_iff.1 hl
    refine .cons (fun _ _ _ => argument.eq_3 ..) ((hb .lower text (Nat.le_of_succ_le ht)).shift 1)
      (fun arg part => ?_) h0
    cases arg <;> simp
    exact print_ne rfl
  refine .imp (.congr (fun fuel other ha _ => argument.eq_4 _ _ (ha.ne_cons (by decide) hu) (ha.ne_cons (by decide) hup)
    (ha.ne_cons (by decide) hl)) (hb .exactly text ht)) ?_ ?_
  · rintro _ _ ⟨type, _, _, ⟨ht, rfl⟩, ⟨rfl, rfl⟩, rfl⟩
    exact ⟨ht, by simp⟩
  rintro arg _ ⟨⟨h, rfl⟩, after, rfl, -⟩
  cases arg with
  | exactly type => exact ⟨type, _, [], ⟨h, rfl⟩, ⟨rfl, rfl⟩, by simp⟩
  | _ => simp at hu hup hl

theorem typeArguments_parses : Parses n give (fun fuel => typeArguments (read fuel) fuel)
    (Spelt ArgSig.AllWellFormed fun args => (ArgSig.printAll args).toList) (· ≠ '<') := by
  intro text ht
  by_cases hlt : text.head? = some '<'
  · obtain ⟨text, rfl⟩ := List.head?_eq_some_iff.1 hlt
    have hs : ∀ args part, Spelt ArgSig.AllWellFormed (fun args => (ArgSig.printAll args).toList) args ('<' :: part) ↔
        args ≠ [] ∧ Closed ArgSig.WellFormed (·.print.toList) '>' args part := by
      intro args part
      cases args with
      | nil => simp [ArgSig.printAll]
      | cons arg args => simp [toList_printArguments, ArgSig.allWellFormed_iff]
    by_cases hgo : text ≠ [] ∧ text.head? ≠ some '>'
    · have hp := argument_parses fun text ht => (hread text ht).shift 1
      refine .cons (fun fuel other ha => (typeArguments.eq_2 _ _ _ (ha.ne_cons (by decide) hgo.2)).trans
        (readUntil_of_ne (mt ha.1.2 hgo.1) ((ha.2 '>' (by decide)).not.1 hgo.2) (Nat.succ_pos _)))
        (hp.andThen (fun first => .andThen (.until (by decide) hp trivial begins_argument)
        fun rest => .ret (first :: rest)) text (Nat.le_of_succ_le ht)) (fun args part => ?_) fun _ _ h => h rfl
      rw [hs]
      cases args <;> simp [and_assoc]
    have hst : Stops give (fun _ other => .error (refuse other))
        (fun args part => args ≠ [] ∧ Closed ArgSig.WellFormed (·.print.toList) '>' args part) (· ≠ '<') text := by
      refine .stuck (fun _ _ _ => rfl) ⟨[.unbounded], _, by simp, by simp, rfl⟩ ?_
      rintro args _ ⟨⟨hne, ha, rfl⟩, after, rfl, -⟩
      cases args with
      | nil => exact hne rfl
      | cons arg args =>
        obtain ⟨c, rest, hc, hne, -⟩ := begins_argument arg (ha arg (by simp))
        exact hgo (by simpa [hc] using hne)
    refine .cons (fun fuel other ha => ?_) hst hs fun _ _ h => h rfl
    cases other with
    | nil => rfl
    | cons c other =>
      have hgt : text.head? = some '>' := by_contra fun h => hgo ⟨fun he => List.cons_ne_nil _ _ (ha.1.1 he), h⟩
      cases (ha.2 '>' (by decide)).1 hgt
      exact typeArguments.eq_1 ..
  refine .skip [] (fun fuel other ha => typeArguments.eq_3 _ _ _ (fun _ => ha.ne_cons (by decide) hlt _)
    (ha.ne_cons (by decide) hlt)) ⟨trivial, rfl⟩ ?_
  rintro args _ ⟨⟨-, rfl⟩, after, rfl, -⟩
  cases args with
  | nil => exact ⟨rfl, rfl⟩
  | cons arg args => simp [toList_printArguments] at hlt

theorem innerSig_parses : Parses n give (fun fuel => innerSig identifier (read fuel) fuel)
    (Spelt InnerSig.WellFormed innerText) (fun c => isDelimiter c = true ∧ c ≠ '<') := by
  refine .of_iff (.bind name_parses (fun name => .bind (typeArguments_parses hread)
    (fun args => .ret (InnerSig.member name args)) ?_) ?_) ?_
  · rintro _ _ _ _ ⟨⟨-, rfl⟩, after, rfl, ha⟩
    exact fun c hc => (ha c hc).2
  · rintro _ _ _ _ ⟨⟨args, _, _, ⟨-, rfl⟩, ⟨-, rfl⟩, rfl⟩, after, rfl, ha⟩
    cases args with
    | nil => simpa [ArgSig.printAll] using fun c hc => (ha c hc).1
    | cons arg args => simp [toList_printArguments, isDelimiter]
  · rintro ⟨name, args⟩ part
    simp [innerText, InnerSig.WellFormed, InnerSig.name, InnerSig.arguments, and_assoc]

end

theorem typeSig_stuck {text : List Char} (h : ∀ c ∈ text.head?, startsType c = false) :
    Stops give (fun fuel => typeSig identifier fuel) TypeText (fun _ => True) text := by
  refine .stuck (fun fuel other ha => ?_) ⟨.base .int, _, BaseType.noConfusion, rfl⟩ ?_
  · have ho : ∀ c ∈ other.head?, startsType c = false := by
      refine fun c hc => Bool.eq_false_iff.2 fun hs => ?_
      have hl : c.toNat < 128 := by
        simp only [startsType, Bool.or_eq_true, beq_iff_eq, Option.isSome_iff_exists] at hs
        obtain ((rfl | rfl) | rfl) | ⟨base, hb⟩ := hs
        · decide
        · decide
        · decide
        · unfold BaseType.ofDescriptor? at hb
          split at hb <;> first | decide | cases hb
      rw [h c ((ha.2 c hl).2 hc)] at hs
      cases hs
    rw [typeSig.eq_def]
    split <;> simp_all [startsType, refuse]
  · rintro type _ ⟨⟨ht, rfl⟩, after, rfl, -⟩
    obtain ⟨c, rest, hc, hs⟩ := print_cons ht
    simp [hc, hs] at h

theorem typeSig_parses : Parses n give (fun fuel => typeSig identifier fuel) TypeText fun _ => True := by
  induction n with
  | zero =>
    intro text ht
    obtain rfl := List.length_eq_zero_iff.1 (Nat.le_zero.1 ht)
    exact typeSig_stuck (by simp)
  | succ n ih =>
    have h0 : ∀ type, TypeText type [] → ¬ True := by
      rintro type ⟨h, hn⟩
      obtain ⟨_, _, ht, -⟩ := print_cons h
      cases hn.trans ht
    intro text hn
    cases text with
    | nil => exact typeSig_stuck (by simp)
    | cons c text =>
    have ht : text.length ≤ n := Nat.le_of_succ_le_succ hn
    clear hn
    by_cases hL : c = 'L'
    · subst hL
      refine .cons (fun _ _ _ => typeSig.eq_3 ..) (Parses.bind className_parses (fun name =>
        .bind (typeArguments_parses ih) (fun args =>
        .bind (.marked (by decide) (innerSig_parses ih) ⟨rfl, by decide⟩) (fun inner =>
        .andThen (token_parses (by decide)) fun _ => .ret (TypeSig.classType name args inner)) ?_) ?_) ?_ text ht) ?_ h0
      · rintro inner _ _ _ ⟨⟨_, _, _, rfl, ⟨-, rfl⟩, rfl⟩, after, rfl, -⟩
        simp [isDelimiter]
      · rintro args _ _ _ ⟨⟨inner, _, _, ⟨-, rfl⟩, ⟨_, _, _, rfl, ⟨-, rfl⟩, rfl⟩, rfl⟩, after, rfl, -⟩
        cases inner <;> simp [markedText]
      · rintro name _ _ _ ⟨⟨args, _, _, ⟨-, rfl⟩, ⟨inner, _, _, ⟨-, rfl⟩, ⟨_, _, _, rfl, ⟨-, rfl⟩, rfl⟩, rfl⟩, rfl⟩,
          after, rfl, -⟩
        cases args <;> cases inner <;> simp [ArgSig.printAll, markedText, isDelimiter]
      · intro type part
        cases type <;> simp [toList_printInner, InnerSig.allWellFormed_iff, and_assoc]
        exact printBase_ne rfl
    by_cases hT : c = 'T'
    · subst hT
      refine .cons (fun _ _ _ => typeSig.eq_4 ..) (Parses.bind name_parses (fun name =>
        .andThen (token_parses (by decide)) fun _ => .ret (TypeSig.variable name)) ?_ text ht) ?_ h0
      · rintro name _ _ _ ⟨⟨_, _, _, rfl, ⟨-, rfl⟩, rfl⟩, after, rfl, -⟩
        simp [isDelimiter]
      · intro type part
        cases type <;> simp [and_assoc]
        exact printBase_ne rfl
    by_cases hA : c = '['
    · subst hA
      refine .cons (fun _ _ _ => typeSig.eq_5 ..) (Parses.andThen ih (fun comp => .ret (TypeSig.array comp)) text ht)
        ?_ h0
      intro type part
      cases type <;> simp [and_assoc]
      exact printBase_ne rfl
    cases hb : BaseType.ofDescriptor? c with
    | none => exact typeSig_stuck (by simp [startsType, hL, hT, hA, hb])
    | some base =>
      refine .cons (fun fuel other _ => by rw [typeSig.eq_6 _ _ _ _ hL hT hA, hb]; rfl) (.ret (TypeSig.base base))
        (fun type part => ?_) h0
      obtain ⟨hd, hn⟩ := ofDescriptor?_eq_some hb
      constructor
      · rintro ⟨hw, hp⟩
        cases type with
        | base other =>
          obtain ⟨d, hd', hb', -⟩ := exists_descriptor hw
          obtain ⟨rfl, rfl⟩ := List.cons.inj (hp.trans (show _ = [d] by simp [hd', Char.toString]))
          rw [hb] at hb'
          cases hb'
          exact ⟨rfl, rfl⟩
        | _ => simp [hL, hT, hA] at hp
      · rintro ⟨rfl, rfl⟩
        exact ⟨hn, by simp [hd, Char.toString]⟩

end Signature

end Bindings
