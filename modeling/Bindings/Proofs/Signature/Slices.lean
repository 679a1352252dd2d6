import Bindings.Proofs.Signature.Bytes

/-!
# Reading signatures byte by byte

The readers go through the bytes of a text as well. The bytes that are left tell the position, each reader goes on by
single bytes, and a name is cut out of the text by two positions (`slicedName`). A reader comes to the same places as
among the characters (`Tracks`), so it stands between characters whenever it comes to a name.
-/

namespace Bindings

namespace Signature

variable {α β γ : Type} {text : String} {c d : Char} {rest more : List Char}

/-- The fault of a slice that starts or ends inside a character or beyond the text. Nothing else has this fault. -/
def badSlice : Fault := .unexpected []

/-- The name that the bytes left of a text begin with. -/
def slicedName (text : String) : Reader String := fun left =>
  let start := (bytes text.toList).length - left.length
  match left.span (!isDelimiter ·) with
  | ([], rest) => .error (refuse rest)
  | (name, rest) =>
    match slice? text.toList start (start + name.length) with
    | some name => .ok (.ofList name, rest)
    | none => .error badSlice

/-- The error that a fault among bytes tells. A bad slice is none: there is no answer then. -/
def Fault.byteError? (text : String) : Fault → Option SignatureError
  | ended => some (.unexpectedEnd text)
  | unexpected [] => none
  | unexpected (byte :: rest) => some (.unexpectedChar text byte ((bytes text.toList).length - (byte :: rest).length))
  | trailing rest => some (.trailing text ((bytes text.toList).length - rest.length))

def parseBytes (read : Nat → List Char → Except Fault α) (text : String) : Except (Option SignatureError) α :=
  (read (text.toList.length + 1) (bytes text.toList)).mapError (·.byteError? text)

/-! ## Between characters -/

/-- Answers with related values, or with faults that are the same error. -/
inductive Tracked (text : String) (related : α → β → Prop) : Except Fault α → Except Fault β → Prop
  | ok {a : α} {b : β} : related a b → Tracked text related (.ok a) (.ok b)
  | error {fault scanned : Fault} : scanned.byteError? text = some (fault.toError text) →
    Tracked text related (.error fault) (.error scanned)

/-- The same value, and the bytes of what is left of the text. -/
def Between (text : String) (read scanned : α × List Char) : Prop :=
  read.2 <:+ text.toList ∧ scanned = (read.1, bytes read.2)

/-- From between any characters of the text, one reader goes through the bytes as the other through the characters. -/
def Tracks (text : String) (scan read : Reader α) : Prop :=
  ∀ ⦃rest⦄, rest <:+ text.toList → Tracked text (Between text) (read rest) (scan (bytes rest))

theorem Tracked.bind {related : β → γ → Prop} {answer scanned : Except Fault (α × List Char)}
    {f : α × List Char → Except Fault β} {g : α × List Char → Except Fault γ}
    (h : Tracked text (Between text) answer scanned) (hn : ∀ value rest, rest <:+ text.toList →
      Tracked text related (f (value, rest)) (g (value, bytes rest))) :
    Tracked text related (answer >>= f) (scanned >>= g) := by
  cases h with
  | ok h =>
    obtain ⟨hr, rfl⟩ := h
    exact hn _ _ hr
  | error he => exact .error he

theorem bytes_cons (c : Char) (rest : List Char) : ∃ more, bytes (c :: rest) = leadByte c :: more := by
  obtain ⟨tail, ht⟩ := charBytes_cons c
  exact ⟨tail ++ bytes rest, by rw [bytes, List.flatMap_cons, ht]; rfl⟩

theorem bytes_cons_of_lt (hc : c.toNat < 128) (rest : List Char) : bytes (c :: rest) = c :: bytes rest := by
  rw [bytes, List.flatMap_cons, charBytes_eq hc]
  rfl

theorem Tracked.unexpected {related : α → β → Prop} (h : bytes (c :: rest) = leadByte c :: more) :
    Tracked text related (.error (.unexpected (c :: rest))) (.error (.unexpected (leadByte c :: more))) := by
  refine .error ?_
  rw [Fault.byteError?, Fault.toError, ← h, length_bytes, length_bytes]

/-- Either both the text and its bytes begin with a mark, or none does. -/
theorem mark_cases (hc : c.toNat < 128) (rest : List Char) :
    (∃ left, rest = c :: left ∧ bytes rest = c :: bytes left) ∨
      (∀ left, rest ≠ c :: left) ∧ ∀ left, bytes rest ≠ c :: left := by
  cases rest with
  | nil => exact .inr ⟨by simp, by simp [bytes]⟩
  | cons d rest =>
    by_cases hd : d = c
    · subst hd
      exact .inl ⟨rest, rfl, bytes_cons_of_lt hc rest⟩
    · obtain ⟨more, hb⟩ := bytes_cons d rest
      exact .inr ⟨by simp [hd], by simp [hb, leadByte_eq_iff hc, hd]⟩

theorem tail_suffix (hr : c :: rest <:+ text.toList) : rest <:+ text.toList := (List.suffix_cons ..).trans hr

theorem token_tracks (hc : c.toNat < 128) : Tracks text (token c) (token c) := by
  intro rest hr
  obtain ⟨left, rfl, hb⟩ | ⟨hn, hn'⟩ := mark_cases hc rest
  · rw [hb, token, token, if_pos rfl, if_pos rfl]
    exact .ok ⟨tail_suffix hr, rfl⟩
  cases rest with
  | nil => exact .error rfl
  | cons d rest =>
    obtain ⟨more, hb⟩ := bytes_cons d rest
    rw [hb, token, token, if_neg fun h => hn rest (by rw [h]), if_neg fun h => hn' more (by rw [hb, h])]
    exact .unexpected hb

theorem span_bytes (rest : List Char) : (bytes rest).span (!isDelimiter ·) =
    (bytes (rest.takeWhile (!isDelimiter ·)), bytes (rest.dropWhile (!isDelimiter ·))) := by
  have ht := takeWhile_bytes rest
  have hd : (bytes rest).dropWhile (!isDelimiter ·) = bytes (rest.dropWhile (!isDelimiter ·)) := by
    refine List.append_cancel_left ((List.takeWhile_append_dropWhile.trans ?_).trans (congrArg (· ++ _) ht.symm))
    rw [← bytes_append, List.takeWhile_append_dropWhile]
  rw [List.span_eq_takeWhile_dropWhile, ht, hd]

/-- A name that starts between characters ends between characters. -/
theorem slicedName_tracks : Tracks text (slicedName text) identifier := by
  intro rest hr
  rw [slicedName, span_bytes, identifier, List.span_eq_takeWhile_dropWhile]
  have hs := List.takeWhile_append_dropWhile (p := (!isDelimiter ·)) (l := rest)
  generalize rest.takeWhile (!isDelimiter ·) = name at hs
  generalize rest.dropWhile (!isDelimiter ·) = left at hs
  obtain ⟨before, hb⟩ := hr
  cases name with
  | nil =>
    cases left with
    | nil => exact .error rfl
    | cons c left =>
      obtain ⟨more, hd⟩ := bytes_cons c left
      rw [hd]
      exact .unexpected hd
  | cons c name =>
    have ht : before ++ (c :: name ++ left) = text.toList := by rw [hs, hb]
    have hp : (bytes text.toList).length - (bytes rest).length = byteCount before := by
      rw [← hb, bytes_append, List.length_append, Nat.add_sub_cancel, length_bytes]
    have hc := slice?_append before (c :: name) left
    rw [ht] at hc
    obtain ⟨more, hd⟩ := bytes_cons c name
    rw [← length_bytes (c :: name), hd, ← hp] at hc
    rw [hd]
    dsimp only
    rw [hc]
    exact .ok ⟨⟨before ++ c :: name, by rw [List.append_assoc, ht]⟩, rfl⟩

section

variable {scan read : Reader α} (h : Tracks text scan read)

include h

theorem Tracks.readUntil (hc : c.toNat < 128) (fuel : Nat) :
    Tracks text (readUntil c scan fuel) (readUntil c read fuel) := by
  induction fuel with
  | zero => exact fun _ _ => .error rfl
  | succ fuel ih =>
    intro rest hr
    obtain ⟨left, rfl, hb⟩ | ⟨hn, hn'⟩ := mark_cases hc rest
    · rw [hb, Signature.readUntil, Signature.readUntil, if_pos rfl, if_pos rfl]
      exact .ok ⟨tail_suffix hr, rfl⟩
    cases rest with
    | nil => exact .error rfl
    | cons d rest =>
      obtain ⟨more, hb⟩ := bytes_cons d rest
      rw [hb, Signature.readUntil, Signature.readUntil, if_neg fun h => hn rest (by rw [h]),
        if_neg fun h => hn' more (by rw [hb, h]), ← hb]
      exact (h hr).bind fun _ _ hr => (ih hr).bind fun _ _ hr => .ok ⟨hr, rfl⟩

theorem Tracks.readMarked (hc : c.toNat < 128) (fuel : Nat) :
    Tracks text (readMarked c scan fuel) (readMarked c read fuel) := by
  induction fuel with
  | zero => exact fun rest hr => by cases rest <;> exact .ok ⟨hr, rfl⟩
  | succ fuel ih =>
    intro rest hr
    obtain ⟨left, rfl, hb⟩ | ⟨hn, hn'⟩ := mark_cases hc rest
    · rw [hb, Signature.readMarked, Signature.readMarked, if_pos rfl, if_pos rfl]
      exact (h (tail_suffix hr)).bind fun _ _ hr => (ih hr).bind fun _ _ hr => .ok ⟨hr, rfl⟩
    cases rest with
    | nil => exact .ok ⟨hr, rfl⟩
    | cons d rest =>
      obtain ⟨more, hb⟩ := bytes_cons d rest
      rw [hb, Signature.readMarked, Signature.readMarked, if_neg fun h => hn rest (by rw [h]),
        if_neg fun h => hn' more (by rw [hb, h]), ← hb]
      exact .ok ⟨hr, rfl⟩

end

section

variable {scan read : Reader TypeSig} (h : Tracks text scan read)

include h

theorem argument_tracks : Tracks text (argument scan) (argument read) := by
  intro rest hr
  obtain ⟨left, rfl, hb⟩ | ⟨hu, hu'⟩ := mark_cases (c := '*') (by decide) rest
  · rw [hb]
    exact .ok ⟨tail_suffix hr, rfl⟩
  obtain ⟨left, rfl, hb⟩ | ⟨hl, hl'⟩ := mark_cases (c := '+') (by decide) rest
  · rw [hb]
    exact (h (tail_suffix hr)).bind fun _ _ hr => .ok ⟨hr, rfl⟩
  obtain ⟨left, rfl, hb⟩ | ⟨hx, hx'⟩ := mark_cases (c := '-') (by decide) rest
  · rw [hb]
    exact (h (tail_suffix hr)).bind fun _ _ hr => .ok ⟨hr, rfl⟩
  rw [argument, argument]
  · exact (h hr).bind fun _ _ hr => .ok ⟨hr, rfl⟩
  all_goals assumption

theorem typeArguments_tracks (fuel : Nat) : Tracks text (typeArguments scan fuel) (typeArguments read fuel) := by
  intro rest hr
  obtain ⟨left, rfl, hb⟩ | ⟨hn, hn'⟩ := mark_cases (c := '<') (by decide) rest
  · rw [hb]
    obtain ⟨left, rfl, hb⟩ | ⟨hn, hn'⟩ := mark_cases (c := '>') (by decide) left
    · rw [hb]
      exact .unexpected hb
    rw [typeArguments, typeArguments]
    · exact (argument_tracks h).readUntil (by decide) fuel (tail_suffix hr)
    all_goals assumption
  rw [typeArguments, typeArguments]
  · exact .ok ⟨hr, rfl⟩
  · exact fun _ => hn' _
  · exact hn'
  · exact fun _ => hn _
  · exact hn

theorem innerSig_tracks (fuel : Nat) :
    Tracks text (innerSig (slicedName text) scan fuel) (innerSig identifier read fuel) :=
  fun _ hr => (slicedName_tracks hr).bind fun _ _ hr => (typeArguments_tracks h fuel hr).bind fun _ _ hr =>
    .ok ⟨hr, rfl⟩

end

theorem ofDescriptor?_of_le (hc : 128 ≤ c.toNat) : BaseType.ofDescriptor? c = none := by
  unfold BaseType.ofDescriptor?
  split <;> first | rfl | exact absurd hc (by decide)

theorem ofDescriptor?_leadByte (c : Char) : BaseType.ofDescriptor? (leadByte c) = BaseType.ofDescriptor? c := by
  by_cases hc : c.toNat < 128
  · rw [leadByte, if_pos hc]
  · have hc := Nat.le_of_not_lt hc
    rw [ofDescriptor?_of_le hc, ofDescriptor?_of_le (le_leadByte hc)]

theorem typeSig_base {name : Reader String} (fuel : Nat) (hl : c ≠ 'L') (ht : c ≠ 'T') (ha : c ≠ '[') :
    typeSig name (fuel + 1) (c :: rest) = match BaseType.ofDescriptor? c with
      | some base => .ok (.base base, rest)
      | none => .error (.unexpected (c :: rest)) := by
  rw [typeSig] <;> first | assumption | rfl

theorem typeSig_tracks (fuel : Nat) : Tracks text (typeSig (slicedName text) fuel) (typeSig identifier fuel) := by
  induction fuel with
  | zero => exact fun _ _ => .error rfl
  | succ fuel ih =>
    intro rest hr
    obtain ⟨left, rfl, hb⟩ | ⟨hl, hl'⟩ := mark_cases (c := 'L') (by decide) rest
    · have hr := tail_suffix hr
      rw [hb, typeSig, typeSig]
      refine Tracked.bind ?_ fun _ _ hr => (typeArguments_tracks ih fuel hr).bind fun _ _ hr =>
        ((innerSig_tracks ih fuel).readMarked (by decide) fuel hr).bind fun _ _ hr =>
          (token_tracks (by decide) hr).bind fun _ _ hr => .ok ⟨hr, rfl⟩
      exact (slicedName_tracks hr).bind fun _ _ hr =>
        (slicedName_tracks.readMarked (by decide) fuel hr).bind fun _ _ hr => .ok ⟨hr, rfl⟩
    obtain ⟨left, rfl, hb⟩ | ⟨ht, ht'⟩ := mark_cases (c := 'T') (by decide) rest
    · rw [hb, typeSig, typeSig]
      exact (slicedName_tracks (tail_suffix hr)).bind fun _ _ hr =>
        (token_tracks (by decide) hr).bind fun _ _ hr => .ok ⟨hr, rfl⟩
    obtain ⟨left, rfl, hb⟩ | ⟨ha, ha'⟩ := mark_cases (c := '[') (by decide) rest
    · rw [hb, typeSig, typeSig]
      exact (ih (tail_suffix hr)).bind fun _ _ hr => .ok ⟨hr, rfl⟩
    cases rest with
    | nil => exact .error rfl
    | cons c rest =>
      rw [typeSig_base fuel (fun h => hl rest (by rw [h])) (fun h => ht rest (by rw [h])) fun h => ha rest (by rw [h])]
      obtain ⟨more, hb⟩ := bytes_cons c rest
      rw [hb] at hl' ht' ha' ⊢
      rw [typeSig_base fuel (fun h => hl' more (by rw [h])) (fun h => ht' more (by rw [h])) fun h =>
        ha' more (by rw [h]), ofDescriptor?_leadByte]
      cases hd : BaseType.ofDescriptor? c with
      | none => exact .unexpected hb
      | some base =>
        have hc : c.toNat < 128 := Nat.lt_of_not_le fun h => by cases (ofDescriptor?_of_le h).symm.trans hd
        obtain rfl := (List.cons.inj ((bytes_cons_of_lt hc rest).symm.trans hb)).2
        exact .ok ⟨tail_suffix hr, rfl⟩

theorem classBound_tracks (fuel : Nat) :
    Tracks text (classBound (slicedName text) fuel) (classBound identifier fuel) := by
  intro rest hr
  obtain ⟨left, rfl, hb⟩ | ⟨hn, hn'⟩ := mark_cases (c := ':') (by decide) rest
  · rw [hb]
    exact .ok ⟨hr, by rw [← hb]⟩
  cases rest with
  | nil => exact .error rfl
  | cons c rest =>
    obtain ⟨more, hb⟩ := bytes_cons c rest
    rw [hb] at hn' ⊢
    rw [classBound, classBound, ← hb]
    · exact (typeSig_tracks fuel hr).bind fun _ _ hr => .ok ⟨hr, rfl⟩
    all_goals first | assumption | simp

theorem typeParams_tracks (fuel : Nat) :
    Tracks text (typeParams (slicedName text) fuel) (typeParams identifier fuel) := by
  have hp : Tracks text (typeParam (slicedName text) fuel) (typeParam identifier fuel) := fun _ hr =>
    (slicedName_tracks hr).bind fun _ _ hr => (token_tracks (by decide) hr).bind fun _ _ hr =>
      (classBound_tracks fuel hr).bind fun _ _ hr =>
        ((typeSig_tracks fuel).readMarked (by decide) fuel hr).bind fun _ _ hr => .ok ⟨hr, rfl⟩
  intro rest hr
  obtain ⟨left, rfl, hb⟩ | ⟨hn, hn'⟩ := mark_cases (c := '<') (by decide) rest
  · rw [hb]
    exact hp.readUntil (by decide) fuel (tail_suffix hr)
  rw [typeParams, typeParams]
  · exact .ok ⟨hr, rfl⟩
  all_goals assumption

theorem finish_tracked (value : α) (rest : List Char) :
    Tracked text Eq (finish value rest) (finish value (bytes rest)) := by
  cases rest with
  | nil => exact .ok rfl
  | cons c rest =>
    obtain ⟨more, hb⟩ := bytes_cons c rest
    rw [hb]
    refine .error ?_
    rw [Fault.byteError?, Fault.toError, ← hb, length_bytes, length_bytes]

theorem Tracked.map {answer scanned : Except Fault α} (f : α → β) (h : Tracked text Eq answer scanned) :
    Tracked text Eq (answer >>= fun a => .ok (f a)) (scanned >>= fun a => .ok (f a)) := by
  cases h with
  | ok h => exact .ok (congrArg f h)
  | error he => exact .error he

theorem typesToEnd_tracked (fuel : Nat) (hr : rest <:+ text.toList) :
    Tracked text Eq (typesToEnd identifier fuel rest) (typesToEnd (slicedName text) fuel (bytes rest)) := by
  induction fuel generalizing rest with
  | zero =>
    cases rest with
    | nil => exact .ok rfl
    | cons c rest =>
      obtain ⟨more, hb⟩ := bytes_cons c rest
      rw [hb]
      exact .error rfl
  | succ fuel ih =>
    cases rest with
    | nil => exact .ok rfl
    | cons c rest =>
      obtain ⟨more, hb⟩ := bytes_cons c rest
      rw [typesToEnd, hb, typesToEnd, ← hb]
      · exact (typeSig_tracks fuel hr).bind fun type _ hr => (ih hr).map (type :: ·)
      all_goals simp

theorem parseBytes_eq {scan read : Nat → List Char → Except Fault α}
    (h : ∀ fuel, Tracked text Eq (read fuel text.toList) (scan fuel (bytes text.toList))) :
    parseBytes scan text = (parse read text).mapError some := by
  have h := h (text.toList.length + 1)
  rw [parseBytes, parse]
  generalize read (text.toList.length + 1) text.toList = answer at h
  generalize scan (text.toList.length + 1) (bytes text.toList) = scanned at h
  cases h with
  | ok h => exact congrArg Except.ok h.symm
  | error h => exact congrArg Except.error h

end Signature

open Signature

/-- Read byte by byte, with names cut out by byte positions, a text gives what it gives read by characters. So no name
is cut inside a character or beyond the text. -/
theorem names_cut_between_characters (text : String) :
    parseBytes (fieldSig (slicedName text)) text = (TypeSig.parse text).mapError some ∧
      parseBytes (methodSig (slicedName text)) text = (MethodSig.parse text).mapError some ∧
      parseBytes (classSig (slicedName text)) text = (ClassSig.parse text).mapError some := by
  have hr : text.toList <:+ text.toList := List.suffix_refl _
  refine ⟨parseBytes_eq fun fuel => ?_, parseBytes_eq fun fuel => ?_, parseBytes_eq fun fuel => ?_⟩
  · exact (typeSig_tracks fuel hr).bind fun _ _ _ => finish_tracked ..
  · exact (typeParams_tracks fuel hr).bind fun _ _ hr => (token_tracks (by decide) hr).bind fun _ _ hr =>
      ((typeSig_tracks fuel).readUntil (by decide) fuel hr).bind fun _ _ hr =>
        (typeSig_tracks fuel hr).bind fun _ _ hr =>
        ((typeSig_tracks fuel).readMarked (by decide) fuel hr).bind fun _ _ _ => finish_tracked ..
  · refine (typeParams_tracks fuel hr).bind fun params _ hr => (typeSig_tracks fuel hr).bind fun superclass _ hr => ?_
    exact (typesToEnd_tracked fuel hr).map (ClassSig.mk params superclass)

end Bindings
