import Bindings.Proofs.Signature.RoundTrip
import Bindings.Proofs.Signature.Bytes

/-!
# Where a text stops being a signature

The offset of an error is that of the first byte which no signature has there.
-/

namespace Bindings

open Signature

/-- What the errors of a parser say about a text that it rejects. -/
def Pinpoints {α : Type} (parse : String → Except SignatureError α) : Prop :=
  ∀ text error, parse text = .error error →
    (error = .unexpectedEnd text ↔ ∃ more value, parse (text ++ more) = .ok value) ∧
    match error with
    | .unexpectedEnd named => named = text
    | .unexpectedChar named found offset => named = text ∧ (bytes text.toList)[offset]? = some found ∧
      (∃ whole value, parse whole = .ok value ∧ (bytes text.toList).take offset <+: bytes whole.toList) ∧
      ∀ whole value, parse whole = .ok value → ¬ (bytes text.toList).take (offset + 1) <+: bytes whole.toList
    | .trailing named offset => named = text ∧ offset < (bytes text.toList).length ∧
      ∃ part value, parse part = .ok value ∧ bytes part.toList = (bytes text.toList).take offset

namespace Signature

variable {α : Type} {c d : Char} {text other : List Char} {spells : α → List Char → Prop}

theorem Alike.of_leadByte (h : leadByte c = leadByte d) (text other : List Char) : Alike (c :: text) (d :: other) :=
  ⟨by simp, fun b hb => by
    simp only [List.head?_cons, Option.some_inj, ← leadByte_eq_iff (d := c) hb, h, leadByte_eq_iff hb]⟩

theorem isPrefix_of_bytes (h : bytes text <+: bytes other) : text <+: other := by
  have hb : ∀ byte : UInt8, (Char.ofNat byte.toNat).toNat.toUInt8 = byte := fun byte => by
    rw [toNat_ofNat byte.toNat_lt]
    exact UInt8.ofNat_toNat
  have hm : ∀ text, (bytes text).map (fun b => b.toNat.toUInt8) = text.flatMap String.utf8EncodeChar := by
    simp [bytes, charBytes, List.map_flatMap, Function.comp_def, hb]
  obtain ⟨rest, hr⟩ := h.map fun b => b.toNat.toUInt8
  rw [hm, hm] at hr
  exact List.isPrefix_of_utf8Encode_append_eq_utf8Encode rest.toByteArray (by
    rw [List.utf8Encode, List.utf8Encode, ← List.toByteArray_append]
    exact congrArg _ hr)

theorem pinpoints {read : Nat → List Char → Except Fault α} (h : ∀ n, Parses n finish read spells fun _ => False) :
    Pinpoints (parse read) := by
  intro text error he
  obtain ⟨done, rest, found, hs⟩ := h _ text.toList le_rfl
  have hok : ∀ {text value}, spells value text → parse read (.ofList text) = .ok value := fun hv =>
    (parse_ok_iff h).2 (by rwa [String.toList_ofList])
  have hr : ∀ whole left, Alike rest left → whole.toList = done ++ left →
      parse read whole = (answer finish found left).mapError (·.toError whole) := by
    intro whole left hl hw
    rw [parse_eq, hw, hs.reads _ left hl (by rw [List.length_append]; omega)]
  have hno : rest ≠ [] → ∀ whole left value, Alike rest left → whole.toList = done ++ left →
      parse read whole ≠ .ok value := by
    intro hne whole left value hl hw
    rw [hr whole left hl hw]
    cases left with
    | nil => exact absurd (hl.1.2 rfl) hne
    | cons c left => cases found <;> simp [answer, finish, Except.mapError]
  rw [hr text rest ⟨.rfl, fun _ _ => .rfl⟩ hs.parts] at he
  cases rest with
  | nil =>
    cases found with
    | some value => cases he
    | none =>
      cases he
      obtain ⟨value, more, hv⟩ := hs.viable
      refine ⟨⟨fun _ => ⟨.ofList more, value, (parse_ok_iff h).2 ?_⟩, fun _ => rfl⟩, rfl⟩
      simpa [hs.parts] using hv
  | cons c rest =>
    have hend : ¬ ∃ more value, parse read (text ++ more) = .ok value := by
      rintro ⟨more, value, hv⟩
      exact hno (by simp) (text ++ more) (c :: rest ++ more.toList) value ⟨by simp, by simp⟩ (by simp [hs.parts]) hv
    obtain ⟨tail, hc⟩ := charBytes_cons c
    have hb : bytes text.toList = bytes done ++ leadByte c :: (tail ++ bytes rest) := by
      rw [hs.parts, bytes_append, bytes, bytes, List.flatMap_cons, hc]
      rfl
    have hoff : byteCount text.toList - byteCount (c :: rest) = (bytes done).length := by
      rw [hs.parts, byteCount_append, Nat.add_sub_cancel, length_bytes]
    cases found with
    | some value =>
      obtain rfl : error = .trailing text (bytes done).length := by
        rw [← hoff]
        exact (Except.error.inj he).symm
      rw [hb]
      exact ⟨iff_of_false (by simp) hend, rfl, by simp, .ofList done, value, hok (hs.spelt value rfl), by simp⟩
    | none =>
      obtain rfl : error = .unexpectedChar text (leadByte c) (bytes done).length := by
        rw [← hoff]
        exact (Except.error.inj he).symm
      obtain ⟨value, more, hv⟩ := hs.viable
      rw [hb]
      refine ⟨iff_of_false (by simp) hend, rfl, by simp,
        ⟨.ofList (done ++ more), value, hok hv, by simp [bytes_append]⟩, ?_⟩
      -- A text that has the same first byte there is refused there too.
      intro whole value hv hpre
      rw [List.take_length_add_append, List.take_succ_cons, List.take_zero] at hpre
      obtain ⟨left, hl⟩ := isPrefix_of_bytes ((List.prefix_append _ _).trans hpre)
      rw [← hl, bytes_append, List.prefix_append_right_inj] at hpre
      cases left with
      | nil => simp [bytes] at hpre
      | cons d left =>
        obtain ⟨tail', hd⟩ := charBytes_cons d
        rw [bytes, List.flatMap_cons, hd, List.cons_append, List.cons_prefix_cons] at hpre
        exact hno (by simp) whole (d :: left) value (.of_leadByte hpre.1 ..) hl.symm hv

end Signature

/-- A signature error names the first byte that cannot stand where it does. -/
theorem parse_pinpoints : Pinpoints TypeSig.parse ∧ Pinpoints MethodSig.parse ∧ Pinpoints ClassSig.parse :=
  ⟨pinpoints fun _ => fieldSig_parses, pinpoints fun _ => methodSig_parses, pinpoints fun _ => classSig_parses⟩

end Bindings
