import Bindings.Proofs.Signature.Readers

/-!
# The bytes of names

A name goes on to the first delimiter. No other character has a byte that is one.
-/

namespace Bindings

namespace Signature

variable {b c d : Char}

/-- The bytes of a character, each as the character with that code. -/
def charBytes (c : Char) : List Char := (String.utf8EncodeChar c).map fun byte => Char.ofNat byte.toNat

def bytes (text : List Char) : List Char := text.flatMap charBytes

theorem length_bytes (text : List Char) : (bytes text).length = byteCount text := by
  induction text with
  | nil => rfl
  | cons c text ih => simp [bytes, charBytes, byteCount, ← ih]

theorem bytes_append (text rest : List Char) : bytes (text ++ rest) = bytes text ++ bytes rest := List.flatMap_append

theorem byteCount_append (text rest : List Char) : byteCount (text ++ rest) = byteCount text + byteCount rest := by
  rw [← length_bytes, bytes_append, List.length_append, length_bytes, length_bytes]

theorem charBytes_eq (hc : c.toNat < 128) : charBytes c = [c] := by
  have hv : c.val.toNat = c.toNat := rfl
  rw [charBytes, String.utf8EncodeChar, hv, if_pos (by omega), List.map_singleton, UInt8.toNat_ofNat',
    Nat.mod_eq_of_lt (by omega), Char.ofNat_toNat]

theorem toNat_lt (c : Char) : c.toNat < 0x110000 := by
  obtain h | ⟨_, h⟩ := c.valid
  · exact Nat.lt_trans h (by decide)
  · exact h

theorem toNat_ofNat {n : Nat} (h : n < 256) : (Char.ofNat n).toNat = n := by
  rw [Char.ofNat, dif_pos (.inl (by omega))]
  rfl

theorem le_of_mem_charBytes (hc : 128 ≤ c.toNat) (hb : b ∈ charBytes c) : 128 ≤ b.toNat := by
  have hl := toNat_lt c
  have hv : c.val.toNat = c.toNat := rfl
  obtain ⟨byte, hm, rfl⟩ := List.mem_map.1 hb
  rw [toNat_ofNat byte.toNat_lt]
  simp only [String.utf8EncodeChar, hv] at hm
  repeat' split at hm
  · omega
  all_goals
    simp only [List.mem_cons, List.not_mem_nil, or_false] at hm
    grind [UInt8.toNat_ofNat']

/-- The byte that an error shows is the first of the character. -/
theorem charBytes_cons (c : Char) : ∃ rest, charBytes c = leadByte c :: rest := by
  have hc := toNat_lt c
  have hv : c.val.toNat = c.toNat := rfl
  by_cases h : c.toNat < 128
  · exact ⟨[], by rw [charBytes_eq h, leadByte, if_pos h]⟩
  · simp only [charBytes, String.utf8EncodeChar, leadByte, hv]
    repeat' split
    all_goals first | omega | refine ⟨_, congrArg (· :: _) (congrArg Char.ofNat ?_)⟩
    all_goals
      rw [UInt8.toNat_ofNat']
      omega

theorem le_leadByte (hc : 128 ≤ c.toNat) : 128 ≤ (leadByte c).toNat := by
  obtain ⟨rest, hr⟩ := charBytes_cons c
  exact le_of_mem_charBytes hc (by simp [hr])

theorem leadByte_eq_iff (hc : c.toNat < 128) : leadByte d = c ↔ d = c := by
  by_cases hd : d.toNat < 128
  · rw [leadByte, if_pos hd]
  have hl := le_leadByte (Nat.le_of_not_lt hd)
  constructor <;> (rintro rfl; omega)

theorem takeWhile_bytes (text : List Char) :
    (bytes text).takeWhile (!isDelimiter ·) = bytes (text.takeWhile (!isDelimiter ·)) := by
  induction text with
  | nil => rfl
  | cons c text ih =>
    rw [bytes, List.flatMap_cons, ← bytes, List.takeWhile_cons]
    by_cases hc : c.toNat < 128
    · rw [charBytes_eq hc, List.cons_append, List.nil_append, List.takeWhile_cons, ih]
      split
      · simp [bytes, charBytes_eq hc]
      · rfl
    · have hn : ∀ b : Char, 128 ≤ b.toNat → (!isDelimiter b) = true := fun b hb => by
        rw [Bool.not_eq_true', Bool.eq_false_iff]
        exact fun h => absurd (toNat_of_isDelimiter h) (by omega)
      have hc := Nat.le_of_not_lt hc
      rw [List.takeWhile_append_of_pos fun b hb => hn b (le_of_mem_charBytes hc hb), if_pos (hn c hc), ih]
      rfl

/-- The text before an offset and from it on, unless the offset is inside a character or beyond the text. -/
def splitBytes : List Char → Nat → Option (List Char × List Char)
  | text, 0 => some ([], text)
  | [], _ + 1 => none
  | c :: text, n + 1 =>
    if c.utf8Size ≤ n + 1 then (splitBytes text (n + 1 - c.utf8Size)).map (Prod.map (c :: ·) id) else none

theorem splitBytes_append (text rest : List Char) : splitBytes (text ++ rest) (byteCount text) = some (text, rest) := by
  induction text with
  | nil => rw [List.nil_append, byteCount, splitBytes]
  | cons c text ih =>
    have hp := c.utf8Size_pos
    obtain ⟨n, hn⟩ : ∃ n, c.utf8Size + byteCount text = n + 1 := ⟨_, (Nat.sub_add_cancel (by omega)).symm⟩
    rw [List.cons_append, byteCount, hn, splitBytes, ← hn, if_pos (Nat.le_add_right ..), Nat.add_sub_cancel_left, ih]
    rfl

def slice? (text : List Char) (start stop : Nat) : Option (List Char) :=
  (splitBytes text start).bind fun parts => (splitBytes parts.2 (stop - start)).map (·.1)

theorem slice?_append (before name rest : List Char) :
    slice? (before ++ (name ++ rest)) (byteCount before) (byteCount before + byteCount name) = some name := by
  rw [slice?, splitBytes_append, Option.bind_some, Nat.add_sub_cancel_left, splitBytes_append]
  rfl

end Signature

end Bindings
