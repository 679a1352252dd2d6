import Bindings.QName
import Mathlib.Data.List.Basic

/-!
# Names as texts

A text is read by splitting at the separator and written by joining, so reading inverts writing except where a
segment holds the separator, and for the empty segment alone, whose text is that of the default package.
-/

namespace Bindings

variable {sep : Char} {piece text : List Char} {segs : List String}

theorem exists_splitChars (sep : Char) (text : List Char) : ∃ piece pieces, splitChars sep text = piece :: pieces := by
  cases text with
  | nil => exact ⟨_, _, rfl⟩
  | cons c text =>
    rw [splitChars]
    split
    · exact ⟨_, _, rfl⟩
    · split <;> exact ⟨_, _, rfl⟩

theorem joinSegments_splitChars (sep : Char) (text : List Char) :
    joinSegments (.singleton sep) ((splitChars sep text).map .ofList) = .ofList text := by
  induction text with
  | nil => rfl
  | cons c text ih =>
    obtain ⟨piece, pieces, hp⟩ := exists_splitChars sep text
    rw [hp, List.map_cons] at ih
    rw [splitChars]
    split
    · next hc => simp [hp, joinSegments, hc, ih]
    rw [hp]
    cases pieces with
    | nil => simp_all [joinSegments]
    | cons next pieces => simp_all [joinSegments, ← String.toList_inj]

theorem notMem_of_splitChars (h : piece ∈ splitChars sep text) : sep ∉ piece := by
  induction text generalizing piece with
  | nil => simp_all [splitChars]
  | cons c text ih =>
    obtain ⟨first, pieces, hp⟩ := exists_splitChars sep text
    rw [hp] at ih
    rw [splitChars] at h
    split at h
    · obtain rfl | h := List.mem_cons.1 h
      · simp
      · exact ih (hp ▸ h)
    rename_i hc
    rw [hp] at h
    obtain rfl | h := List.mem_cons.1 h
    · simpa [Ne.symm hc] using ih (.head _)
    · exact ih (.tail _ h)

theorem splitChars_of_notMem (h : sep ∉ piece) : splitChars sep piece = [piece] := by
  induction piece with
  | nil => rfl
  | cons c piece ih =>
    rw [List.mem_cons, not_or] at h
    rw [splitChars, if_neg (Ne.symm h.1), ih h.2]

theorem splitChars_append (h : sep ∉ piece) (rest : List Char) :
    splitChars sep (piece ++ sep :: rest) = piece :: splitChars sep rest := by
  induction piece with
  | nil => rw [List.nil_append, splitChars, if_pos rfl]
  | cons c piece ih =>
    rw [List.mem_cons, not_or] at h
    rw [List.cons_append, splitChars, if_neg (Ne.symm h.1), ih h.2]

theorem splitChars_joinSegments (hne : segs ≠ []) (h : ∀ seg ∈ segs, sep ∉ seg.toList) :
    splitChars sep (joinSegments (.singleton sep) segs).toList = segs.map String.toList := by
  induction segs with
  | nil => exact absurd rfl hne
  | cons seg rest ih =>
    obtain ⟨hs, hr⟩ := List.forall_mem_cons.1 h
    cases rest with
    | nil => exact splitChars_of_notMem hs
    | cons next rest =>
      have hj : (joinSegments (.singleton sep) (seg :: next :: rest)).toList =
          seg.toList ++ sep :: (joinSegments (.singleton sep) (next :: rest)).toList := by
        simp [joinSegments]
      rw [hj, splitChars_append hs, ih (by simp) hr]
      rfl

namespace QName

theorem joinSegments_ofText (sep : Char) (text : String) :
    joinSegments (.singleton sep) (ofText sep text).segments = text := by
  rw [ofText]
  split
  · next h => exact h.symm
  · rw [joinSegments_splitChars, String.ofList_toList]

theorem ofText_joinSegments {name : QName} (h : ∀ seg ∈ name.segments, sep ∉ seg.toList)
    (hne : name ≠ ⟨[""]⟩) : ofText sep (joinSegments (.singleton sep) name.segments) = name := by
  obtain ⟨segs⟩ := name
  rw [ofText]
  split
  · next he =>
    cases segs with
    | nil => rfl
    | cons seg rest =>
      -- Only the empty segment is written as the empty text.
      have hs := splitChars_joinSegments (by simp) h
      rw [he] at hs
      cases rest <;> simp_all [splitChars]
  rename_i he
  have hn : segs ≠ [] := by
    rintro rfl
    exact he rfl
  simp [splitChars_joinSegments hn h]

theorem ofText_joinSegments_iff {name : QName} : ofText sep (joinSegments (.singleton sep) name.segments) = name ↔
    (∀ seg ∈ name.segments, sep ∉ seg.toList) ∧ name ≠ ⟨[""]⟩ := by
  refine ⟨fun h => ⟨?_, ?_⟩, fun h => ofText_joinSegments h.1 h.2⟩
  · intro seg hs
    rw [← h, ofText] at hs
    split at hs
    · cases hs
    · obtain ⟨piece, hp, rfl⟩ := List.mem_map.1 hs
      simpa using notMem_of_splitChars hp
  · rintro rfl
    cases h

/-- Texts are read and written back unchanged; names are written and read back unchanged exactly if no segment
holds the separator and the name is not the empty segment alone. -/
theorem forms_round_trip : (∀ text, (ofDotted text).dotted = text ∧ (ofInternal text).internal = text) ∧ ∀ name : QName,
      (ofDotted name.dotted = name ↔ (∀ segment ∈ name.segments, '.' ∉ segment.toList) ∧ name ≠ ⟨[""]⟩) ∧
      (ofInternal name.internal = name ↔ (∀ segment ∈ name.segments, '/' ∉ segment.toList) ∧ name ≠ ⟨[""]⟩) :=
  ⟨fun text => ⟨joinSegments_ofText '.' text, joinSegments_ofText '/' text⟩,
    fun _ => ⟨ofText_joinSegments_iff, ofText_joinSegments_iff⟩⟩

end QName

end Bindings
