import Bindings.Proofs.Signature.Grammar
import Mathlib.Data.List.TakeDrop
import Mathlib.Data.List.TakeWhile

/-!
# Where readers stop

A reader goes through a text up to some place and stops there, with a value or with a fault (`Stops`). How
it gets there does not depend on what comes after the place, but for the character that stands there.
-/

namespace Bindings.Signature

variable {c close mark : Char} {n : Nat} {rest text other left : List Char} {α β γ : Type}

/-- Both texts are empty, or they begin with the same character or with two outside ASCII. -/
def Alike (text other : List Char) : Prop :=
  (text = [] ↔ other = []) ∧ ∀ c : Char, c.toNat < 128 → (text.head? = some c ↔ other.head? = some c)

theorem Alike.append (h : Alike rest left) (text : List Char) : Alike (text ++ rest) (text ++ left) := by
  cases text with
  | nil => exact h
  | cons c text => exact ⟨by simp, by simp⟩

theorem Alike.ne_cons (h : Alike text other) (hc : c.toNat < 128) (hne : text.head? ≠ some c) (rest : List Char) :
    other ≠ c :: rest := by
  rintro rfl
  exact hne ((h.2 c hc).2 rfl)

def answer (stop : β → List Char → Except Fault γ) : Option β → List Char → Except Fault γ
  | some value, rest => stop value rest
  | none, rest => .error (refuse rest)

/-- A part of the text spells the value, and the text may go on after it as it does. -/
def Cuts (spells : β → List Char → Prop) (next : Char → Prop) (text : List Char) (value : β)
    (part : List Char) : Prop :=
  spells value part ∧ ∃ after, text = part ++ after ∧ ∀ c ∈ after.head?, next c

/-- Reading the text stops before `rest`. What was read is spelt out there, or it can be completed. -/
structure StopsAt (stop : β → List Char → Except Fault γ) (read : Nat → List Char → Except Fault γ)
    (spells : β → List Char → Prop) (next : Char → Prop) (text done rest : List Char) (found : Option β) : Prop where
  parts : text = done ++ rest
  spelt : ∀ value ∈ found, spells value done
  viable : ∃ value more, spells value (done ++ more)
  reads : ∀ fuel left, Alike rest left → done.length < fuel → read fuel (done ++ left) = answer stop found left
  unique : ∀ value part, Cuts spells next text value part → part = done ∧ found = some value

def Stops (stop : β → List Char → Except Fault γ) (read : Nat → List Char → Except Fault γ)
    (spells : β → List Char → Prop) (next : Char → Prop) (text : List Char) : Prop :=
  ∃ done rest found, StopsAt stop read spells next text done rest found

def give (value : α) (rest : List Char) : Except Fault (α × List Char) := .ok (value, rest)

@[simp] def Spelt (good : α → Prop) (write : α → List Char) (value : α) (text : List Char) : Prop :=
  good value ∧ text = write value

/-- A value and then one that depends on it. -/
@[simp] def Seq (spells : α → List Char → Prop) (then' : α → β → List Char → Prop) (value : β)
    (text : List Char) : Prop :=
  ∃ first part rest, spells first part ∧ then' first value rest ∧ text = part ++ rest

variable {stop : β → List Char → Except Fault γ} {read read' : Nat → List Char → Except Fault γ}
  {item : Nat → Reader α} {then' : Nat → α × List Char → Except Fault γ} {spells spells' : β → List Char → Prop}
  {spellsA : α → List Char → Prop} {spellsB : α → β → List Char → Prop} {next next' : Char → Prop}

namespace Stops

theorem shift (h : Stops stop read spells next text) (d : Nat) :
    Stops stop (fun fuel => read (fuel + d)) spells next text := by
  obtain ⟨done, rest, found, h⟩ := h
  exact ⟨done, rest, found, { h with reads := fun fuel left hl hf => h.reads _ left hl (Nat.lt_add_right d hf) }⟩

theorem imp (h : Stops stop read spells next text) (hs : ∀ value part, spells value part → spells' value part)
    (hu : ∀ value part, Cuts spells' next text value part → spells value part) : Stops stop read spells' next text := by
  obtain ⟨done, rest, found, h⟩ := h
  obtain ⟨value, more, hv⟩ := h.viable
  exact ⟨done, rest, found, h.parts, fun v hf => hs v _ (h.spelt v hf), ⟨value, more, hs _ _ hv⟩, h.reads,
    fun v part hc => h.unique v part ⟨hu v part hc, hc.2⟩⟩

theorem mono (h : Stops stop read spells next text) (hn : ∀ c, next' c → next c) :
    Stops stop read spells next' text := by
  obtain ⟨done, rest, found, h⟩ := h
  refine ⟨done, rest, found, { h with unique := ?_ }⟩
  rintro v part ⟨hv, after, ht, ha⟩
  exact h.unique v part ⟨hv, after, ht, fun c hc => hn c (ha c hc)⟩

theorem congr (hr : ∀ fuel other, Alike text other → 0 < fuel → read fuel other = read' fuel other)
    (h : Stops stop read' spells next text) : Stops stop read spells next text := by
  obtain ⟨done, rest, found, h⟩ := h
  refine ⟨done, rest, found, { h with reads := fun fuel left hl hf => ?_ }⟩
  rw [hr fuel _ (h.parts ▸ hl.append done) (Nat.zero_lt_of_lt hf)]
  exact h.reads fuel left hl hf

theorem cons (hr : ∀ fuel other, Alike text other → read (fuel + 1) (c :: other) = read' fuel other)
    (h : Stops stop read' spells' next text) (hs : ∀ value part, spells value (c :: part) ↔ spells' value part)
    (hn : ∀ value, spells value [] → ¬ next c) : Stops stop read spells next (c :: text) := by
  obtain ⟨done, rest, found, h⟩ := h
  obtain ⟨value, more, hv⟩ := h.viable
  refine ⟨c :: done, rest, found, by rw [h.parts]; rfl, fun v hf => (hs ..).2 (h.spelt v hf),
    ⟨value, more, (hs ..).2 hv⟩, ?_, ?_⟩
  · intro fuel left hl hf
    obtain ⟨fuel, rfl⟩ : ∃ k, fuel = k + 1 := ⟨fuel - 1, by omega⟩
    rw [List.cons_append, hr fuel _ (h.parts ▸ hl.append done)]
    exact h.reads fuel left hl (Nat.lt_of_succ_lt_succ hf)
  · rintro v part ⟨hv, after, ht, ha⟩
    cases part with
    | nil =>
      cases ht
      exact absurd (ha c rfl) (hn v hv)
    | cons d part =>
      obtain ⟨rfl, hte⟩ := List.cons.inj ht
      obtain ⟨rfl, hf⟩ := h.unique v part ⟨(hs ..).1 hv, after, hte, ha⟩
      exact ⟨rfl, hf⟩

theorem here (found : Option β) (hr : ∀ fuel other, Alike text other → read (fuel + 1) other = answer stop found other)
    (hf : ∀ value ∈ found, spells value []) (hv : ∃ value part, spells value part)
    (hu : ∀ value part, Cuts spells next text value part → part = [] ∧ found = some value) :
    Stops stop read spells next text := by
  refine ⟨[], text, found, rfl, hf, hv, fun fuel left hl hf => ?_, hu⟩
  obtain ⟨fuel, rfl⟩ : ∃ k, fuel = k + 1 := ⟨fuel - 1, by simp at hf; omega⟩
  exact hr fuel left hl

theorem skip (value : β) (hr : ∀ fuel other, Alike text other → read (fuel + 1) other = stop value other)
    (hv : spells value []) (hu : ∀ v part, Cuts spells next text v part → part = [] ∧ v = value) :
    Stops stop read spells next text :=
  .here (some value) hr (fun _ h => Option.some.inj h ▸ hv) ⟨value, [], hv⟩ fun v part h =>
    (hu v part h).imp_right fun h => congrArg some h.symm

theorem ret (value : β) : Stops stop (fun _ => stop value) (fun v part => v = value ∧ part = []) next text :=
  .skip value (fun _ _ _ => rfl) ⟨rfl, rfl⟩ fun _ _ h => h.1.symm

theorem stuck (hr : ∀ fuel other, Alike text other → read (fuel + 1) other = .error (refuse other))
    (hv : ∃ value part, spells value part) (hu : ∀ value part, ¬ Cuts spells next text value part) :
    Stops stop read spells next text :=
  .here none hr (by simp) hv fun v part h => (hu v part h).elim

/-- One reader after another, which has what the first left of the budget. -/
theorem step (h : Stops give item spellsA next' text)
    (hn : ∀ value done rest, spellsA value done → rest.length ≤ text.length - done.length →
      Stops stop (fun fuel rest => then' (fuel + done.length) (value, rest)) (spellsB value) next rest)
    (hf : ∀ first value part text, Cuts (spellsB first) next text value part → ∀ c ∈ text.head?, next' c) :
    Stops stop (fun fuel text => item fuel text >>= then' fuel) (Seq spellsA spellsB) next text := by
  obtain ⟨done, rest, found, h⟩ := h
  have ht := h.parts
  have hu : ∀ b part, Cuts (Seq spellsA spellsB) next text b part → ∃ value part', part = done ++ part' ∧
      found = some value ∧ Cuts (spellsB value) next rest b part' := by
    rintro b _ ⟨⟨a, part, part', ha, hb, rfl⟩, after, he, hne⟩
    rw [List.append_assoc] at he
    obtain ⟨rfl, rfl⟩ := h.unique a part ⟨ha, part' ++ after, he, hf a b part' _ ⟨hb, after, rfl, hne⟩⟩
    exact ⟨a, part', rfl, rfl, hb, after, List.append_cancel_left (ht.symm.trans he), hne⟩
  cases found with
  | none =>
    obtain ⟨value, more, hv⟩ := h.viable
    obtain ⟨done', rest', found', h'⟩ := hn value (done ++ more) [] hv (Nat.zero_le _)
    obtain ⟨rfl, rfl⟩ := List.nil_eq_append_iff.1 h'.parts
    obtain ⟨b, more', hb⟩ := h'.viable
    refine ⟨done, rest, none, ht, by simp, ⟨b, more ++ more', value, done ++ more, more', hv, hb, by simp⟩, ?_, ?_⟩
    · intro fuel left hl hf
      exact congrArg (· >>= then' fuel) (h.reads fuel left hl hf)
    · intro b part hc
      obtain ⟨_, _, -, hv, -⟩ := hu b part hc
      cases hv
  | some value =>
    have hv := h.spelt value rfl
    obtain ⟨done', rest', found', h'⟩ := hn value done rest hv (by simp [ht])
    have ht' := h'.parts
    obtain ⟨b, more', hb⟩ := h'.viable
    refine ⟨done ++ done', rest', found', by simp [ht, ht'], fun b hb => ⟨value, done, done', hv, h'.spelt b hb, rfl⟩,
      ⟨b, more', value, done, done' ++ more', hv, hb, by simp⟩, ?_, ?_⟩
    · intro fuel left hl hf
      rw [List.length_append] at hf
      obtain ⟨fuel, rfl⟩ : ∃ k, fuel = k + done.length := ⟨fuel - done.length, by omega⟩
      rw [List.append_assoc, h.reads (fuel + done.length) (done' ++ left) (ht' ▸ hl.append done') (by omega)]
      exact h'.reads fuel left hl (by omega)
    · intro b part hc
      obtain ⟨_, part', rfl, hv, hc'⟩ := hu b part hc
      cases hv
      obtain ⟨rfl, hfo⟩ := h'.unique b part' hc'
      exact ⟨rfl, hfo⟩

end Stops

/-- The reader stops in every text up to a length. -/
def Parses (n : Nat) (stop : β → List Char → Except Fault γ) (read : Nat → List Char → Except Fault γ)
    (spells : β → List Char → Prop) (next : Char → Prop) : Prop :=
  ∀ text : List Char, text.length ≤ n → Stops stop read spells next text

namespace Parses

theorem ret (value : β) : Parses n stop (fun _ => stop value) (fun v part => v = value ∧ part = []) next :=
  fun _ _ => .ret value

theorem bind (h : Parses n give item spellsA next')
    (hn : ∀ value, Parses n stop (fun fuel rest => then' fuel (value, rest)) (spellsB value) next)
    (hf : ∀ first value part text, Cuts (spellsB first) next text value part → ∀ c ∈ text.head?, next' c) :
    Parses n stop (fun fuel text => item fuel text >>= then' fuel) (Seq spellsA spellsB) next := fun text ht =>
  .step (h text ht) (fun value done rest _ hl => (hn value rest (by omega)).shift _) hf

/-- Anything may come after the first. -/
theorem andThen (h : Parses n give item spellsA fun _ => True)
    (hn : ∀ value, Parses n stop (fun fuel rest => then' fuel (value, rest)) (spellsB value) next) :
    Parses n stop (fun fuel text => item fuel text >>= then' fuel) (Seq spellsA spellsB) next :=
  h.bind hn fun _ _ _ _ _ _ _ => trivial

theorem of_iff (h : Parses n stop read spells next) (hs : ∀ value part, spells value part ↔ spells' value part) :
    Parses n stop read spells' next := fun text ht =>
  (h text ht).imp (fun v part => (hs v part).1) fun v part hc => (hs v part).2 hc.1

end Parses

theorem token_parses (hc : c.toNat < 128) :
    Parses n give (fun _ => token c) (fun _ part => part = [c]) fun _ => True := by
  intro text _
  by_cases h : text.head? = some c
  · obtain ⟨text, rfl⟩ := List.head?_eq_some_iff.1 h
    exact .cons (fun _ _ _ => if_pos rfl) (.ret ()) (by simp) (by simp)
  refine .stuck (fun fuel other ha => ?_) ⟨(), _, rfl⟩ ?_
  · have hne := (ha.2 c hc).not.1 h
    cases other with
    | nil => rfl
    | cons d other => exact if_neg fun h => hne (congrArg some h)
  · rintro _ _ ⟨rfl, after, rfl, -⟩
    simp at h

/-! ## Lists -/

section Lists

variable {good : α → Prop} {write : α → List Char}

/-- The text begins with a character of some kind. -/
def Begins (p : Char → Prop) (text : List Char) : Prop := ∃ c rest, text = c :: rest ∧ p c

/-- Good values one after the other, and what ends them. -/
abbrev Closed (good : α → Prop) (write : α → List Char) (close : Char) : List α → List Char → Prop :=
  Spelt (∀ value ∈ ·, good value) (·.flatMap write ++ [close])

theorem readUntil_of_ne {item : Reader α} {fuel : Nat} (hne : text ≠ [])
    (hc : text.head? ≠ some close) (hf : 0 < fuel) :
    readUntil close item fuel text = (do
      let (first, text) ← item text
      let (rest, text) ← readUntil close item (fuel - 1) text
      .ok (first :: rest, text)) := by
  obtain ⟨fuel, rfl⟩ : ∃ k, fuel = k + 1 := ⟨fuel - 1, by omega⟩
  cases text with
  | nil => exact absurd rfl hne
  | cons c text => exact if_neg fun h => hc (congrArg some h)

theorem Parses.until (hc : close.toNat < 128) (hi : Parses n give item (Spelt good write) next) (hcl : next close)
    (hw : ∀ value, good value → Begins (fun c => c ≠ close ∧ next c) (write value)) :
    Parses n give (fun fuel => readUntil close (item fuel) fuel) (Closed good write close) fun _ => True := by
  induction n using Nat.strong_induction_on generalizing item with
  | h n ih =>
    intro text ht
    by_cases h : text.head? = some close
    · obtain ⟨text, rfl⟩ := List.head?_eq_some_iff.1 h
      refine .cons (fun fuel other _ => if_pos rfl) (.ret []) (fun values part => ?_) (by simp)
      cases values with
      | nil => simp
      | cons value values =>
        refine iff_of_false (fun hs => ?_) (by simp)
        obtain ⟨d, more, hd, hne, -⟩ := hw value (hs.1 value (by simp))
        simp [hd, hne.symm] at hs
    by_cases hnil : text = []
    · subst hnil
      exact .stuck (fun fuel other ha => by rw [ha.1.1 rfl]; rfl) ⟨[], [close], by simp, rfl⟩ (by simp [Cuts])
    -- After an item stands the next one or `close`.
    have hf : ∀ first value part text, Cuts (Seq (Closed good write close) fun values v part =>
        v = first :: values ∧ part = []) (fun _ => True) text value part → ∀ c ∈ text.head?, next c := by
      rintro _ _ _ _ ⟨⟨values, _, _, ⟨hv, rfl⟩, ⟨-, rfl⟩, rfl⟩, after, rfl, -⟩
      cases values with
      | nil => simpa using hcl
      | cons value values =>
        obtain ⟨d, more, hd, -, hnd⟩ := hw value (hv value (by simp))
        simpa [hd] using hnd
    refine .congr (fun fuel other ha => readUntil_of_ne (mt ha.1.2 hnil) ((ha.2 close hc).not.1 h))
      (.imp (.step (hi _ ht) ?_ hf) ?_ ?_)
    · rintro value _ rest ⟨hv, rfl⟩ hle
      obtain ⟨d, more, hd, -⟩ := hw value hv
      have hp := List.length_pos_iff.2 hnil
      rw [hd, List.length_cons] at hle ⊢
      have hr := ih rest.length (by omega) (fun text ht => (hi text (by omega)).shift 1) rest le_rfl
      exact .step (hr.shift more.length) (fun values _ _ _ _ => .ret (value :: values)) fun _ _ _ _ _ _ _ => trivial
    · rintro _ _ ⟨value, _, _, ⟨hv, rfl⟩, ⟨values, _, _, ⟨hvs, rfl⟩, ⟨rfl, rfl⟩, rfl⟩, rfl⟩
      exact ⟨by simpa using ⟨hv, hvs⟩, by simp⟩
    · rintro values part ⟨hv, after, rfl, -⟩
      cases values with
      | nil => simp [hv.2] at h
      | cons value values => simpa [and_assoc] using hv

def markedText (mark : Char) (write : α → List Char) (values : List α) : List Char :=
  values.flatMap fun value => mark :: write value

theorem Parses.marked (hm : mark.toNat < 128) (hi : Parses n give item (Spelt good write) next) (hn : next mark) :
    Parses n give (fun fuel => readMarked mark (item fuel) fuel)
      (Spelt (∀ value ∈ ·, good value) (markedText mark write)) fun c => next c ∧ c ≠ mark := by
  induction n using Nat.strong_induction_on generalizing item with
  | h n ih =>
    intro text ht
    by_cases h : text.head? = some mark
    · obtain ⟨text, rfl⟩ := List.head?_eq_some_iff.1 h
      have hi' : Parses text.length give (fun fuel => item (fuel + 1)) (Spelt good write) next := fun text' ht' =>
        (hi text' (ht'.trans (Nat.le_of_succ_le ht))).shift 1
      refine .cons (fun fuel other _ => if_pos rfl) (Parses.bind hi' (fun value => .bind (ih text.length ht hi')
        (fun values => .ret (value :: values)) ?_) ?_ text le_rfl) (fun values part => ?_) (by simp)
      · rintro _ _ _ _ ⟨⟨-, rfl⟩, after, rfl, ha⟩
        exact ha
      · rintro _ _ _ _ ⟨⟨values, _, _, ⟨-, rfl⟩, ⟨-, rfl⟩, rfl⟩, after, rfl, ha⟩
        cases values with
        | nil => simpa [markedText] using fun c hc => (ha c hc).1
        | cons value values => simpa [markedText] using hn
      · cases values <;> simp [markedText, and_assoc]
    refine .skip [] (fun fuel other ha => ?_) ⟨by simp, rfl⟩ ?_
    · cases other with
      | nil => rfl
      | cons d other => exact if_neg fun hd => ha.ne_cons hm h other (by rw [hd])
    · rintro values _ ⟨⟨-, rfl⟩, after, rfl, -⟩
      cases values with
      | nil => exact ⟨rfl, rfl⟩
      | cons value values => simp [markedText] at h

end Lists

/-! ## Names -/

theorem toNat_of_isDelimiter (h : isDelimiter c) : c.toNat < 128 := by
  simp only [isDelimiter, Bool.or_eq_true, beq_iff_eq] at h
  rcases h with (((((rfl | rfl) | rfl) | rfl) | rfl) | rfl) | rfl <;> decide

theorem Alike.delimited (h : Alike rest left) (hr : ∀ c ∈ rest.head?, isDelimiter c = true) :
    ∀ c ∈ left.head?, isDelimiter c = true := by
  cases rest with
  | nil => simp [h.1.1 rfl]
  | cons c rest =>
    have hc := hr c rfl
    simpa [(h.2 c (toNat_of_isDelimiter hc)).1 rfl] using hc

/-- A name goes on to the first delimiter. -/
theorem span_append (ht : ∀ c ∈ text, isDelimiter c = false) (hr : ∀ c ∈ rest.head?, isDelimiter c = true) :
    (text ++ rest).span (!isDelimiter ·) = (text, rest) := by
  have ha : ∀ c ∈ text, (!isDelimiter c) = true := fun c hc => by simp [ht c hc]
  rw [List.span_eq_takeWhile_dropWhile, List.takeWhile_append_of_pos ha, List.dropWhile_append_of_pos ha]
  cases rest with
  | nil => simp
  | cons c rest => simp [hr c rfl]

theorem name_parses : Parses n give (fun _ => identifier) (Spelt IsIdentifier String.toList)
    (isDelimiter · = true) := by
  intro text _
  obtain ⟨name, rest, rfl, hn, hr⟩ : ∃ name rest, text = name ++ rest ∧ (∀ c ∈ name, isDelimiter c = false) ∧
      ∀ c ∈ rest.head?, isDelimiter c = true := by
    refine ⟨_, _, (List.takeWhile_append_dropWhile (p := (!isDelimiter ·))).symm, ?_, ?_⟩
    · exact fun c hc => by simpa using List.mem_takeWhile_imp hc
    intro c hc
    have hh := List.head?_dropWhile_not (!isDelimiter ·) text
    rw [Option.mem_def.1 hc] at hh
    simpa using hh
  have hu : ∀ v part, Cuts (Spelt IsIdentifier String.toList) (isDelimiter · = true) (name ++ rest) v part →
      part = name := by
    rintro v _ ⟨⟨hv, rfl⟩, after, he, ha⟩
    have hs := span_append hn hr
    rw [he, span_append hv.2 ha] at hs
    exact congrArg Prod.fst hs
  cases name with
  | nil =>
    refine .stuck (fun fuel other ha => ?_) ⟨.ofList ['x'], _, ⟨by simp, by simp [isDelimiter]⟩, rfl⟩
      fun v part hc => ?_
    · rw [identifier, ← List.nil_append other, span_append hn (ha.delimited hr)]
      rfl
    · exact hc.1.1.1 (by simpa [hu v part hc] using hc.1.2.symm)
  | cons c name =>
    have hs : Spelt IsIdentifier String.toList (String.ofList (c :: name)) (c :: name) :=
      ⟨⟨by simp, by simpa using hn⟩, by simp⟩
    refine ⟨c :: name, rest, some (String.ofList (c :: name)), rfl, fun _ hv => Option.some.inj hv ▸ hs,
      ⟨_, [], by rwa [List.append_nil]⟩, fun fuel left hl _ => ?_, fun v part hc => ?_⟩
    · rw [identifier, span_append hn (hl.delimited hr)]
      rfl
    · obtain rfl := hu v part hc
      exact ⟨rfl, by rw [hc.1.2, String.ofList_toList]⟩

theorem toList_joinSegments (first : String) (rest : List String) :
    (joinSegments "/" (first :: rest)).toList = first.toList ++ markedText '/' String.toList rest := by
  induction rest generalizing first with
  | nil => simp [joinSegments, markedText]
  | cons next rest ih => simp [joinSegments, ih, markedText]

theorem className_parses : Parses n give (fun fuel => className identifier fuel) (Spelt IsClassName String.toList)
    (fun c => isDelimiter c = true ∧ c ≠ '/') := by
  refine .of_iff (.bind name_parses (fun head => .bind (.marked (by decide) name_parses rfl)
    (fun tail => .ret (joinSegments "/" (head :: tail))) ?_) ?_) fun name part => ⟨?_, ?_⟩
  · rintro _ _ _ _ ⟨⟨-, rfl⟩, after, rfl, ha⟩
    exact ha
  · rintro _ _ _ _ ⟨⟨tail, _, _, ⟨-, rfl⟩, ⟨-, rfl⟩, rfl⟩, after, rfl, ha⟩
    cases tail with
    | nil => simpa [markedText] using fun c hc => (ha c hc).1
    | cons seg tail => simp [markedText, isDelimiter]
  · rintro ⟨head, _, _, ⟨hh, rfl⟩, ⟨tail, _, _, ⟨ht, rfl⟩, ⟨rfl, rfl⟩, rfl⟩, rfl⟩
    exact ⟨⟨head :: tail, by simp, by simpa using ⟨hh, ht⟩, rfl⟩, by simp [toList_joinSegments]⟩
  · rintro ⟨⟨segs, hne, hs, rfl⟩, rfl⟩
    cases segs with
    | nil => exact absurd rfl hne
    | cons head tail =>
      exact ⟨head, _, _, ⟨hs head (by simp), rfl⟩, ⟨tail, _, [],
        ⟨fun seg hm => hs seg (by simp [hm]), rfl⟩, ⟨rfl, rfl⟩, rfl⟩, by simp [toList_joinSegments]⟩

end Bindings.Signature
