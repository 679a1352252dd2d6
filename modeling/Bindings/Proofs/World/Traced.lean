import Bindings.Proofs.World.Course

/-! # Placeholders are traced -/

namespace Bindings.World

variable {w w' : World} {exempt : Referrer → Prop}

theorem Traced.opensView {view : MethodId} (hw : w.Traced exempt) (h : w.OpensView view w') :
    w'.Traced fun ref => exempt ref ∨ ref = .method view := by
  obtain ⟨info, m, recv, ho, -, -, rfl, rfl⟩ := h
  intro ref slot hs hp
  obtain ⟨hh, hu⟩ | ⟨rfl, -, -, hu⟩ := addMethod_cases w info ref
  · rw [hh] at hs
    rw [hu]
    exact (hw ref slot hs hp).imp_right (.imp_right (.imp_right .inl))
  · refine .inr (.inr ⟨?_, .inr rfl⟩)
    rw [hu, MethodInfo.upkeep, ho]

theorem Course.traced {task : Option Task} {stop : Option Halt} (h : Course task stop w w')
    (hex : stop = none ∨ ∀ ref, exempt ref) (hso : w.Sound) (hw : w.Traced exempt) :
    w'.Traced exempt := by
  induction h generalizing exempt with
  | halt _ _ ih => exact ih (.inl rfl) hso hw
  | bracket h hc ih =>
    have hso0 := hso.move (.aside h.before.toAside)
    exact h.after.watches.traced (hc.sound hso0).stocked (ih hex hso0 (h.before.watches.traced hso.stocked hw))
  | promote hc h ih => exact h.aside.watches.traced (hc.sound hso).stocked (ih (.inl rfl) hso hw)
  | abandon _ _ hc ih => exact (aside_turn ..).watches.traced (hc.sound hso).stocked (ih hex hso hw)
  | trans h1 _ ih1 ih2 | advance h1 _ _ ih1 ih2 => exact ih2 hex (h1.sound hso) (ih1 (.inl rfl) hso hw)
  | move h _ => exact h.watches.traced hso.stocked hw
  | tend h => exact h.move.watches.traced hso.stocked hw
  | inside _ ih | serve _ ih | operate _ _ ih => exact ih hex hso hw
  | store id change hst =>
    have hwa := watches_modifyClass id fun info hi => (hst info hi).slots
    exact hwa.traced hso.stocked hw
  | @connect id w w' _ hin _ ih =>
    have hb : w.Watches (w.beginHierarchy id) := watches_modifyClass id fun _ _ _ hs => .inl hs
    have he : w'.Watches (w'.endHierarchy id) := watches_modifyClass id fun _ _ _ hs => .inl hs
    have hso' := hso.beginHierarchy id
    exact he.traced (hin.sound hso').stocked (ih hex hso' (hb.traced hso.stocked hw))
  | @broken _ id w w' _ _ ih =>
    have hb : w.Watches (w.beginHierarchy id) := watches_modifyClass id fun _ _ _ hs => .inl hs
    exact ih hex (hso.beginHierarchy id) (hb.traced hso.stocked hw)
  | nest ho _ ih =>
    obtain ⟨_, h0, h1⟩ := ho.moves
    have hso0 := hso.move h0
    exact ih hex (hso0.move h1) (h1.watches.traced hso0.stocked (h0.watches.traced hso.stocked hw))
  | @view view w w1 w2 ho _ hh ih =>
    have ht := ih (.inl rfl) (ho.sound hso) (hw.opensView ho)
    intro ref slot hs hp
    obtain hn | hne | ⟨hl, hex | rfl⟩ := ht ref slot hs hp
    · exact .inl hn
    · exact .inr (.inl hne)
    · exact .inr (.inr ⟨hl, hex⟩)
    · exact ((hh slot hs).2 hp).imp_right .inl
  | unfilled ho _ ih =>
    have ha := hex.resolve_left (by simp)
    exact (ih (.inr fun _ => .inl (ha _)) (ho.sound hso) (hw.opensView ho)).mono fun ref _ => ha ref

end Bindings.World
