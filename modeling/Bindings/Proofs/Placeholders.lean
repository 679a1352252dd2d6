import Bindings.Proofs.Reachable
import Bindings.Proofs.World.Traced

/-! # What resolving a placeholder replaces -/

namespace Bindings.World

variable {w w' : World}

theorem traced_initial (options : Options) (classPath : ClassPath) (log : ProblemLog)
    (exempt : Referrer → Prop) : (initial options classPath log).Traced exempt := by
  intro ref slot hs
  rw [held_initial] at hs
  cases hs

theorem Reachable.traced (h : w.Reachable) : w.Traced fun _ => True :=
  h.fact (traced_initial · · · _) fun hr hc => hc.traced (.inr fun _ => trivial) hr.sound

theorem Undisturbed.traced (h : w.Undisturbed) : w.Traced fun _ => False := by
  induction h with
  | initial options classPath log => exact traced_initial _ _ _ _
  | @step w op isLast fuel hw hok ih =>
    have hc := course_run hw.reachable.sound hw.reachable.ledger op isLast fuel
    exact hc.traced (.inl (Halt.of?_eq_none hok)) hw.reachable.sound ih
  | reset _ _ => exact traced_initial _ _ _ _

theorem Traced.noted_of_held {exempt : Referrer → Prop} (hw : w.Traced exempt) {hole : TypeId}
    {name : QName} (hp : w.type hole = .placeholder name none) {ref : Referrer}
    (hne : w.upkeep ref ≠ .never) (hl : w.upkeep ref = .whenFilled → ¬ exempt ref)
    (hh : hole ∈ w.held ref) : ref ∈ w.noted hole := by
  obtain hn | h | ⟨h, he⟩ := hw ref hole hh (isPending_iff.2 ⟨name, hp⟩)
  · exact hn
  · exact absurd h hne
  · exact absurd he (hl h)

/-- Whatever is noted for the types it holds has the placeholder replaced when it is resolved. Views of
methods are noted when they are filled in, so they are among it if nothing was cut short. -/
theorem Reachable.replaced_everywhere (h : w.Reachable) {placeholder : TypeId} {name : QName}
    (hpending : w.type placeholder = .placeholder name none) (target : TypeId)
    (hne : target ≠ placeholder) {referrer : Referrer}
    (hupkeep : w.upkeep referrer = .atOnce ∨ w.upkeep referrer = .whenFilled ∧ w.Undisturbed) :
    (w.swapPlaceholder placeholder target).held referrer =
        (w.held referrer).map (.swap placeholder target) ∧
      placeholder ∉ (w.swapPlaceholder placeholder target).held referrer := by
  have hnoted : placeholder ∈ w.held referrer → referrer ∈ w.noted placeholder := by
    rcases hupkeep with honce | ⟨hlate, hundisturbed⟩
    · exact h.traced.noted_of_held hpending (by simp [honce]) (by simp [honce])
    · exact hundisturbed.traced.noted_of_held hpending (by simp [hlate]) (by simp)
  have hheld : (w.swapPlaceholder placeholder target).held referrer =
      (w.held referrer).map (.swap placeholder target) := by
    rw [held_swapPlaceholder hpending]
    split
    · rfl
    · next hnot => exact (TypeId.map_swap_of_notMem _ fun hmem => hnot (hnoted hmem)).symm
  exact ⟨hheld, hheld ▸ notMem_map_swap hne _⟩

theorem replaced_everywhere_box :
    boxWorld.type ⟨11⟩ = .placeholder ⟨["p", "Item"]⟩ none ∧ boxWorld.held (.type ⟨12⟩) = [⟨11⟩] ∧
      boxWorld.held (.field ⟨0⟩) = [⟨12⟩] ∧
      (boxWorld.swapPlaceholder ⟨11⟩ ⟨10⟩).held (.type ⟨12⟩) = [⟨10⟩] := by
  have hread : boxWorld.type ⟨11⟩ = .placeholder ⟨["p", "Item"]⟩ none ∧
      boxWorld.held (.type ⟨12⟩) = [⟨11⟩] ∧ boxWorld.upkeep (.type ⟨12⟩) = .atOnce := by decide +kernel
  obtain ⟨hpending, hheld, hupkeep⟩ := hread
  have hreplaced := reachable_boxWorld.replaced_everywhere hpending ⟨10⟩ (by decide) (.inl hupkeep)
  exact ⟨hpending, hheld, by decide +kernel, by rw [hreplaced.1, hheld]; rfl⟩

def sinkClassPath : ClassPath := .ofClasses
  [.generic "p/Sink", { name := "p/Item" },
   { name := "p/Box", fields := [{ name := "items", descriptor := "Lp/Sink;", signature := "Lp/Sink<-Lp/Item;>;" }] }]

def sinkWorld : World :=
  (initial {} sinkClassPath {}).after
    [.getType ⟨["p", "Sink"]⟩, .getType ⟨["p", "Box"]⟩, .fields ⟨14⟩, .capture ⟨17⟩ 0]

/-- When the class arrives, the wildcard gets it as its bound and the capture of the wildcard does not. -/
theorem capture_keeps_placeholder :
    sinkWorld.Reachable ∧ sinkWorld.type ⟨15⟩ = .placeholder ⟨["p", "Item"]⟩ none ∧
      ⟨15⟩ ∈ (sinkWorld.swapPlaceholder ⟨15⟩ ⟨13⟩).held (.type ⟨18⟩) ∧
      (sinkWorld.after [.getType ⟨["p", "Item"]⟩]).type ⟨15⟩ =
        .placeholder ⟨["p", "Item"]⟩ (some ⟨20⟩) ∧
      ⟨20⟩ ∈ (sinkWorld.after [.getType ⟨["p", "Item"]⟩]).held (.type ⟨16⟩) ∧
      ⟨15⟩ ∈ (sinkWorld.after [.getType ⟨["p", "Item"]⟩]).held (.type ⟨18⟩) :=
  ⟨(Reachable.initial {} sinkClassPath {}).after _, by decide +kernel⟩

end Bindings.World
