import Bindings.Query

/-! # Running edits and queries -/

namespace Bindings

variable {α β : Type} {query : Query α} {next : α → Query β}

namespace Edit

variable (w : World)

@[simp] theorem pure_apply (a : α) : (pure a : Edit α) w = (a, w) := rfl

@[simp] theorem bind_apply (edit : Edit α) (next : α → Edit β) : (edit >>= next) w = next (edit w).1 (edit w).2 := rfl

@[simp] theorem get_apply : (get : Edit World) w = (w, w) := rfl

@[simp] theorem modify_apply (change : World → World) : (modify change : Edit Unit) w = ((), change w) := rfl

@[simp] theorem modifyGet_apply (change : World → α × World) : (modifyGet change : Edit α) w = change w := rfl

end Edit

namespace Query

variable (d : Demand) (w : World) {w' : World}

@[simp] theorem pure_apply (a : α) : (pure a : Query α) d w = (.ok a, w) := rfl

theorem bind_apply (query : Query α) (next : α → Query β) :
    (query >>= next) d w = ExceptT.bindCont (fun a => next a d) (query d w).1 (query d w).2 := rfl

theorem bind_ok {a : α} (h : query d w = (.ok a, w')) : (query >>= next) d w = next a d w' := by
  rw [bind_apply, h]
  rfl

theorem bind_error (next : α → Query β) {halt : Halt}
    (h : query d w = (.error halt, w')) : (query >>= next) d w = (.error halt, w') := by
  rw [bind_apply, h]
  rfl

@[elab_as_elim] theorem bind_elim {motive : Except Halt β × World → Prop}
    (error : ∀ halt w1, query d w = (.error halt, w1) → motive (.error halt, w1))
    (ok : ∀ a w1, query d w = (.ok a, w1) → motive (next a d w1)) : motive ((query >>= next) d w) := by
  cases hr : query d w with
  | mk res w1 =>
    cases res with
    | error halt => exact bind_error d w next hr ▸ error halt w1 hr
    | ok a => exact bind_ok d w hr ▸ ok a w1 hr

theorem of_bind_ok {b : β} {w2 : World}
    (h : (query >>= next) d w = (.ok b, w2)) : ∃ a w1, query d w = (.ok a, w1) ∧ next a d w1 = (.ok b, w2) := by
  revert h
  refine bind_elim d w (fun _ _ _ h => ?_) fun a w1 hr h => ⟨a, w1, hr, h⟩
  cases h

@[simp] theorem get_bind_apply (next : World → Query β) : (get >>= next) d w = next w d w := rfl

@[simp] theorem modify_apply (change : World → World) : (modify change : Query Unit) d w = (.ok (), change w) := rfl

theorem map_eq_bind (f : α → β) (query : Query α) : f <$> query = query >>= fun a => pure (f a) := rfl

theorem thenAlways_apply (query : Query α) (after : Edit Unit) :
    query.thenAlways after d w = ((query d w).1, (after (query d w).2).2) := rfl

end Query

end Bindings
