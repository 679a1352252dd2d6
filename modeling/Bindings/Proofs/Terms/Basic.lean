import Bindings.World.TypeInfo

/-! # Terms -/

namespace Bindings

inductive Symbol where
  | parameterized (generic : TypeId) (isEnclosed : Bool)
  | wildcard (generic : Option TypeId) (rank : Nat) (kind : WildcardKind) (isBounded : Bool)
  deriving DecidableEq

inductive Term where
  | atom (id : TypeId) (dimensions : UInt32)
  | symbol (symbol : Symbol) (dimensions : UInt32)
  | app (function argument : Term)
  deriving DecidableEq

namespace Term

variable {more : UInt32} {vars : List TypeId} {σ : TypeId → Term}

def root : Term → Term
  | app function _ => function.root
  | term => term

def arguments : Term → List Term
  | app function argument => function.arguments ++ [argument]
  | _ => []

def dimensions : Term → UInt32
  | atom _ dimensions => dimensions
  | symbol _ dimensions => dimensions
  | app function _ => function.dimensions

@[simp] def raise (more : UInt32) : Term → Term
  | atom id dims => atom id (dims + more)
  | symbol name dims => symbol name (dims + more)
  | app function argument => app (function.raise more) argument

def apply (function : Term) (arguments : List Term) : Term := arguments.foldl app function

@[simp] def subst (σ : TypeId → Term) : Term → Term
  | atom id dims => (σ id).raise dims
  | symbol name dims => symbol name dims
  | app function argument => app (function.subst σ) (argument.subst σ)

@[simp] def mentions (vars : List TypeId) : Term → Bool
  | atom id _ => vars.contains id
  | symbol .. => false
  | app function argument => function.mentions vars || argument.mentions vars

@[simp] def cost : Term → Nat
  | atom _ dims => if dims = 0 then 0 else 1
  | symbol _ dims => if dims = 0 then 0 else 1
  | app function argument => function.cost + argument.cost + 1

variable {function term : Term} {arguments : List Term}

theorem root_apply : (function.apply arguments).root = function.root := by
  induction arguments generalizing function with
  | nil => rfl
  | cons _ _ ih => exact ih

theorem arguments_apply : (function.apply arguments).arguments = function.arguments ++ arguments := by
  induction arguments generalizing function with
  | nil => exact (List.append_nil _).symm
  | cons arg rest ih => exact ih.trans (List.append_assoc ..)

theorem dimensions_apply : (function.apply arguments).dimensions = function.dimensions := by
  induction arguments generalizing function with
  | nil => rfl
  | cons _ _ ih => exact ih

theorem subst_apply (σ : TypeId → Term) :
    (function.apply arguments).subst σ = (function.subst σ).apply (arguments.map (subst σ)) := by
  induction arguments generalizing function with
  | nil => rfl
  | cons _ _ ih => exact ih

theorem mentions_apply (vars : List TypeId) :
    (function.apply arguments).mentions vars = (function.mentions vars || arguments.any (mentions vars)) := by
  induction arguments generalizing function with
  | nil => exact (Bool.or_false _).symm
  | cons arg rest ih => exact ih.trans (Bool.or_assoc ..)

theorem cost_lt_apply (h : term ∈ arguments) : term.cost < (function.apply arguments).cost := by
  have hf : ∀ (rest : List Term) (function : Term), function.cost ≤ (function.apply rest).cost := by
    intro rest
    induction rest with
    | nil => exact fun _ => Nat.le_refl _
    | cons arg rest ih =>
      intro function
      have hn : (app function arg).cost ≤ (function.apply (arg :: rest)).cost := ih _
      rw [cost] at hn
      omega
  induction arguments generalizing function with
  | nil => cases h
  | cons arg rest ih =>
    obtain rfl | h := List.mem_cons.1 h
    · have hn : (app function term).cost ≤ (function.apply (term :: rest)).cost := hf rest _
      rw [cost] at hn
      omega
    · exact ih h

theorem mentions_mono {more : List TypeId} (hs : vars ⊆ more) (h : term.mentions more = false) :
    term.mentions vars = false := by
  induction term with
  | atom =>
    rw [mentions, List.contains_eq_mem, decide_eq_false_iff_not] at h ⊢
    exact fun hm => h (hs hm)
  | symbol => rfl
  | app function arg ihf iha =>
    rw [mentions, Bool.or_eq_false_iff] at h ⊢
    exact ⟨ihf h.1, iha h.2⟩

theorem mentions_nil (term : Term) : term.mentions [] = false := by
  induction term with
  | atom | symbol => rfl
  | app _ _ ih1 ih2 => rw [mentions, ih1, ih2, Bool.or_self]

theorem symbol_apply_inj {name name' : Symbol} {dims dims' : UInt32} {arguments' : List Term}
    (h : (symbol name dims).apply arguments = (symbol name' dims').apply arguments') :
    name = name' ∧ arguments = arguments' := by
  have hr := congrArg root h
  have ha := congrArg Term.arguments h
  rw [root_apply, root_apply] at hr
  rw [arguments_apply, arguments_apply] at ha
  exact ⟨(symbol.inj hr).1, ha⟩

@[simp] theorem dimensions_raise (more : UInt32) : (term.raise more).dimensions = term.dimensions + more := by
  induction term with
  | atom | symbol => rfl
  | app _ _ ih => exact ih

@[simp] theorem raise_zero : term.raise 0 = term := by
  induction term with
  | atom | symbol => simp [raise]
  | app _ _ ih => rw [raise, ih]

theorem raise_raise (inner outer : UInt32) : (term.raise inner).raise outer = term.raise (inner + outer) := by
  induction term with
  | atom | symbol => simp [raise, UInt32.add_assoc]
  | app _ _ ih => rw [raise, raise, ih, raise]

theorem raise_inj {other : Term} (h : term.raise more = other.raise more) : term = other := by
  have hb := congrArg (raise (-more)) h
  rwa [raise_raise, raise_raise, UInt32.add_right_neg, raise_zero, raise_zero] at hb

theorem cost_raise (hf : term.dimensions = 0) (hm : more ≠ 0) : (term.raise more).cost = term.cost + 1 := by
  induction term with
  | atom | symbol =>
    obtain rfl := hf
    simp [raise, cost, hm]
  | app _ _ ih =>
    rw [raise, cost, ih hf, cost]
    omega

theorem subst_raise (σ : TypeId → Term) (more : UInt32) : (term.raise more).subst σ = (term.subst σ).raise more := by
  induction term with
  | atom => rw [raise, subst, subst, raise_raise]
  | symbol => rfl
  | app _ _ ih => rw [raise, subst, ih, subst, raise]

@[simp] theorem mentions_raise (vars : List TypeId) (more : UInt32) :
    (term.raise more).mentions vars = term.mentions vars := by
  induction term with
  | atom | symbol => rfl
  | app _ _ ih => rw [raise, mentions, ih, mentions]

theorem subst_subst (σ τ : TypeId → Term) : (term.subst σ).subst τ = term.subst fun id => (σ id).subst τ := by
  induction term with
  | atom => exact subst_raise ..
  | symbol => rfl
  | app _ _ ih1 ih2 => rw [subst, subst, ih1, ih2, subst]

theorem subst_eq_self_iff
    (hv : ∀ id, σ id = .atom id 0 ↔ id ∉ vars) : term.subst σ = term ↔ term.mentions vars = false := by
  induction term with
  | atom id dims =>
    have ha : atom id dims = (atom id 0).raise dims := by simp [raise]
    rw [subst, ha, mentions_raise, mentions, List.contains_eq_mem, decide_eq_false_iff_not, ← hv]
    exact ⟨raise_inj, fun h => by rw [h]⟩
  | symbol => exact ⟨fun _ => rfl, fun _ => rfl⟩
  | app function arg ih1 ih2 => rw [subst, mentions, app.injEq, ih1, ih2, Bool.or_eq_false_iff]

theorem mentions_subst (h : ∀ id, (σ id).mentions vars = false) : (term.subst σ).mentions vars = false := by
  induction term with
  | atom id => rw [subst, mentions_raise, h]
  | symbol => rfl
  | app _ _ ih1 ih2 => rw [subst, mentions, ih1, ih2, Bool.or_self]

end Term

end Bindings
