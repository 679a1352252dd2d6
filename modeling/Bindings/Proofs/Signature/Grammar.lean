import Bindings.Signature.Parser
import Bindings.Signature.Printer

/-! # Well-formed signatures -/

namespace Bindings

namespace Signature

def IsIdentifier (name : String) : Prop :=
  name ≠ "" ∧ ∀ c ∈ name.toList, isDelimiter c = false

def IsClassName (name : String) : Prop :=
  ∃ segments : List String, segments ≠ [] ∧ (∀ segment ∈ segments, IsIdentifier segment) ∧
    name = joinSegments "/" segments

end Signature

open Signature

mutual

@[simp] def TypeSig.WellFormed : TypeSig → Prop
  | .base base => base ≠ .null
  | .classType name arguments inner =>
    IsClassName name ∧ ArgSig.AllWellFormed arguments ∧ InnerSig.AllWellFormed inner
  | .variable name => IsIdentifier name
  | .array component => component.WellFormed

@[simp] def ArgSig.WellFormed : ArgSig → Prop
  | .unbounded => True
  | .upper bound => bound.WellFormed
  | .lower bound => bound.WellFormed
  | .exactly type => type.WellFormed

def ArgSig.AllWellFormed : List ArgSig → Prop
  | [] => True
  | argument :: rest => argument.WellFormed ∧ ArgSig.AllWellFormed rest

def InnerSig.WellFormed : InnerSig → Prop
  | .member name arguments => IsIdentifier name ∧ ArgSig.AllWellFormed arguments

def InnerSig.AllWellFormed : List InnerSig → Prop
  | [] => True
  | inner :: rest => inner.WellFormed ∧ InnerSig.AllWellFormed rest

end

def ParamSig.WellFormed (param : ParamSig) : Prop :=
  IsIdentifier param.name ∧ param.bounds ≠ [] ∧ ∀ bound ∈ param.bounds, bound.WellFormed

def MethodSig.WellFormed (sig : MethodSig) : Prop :=
  (∀ param ∈ sig.typeParams, param.WellFormed) ∧ (∀ type ∈ sig.params, type.WellFormed) ∧
    sig.result.WellFormed ∧ ∀ type ∈ sig.thrown, type.WellFormed

def ClassSig.WellFormed (sig : ClassSig) : Prop :=
  (∀ param ∈ sig.typeParams, param.WellFormed) ∧ sig.superclass.WellFormed ∧
    ∀ type ∈ sig.interfaces, type.WellFormed

namespace Signature

variable {base : BaseType} {c : Char}

theorem ofDescriptor?_eq_some
    (h : BaseType.ofDescriptor? c = some base) : base.descriptor? = some c ∧ base ≠ .null := by
  unfold BaseType.ofDescriptor? at h
  split at h <;> cases h <;> simp [BaseType.descriptor?]

theorem exists_descriptor (h : base ≠ .null) :
    ∃ c, base.descriptor? = some c ∧ BaseType.ofDescriptor? c = some base ∧ c ≠ 'L' ∧ c ≠ 'T' ∧ c ≠ '[' := by
  cases base <;> simp_all [BaseType.descriptor?, BaseType.ofDescriptor?]

def startsType (c : Char) : Bool :=
  c == 'L' || c == 'T' || c == '[' || (BaseType.ofDescriptor? c).isSome

theorem startsType_ne {d : Char} (h : startsType c = true) (hd : startsType d = false) : c ≠ d := by
  rintro rfl
  rw [h] at hd
  cases hd

theorem print_cons : ∀ {type : TypeSig}, type.WellFormed → ∃ c text, type.print.toList = c :: text ∧ startsType c = true
  | .base base, h => by
    rw [TypeSig.WellFormed] at h
    obtain ⟨c, hc, hb, -⟩ := exists_descriptor h
    exact ⟨c, [], by simp [hc, Char.toString], by simp [startsType, hb]⟩
  | .classType .., _ => ⟨'L', _, by simp; rfl, rfl⟩
  | .variable _, _ => ⟨'T', _, by simp; rfl, rfl⟩
  | .array _, _ => ⟨'[', _, by simp; rfl, rfl⟩

theorem IsIdentifier.toList_cons {name : String} (h : IsIdentifier name) :
    ∃ c text, name.toList = c :: text ∧ isDelimiter c = false := by
  cases hn : name.toList with
  | nil => exact absurd (String.toList_injective (by simpa using hn)) h.1
  | cons c text => exact ⟨c, text, rfl, h.2 c (by simp [hn])⟩

end Signature

end Bindings
