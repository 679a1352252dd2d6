import Bindings.Subtyping

/-!
# Arguments of an invocation

An invocation is matched in up to three phases: without boxing, with boxing, and with a variable number of
arguments.
-/

namespace Bindings

inductive Phase where
  | strict
  | loose
  | varargs
  deriving DecidableEq, Repr

namespace Phase

def label : Phase → String
  | strict => "strict"
  | loose => "loose"
  | varargs => "varargs"

def ofLabel : String → Phase
  | "loose" => loose
  | "varargs" => varargs
  | _ => strict

def forArgument : Phase → Phase
  | strict => strict
  | loose | varargs => loose

end Phase

def Options.phases (options : Options) : List Phase :=
  .strict :: ((if options.boxing then [.loose] else []) ++ (if options.varargs then [.varargs] else []))

namespace Query

def boxingCompatible (argument parameter : TypeId) : Query Bool := do
  let world ← get
  match world.base? argument, world.base? parameter with
  | some .null, _ => return false
  | some base, none =>
    match ← boxed base with
    | some wrapper => compatible wrapper parameter
    | none => return false
  | none, some base => return (world.unboxed? argument).any (·.widensTo base)
  | _, _ => return false

def argumentCompatible (phase : Phase) (argument parameter : TypeId) : Query Bool := do
  if ← compatible argument parameter then return true
  if phase = .strict ∨ !(← get).options.boxing then return false
  boxingCompatible argument parameter

def argumentsCompatible (phase : Phase) (arguments params : List TypeId) : Query Bool :=
  (arguments.zip params).allM fun (argument, parameter) => argumentCompatible phase argument parameter

def arrayComponent (id : TypeId) : Edit (Option TypeId) := do
  match (← get).type id with
  | .array leaf dimensions => some <$> Edit.arrayType leaf (dimensions - 1)
  | _ => return none

def spreadParams (params : List TypeId) (count : Nat) : Edit (Option (List TypeId)) := do
  match params.getLast? with
  | none => return none
  | some last =>
    let fixed := params.dropLast
    if count < fixed.length then return none
    match ← arrayComponent last with
    | some component => return some (fixed ++ List.replicate (count - fixed.length) component)
    | none => return none

def methodCompatible (phase : Phase) (method : MethodId) (arguments : List TypeId) : Query Bool := do
  let params := ((← get).method method).params
  if params.length = arguments.length then
    if ← argumentsCompatible phase.forArgument arguments params then return true
  if phase ≠ .varargs ∨ !((← get).method method).isVarargs then return false
  match ← spreadParams params arguments.length with
  | some spread => argumentsCompatible .loose arguments spread
  | none => return false

end Query

end Bindings
