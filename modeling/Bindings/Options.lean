import Bindings.Toml.Parser

/-! # Compiler options -/

namespace Bindings

inductive Level where
  | v13 | v14 | v15 | v16 | v17 | v18
  deriving DecidableEq, Repr, Inhabited

namespace Level

def all : List Level := [v13, v14, v15, v16, v17, v18]

def label : Level → String
  | v13 => "1.3"
  | v14 => "1.4"
  | v15 => "1.5"
  | v16 => "1.6"
  | v17 => "1.7"
  | v18 => "1.8"

def ofLabel? (text : String) : Option Level := all.find? (·.label == text)

def rank : Level → Nat
  | v13 => 0
  | v14 => 1
  | v15 => 2
  | v16 => 3
  | v17 => 4
  | v18 => 5

end Level

structure Options where
  source : Level := .v18
  compliance : Level := .v18
  reportUnchecked : Bool := true
  deriving DecidableEq, Repr, Inhabited

inductive OptionsError where
  | malformed
  | sourceAboveCompliance (source compliance : Level)
  deriving DecidableEq, Repr

def OptionsError.message : OptionsError → String
  | malformed => "Failed to parse compiler options"
  | sourceAboveCompliance source compliance =>
    "Invalid compiler options: source level " ++ source.label ++
      " is higher than compliance level " ++ compliance.label

namespace Options

def ofLevel (level : Level) : Options := { source := level, compliance := level }

def generics (options : Options) : Bool := Level.v15.rank ≤ options.source.rank

def boxing (options : Options) : Bool := Level.v15.rank ≤ options.source.rank

def varargs (options : Options) : Bool := Level.v15.rank ≤ options.source.rank

def isVacant : Toml.Item → Bool
  | .array items => items.isEmpty
  | .table _ entries => entries.isEmpty
  | _ => false

def levelOfItem? : Toml.Item → Option Level
  | .string text => Level.ofLabel? text
  | .table _ [(key, item)] => if isVacant item then Level.ofLabel? key else none
  | _ => none

def flagOfItem? : Toml.Item → Option Bool
  | .boolean value => some value
  | _ => none

def entry {α : Type} (read : Toml.Item → Option α) (default : α) (key : String) (entries : Toml.Entries) : Option α :=
  match Table.findIn key entries with
  | none => some default
  | some item => read item

def ofEntries? (entries : Toml.Entries) : Option Options := do
  let source ← entry levelOfItem? .v18 "source_level" entries
  let compliance ← entry levelOfItem? .v18 "compliance_level" entries
  let reportUnchecked ← entry flagOfItem? true "report_unchecked" entries
  some { source, compliance, reportUnchecked }

def validate (options : Options) : Except OptionsError Options :=
  if options.compliance.rank < options.source.rank then
    .error (.sourceAboveCompliance options.source options.compliance)
  else .ok options

def ofToml (text : String) : Except OptionsError Options :=
  match (Toml.parse text).bind ofEntries? with
  | none => .error .malformed
  | some options => options.validate

end Options

end Bindings
