import Bindings.Table

/-! # Configuration documents -/

namespace Bindings.Toml

inductive Origin where
  | header
  | implied
  | dotted
  | inline
  deriving DecidableEq, Repr, Inhabited

inductive Item where
  | string (text : String)
  | integer (value : Int)
  | float
  | boolean (value : Bool)
  | dateTime
  | array (items : List Item)
  | table (origin : Origin) (entries : List (String × Item))
  | tables (elements : List (List (String × Item)))
  deriving Inhabited

abbrev Entries := List (String × Item)

inductive PathKind where
  | header | key
  deriving DecidableEq, Repr

def PathKind.makes : PathKind → Origin
  | header => .implied
  | key => .dotted

def PathKind.enters : PathKind → Origin → Bool
  | header, origin => origin != .inline
  | key, origin => origin == .implied || origin == .dotted

def Entries.update (kind : PathKind) (change : Origin → Entries → Option Entries) :
    List String → Origin → Entries → Option Entries
  | [], origin, entries => change origin entries
  | key :: path, _, entries =>
    match Table.findIn key entries with
    | none => do
      let inner ← update kind change path kind.makes []
      some (Table.insertIn key (.table kind.makes inner) entries)
    | some (.table origin inner) =>
      if kind.enters origin then do
        let inner ← update kind change path origin inner
        some (Table.insertIn key (.table origin inner) entries)
      else none
    | some (.tables elements) => do
      let last ← update kind change path .header (elements.getLast?.getD [])
      some (Table.insertIn key (.tables (elements.dropLast ++ [last])) entries)
    | some _ => none

def Entries.add (key : String) (item : Item) (entries : Entries) : Option Entries :=
  match Table.findIn key entries with
  | none => some (entries ++ [(key, item)])
  | some _ => none

def Entries.assign (path : List String) (item : Item) (entries : Entries) : Option Entries := do
  let key ← path.getLast?
  entries.update .key
    (fun origin inner => if path.length = 1 ∨ origin = .dotted then inner.add key item else none)
    path.dropLast .header

def Entries.openTable (key : String) (entries : Entries) : Option Entries :=
  match Table.findIn key entries with
  | none => some (Table.insertIn key (.table .header []) entries)
  | some (.table .implied inner) => some (Table.insertIn key (.table .header inner) entries)
  | some _ => none

def Entries.openElement (key : String) (entries : Entries) : Option Entries :=
  match Table.findIn key entries with
  | none => some (Table.insertIn key (.tables [[]]) entries)
  | some (.tables elements) => some (Table.insertIn key (.tables (elements ++ [[]])) entries)
  | some _ => none

structure Draft where
  entries : Entries
  current : List String

namespace Draft

def empty : Draft := ⟨[], []⟩

def header (opens : String → Entries → Option Entries) (path : List String) (draft : Draft) : Option Draft := do
  let key ← path.getLast?
  let entries ← draft.entries.update .header (fun _ inner => opens key inner) path.dropLast .header
  some ⟨entries, path⟩

def openTable : List String → Draft → Option Draft := header Entries.openTable

def openElement : List String → Draft → Option Draft := header Entries.openElement

def assign (path : List String) (item : Item) (draft : Draft) : Option Draft := do
  let entries ← draft.entries.update .header (fun _ inner => inner.assign path item)
    draft.current .header
  some { draft with entries }

end Draft

end Bindings.Toml
