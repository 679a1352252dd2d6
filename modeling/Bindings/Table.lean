/-! # Tables -/

namespace Bindings

structure Table (κ α : Type) where
  entries : List (κ × α)
  deriving Repr, DecidableEq

namespace Table

variable {κ α : Type}

instance : Inhabited (Table κ α) := ⟨⟨[]⟩⟩

def empty : Table κ α := ⟨[]⟩

def size (table : Table κ α) : Nat := table.entries.length

variable [DecidableEq κ]

def findIn (key : κ) : List (κ × α) → Option α
  | [] => none
  | (k, value) :: rest => if k = key then some value else findIn key rest

def insertIn (key : κ) (value : α) : List (κ × α) → List (κ × α)
  | [] => [(key, value)]
  | (k, old) :: rest => if k = key then (key, value) :: rest else (k, old) :: insertIn key value rest

def find? (table : Table κ α) (key : κ) : Option α := findIn key table.entries

def insert (table : Table κ α) (key : κ) (value : α) : Table κ α := ⟨insertIn key value table.entries⟩

def erase (table : Table κ α) (key : κ) : Table κ α := ⟨table.entries.filter fun entry => entry.1 ≠ key⟩

def filterValues (keep : α → Bool) (table : Table κ α) : Table κ α := ⟨table.entries.filter fun entry => keep entry.2⟩

@[simp] theorem findIn_insertIn (key k : κ) (value : α) (entries : List (κ × α)) :
    findIn k (insertIn key value entries) = if k = key then some value else findIn k entries := by
  induction entries with
  | nil => grind [findIn, insertIn]
  | cons entry rest ih => grind [findIn, insertIn]

@[simp] theorem find?_insert (table : Table κ α) (key k : κ) (value : α) :
    (table.insert key value).find? k = if k = key then some value else table.find? k :=
  findIn_insertIn ..

@[simp] theorem find?_erase (table : Table κ α) (key k : κ) :
    (table.erase key).find? k = if k = key then none else table.find? k := by
  obtain ⟨entries⟩ := table
  simp only [find?, erase]
  induction entries with
  | nil => simp [findIn]
  | cons entry rest ih => grind [findIn]

@[simp] theorem find?_empty (key : κ) : (empty : Table κ α).find? key = none := rfl

end Table

end Bindings
