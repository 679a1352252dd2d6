import Bindings.Modifiers
import Bindings.QName

/-! # Compiled classes -/

namespace Bindings

structure CompiledField where
  name : String
  modifiers : Modifiers := .publicFlag
  descriptor : String
  signature : Option String := none
  deriving DecidableEq, Repr, Inhabited

structure CompiledMethod where
  selector : String
  modifiers : Modifiers := .publicFlag
  descriptor : String
  signature : Option String := none
  thrown : List String := []
  deriving DecidableEq, Repr, Inhabited

structure ClassFile where
  name : String
  modifiers : Modifiers := .publicFlag
  signature : Option String := none
  /-- Absent only for the root of the hierarchy. -/
  superclass : Option String := some "java/lang/Object"
  interfaces : List String := []
  enclosing : Option String := none
  members : List String := []
  fields : List CompiledField := []
  methods : List CompiledMethod := []
  deriving DecidableEq, Repr, Inhabited

def ClassFile.qname (file : ClassFile) : QName := .ofInternal file.name

end Bindings
