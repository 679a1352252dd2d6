import Bindings.Signature.Basic

/-! # Writing signatures -/

namespace Bindings

mutual

/-- The text of a type; `null` has none. -/
@[simp] def TypeSig.print : TypeSig → String
  | .base base => (base.descriptor?.map Char.toString).getD ""
  | .classType name arguments inner => "L" ++ name ++ ArgSig.printAll arguments ++ InnerSig.printAll inner ++ ";"
  | .variable name => "T" ++ name ++ ";"
  | .array component => "[" ++ component.print

@[simp] def ArgSig.print : ArgSig → String
  | .unbounded => "*"
  | .upper bound => "+" ++ bound.print
  | .lower bound => "-" ++ bound.print
  | .exactly type => type.print

def ArgSig.printTail : List ArgSig → String
  | [] => ""
  | argument :: rest => argument.print ++ ArgSig.printTail rest

def ArgSig.printAll : List ArgSig → String
  | [] => ""
  | argument :: rest => "<" ++ argument.print ++ ArgSig.printTail rest ++ ">"

def InnerSig.print : InnerSig → String
  | .member name arguments => "." ++ name ++ ArgSig.printAll arguments

def InnerSig.printAll : List InnerSig → String
  | [] => ""
  | inner :: rest => inner.print ++ InnerSig.printAll rest

end

def TypeSig.printMarked (mark : String) (types : List TypeSig) : String :=
  String.join (types.map fun type => mark ++ type.print)

def ParamSig.print (param : ParamSig) : String :=
  param.name ++ ":" ++ (param.classBound.map TypeSig.print).getD "" ++ TypeSig.printMarked ":" param.interfaceBounds

def ParamSig.printAll : List ParamSig → String
  | [] => ""
  | params => "<" ++ String.join (params.map ParamSig.print) ++ ">"

def MethodSig.print (sig : MethodSig) : String :=
  ParamSig.printAll sig.typeParams ++ "(" ++ TypeSig.printMarked "" sig.params ++ ")" ++
    sig.result.print ++ TypeSig.printMarked "^" sig.thrown

def ClassSig.print (sig : ClassSig) : String :=
  ParamSig.printAll sig.typeParams ++ sig.superclass.print ++ TypeSig.printMarked "" sig.interfaces

end Bindings
