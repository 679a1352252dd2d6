import Bindings.Signature.Basic

/-!
# Reading signatures

A reader returns what it read and the rest of the text. An error remembers the text that was left. The budget
of the readers is the length of the text plus one. How a name is read is a parameter of theirs.
-/

namespace Bindings

inductive SignatureError where
  | unexpectedEnd (text : String)
  /-- `found` is the byte at `offset`, as the character with that code. -/
  | unexpectedChar (text : String) (found : Char) (offset : Nat)
  | trailing (text : String) (offset : Nat)
  deriving DecidableEq, Repr

namespace SignatureError

def message : SignatureError → String
  | unexpectedEnd text => "Unexpected end of signature '" ++ text ++ "'"
  | unexpectedChar text found offset =>
    "Unexpected '" ++ found.toString ++ "' at offset " ++ Nat.repr offset ++ " in signature '" ++ text ++ "'"
  | trailing text offset => "Trailing characters at offset " ++ Nat.repr offset ++ " in signature '" ++ text ++ "'"

end SignatureError

namespace Signature

inductive Fault where
  | ended
  /-- `rest` begins with the character that cannot stand there. -/
  | unexpected (rest : List Char)
  | trailing (rest : List Char)
  deriving DecidableEq, Repr

abbrev Reader (α : Type) := List Char → Except Fault (α × List Char)

def byteCount : List Char → Nat
  | [] => 0
  | c :: rest => c.utf8Size + byteCount rest

def leadByte (c : Char) : Char :=
  let n := c.toNat
  if n < 0x80 then c
  else if n < 0x800 then Char.ofNat (0xC0 + n / 0x40)
  else if n < 0x10000 then Char.ofNat (0xE0 + n / 0x1000)
  else Char.ofNat (0xF0 + n / 0x40000)

def Fault.toError (text : String) : Fault → SignatureError
  | ended => .unexpectedEnd text
  | unexpected rest =>
    match rest with
    | [] => .unexpectedEnd text
    | c :: _ => .unexpectedChar text (leadByte c) (byteCount text.toList - byteCount rest)
  | trailing rest => .trailing text (byteCount text.toList - byteCount rest)

def isDelimiter (c : Char) : Bool := c == '.' || c == ';' || c == '[' || c == '/' || c == '<' || c == '>' || c == ':'

def refuse (rest : List Char) : Fault := if rest.isEmpty then .ended else .unexpected rest

def token (c : Char) : Reader Unit
  | [] => .error .ended
  | d :: rest => if d = c then .ok ((), rest) else .error (.unexpected (d :: rest))

def identifier : Reader String := fun text =>
  match text.span (!isDelimiter ·) with
  | ([], rest) => .error (refuse rest)
  | (name, rest) => .ok (String.ofList name, rest)

/-- Items one after another, up to `close`. -/
def readUntil {α : Type} (close : Char) (item : Reader α) : Nat → Reader (List α)
  | 0, _ => .error .ended
  | _ + 1, [] => .error .ended
  | fuel + 1, c :: text =>
    if c = close then .ok ([], text)
    else do
      let (first, text) ← item (c :: text)
      let (rest, text) ← readUntil close item fuel text
      .ok (first :: rest, text)

/-- An item after each `mark`. -/
def readMarked {α : Type} (mark : Char) (item : Reader α) : Nat → Reader (List α)
  | fuel + 1, c :: text =>
    if c = mark then do
      let (first, text) ← item text
      let (rest, text) ← readMarked mark item fuel text
      .ok (first :: rest, text)
    else .ok ([], c :: text)
  | _, text => .ok ([], text)

section

variable (name : Reader String)

def className (fuel : Nat) : Reader String := fun text => do
  let (head, text) ← name text
  let (tail, text) ← readMarked '/' name fuel text
  .ok (joinSegments "/" (head :: tail), text)

def argument (type : Reader TypeSig) : Reader ArgSig
  | '*' :: text => .ok (.unbounded, text)
  | '+' :: text => do
    let (bound, text) ← type text
    .ok (.upper bound, text)
  | '-' :: text => do
    let (bound, text) ← type text
    .ok (.lower bound, text)
  | text => do
    let (type, text) ← type text
    .ok (.exactly type, text)

def typeArguments (type : Reader TypeSig) (fuel : Nat) : Reader (List ArgSig)
  | '<' :: '>' :: text => .error (.unexpected ('>' :: text))
  | '<' :: text => readUntil '>' (argument type) fuel text
  | text => .ok ([], text)

def innerSig (type : Reader TypeSig) (fuel : Nat) : Reader InnerSig := fun text => do
  let (head, text) ← name text
  let (arguments, text) ← typeArguments type fuel text
  .ok (.member head arguments, text)

def typeSig : Nat → Reader TypeSig
  | 0, _ => .error .ended
  | _ + 1, [] => .error .ended
  | fuel + 1, 'L' :: text => do
    let (head, text) ← className name fuel text
    let (arguments, text) ← typeArguments (typeSig fuel) fuel text
    let (inner, text) ← readMarked '.' (innerSig name (typeSig fuel) fuel) fuel text
    let (_, text) ← token ';' text
    .ok (.classType head arguments inner, text)
  | _ + 1, 'T' :: text => do
    let (head, text) ← name text
    let (_, text) ← token ';' text
    .ok (.variable head, text)
  | fuel + 1, '[' :: text => do
    let (component, text) ← typeSig fuel text
    .ok (.array component, text)
  | _ + 1, c :: text =>
    match BaseType.ofDescriptor? c with
    | some base => .ok (.base base, text)
    | none => .error (.unexpected (c :: text))

def classBound (fuel : Nat) : Reader (Option TypeSig)
  | [] => .error .ended
  | ':' :: text => .ok (none, ':' :: text)
  | text => do
    let (bound, text) ← typeSig name fuel text
    .ok (some bound, text)

def typeParam (fuel : Nat) : Reader ParamSig := fun text => do
  let (head, text) ← name text
  let (_, text) ← token ':' text
  let (bound, text) ← classBound name fuel text
  let (interfaces, text) ← readMarked ':' (typeSig name fuel) fuel text
  .ok (⟨head, bound, interfaces⟩, text)

def typeParams (fuel : Nat) : Reader (List ParamSig)
  | '<' :: text => readUntil '>' (typeParam name fuel) fuel text
  | text => .ok ([], text)

def typesToEnd : Nat → List Char → Except Fault (List TypeSig)
  | _, [] => .ok []
  | 0, _ => .error .ended
  | fuel + 1, text => do
    let (type, text) ← typeSig name fuel text
    let rest ← typesToEnd fuel text
    .ok (type :: rest)

def finish {α : Type} (value : α) : List Char → Except Fault α
  | [] => .ok value
  | rest => .error (.trailing rest)

def fieldSig (fuel : Nat) (text : List Char) : Except Fault TypeSig := do
  let (type, rest) ← typeSig name fuel text
  finish type rest

def methodSig (fuel : Nat) (text : List Char) : Except Fault MethodSig := do
  let (params, text) ← typeParams name fuel text
  let (_, text) ← token '(' text
  let (types, text) ← readUntil ')' (typeSig name fuel) fuel text
  let (result, text) ← typeSig name fuel text
  let (thrown, text) ← readMarked '^' (typeSig name fuel) fuel text
  finish ⟨params, types, result, thrown⟩ text

def classSig (fuel : Nat) (text : List Char) : Except Fault ClassSig := do
  let (params, text) ← typeParams name fuel text
  let (superclass, text) ← typeSig name fuel text
  let interfaces ← typesToEnd name fuel text
  .ok ⟨params, superclass, interfaces⟩

end

def parse {α : Type} (read : Nat → List Char → Except Fault α) (text : String) : Except SignatureError α :=
  match read (text.toList.length + 1) text.toList with
  | .ok value => .ok value
  | .error fault => .error (fault.toError text)

end Signature

def TypeSig.parse (text : String) : Except SignatureError TypeSig :=
  Signature.parse (Signature.fieldSig Signature.identifier) text

def MethodSig.parse (text : String) : Except SignatureError MethodSig :=
  Signature.parse (Signature.methodSig Signature.identifier) text

def ClassSig.parse (text : String) : Except SignatureError ClassSig :=
  Signature.parse (Signature.classSig Signature.identifier) text

end Bindings
