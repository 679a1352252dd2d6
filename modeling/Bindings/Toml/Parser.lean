import Bindings.Toml.Document

/-!
# Reading configuration documents

A reader of TOML 1.0 takes what it reads off the text, or fails. Loops carry a budget, and values nest
less than `maxDepth` deep.
-/

namespace Bindings.Toml

abbrev Reader := StateT (List Char) Option

def maxDepth : Nat := 80

/-! ## Loops -/

def fueled {α : Type} (read : Nat → Reader α) : Reader α := do read ((← get).length + 1)

def many {α : Type} (item : Reader α) : Nat → Reader (List α)
  | 0 => pure []
  | fuel + 1 => (do return (← item) :: (← many item fuel)) <|> pure []

def upTo {α : Type} (close item : Reader (List α)) : Nat → Reader (List α)
  | 0 => failure
  | fuel + 1 => close <|> do return (← item) ++ (← upTo close item fuel)

/-! ## Characters, blanks and line ends -/

def isText (c : Char) : Bool := c == '\t' || (' ' ≤ c && c != '\x7f')

def isHexDigit (c : Char) : Bool := c.isDigit || ('a' ≤ c && c ≤ 'f') || ('A' ≤ c && c ≤ 'F')

def hexValue (c : Char) : Nat :=
  if c.isDigit then c.toNat - '0'.toNat
  else if 'a' ≤ c then c.toNat - 'a'.toNat + 10
  else c.toNat - 'A'.toNat + 10

def numeral (base : Nat) (digits : List Char) : Nat := digits.foldl (fun n c => n * base + hexValue c) 0

def oneOf (isMember : Char → Bool) : Reader Char := do
  let c :: rest ← get | failure
  guard (isMember c)
  set rest
  return c

def token (c : Char) : Reader Unit := discard (oneOf (· == c))

def word (text : String) : Reader Unit := text.toList.forM token

def spanOf (isMember : Char → Bool) : Reader (List Char) := modifyGet (·.span isMember)

def fixedNumber (base count : Nat) (isDigit : Char → Bool) : Reader Nat := do
  let digits ← (List.replicate count isDigit).mapM oneOf
  return numeral base digits

def skipBlanks : Reader Unit := discard (spanOf fun c => c == ' ' || c == '\t')

def newline : Reader Unit := token '\n' <|> word "\r\n"

def skipComment : Reader Unit := token '#' *> discard (spanOf isText) <|> pure ()

def lineEnd : Reader Unit := do
  skipBlanks
  skipComment
  unless (← get).isEmpty do newline

def skipLines (skipRemark : Reader Unit) : Reader Unit := do
  let blank : Reader Unit := skipBlanks *> skipRemark
  discard (fueled (many (blank *> newline)))
  blank

def skipSpace : Reader Unit := skipLines skipComment

/-! ## Strings -/

def codePoint (count : Nat) : Reader Char := do
  let value ← fixedNumber 16 count isHexDigit
  guard value.isValidChar
  return Char.ofNat value

def escape : Reader Char := do
  match ← oneOf fun _ => true with
  | 'b' => return '\x08'
  | 'f' => return '\x0c'
  | 'n' => return '\n'
  | 'r' => return '\r'
  | 't' => return '\t'
  | '"' => return '"'
  | '\\' => return '\\'
  | 'u' => codePoint 4
  | 'U' => codePoint 8
  | _ => failure

def basicString : Reader (List Char) := do
  token '"'
  let item := token '\\' *> escape <|> oneOf fun c => isText c && c != '\\'
  fueled (upTo (token '"' *> pure []) (.singleton <$> item))

def literalString : Reader (List Char) := token '\'' *> spanOf (fun c => isText c && c != '\'') <* token '\''

def textBlock (quote : Char) (escapes : Bool) : Reader (List Char) := do
  let quotes (count : Nat) : Reader (List Char) := (List.replicate count (· == quote)).mapM oneOf
  discard (quotes 3)
  newline <|> pure ()
  let close : Reader (List Char) := do
    discard (quotes 3)
    quotes 2 <|> quotes 1 <|> pure []
  let escaped : Reader (List Char) := do
    guard escapes
    token '\\'
    skipBlanks *> newline *> skipLines (pure ()) *> pure [] <|> .singleton <$> escape
  let plain := oneOf fun c => isText c && !(escapes && c == '\\')
  fueled (upTo close (newline *> pure ['\n'] <|> escaped <|> .singleton <$> plain))

def stringValue : Reader String :=
  String.ofList <$> (textBlock '"' true <|> textBlock '\'' false <|> basicString <|> literalString)

/-! ## Keys -/

def simpleKey : Reader String := do
  let bare ← spanOf fun c => c.isAlphanum || c == '_' || c == '-'
  String.ofList <$> if bare.isEmpty then basicString <|> literalString else pure bare

def keyPath : Reader (List String) := do
  let key : Reader String := skipBlanks *> simpleKey <* skipBlanks
  let path := (← key) :: (← fueled (many (token '.' *> key)))
  guard (path.length < maxDepth)
  return path

/-! ## Numbers and dates -/

def digits (isDigit : Char → Bool) : Reader (List Char) := do
  return (← oneOf isDigit) :: (← fueled (many (token '_' *> oneOf isDigit <|> oneOf isDigit)))

def isNegative : Reader Bool := token '-' *> pure true <|> token '+' *> pure false <|> pure false

def natural : Reader (List Char) := token '0' *> pure ['0'] <|> digits Char.isDigit

def inRange (value : Int) : Bool := -9223372036854775808 ≤ value && value ≤ 9223372036854775807

def integer : Reader Item := do
  let radix (head : String) (base : Nat) (isDigit : Char → Bool) : Reader Int :=
    word head *> (numeral base · : List Char → Int) <$> digits isDigit
  let decimal : Reader Int := do
    let negative ← isNegative
    let value : Int := numeral 10 (← natural)
    return if negative then -value else value
  let value ← radix "0x" 16 isHexDigit <|> radix "0o" 8 (fun c => '0' ≤ c && c ≤ '7') <|>
    radix "0b" 2 (fun c => c == '0' || c == '1') <|> decimal
  guard (inRange value)
  return .integer value

def exponent : Reader Int := do
  token 'e' <|> token 'E'
  let negative ← isNegative
  let value : Int := numeral 10 (← digits Char.isDigit)
  return if negative then -value else value

def overflowLimit : Nat := Nat.pow 2 1024 - Nat.pow 2 970

def overflows (mantissa : List Char) (scale : Int) : Bool :=
  let value := numeral 10 mantissa
  let magnitude : Int := (Nat.toDigits 10 value).length + scale
  if value = 0 ∨ magnitude < 300 then false
  else if 400 < magnitude then true
  else if 0 ≤ scale then overflowLimit ≤ value * Nat.pow 10 scale.toNat
  else overflowLimit * Nat.pow 10 (-scale).toNat ≤ value

def float : Reader Item := do
  let negative ← isNegative
  word "inf" <|> word "nan" <|> do
    let body ← natural
    let fraction ← optional (token '.' *> digits Char.isDigit)
    let power ← optional exponent
    guard (fraction.isSome || power.isSome)
    let fraction := fraction.getD []
    guard (negative || !overflows (body ++ fraction) (power.getD 0 - fraction.length))
  return .float

def decimalDigits (count : Nat) : Reader Nat := fixedNumber 10 count Char.isDigit

def daysInMonth (year month : Nat) : Nat :=
  if month = 2 then if year % 4 = 0 ∧ (year % 100 ≠ 0 ∨ year % 400 = 0) then 29 else 28
  else if month = 4 ∨ month = 6 ∨ month = 9 ∨ month = 11 then 30
  else 31

def date : Reader Unit := do
  let year ← decimalDigits 4
  let month ← token '-' *> decimalDigits 2
  let day ← token '-' *> decimalDigits 2
  guard (1 ≤ month ∧ month ≤ 12 ∧ 1 ≤ day ∧ day ≤ daysInMonth year month)

def clock : Reader Unit := do
  let hour ← decimalDigits 2
  let minute ← token ':' *> decimalDigits 2
  guard (hour ≤ 23 ∧ minute ≤ 59)

def time : Reader Unit := do
  clock
  let second ← token ':' *> decimalDigits 2
  guard (second ≤ 60)
  token '.' *> oneOf Char.isDigit *> discard (spanOf Char.isDigit) <|> pure ()

def zone : Reader Unit := do
  if let some c ← optional (oneOf fun c => "Zz+-".contains c) then if c = '+' ∨ c = '-' then clock

def dateTime : Reader Item := do
  (date *> (oneOf (fun c => c == 'T' || c == 't' || c == ' ') *> time *> zone <|> pure ())) <|> time
  return .dateTime

/-! ## Values -/

def scalar : Reader Item :=
  word "true" *> pure (.boolean true) <|> word "false" *> pure (.boolean false) <|>
    .string <$> stringValue <|> dateTime <|> float <|> integer

def elements (read : Reader Item) : Nat → Reader (List Item)
  | 0 => failure
  | fuel + 1 => do
    skipSpace
    token ']' *> pure [] <|> do
      let item ← read
      skipSpace
      token ',' *> (item :: ·) <$> elements read fuel <|> token ']' *> pure [item]

def pairs (read : Reader Item) : Nat → Entries → Reader Entries
  | 0, _ => failure
  | fuel + 1, entries => do
    let path ← keyPath <* token '='
    let item ← skipBlanks *> read <* skipBlanks
    let entries ← entries.assign path item
    token ',' *> pairs read fuel entries <|> token '\x7d' *> pure entries

def value : Nat → Reader Item
  | 0 => scalar
  | depth + 1 =>
    token '[' *> .array <$> fueled (elements (value depth)) <|>
    token '\x7b' *> skipBlanks *> .table .inline <$>
      (token '\x7d' *> pure [] <|> fueled fun fuel => pairs (value depth) fuel []) <|>
    scalar

/-! ## Documents -/

def line (draft : Draft) : Reader Draft := do
  let next : Draft ←
    (do draft.openElement (← word "[[" *> keyPath <* word "]]")) <|>
    (do draft.openTable (← token '[' *> keyPath <* token ']')) <|>
    (do draft.assign (← keyPath <* token '=' <* skipBlanks) (← value (maxDepth - 1))) <|>
    pure draft
  lineEnd
  return next

def linesOf : Nat → Draft → Reader Draft
  | 0, _ => failure
  | fuel + 1, draft => do
    skipBlanks
    if (← get).isEmpty then return draft
    linesOf fuel (← line draft)

def parse (text : String) : Option Entries := do
  let text := match text.toList with
    | '\ufeff' :: rest => rest
    | text => text
  let draft ← (fueled (linesOf · .empty)).run' text
  return draft.entries

end Bindings.Toml
