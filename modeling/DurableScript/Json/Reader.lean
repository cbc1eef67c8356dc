import DurableScript.Json.Document

namespace DurableScript.Document

def skipBlanks (text : List Char) : List Char :=
  text.dropWhile fun c => c == ' ' || c == '\t' || c == '\n' || c == '\r'

def hexDigit? (c : Char) : Option Nat :=
  if '0' ≤ c ∧ c ≤ '9' then some (c.toNat - '0'.toNat)
  else if 'a' ≤ c ∧ c ≤ 'f' then some (c.toNat - 'a'.toNat + 10)
  else if 'A' ≤ c ∧ c ≤ 'F' then some (c.toNat - 'A'.toNat + 10)
  else none

def hexUnit? (a b c d : Char) : Option Nat := do
  let a ← hexDigit? a
  let b ← hexDigit? b
  let c ← hexDigit? c
  let d ← hexDigit? d
  return ((a * 16 + b) * 16 + c) * 16 + d

inductive Piece where
  | char (c : Char)
  | unit (u : Nat)

def letterEscape? : Char → Option Char
  | '"' => some '"'
  | '\\' => some '\\'
  | '/' => some '/'
  | 'b' => some '\x08'
  | 'f' => some '\x0c'
  | 'n' => some '\n'
  | 'r' => some '\r'
  | 't' => some '\t'
  | _ => none

/-- The pieces of a string up to the closing quote, behind those already `done` (backwards), and the
text after it. -/
def readPieces (done : List Piece) : List Char → Option (List Piece × List Char)
  | [] => none
  | '"' :: rest => some (done.reverse, rest)
  | '\\' :: 'u' :: a :: b :: c :: d :: rest =>
    match hexUnit? a b c d with
    | some unit => readPieces (.unit unit :: done) rest
    | none => none
  | '\\' :: c :: rest =>
    match letterEscape? c with
    | some c => readPieces (.char c :: done) rest
    | none => none
  | c :: rest => if c.toNat < 32 then none else readPieces (.char c :: done) rest

def isLead (u : Nat) : Bool := 0xD800 ≤ u && u < 0xDC00

def isTrail (u : Nat) : Bool := 0xDC00 ≤ u && u < 0xE000

def joinPieces (done : List Char) : List Piece → Option String
  | [] => some (String.ofList done.reverse)
  | .char c :: rest => joinPieces (c :: done) rest
  | .unit u :: .unit v :: rest =>
    if isLead u then
      if isTrail v then
        joinPieces (Char.ofNat (0x10000 + (u - 0xD800) * 0x400 + (v - 0xDC00)) :: done) rest
      else none
    else if isTrail u then none
    else joinPieces (Char.ofNat u :: done) (.unit v :: rest)
  | .unit u :: rest =>
    if isLead u || isTrail u then none else joinPieces (Char.ofNat u :: done) rest

def readString (text : List Char) : Option (Option String × List Char) :=
  (readPieces [] text).map fun (pieces, rest) => (joinPieces [] pieces, rest)

def readDigits? (text : List Char) : Option (List Char × List Char) :=
  let digits := text.takeWhile Decimal.isDigit
  if digits.isEmpty then none else some (digits, text.dropWhile Decimal.isDigit)

def readWhole? : List Char → Option (List Char × List Char)
  | '0' :: rest => some (['0'], rest)
  | text => readDigits? text

def readFraction? : List Char → Option (List Char × List Char)
  | '.' :: rest => readDigits? rest
  | text => some ([], text)

def readExponentDigits? (text : List Char) : Option (Option (Bool × List Char) × List Char) :=
  match text with
  | '-' :: rest => (readDigits? rest).map fun (digits, rest) => (some (true, digits), rest)
  | '+' :: rest => (readDigits? rest).map fun (digits, rest) => (some (false, digits), rest)
  | rest => (readDigits? rest).map fun (digits, rest) => (some (false, digits), rest)

def readExponent? : List Char → Option (Option (Bool × List Char) × List Char)
  | 'e' :: rest => readExponentDigits? rest
  | 'E' :: rest => readExponentDigits? rest
  | text => some (none, text)

def readUnsigned? (negative : Bool) (text : List Char) : Option (JsonLiteral × List Char) := do
  let (whole, text) ← readWhole? text
  let (fraction, text) ← readFraction? text
  let (exponent, text) ← readExponent? text
  return (⟨negative, whole, fraction, exponent⟩, text)

def readNumber? : List Char → Option (JsonLiteral × List Char)
  | '-' :: rest => readUnsigned? true rest
  | text => readUnsigned? false text

mutual

/-- One document and the text after it. The fuel bounds the number of nested calls; the length of
the text is enough. -/
def readValue : Nat → List Char → Option (Document × List Char)
  | 0, _ => none
  | fuel + 1, text =>
    match skipBlanks text with
    | 'n' :: 'u' :: 'l' :: 'l' :: rest => some (null, rest)
    | 't' :: 'r' :: 'u' :: 'e' :: rest => some (bool true, rest)
    | 'f' :: 'a' :: 'l' :: 's' :: 'e' :: rest => some (bool false, rest)
    | '"' :: rest => (readString rest).map fun (s, rest) => (str s, rest)
    | '[' :: rest =>
      match skipBlanks rest with
      | ']' :: rest => some (arr [], rest)
      | rest => (readItems fuel rest).map fun (items, rest) => (arr items, rest)
    | '\x7b' :: rest =>
      match skipBlanks rest with
      | '\x7d' :: rest => some (obj [], rest)
      | rest => (readMembers fuel rest).map fun (members, rest) => (obj members, rest)
    | rest => (readNumber? rest).map fun (literal, rest) => (num literal, rest)

def readItems : Nat → List Char → Option (List Document × List Char)
  | 0, _ => none
  | fuel + 1, text =>
    match readValue fuel text with
    | none => none
    | some (item, rest) =>
      match skipBlanks rest with
      | ',' :: rest => (readItems fuel rest).map fun (items, rest) => (item :: items, rest)
      | ']' :: rest => some ([item], rest)
      | _ => none

def readMembers : Nat → List Char → Option (List (Option String × Document) × List Char)
  | 0, _ => none
  | fuel + 1, text =>
    match skipBlanks text with
    | '"' :: rest =>
      match readString rest with
      | none => none
      | some (name, rest) =>
        match skipBlanks rest with
        | ':' :: rest =>
          match readValue fuel rest with
          | none => none
          | some (value, rest) =>
            match skipBlanks rest with
            | ',' :: rest =>
              (readMembers fuel rest).map fun (members, rest) => ((name, value) :: members, rest)
            | '\x7d' :: rest => some ([(name, value)], rest)
            | _ => none
        | _ => none
    | _ => none

end

def parse? (text : List Char) : Option Document :=
  match readValue (text.length + 1) text with
  | some (document, rest) => if (skipBlanks rest).isEmpty then some document else none
  | none => none

end DurableScript.Document

namespace DurableScript.Json

def parse? (text : List Char) : Option Json :=
  (Document.parse? text).bind (Document.toJson? maxLevels)

end DurableScript.Json
