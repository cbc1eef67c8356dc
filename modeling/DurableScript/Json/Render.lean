import DurableScript.Decimal.Style
import DurableScript.Json.Basic

namespace DurableScript.Json

def escapeChar (c : Char) : List Char :=
  match c with
  | '"' => ['\\', '"']
  | '\\' => ['\\', '\\']
  | '\x08' => ['\\', 'b']
  | '\x0c' => ['\\', 'f']
  | '\n' => ['\\', 'n']
  | '\r' => ['\\', 'r']
  | '\t' => ['\\', 't']
  | c =>
    if c.toNat < 32 then
      ['\\', 'u', '0', '0', Nat.digitChar (c.toNat / 16), Nat.digitChar (c.toNat % 16)]
    else [c]

def renderString (s : String) : List Char := '"' :: s.toList.flatMap escapeChar ++ ['"']

def renderNumber : JsonNumber → List Char
  | .int n => (toString n).toList
  | .float x => DecimalStyle.plain.render x

mutual

def render : Json → List Char
  | null => ['n', 'u', 'l', 'l']
  | bool true => ['t', 'r', 'u', 'e']
  | bool false => ['f', 'a', 'l', 's', 'e']
  | num n => renderNumber n
  | str s => renderString s
  | arr items => '[' :: renderItems items
  | obj members => '\x7b' :: renderMembers members

def renderItems : List Json → List Char
  | [] => [']']
  | [item] => render item ++ [']']
  | item :: rest => render item ++ ',' :: renderItems rest

def renderMembers : List (String × Json) → List Char
  | [] => ['\x7d']
  | [(name, value)] => renderString name ++ ':' :: render value ++ ['\x7d']
  | (name, value) :: rest => renderString name ++ ':' :: render value ++ ',' :: renderMembers rest

end

def text (json : Json) : String := String.ofList json.render

end DurableScript.Json
