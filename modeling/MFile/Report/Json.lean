/-!
JSON values whose objects keep the order of their fields, with a compact and an indented printer.
Strings escape the quote, the backslash and the controls below the space; every other character
is written as it is.
-/

namespace MFile

inductive Json
  | null
  | bool (value : Bool)
  | number (value : Nat)
  | string (value : String)
  | array (items : List Json)
  | object (fields : List (String × Json))

namespace Json

def ofOption {α : Type} (f : α → Json) : Option α → Json
  | none => null
  | some a => f a

def hexDigits (n : Nat) : List Char :=
  [Nat.digitChar (n / 4096 % 16), Nat.digitChar (n / 256 % 16), Nat.digitChar (n / 16 % 16),
    Nat.digitChar (n % 16)]

def escaped (c : Char) : List Char :=
  if c = '"' then ['\\', '"']
  else if c = '\\' then ['\\', '\\']
  else if c.toNat = 0x08 then ['\\', 'b']
  else if c.toNat = 0x09 then ['\\', 't']
  else if c.toNat = 0x0A then ['\\', 'n']
  else if c.toNat = 0x0C then ['\\', 'f']
  else if c.toNat = 0x0D then ['\\', 'r']
  else if c.toNat < 0x20 then ['\\', 'u'] ++ hexDigits c.toNat
  else [c]

def quoted (text : String) : List Char := '"' :: (text.toList.flatMap escaped ++ ['"'])

def plain : Json → List Char
  | null => "null".toList
  | bool true => "true".toList
  | bool false => "false".toList
  | number n => (toString n).toList
  | string s => quoted s
  | array _ => ['[', ']']
  | object _ => ['{', '}']

mutual

def dense : Json → List Char
  | array (item :: items) => '[' :: (denseItems (item :: items) ++ [']'])
  | object (field :: fields) => '{' :: (denseFields (field :: fields) ++ ['}'])
  | other => plain other

def denseItems : List Json → List Char
  | [] => []
  | [item] => dense item
  | item :: items => dense item ++ ',' :: denseItems items

def denseFields : List (String × Json) → List Char
  | [] => []
  | [(key, value)] => quoted key ++ ':' :: dense value
  | (key, value) :: fields => quoted key ++ ':' :: (dense value ++ ',' :: denseFields fields)

end

def compact (j : Json) : String := String.ofList j.dense

def newLine (depth : Nat) : List Char := '\n' :: List.replicate (2 * depth) ' '

mutual

/-- One item or field a line, `depth` levels deep. -/
def spread (depth : Nat) : Json → List Char
  | array (item :: items) =>
    '[' :: (spreadItems (depth + 1) (item :: items) ++ newLine depth ++ [']'])
  | object (field :: fields) =>
    '{' :: (spreadFields (depth + 1) (field :: fields) ++ newLine depth ++ ['}'])
  | other => plain other

def spreadItems (depth : Nat) : List Json → List Char
  | [] => []
  | [item] => newLine depth ++ spread depth item
  | item :: items => newLine depth ++ (spread depth item ++ ',' :: spreadItems depth items)

def spreadFields (depth : Nat) : List (String × Json) → List Char
  | [] => []
  | [(key, value)] => newLine depth ++ (quoted key ++ ':' :: ' ' :: spread depth value)
  | (key, value) :: fields =>
    newLine depth ++
      (quoted key ++ ':' :: ' ' :: (spread depth value ++ ',' :: spreadFields depth fields))

end

def pretty (j : Json) : String := String.ofList (j.spread 0)

end Json

end MFile
