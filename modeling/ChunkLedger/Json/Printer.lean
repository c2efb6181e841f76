import ChunkLedger.Json.Value

/-!
# Writing JSON

Two layouts: compact, without any blank, and indented, with two spaces per depth, one item or field
per line and `": "` after a name.  Empty containers stay on one line in both.

In a text the quote, the backslash and the characters below 32 are escaped, with the short forms
where there are any; everything else stands as it is.
-/

namespace ChunkLedger.Json

/-! ## texts -/

def hexDigitChar (n : Nat) : Char := (Nat.toDigits 16 n).headD '0'

def escapeChar (c : Char) : List Char :=
  if c = '"' then ['\\', '"']
  else if c = '\\' then ['\\', '\\']
  else if c = '\x08' then ['\\', 'b']
  else if c = '\x0c' then ['\\', 'f']
  else if c = '\n' then ['\\', 'n']
  else if c = '\r' then ['\\', 'r']
  else if c = '\t' then ['\\', 't']
  else if c.toNat < 32 then
    ['\\', 'u', '0', '0', hexDigitChar (c.toNat / 16), hexDigitChar (c.toNat % 16)]
  else [c]

def quote (s : String) : List Char := '"' :: s.toList.flatMap escapeChar ++ ['"']

/-! ## compact -/

namespace Value

mutual

def compact : Value → List Char
  | .null => ['n', 'u', 'l', 'l']
  | .bool true => ['t', 'r', 'u', 'e']
  | .bool false => ['f', 'a', 'l', 's', 'e']
  | .number n => n.render.toList
  | .text s => quote s
  | .array items => '[' :: compactItems items ++ [']']
  | .object fields => '\x7b' :: compactFields fields ++ ['\x7d']

def compactItems : List Value → List Char
  | [] => []
  | [v] => v.compact
  | v :: w :: vs => v.compact ++ ',' :: compactItems (w :: vs)

def compactFields : List (String × Value) → List Char
  | [] => []
  | [(n, v)] => quote n ++ ':' :: v.compact
  | (n, v) :: f :: fs => quote n ++ ':' :: v.compact ++ ',' :: compactFields (f :: fs)

end

def render (v : Value) : String := String.ofList v.compact

/-! ## indented -/

def newLine (d : Nat) : List Char := '\n' :: List.replicate (2 * d) ' '

mutual

/-- the value at depth `d`; its first line continues the line it stands on -/
def indented (d : Nat) : Value → List Char
  | .array [] => ['[', ']']
  | .array (v :: vs) => '[' :: indentedItems (d + 1) (v :: vs) ++ newLine d ++ [']']
  | .object [] => ['\x7b', '\x7d']
  | .object (f :: fs) => '\x7b' :: indentedFields (d + 1) (f :: fs) ++ newLine d ++ ['\x7d']
  | .null => ['n', 'u', 'l', 'l']
  | .bool true => ['t', 'r', 'u', 'e']
  | .bool false => ['f', 'a', 'l', 's', 'e']
  | .number n => n.render.toList
  | .text s => quote s

def indentedItems (d : Nat) : List Value → List Char
  | [] => []
  | [v] => newLine d ++ v.indented d
  | v :: w :: vs => newLine d ++ v.indented d ++ ',' :: indentedItems d (w :: vs)

def indentedFields (d : Nat) : List (String × Value) → List Char
  | [] => []
  | [(n, v)] => newLine d ++ quote n ++ ':' :: ' ' :: v.indented d
  | (n, v) :: f :: fs =>
    newLine d ++ quote n ++ ':' :: ' ' :: v.indented d ++ ',' :: indentedFields d (f :: fs)

end

def renderIndented (v : Value) : String := String.ofList (v.indented 0)

end Value

end ChunkLedger.Json
