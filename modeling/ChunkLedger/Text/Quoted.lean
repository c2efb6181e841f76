import ChunkLedger.Text.Glyph

/-!
# Quoted text

The form in which a message shows a text or a single character: between quotes, with the usual
short escapes, and `\u{..}` (lower-case hexadecimal, no leading zeros) for a character without a
glyph of its own or a mark that would attach to the character before it.

Of the two kinds of quote only the enclosing one is escaped: `"` in a text, `'` in a character.
-/

namespace ChunkLedger.Text

/-- `\u{..}` -/
def unicodeEscape (c : Char) : List Char :=
  ['\\', 'u', '\x7b'] ++ Nat.toDigits 16 c.toNat ++ ['\x7d']

/-- a character inside quotes of the kind `quote` -/
def escaped (quote c : Char) : List Char :=
  if c = '\x00' then ['\\', '0']
  else if c = '\t' then ['\\', 't']
  else if c = '\r' then ['\\', 'r']
  else if c = '\n' then ['\\', 'n']
  else if c = '\\' || c = quote then ['\\', c]
  else if isAttaching c || isHidden c then unicodeEscape c
  else [c]

def quotedText (s : String) : String :=
  String.ofList ('"' :: s.toList.flatMap (escaped '"') ++ ['"'])

def quotedChar (c : Char) : String :=
  String.ofList ('\'' :: escaped '\'' c ++ ['\''])

end ChunkLedger.Text
