/-
# Escapes

String and rune literals keep the text between their quotes. Decoding takes
each backslash with the character behind it; an escape the language does not
know stays as it is written.

Key definitions: `decodeEscapes`, `decodeRune`.
-/

namespace Treewalk

/-- What a backslash and a character stand for. -/
def unescape : Char → List Char
  | 'n' => ['\n']
  | 't' => ['\t']
  | 'r' => ['\r']
  | '\\' => ['\\']
  | '"' => ['"']
  | '\'' => ['\'']
  | c => ['\\', c]

/-- The characters a raw text stands for. -/
def decodeEscapes : List Char → List Char
  | [] => []
  | '\\' :: c :: rest => unescape c ++ decodeEscapes rest
  | c :: rest => c :: decodeEscapes rest

/-- The code point of the first character a raw text stands for; 0 if there is none. -/
def decodeRune (raw : List Char) : Nat := (decodeEscapes raw).head?.elim 0 Char.toNat

end Treewalk
