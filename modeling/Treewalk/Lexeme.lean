/-
# Lexemes

A source text cut into pieces: blanks, line ends, comments, words, numbers,
quoted literals, marks, and stray characters that belong to nothing. Cutting
loses nothing: the texts of the pieces, in order, are the source
(`text_lexemes`).

Key definitions: `Lexeme`, `Lexeme.next`, `lexemes`.
-/
import Treewalk.Token
import Treewalk.Text.Alphabetic

namespace Treewalk

/-- Blanks do not separate statements. -/
def isBlank (c : Char) : Bool := c = ' ' || c = '\t' || c = '\r'

def isNameStart (c : Char) : Bool := Text.isAlphabetic c || c = '_'

def isNameChar (c : Char) : Bool := Text.isAlphanumeric c || c = '_'

/-- A quoted literal is a string or a rune. -/
inductive Quote where
  | string
  | rune
  deriving DecidableEq, Repr

def Quote.mark : Quote → Char
  | .string => '"'
  | .rune => '\''

/-- A piece of a source text. An unclosed comment or literal runs to where its text ends. -/
inductive Lexeme where
  | blank (c : Char)
  | lineBreak
  | lineComment (body : List Char)
  | blockComment (body : List Char) (closed : Bool)
  | quoted (quote : Quote) (body : List Char) (closed : Bool)
  | number (digits : List Char)
  | word (letters : List Char)
  | mark (kind : Token.Kind) (characters : List Char)
  | stray (c : Char)
  deriving DecidableEq, Repr

namespace Lexeme

/-- The characters of the source that the piece covers. -/
def text : Lexeme → List Char
  | blank c => [c]
  | lineBreak => ['\n']
  | lineComment body => '/' :: '/' :: body
  | blockComment body closed => '/' :: '*' :: body ++ (if closed then ['*', '/'] else [])
  | quoted quote body closed => quote.mark :: body ++ (if closed then [quote.mark] else [])
  | number digits => digits
  | word letters => letters
  | mark _ characters => characters
  | stray c => [c]

/-- The body of a block comment, whether it is closed, and the text behind it. -/
def blockBody : List Char → List Char × Bool × List Char
  | '*' :: '/' :: rest => ([], true, rest)
  | c :: rest =>
    let (body, closed, after) := blockBody rest
    (c :: body, closed, after)
  | [] => ([], false, [])

/-- The body of a quoted literal, whether it is closed, and the text behind it. A backslash takes
the next character with it; a literal does not go past the end of its line. -/
def quotedBody (mark : Char) : List Char → List Char × Bool × List Char
  | [] => ([], false, [])
  | '\n' :: rest => ([], false, '\n' :: rest)
  | '\\' :: [] => (['\\'], false, [])
  | '\\' :: '\n' :: rest => (['\\'], false, '\n' :: rest)
  | '\\' :: c :: rest =>
    let (body, closed, after) := quotedBody mark rest
    ('\\' :: c :: body, closed, after)
  | c :: rest =>
    if c = mark then ([], true, rest)
    else
      let (body, closed, after) := quotedBody mark rest
      (c :: body, closed, after)

/-- The longest run of digits, with a point wherever a digit follows it, and the text behind. -/
def numberBody : List Char → List Char × List Char
  | [] => ([], [])
  | c :: rest =>
    if c.isDigit || (c = '.' && rest.head?.any Char.isDigit) then
      let (digits, after) := numberBody rest
      (c :: digits, after)
    else ([], c :: rest)

/-- The mark a text begins with, the longer ones first; a stray character when there is none. -/
def markOf (c : Char) (rest : List Char) : Lexeme × List Char :=
  match rest.head?.bind fun d => (Token.doubleMarks.lookup (c, d)).map (d, ·) with
  | some (d, kind) => (mark kind [c, d], rest.tail)
  | none =>
    match Token.singleMarks.lookup c with
    | some kind => (mark kind [c], rest)
    | none => (stray c, rest)

/-- The first piece of a text that begins with `c`, and the text behind it. -/
def next (c : Char) (rest : List Char) : Lexeme × List Char :=
  if isBlank c then (blank c, rest)
  else if c = '\n' then (lineBreak, rest)
  else if c = '/' && rest.head? = some '/' then
    (lineComment (rest.tail.takeWhile (· != '\n')), rest.tail.dropWhile (· != '\n'))
  else if c = '/' && rest.head? = some '*' then
    let (body, closed, after) := blockBody rest.tail
    (blockComment body closed, after)
  else if c = '"' then
    let (body, closed, after) := quotedBody '"' rest
    (quoted .string body closed, after)
  else if c = '\'' then
    let (body, closed, after) := quotedBody '\'' rest
    (quoted .rune body closed, after)
  else if c.isDigit then
    let (digits, after) := numberBody (c :: rest)
    (number digits, after)
  else if isNameStart c then
    (word ((c :: rest).takeWhile isNameChar), (c :: rest).dropWhile isNameChar)
  else markOf c rest

/-- The pieces of a text, at most `n` of them. -/
def pieces : Nat → List Char → List Lexeme
  | n + 1, c :: rest =>
    let (piece, after) := next c rest
    piece :: pieces n after
  | _, _ => []

end Lexeme

/-- The pieces of a source text. Each covers at least one character, so their number is bounded by
its length. -/
def lexemes (source : List Char) : List Lexeme := Lexeme.pieces source.length source

end Treewalk
