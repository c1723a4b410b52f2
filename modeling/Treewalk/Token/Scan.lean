/-
# Scanning

From the pieces of a source to its tokens. Blanks and comments leave no
token, a problem in a piece is recorded and scanning goes on, and a line that
ends after a token that can end a statement leaves a statement end there. A
block comment over several lines counts as the end of a line, at the place
where it begins.

Key definitions: `LexicalFault`, `Lexeme.token?`, `Lexeme.faults`, `Scan.ofText`.
-/
import Treewalk.Diagnostic
import Treewalk.Lexeme

namespace Treewalk

/-- What can be wrong with a piece of source text. -/
inductive LexicalFault where
  | strayCharacter (c : Char)
  | twoPoints (number : String)
  | unclosedString
  | unclosedRune
  | runeLength (body : String)
  | unknownEscape (c : Char)
  | unclosedComment
  deriving DecidableEq, Repr

def LexicalFault.message : LexicalFault → String
  | strayCharacter c => s!"unsupported character: -{c}-"
  | twoPoints number => s!"found two '.' while tokenizing number -{number}-"
  | unclosedString => "unterminated string literal"
  | unclosedRune => "unterminated rune literal"
  | runeLength body =>
    s!"rune literal must contain exactly one character or escape sequence, found: '{body}'"
  | unknownEscape c => s!"unknown escape sequence: \\{c}"
  | unclosedComment => "unterminated block comment"

def LexicalFault.diagnostic (f : LexicalFault) (pos : Position) : Diagnostic :=
  ⟨.lexical, f.message, pos⟩

/-- The characters a backslash may stand before in a literal. -/
def escapable : List Char := ['n', 't', 'r', '\\', '"', '\'']

/-- The unknown escapes of a literal whose body begins at `pos`, each at its backslash. -/
def unknownEscapes : Position → List Char → List (LexicalFault × Position)
  | pos, '\\' :: c :: rest =>
    let faults := unknownEscapes ((pos.next '\\').next c) rest
    if escapable.contains c then faults else (.unknownEscape c, pos) :: faults
  | pos, c :: rest => unknownEscapes (pos.next c) rest
  | _, [] => []

/-- A rune body is one character, or a backslash and the character it escapes. -/
def isRuneBody : List Char → Bool
  | [_] => true
  | ['\\', _] => true
  | _ => false

namespace Lexeme

/-- Whether the piece ends a line. -/
def endsLine : Lexeme → Bool
  | lineBreak => true
  | blockComment body _ => body.contains '\n'
  | _ => false

/-- The token a piece stands for. -/
def token? (l : Lexeme) (pos : Position) : Option Token :=
  match l with
  | quoted .string body true => some ⟨.str, String.ofList body, pos⟩
  | quoted .rune body true => some ⟨.rune, String.ofList body, pos⟩
  | number digits =>
    some ⟨if digits.contains '.' then .float else .int, String.ofList digits, pos⟩
  | word letters => some ⟨Token.Kind.ofWord (String.ofList letters), String.ofList letters, pos⟩
  | mark .compoundAssign characters =>
    some ⟨.compoundAssign, String.ofList (characters.take 1), pos⟩
  | mark kind characters => some ⟨kind, String.ofList characters, pos⟩
  | _ => none

/-- What is wrong with a piece that begins at `pos`. -/
def faults (l : Lexeme) (pos : Position) : List (LexicalFault × Position) :=
  match l with
  | blockComment _ false => [(.unclosedComment, pos)]
  | quoted quote body closed =>
    unknownEscapes (pos.next quote.mark) body ++
      match quote, closed with
      | .string, true => []
      | .string, false => [(.unclosedString, pos)]
      | .rune, true => if isRuneBody body then [] else [(.runeLength (String.ofList body), pos)]
      | .rune, false => [(.unclosedRune, pos)]
  | number digits =>
    if 1 < digits.count '.' then [(.twoPoints (String.ofList digits), pos)] else []
  | stray c => [(.strayCharacter c, pos)]
  | _ => []

end Lexeme

/-- Every piece with the position of its first character. -/
def located : Position → List Lexeme → List (Lexeme × Position)
  | _, [] => []
  | pos, l :: ls => (l, pos) :: located (pos.after l.text) ls

/-- A statement end, if one is due. -/
def lineEnd? (due : Bool) (pos : Position) : List Token := if due then [Token.lineEnd pos] else []

/-- The tokens of the pieces that begin at `pos`. A line end is `due` when the token before can end
a statement. -/
def tokensFrom : Bool → Position → List Lexeme → List Token
  | due, pos, [] => lineEnd? due pos ++ [Token.endOfFile pos]
  | due, pos, l :: ls =>
    let next := pos.after l.text
    if l.endsLine then lineEnd? due pos ++ tokensFrom false next ls
    else
      match l.token? pos with
      | some t => t :: tokensFrom t.kind.endsStatement next ls
      | none => tokensFrom due next ls

/-- What scanning gives: tokens that end with the end of file, and what was wrong. -/
structure Scan where
  tokens : List Token
  faults : List (LexicalFault × Position)

namespace Scan

def ofLexemes (ls : List Lexeme) : Scan where
  tokens := tokensFrom false .start ls
  faults := (located .start ls).flatMap fun (l, pos) => l.faults pos

def ofText (source : String) : Scan := ofLexemes (lexemes source.toList)

end Scan

end Treewalk
