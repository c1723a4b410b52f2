/-
# Tokens

The words of the language. A token has a kind, the text that matters to the
parser (the raw text between the quotes for a literal, the operator alone for
a compound assignment) and the position of its first character.

Key definitions: `Token.Kind`, `Token`, `Token.Kind.label`, `Token.describe`,
`Token.Kind.endsStatement`.
-/
import Treewalk.Position

namespace Treewalk

namespace Token

inductive Kind where
  | int | float | str | rune | identifier
  | plus | minus | star | slash | percent
  | equalEqual | notEqual | less | lessEqual | greater | greaterEqual
  | andAnd | orOr | bang | ampersand
  | equal | compoundAssign | colonEqual | increment | decrement
  | openParen | closeParen | openBrace | closeBrace | openBracket | closeBracket
  | comma | colon | dot | semicolon
  | kwVar | kwConst | kwFunc | kwIf | kwElse | kwFor | kwSwitch | kwCase | kwDefault
  | kwBreak | kwContinue | kwReturn | kwTrue | kwFalse | kwNil
  | tyInt32 | tyFloat32 | tyBool | tyString | tyRune
  | endOfFile
  deriving DecidableEq, Repr, Inhabited

/-- The reserved words and what they stand for. -/
def keywords : List (String × Kind) :=
  [("var", .kwVar), ("const", .kwConst), ("func", .kwFunc), ("if", .kwIf), ("else", .kwElse),
   ("for", .kwFor), ("switch", .kwSwitch), ("case", .kwCase), ("default", .kwDefault),
   ("break", .kwBreak), ("continue", .kwContinue), ("return", .kwReturn), ("true", .kwTrue),
   ("false", .kwFalse), ("nil", .kwNil), ("int32", .tyInt32), ("float32", .tyFloat32),
   ("bool", .tyBool), ("string", .tyString), ("rune", .tyRune)]

/-- The kind of a word: its keyword, or a name. -/
def Kind.ofWord (word : String) : Kind := (keywords.lookup word).getD .identifier

/-- The marks of two characters. They are tried before the single ones. -/
def doubleMarks : List ((Char × Char) × Kind) :=
  [(('=', '='), .equalEqual), (('!', '='), .notEqual), (('<', '='), .lessEqual),
   (('>', '='), .greaterEqual), (('&', '&'), .andAnd), (('|', '|'), .orOr),
   ((':', '='), .colonEqual), (('+', '+'), .increment), (('-', '-'), .decrement),
   (('+', '='), .compoundAssign), (('-', '='), .compoundAssign), (('*', '='), .compoundAssign),
   (('/', '='), .compoundAssign)]

/-- The marks of one character. -/
def singleMarks : List (Char × Kind) :=
  [('+', .plus), ('-', .minus), ('*', .star), ('/', .slash), ('%', .percent), ('<', .less),
   ('>', .greater), ('!', .bang), ('&', .ampersand), ('=', .equal), ('(', .openParen),
   (')', .closeParen), ('\x7b', .openBrace), ('\x7d', .closeBrace), ('[', .openBracket),
   (']', .closeBracket), (',', .comma), (':', .colon), ('.', .dot), (';', .semicolon)]

/-- How a kind is named when the parser misses it. -/
def Kind.label : Kind → String
  | .int => "integer literal"
  | .float => "float literal"
  | .str => "string literal"
  | .rune => "rune literal"
  | .identifier => "identifier"
  | .plus => "'+'"
  | .minus => "'-'"
  | .star => "'*'"
  | .slash => "'/'"
  | .percent => "'%'"
  | .equalEqual => "'=='"
  | .notEqual => "'!='"
  | .less => "'<'"
  | .lessEqual => "'<='"
  | .greater => "'>'"
  | .greaterEqual => "'>='"
  | .andAnd => "'&&'"
  | .orOr => "'||'"
  | .bang => "'!'"
  | .ampersand => "'&'"
  | .equal => "'='"
  | .compoundAssign => "compound assignment"
  | .colonEqual => "':='"
  | .increment => "'++'"
  | .decrement => "'--'"
  | .openParen => "'('"
  | .closeParen => "')'"
  | .openBrace => "'\x7b'"
  | .closeBrace => "'\x7d'"
  | .openBracket => "'['"
  | .closeBracket => "']'"
  | .comma => "','"
  | .colon => "':'"
  | .dot => "'.'"
  | .semicolon => "';'"
  | .kwVar => "'var'"
  | .kwConst => "'const'"
  | .kwFunc => "'func'"
  | .kwIf => "'if'"
  | .kwElse => "'else'"
  | .kwFor => "'for'"
  | .kwSwitch => "'switch'"
  | .kwCase => "'case'"
  | .kwDefault => "'default'"
  | .kwBreak => "'break'"
  | .kwContinue => "'continue'"
  | .kwReturn => "'return'"
  | .kwTrue => "'true'"
  | .kwFalse => "'false'"
  | .kwNil => "'nil'"
  | .tyInt32 | .tyFloat32 | .tyBool | .tyString | .tyRune => "type name"
  | .endOfFile => "end of file"

/-- The kinds a written type can begin with. -/
def Kind.startsType : Kind → Bool
  | .tyInt32 | .tyFloat32 | .tyBool | .tyString | .tyRune | .openBracket | .star => true
  | _ => false

/-- A line that ends after one of these ends its statement. -/
def Kind.endsStatement : Kind → Bool
  | .int | .float | .str | .rune | .identifier | .kwTrue | .kwFalse | .kwNil
  | .tyInt32 | .tyFloat32 | .tyBool | .tyString | .tyRune
  | .kwBreak | .kwContinue | .kwReturn | .increment | .decrement
  | .closeParen | .closeBracket | .closeBrace => true
  | _ => false

end Token

structure Token where
  kind : Token.Kind
  text : String
  pos : Position
  deriving DecidableEq, Repr, Inhabited

namespace Token

/-- The statement end that a line break stands for. -/
def lineEnd (pos : Position) : Token := ⟨.semicolon, "\n", pos⟩

/-- The last token of every source. -/
def endOfFile (pos : Position) : Token := ⟨.endOfFile, "EOF", pos⟩

/-- How a token is shown in a message. -/
def describe (t : Token) : String :=
  match t.kind with
  | .endOfFile => "end of file"
  | .semicolon => if t.text = "\n" then "newline" else t.text
  | _ => t.text

end Token

end Treewalk
