/-
# JSON text

Values of JSON and their text, indented by two blanks a level. Numbers are
given by their digits. Quotes, backslashes and control characters are
escaped; every other character is written as it is.

Key definitions: `JsonValue`, `JsonValue.render`.
-/
import Treewalk.Text.Visible

namespace Treewalk

inductive JsonValue where
  | number (digits : String)
  | bool (b : Bool)
  | str (s : String)
  | array (items : List JsonValue)
  | object (fields : List (String × JsonValue))

namespace JsonValue

def nat (n : Nat) : JsonValue := number (toString n)

/-- A character inside a JSON string. -/
def escape (c : Char) : String :=
  match c with
  | '"' => "\\\""
  | '\\' => "\\\\"
  | '\n' => "\\n"
  | '\r' => "\\r"
  | '\t' => "\\t"
  | '\x08' => "\\b"
  | '\x0c' => "\\f"
  | c =>
    if c.toNat < 16 then "\\u000" ++ Text.hex c.toNat
    else if c.toNat < 32 then "\\u00" ++ Text.hex c.toNat
    else String.singleton c

def quoted (s : String) : String := "\"" ++ String.join (s.toList.map escape) ++ "\""

/-- Texts on lines of their own between brackets, separated by commas; none at all stay together
with their brackets. -/
def bracketed (opening closing indent : String) (parts : List String) : String :=
  if parts.isEmpty then opening ++ closing
  else
    opening ++ "\n" ++ ",\n".intercalate (parts.map (indent ++ "  " ++ ·)) ++
      "\n" ++ indent ++ closing

mutual

/-- The text of a value whose first line is already indented. -/
def renderIn (indent : String) : JsonValue → String
  | number digits => digits
  | bool b => if b then "true" else "false"
  | str s => quoted s
  | array items => bracketed "[" "]" indent (itemsIn (indent ++ "  ") items)
  | object fields => bracketed "\x7b" "\x7d" indent (fieldsIn (indent ++ "  ") fields)

/-- The texts of the items of an array. -/
def itemsIn (indent : String) : List JsonValue → List String
  | [] => []
  | v :: vs => v.renderIn indent :: itemsIn indent vs

/-- The texts of the fields of an object. -/
def fieldsIn (indent : String) : List (String × JsonValue) → List String
  | [] => []
  | (k, v) :: fs => (quoted k ++ ": " ++ v.renderIn indent) :: fieldsIn indent fs

end

/-- The text of a value. -/
def render (v : JsonValue) : String := v.renderIn ""

end JsonValue

end Treewalk
