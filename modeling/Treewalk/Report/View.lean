/-
# Views of a report

A report as JSON: the whole of it, its errors, or its symbol table; and the
symbol table as lines of text in columns. Columns are filled with blanks by
the number of characters and never cut.

Key definitions: `Report.fullJson`, `Report.errorsJson`,
`Report.symbolsJson`, `Report.symbolLines`.
-/
import Treewalk.JsonValue
import Treewalk.Report

namespace Treewalk

def Diagnostic.json (d : Diagnostic) : JsonValue :=
  .object [("kind", .str d.kind.label), ("description", .str d.description),
    ("line", .nat d.pos.line), ("column", .nat d.pos.column)]

def Symbol.json (s : Symbol) : JsonValue :=
  .object [("identifier", .str s.name), ("type", .str s.type), ("scope", .str s.scope),
    ("value", .str s.value), ("line", .nat s.pos.line), ("column", .nat s.pos.column),
    ("order", .nat s.order)]

/-- A row of the symbol table as text. -/
def symbolRow (name type scope value position : String) : String :=
  pad 16 name ++ " " ++ pad 16 type ++ " " ++ pad 20 scope ++ " " ++ pad 16 value ++ " " ++ position
where
  /-- A text followed by blanks up to a width. -/
  pad (width : Nat) (s : String) : String := s.pushn ' ' (width - s.length)

namespace Report

def errorsField (r : Report) : String × JsonValue :=
  ("errors", .array (r.errors.map Diagnostic.json))

def symbolsField (r : Report) : String × JsonValue :=
  ("symbolTable", .array (r.symbols.map Symbol.json))

/-- The whole report. The time it took is given as the digits of its milliseconds. -/
def fullJson (r : Report) (elapsed : String) : JsonValue :=
  .object [("success", .bool r.success), ("output", .array (r.output.map .str)), r.errorsField,
    r.symbolsField, ("elapsedMs", .number elapsed)]

def errorsJson (r : Report) : JsonValue := .object [("success", .bool r.success), r.errorsField]

def symbolsJson (r : Report) : JsonValue := .object [r.symbolsField]

/-- The symbol table as lines of text, with a heading. -/
def symbolLines (r : Report) : List String :=
  symbolRow "identifier" "type" "scope" "value" "position" ::
    r.symbols.map fun s => symbolRow s.name s.type s.scope s.value s.pos.text

end Report

end Treewalk
