/-
# Programs

The front end: from a source text to its syntax tree and everything that was
wrong with it, in reading order. Only declarations stand at top level; a
short declaration is accepted there too, so that evaluation can refuse it.

Key definitions: `Program.ofTokens`, `Parsed.ofText`.
-/
import Treewalk.Grammar.Statement
import Treewalk.Token.Scan

namespace Treewalk

namespace Parser

/-- A top-level declaration. -/
def declaration (n : Nat) : Parser Stmt := do
  let rules := exprRules n
  let t ← current
  match t.kind with
  | .kwFunc => function rules n (statement n)
  | .kwVar => varDecl rules n
  | .kwConst => constDecl rules
  | _ =>
    if startsShort (← get).tokens then
      let s ← simpleStatement rules n
      statementEnd
      return s
    else fail (.notADeclaration t.describe)

/-- The declarations up to the end of the file. -/
def declarations (depth : Nat) : Nat → Parser (List Stmt)
  | 0 => exhausted
  | n + 1 => do
    skipSemicolons
    if (← kind) = .endOfFile then return []
    match ← recovering [] (declaration depth) with
    | some s => return s :: (← declarations depth n)
    | none => declarations depth n

end Parser

/-- A tree and what was wrong with the tokens it was read from. -/
def Program.ofTokens (tokens : List Token) : Program × List (GrammarFault × Position) :=
  let bound := tokens.length
  match Parser.declarations bound bound ⟨tokens, #[]⟩ with
  | .ok ds c => (⟨ds⟩, c.faults.toList)
  | .error _ c => (⟨[]⟩, c.faults.toList)

/-- What the front end hands to the evaluator. -/
structure Parsed where
  program : Program
  errors : List Diagnostic

/-- Reads a source. The faults of both stages are put in reading order; at one place a lexical
fault comes first. -/
def Parsed.ofText (source : String) : Parsed :=
  let scan := Scan.ofText source
  let (program, faults) := Program.ofTokens scan.tokens
  let errors := scan.faults.map (fun (f, pos) => f.diagnostic pos) ++
    faults.map (fun (f, pos) => f.diagnostic pos)
  ⟨program, errors.mergeSort fun a b => a.pos.atMost b.pos⟩

end Treewalk
