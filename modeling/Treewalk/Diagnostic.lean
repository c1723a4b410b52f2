/-
# Diagnostics

What a run has to say about a program: entries with a kind, a plain text and
a position, kept in the order in which they were made. Colours belong to the
terminal and are added only when an entry is written out.

Key definitions: `Diagnostic`, `Diagnostic.render`, `ErrorLog`.
-/
import Treewalk.Position

namespace Treewalk

/-- Whether terminal colours are wanted. -/
inductive Palette where
  | plain
  | ansi
  deriving DecidableEq, Repr

/-- A text in a terminal style, given by its code (`1;31` is bold red). -/
def Palette.paint (p : Palette) (code text : String) : String :=
  match p with
  | .plain => text
  | .ansi => "\x1b[" ++ code ++ "m" ++ text ++ "\x1b[0m"

namespace Diagnostic

/-- The stage of a run that found the problem. A fatal one stopped the run. -/
inductive Kind where
  | lexical
  | syntactic
  | semantic
  | fatal
  deriving DecidableEq, Repr, Inhabited

def Kind.label : Kind → String
  | .lexical => "Lexical"
  | .syntactic => "Syntactic"
  | .semantic => "Semantic"
  | .fatal => "Fatal"

/-- The terminal style of the heading: bold red, and white on red for what stopped the run. -/
def Kind.style : Kind → String
  | .fatal => "1;41;37"
  | _ => "1;31"

end Diagnostic

/-- One reported problem. -/
structure Diagnostic where
  kind : Diagnostic.Kind
  description : String
  pos : Position
  deriving DecidableEq, Repr, Inhabited

/-- Written `Kind error [line:column]: description`. -/
def Diagnostic.render (d : Diagnostic) (palette : Palette) : String :=
  palette.paint d.kind.style (d.kind.label ++ " error") ++ " [" ++ d.pos.text ++ "]: " ++
    d.description

/-- The problems of a run, oldest first. -/
structure ErrorLog where
  entries : Array Diagnostic
  deriving Inhabited

namespace ErrorLog

def empty : ErrorLog := ⟨#[]⟩

def push (log : ErrorLog) (d : Diagnostic) : ErrorLog := ⟨log.entries.push d⟩

def append (log : ErrorLog) (ds : List Diagnostic) : ErrorLog := ⟨log.entries ++ ds⟩

def toList (log : ErrorLog) : List Diagnostic := log.entries.toList

def size (log : ErrorLog) : Nat := log.entries.size

def isEmpty (log : ErrorLog) : Bool := log.entries.isEmpty

def count (log : ErrorLog) (kind : Diagnostic.Kind) : Nat :=
  log.entries.toList.countP (·.kind == kind)

@[simp] theorem toList_empty : empty.toList = [] := rfl

@[simp] theorem toList_push (log : ErrorLog) (d : Diagnostic) :
    (log.push d).toList = log.toList ++ [d] := by
  simp [push, toList]

@[simp] theorem toList_append (log : ErrorLog) (ds : List Diagnostic) :
    (log.append ds).toList = log.toList ++ ds := by
  simp [append, toList]

end ErrorLog

end Treewalk
