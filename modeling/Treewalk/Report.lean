/-
# Reports

What a caller gets back from one run: the lines printed, the diagnostics and
the symbol table. The program comes from a reader of sources; a reader that
breaks down has only a reason to give, and that becomes the report.

Key definitions: `Report`, `Report.ofReading`, `Report.ofText`.
-/
import Treewalk.Session

namespace Treewalk

structure Report where
  output : List String
  errors : List Diagnostic
  symbols : List Symbol
  deriving Inhabited

namespace Report

/-- A run succeeds when it has nothing to report. -/
def success (r : Report) : Bool := r.errors.isEmpty

/-- What a machine has to show. -/
def ofMachine (m : Machine) : Report :=
  ⟨m.output.toList, m.errors.toList, m.symbols.symbols.toList⟩

/-- The report on a breakdown. -/
def breakdown (reason : String) : Report :=
  ⟨[], [⟨.fatal, "internal fault: " ++ reason, .origin⟩], []⟩

/-- Runs what a reader has read. -/
def ofParsed (config : Config) (parsed : Parsed) : Report :=
  ofMachine (Machine.initial.executeParsed config parsed)

/-- Runs what a reader has read, or reports why it broke down. -/
def ofReading (config : Config) : Except String Parsed → Report
  | .ok parsed => ofParsed config parsed
  | .error reason => breakdown reason

/-- Reads and runs a source text. -/
def ofText (config : Config) (source : String) : Report := ofParsed config (Parsed.ofText source)

end Report

end Treewalk
