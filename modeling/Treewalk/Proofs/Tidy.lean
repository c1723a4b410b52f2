/-
# Tidy trees

The header of a loop may hold two statements, and a tree may put any
statement there. In what the parser builds they are simple: short
declarations, assignments, steps or expressions. A tree is tidy if all its
loops are like that, at any depth.

Key definitions: `Stmt.isSimple`, `Stmt.tidy`, `Func.tidy`, `Program.tidy`.
-/
import Treewalk.Tree

namespace Treewalk

/-- What the header of a loop may hold. -/
def Stmt.isSimple : Stmt → Bool
  | .shortDecl .. | .assign .. | .step .. | .expr .. => true
  | _ => false

mutual

/-- Whether all loops of a statement have simple headers. -/
def Stmt.tidy : Stmt → Bool
  | .block body _ => Stmt.allTidy body
  | .ifElse branches otherwise _ => Stmt.branchesTidy branches && Stmt.otherwiseTidy otherwise
  | .loop init _ post body _ =>
    init.all Stmt.isSimple && post.all Stmt.isSimple && Stmt.allTidy body
  | .switch _ clauses otherwise _ => Stmt.clausesTidy clauses && Stmt.otherwiseTidy otherwise
  | .func f _ => Stmt.allTidy f.body
  | _ => true

def Stmt.allTidy : List Stmt → Bool
  | [] => true
  | s :: ss => s.tidy && Stmt.allTidy ss

def Stmt.otherwiseTidy : Option (List Stmt) → Bool
  | none => true
  | some body => Stmt.allTidy body

def Stmt.branchesTidy : List (Branch Stmt) → Bool
  | [] => true
  | ⟨_, body⟩ :: rest => Stmt.allTidy body && Stmt.branchesTidy rest

def Stmt.clausesTidy : List (Clause Stmt) → Bool
  | [] => true
  | ⟨_, body, _⟩ :: rest => Stmt.allTidy body && Stmt.clausesTidy rest

end

def Func.tidy (f : FuncDecl) : Bool := Stmt.allTidy f.body

def Program.tidy (p : Program) : Bool := Stmt.allTidy p.declarations

theorem Stmt.allTidy_iff : ∀ ss : List Stmt, Stmt.allTidy ss = true ↔ ∀ s ∈ ss, s.tidy = true
  | [] => by simp [Stmt.allTidy]
  | s :: ss => by simp [Stmt.allTidy, Stmt.allTidy_iff ss]

/-- A simple statement holds no loop. -/
theorem Stmt.tidy_of_isSimple {s : Stmt} (h : s.isSimple = true) : s.tidy = true := by
  cases s <;> simp_all [Stmt.isSimple, Stmt.tidy]

end Treewalk
