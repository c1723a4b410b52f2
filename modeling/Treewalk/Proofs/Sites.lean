/-
# Declaration sites

A name is declared at a site: by `var`, `const` or `:=`, as a parameter, or as
the name of a function. A site has its place in the source and lies in a
region of it, the scope of the construct around it. The header of a loop
belongs to the loop, the clauses of a switch to the switch, and the parameters
of a function to the function.

Key definitions: `Site`, `Stmt.sites`, `Func.sites`, `Program.sites`.
-/
import Treewalk.Session

namespace Treewalk

/-- Where a name is declared, and the scope that lies around it in the source. -/
structure Site where
  name : String
  pos : Position
  scope : Scope
  deriving DecidableEq, Repr

def Binder.site (scope : Scope) (b : Binder) : Site := ⟨b.name, b.pos, scope⟩

def Param.site (scope : Scope) (p : Param) : Site := ⟨p.name, p.pos, scope⟩

mutual

/-- The sites of a statement that stands in a scope. -/
def Stmt.sites (scope : Scope) : Stmt → List Site
  | .varDecl names _ _ _ => names.map (Binder.site scope)
  | .constDecl x _ _ pos => [⟨x, pos, scope⟩]
  | .shortDecl names _ _ => names.map (Binder.site scope)
  | .block body _ => Stmt.allSites .block body
  | .ifElse branches otherwise _ =>
    Stmt.branchSites branches ++ Stmt.otherwiseSites .elseBlock otherwise
  | .loop init _ post body _ =>
    Stmt.optionalSites .loop init ++ Stmt.optionalSites .loop post ++ Stmt.allSites .loop body
  | .switch _ clauses otherwise _ =>
    Stmt.clauseSites clauses ++ Stmt.otherwiseSites .switch otherwise
  | .func f pos =>
    ⟨f.name, pos, scope⟩ :: (f.params.map (Param.site (.function f.name)) ++
      Stmt.allSites (.function f.name) f.body)
  | _ => []

def Stmt.allSites (scope : Scope) : List Stmt → List Site
  | [] => []
  | s :: ss => s.sites scope ++ Stmt.allSites scope ss

def Stmt.optionalSites (scope : Scope) : Option Stmt → List Site
  | none => []
  | some s => s.sites scope

def Stmt.otherwiseSites (scope : Scope) : Option (List Stmt) → List Site
  | none => []
  | some body => Stmt.allSites scope body

def Stmt.branchSites : List (Branch Stmt) → List Site
  | [] => []
  | ⟨_, body⟩ :: rest => Stmt.allSites .ifBlock body ++ Stmt.branchSites rest

def Stmt.clauseSites : List (Clause Stmt) → List Site
  | [] => []
  | ⟨_, body, _⟩ :: rest => Stmt.allSites .switch body ++ Stmt.clauseSites rest

end

/-- The sites in a function: its parameters, and what its body declares. -/
def Func.sites (f : FuncDecl) : List Site :=
  f.params.map (Param.site (.function f.name)) ++ Stmt.allSites (.function f.name) f.body

/-- The sites of a function and of what is in it. -/
def Declared.sites (d : Declared) : List Site := ⟨d.func.name, d.pos, .global⟩ :: d.func.sites

/-- The sites of a program. -/
def Program.sites (p : Program) : List Site := Stmt.allSites .global p.declarations

theorem Stmt.sites_subset_allSites {scope : Scope} {s : Stmt} :
    ∀ {ss : List Stmt}, s ∈ ss → s.sites scope ⊆ Stmt.allSites scope ss
  | t :: ss, hs => by
    rw [Stmt.allSites]
    rcases List.mem_cons.mp hs with rfl | hs
    · exact List.subset_append_left _ _
    · exact List.Subset.trans (Stmt.sites_subset_allSites hs) (List.subset_append_right _ _)

namespace Program

/-- The sites of the functions of a program are sites of it. -/
theorem sites_subset_of_functions {p : Program} {d : Declared} (h : d ∈ p.functions) :
    d.sites ⊆ p.sites := by
  obtain ⟨s, hs, hd⟩ := List.mem_filterMap.mp h
  refine List.Subset.trans ?_ (Stmt.sites_subset_allSites hs)
  cases s with
  | func f pos =>
    obtain rfl : ⟨f, pos⟩ = d := Option.some.inj hd
    exact List.Subset.refl _
  | _ => cases hd

theorem sites_subset_of_globals {p : Program} {s : Stmt} (h : s ∈ p.globals) :
    s.sites .global ⊆ p.sites :=
  Stmt.sites_subset_allSites (List.mem_filter.mp h).1

theorem main_mem_functions {p : Program} {d : Declared} (h : p.main? = some d) :
    d ∈ p.functions :=
  List.mem_of_find?_eq_some h

end Program
end Treewalk
