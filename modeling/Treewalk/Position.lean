/-
# Positions in a source text

A position is a line and a column, both counted from 1; columns count
characters. `Position.after` is the position reached by reading a piece of
text, so the position of every piece of a source is that of the text before
it (`after_append`).
-/

namespace Treewalk

/-- A point of a source text. The origin `0:0` belongs to no text. -/
structure Position where
  line : Nat
  column : Nat
  deriving DecidableEq, Repr, Inhabited

namespace Position

/-- Where every source text begins. -/
def start : Position := ⟨1, 1⟩

/-- The place of what has no place in a text. -/
def origin : Position := ⟨0, 0⟩

/-- One character further. -/
def next (p : Position) (c : Char) : Position :=
  if c = '\n' then ⟨p.line + 1, 1⟩ else ⟨p.line, p.column + 1⟩

/-- The position after a piece of text that begins at `p`. -/
def after (p : Position) (text : List Char) : Position := text.foldl next p

@[simp] theorem after_nil (p : Position) : p.after [] = p := rfl

@[simp] theorem after_cons (p : Position) (c : Char) (cs : List Char) :
    p.after (c :: cs) = (p.next c).after cs := rfl

theorem after_append (p : Position) (a b : List Char) :
    p.after (a ++ b) = (p.after a).after b := by
  simp [after, List.foldl_append]

/-- Written `line:column`. -/
def text (p : Position) : String := s!"{p.line}:{p.column}"

/-- Reading order: by line, then by column. -/
def atMost (p q : Position) : Bool :=
  p.line < q.line || (p.line == q.line && p.column ≤ q.column)

end Position

end Treewalk
