/-
# Proper trees

Trees are wider than the grammar, and the evaluator counts on more than a tree
says: that functions stand at top level only, that the header of a loop holds
no jump, that a declaration has something to give its names. A tree is proper
if it is like that throughout, and if each of its positions is one of those
that are allowed. Both can be computed.

A rule of the grammar builds proper trees in whatever state it is run, as long
as the tokens that are left are the end of those it has been given
(`Parser.Builds`): what it gives satisfies `Q`, and the positions of the faults
it stops at or has recorded are positions of tokens. Since a rule that stops
says nothing of a result, what is skipped in recovery plays no part.

Key definitions: `Expr.isProper`, `Stmt.isProper`, `Program.isProper`,
`Parser.Builds`.
Key theorems: `Parser.Builds.bind`, `Parser.builds_advance`,
`Parser.builds_recovering`.
-/
import Treewalk.Proofs.Forward.Skipping

namespace Treewalk

/-! ### Trees -/

def TypeExpr.isArray : TypeExpr → Bool
  | .array .. => true
  | _ => false

variable (here : Position → Bool)

mutual

/-- Whether an expression is proper, its positions being allowed by `here`. Only what is `listed`,
directly in an array literal or in a list of elements, may be a list of elements itself. -/
def Expr.isProper : Bool → Expr → Bool
  | _, .int _ pos | _, .float _ pos | _, .str _ pos | _, .rune _ pos | _, .bool _ pos | _, .nil pos
  | _, .name _ pos | _, .addressOf _ pos => here pos
  | _, .binary _ lhs rhs pos | _, .logical _ lhs rhs pos =>
    here pos && Expr.isProper false lhs && Expr.isProper false rhs
  | _, .unary _ operand pos | _, .deref operand pos => here pos && Expr.isProper false operand
  | _, .call _ args pos => here pos && Expr.allProper false args
  | _, .index _ indices pos => here pos && !indices.isEmpty && Expr.allProper false indices
  | _, .array type elements pos =>
    here pos && type.isArray && TypeExpr.isProper type && Expr.allProper true elements
  | listed, .elements items pos => here pos && listed && Expr.allProper true items

def Expr.allProper : Bool → List Expr → Bool
  | _, [] => true
  | listed, e :: es => Expr.isProper listed e && Expr.allProper listed es

/-- Whether the sizes in a written type are proper. -/
def TypeExpr.isProper : TypeExpr → Bool
  | .int32 | .float32 | .bool | .string | .rune => true
  | .array size elem => Expr.isProper false size && TypeExpr.isProper elem
  | .pointer target => TypeExpr.isProper target

end

/-- An element is written with an index at least. -/
def Target.isProper : Target → Bool
  | .name _ | .deref _ => true
  | .index _ indices => !indices.isEmpty && Expr.allProper here false indices

/-- The operators that an assignment may apply. -/
def AssignOp.isProper : AssignOp → Bool
  | .plain | .compound .add | .compound .sub | .compound .mul | .compound .div => true
  | .compound _ => false

/-- One name at least. -/
def Binder.areProper (xs : List Binder) : Bool := !xs.isEmpty && xs.all (here ·.pos)

/-- Whether a statement is proper in the header of a loop. -/
def Stmt.isProperHeader : Stmt → Bool
  | .shortDecl names es pos =>
    here pos && Binder.areProper here names && !es.isEmpty && Expr.allProper here false es
  | .assign target op e pos =>
    here pos && target.isProper here && op.isProper && e.isProper here false
  | .step target _ pos => here pos && target.isProper here
  | .expr e pos => here pos && e.isProper here false
  | _ => false

mutual

/-- Whether a statement is proper in a body. An expression is a call, and functions have no place
there. -/
def Stmt.isProper : Stmt → Bool
  | .varDecl names type es pos =>
    here pos && Binder.areProper here names && (type.isSome || !es.isEmpty) &&
      type.all (TypeExpr.isProper here) && Expr.allProper here false es
  | .constDecl _ type e pos =>
    here pos && type.all (TypeExpr.isProper here) && e.isProper here false
  | .shortDecl names es pos => (Stmt.shortDecl names es pos).isProperHeader here
  | .assign target op e pos => (Stmt.assign target op e pos).isProperHeader here
  | .step target op pos => (Stmt.step target op pos).isProperHeader here
  | .expr (.call callee args pos') pos =>
    (Stmt.expr (.call callee args pos') pos).isProperHeader here
  | .expr .. => false
  | .block body pos => here pos && Stmt.allProper body
  | .ifElse branches otherwise pos =>
    here pos && !branches.isEmpty && Stmt.branchesProper branches && Stmt.otherwiseProper otherwise
  | .loop init condition post body pos =>
    here pos && init.all (Stmt.isProperHeader here) && condition.all (Expr.isProper here false) &&
      post.all (Stmt.isProperHeader here) && Stmt.allProper body
  | .switch subject clauses otherwise pos =>
    here pos && subject.isProper here false && Stmt.clausesProper clauses &&
      Stmt.otherwiseProper otherwise
  | .breakStmt pos | .continueStmt pos => here pos
  | .returnStmt es pos => here pos && Expr.allProper here false es
  | .func .. => false

def Stmt.allProper : List Stmt → Bool
  | [] => true
  | s :: ss => Stmt.isProper s && Stmt.allProper ss

def Stmt.otherwiseProper : Option (List Stmt) → Bool
  | none => true
  | some body => Stmt.allProper body

def Stmt.branchesProper : List (Branch Stmt) → Bool
  | [] => true
  | ⟨condition, body⟩ :: rest =>
    condition.isProper here false && Stmt.allProper body && Stmt.branchesProper rest

/-- The clauses of a `switch`, each with a value at least. -/
def Stmt.clausesProper : List (Clause Stmt) → Bool
  | [] => true
  | ⟨values, body, pos⟩ :: rest =>
    here pos && !values.isEmpty && Expr.allProper here false values && Stmt.allProper body &&
      Stmt.clausesProper rest

end

def Param.isProper (p : Param) : Bool := here p.pos && p.type.isProper here

def Func.isProper (f : FuncDecl) : Bool :=
  f.params.all (Param.isProper here) && f.results.all (TypeExpr.isProper here) &&
    Stmt.allProper here f.body

/-- Whether a statement is proper at top level: a function, or a declaration. -/
def Stmt.isProperDeclaration : Stmt → Bool
  | .func f pos => here pos && f.isProper here
  | .varDecl names type es pos => (Stmt.varDecl names type es pos).isProper here
  | .constDecl x type e pos => (Stmt.constDecl x type e pos).isProper here
  | .shortDecl names es pos => (Stmt.shortDecl names es pos).isProper here
  | _ => false

/-- Whether all of a program is proper. -/
def Program.isProper (p : Program) : Bool := p.declarations.all (Stmt.isProperDeclaration here)

section Trees

variable {here} {e : Expr} {listed : Bool}

/-- Where a proper expression stands is allowed. -/
theorem Expr.here_pos (h : e.isProper here listed = true) : here e.pos = true := by
  cases e <;> simp only [Expr.isProper, Bool.and_eq_true] at h <;> simp only [Expr.pos] <;> grind

/-- Whatever is proper by itself is proper in a list. -/
theorem Expr.isProper_listed (h : e.isProper here false = true) : e.isProper here true = true := by
  cases e with
  | elements items pos => simp [Expr.isProper] at h
  | _ => exact h

end Trees

namespace Parser

/-! ### Rules -/

variable {α β : Type} {ts : List Token} {At : List Token → Prop} {Q : α → Prop} {S : β → Prop}

/-- Whether a token stands at a position. -/
def tokenAt (ts : List Token) (pos : Position) : Bool := ts.any (·.pos == pos)

/-- A state in which a rule may be run on a part of the tokens `ts`. -/
structure Inside (ts : List Token) (c : Cursor) : Prop where
  suffix : c.tokens <:+ ts
  ended : Ended c.tokens
  faults : ∀ f ∈ c.faults, tokenAt ts f.2 = true

/-- How a rule may end that builds what satisfies `Q`. -/
def EndsIn (ts : List Token) (Q : α → Prop) : EStateM.Result Halt Cursor α → Prop
  | .ok a c => Inside ts c ∧ Q a
  | .error (.fault _ pos) c => Inside ts c ∧ tokenAt ts pos = true
  | .error .exhausted _ => True

/-- On every part of the tokens `ts` that satisfies `At`, the rule gives what satisfies `Q`, or
stops at the position of a token. -/
def Builds (ts : List Token) (At : List Token → Prop) (Q : α → Prop) (p : Parser α) : Prop :=
  ∀ c, Inside ts c → At c.tokens → EndsIn ts Q (p c)

/-- On any tokens. -/
def Somewhere (_ : List Token) : Prop := True

theorem Builds.mono {p : Parser α} {At' : List Token → Prop} {Q' : α → Prop} (h : Builds ts At Q p)
    (hAt : ∀ us, At' us → At us) (hQ : ∀ a, Q a → Q' a) : Builds ts At' Q' p := by
  intro c hc hat
  have hends := h c hc (hAt _ hat)
  cases hr : p c with
  | ok a c' =>
    rw [hr] at hends
    exact ⟨hends.1, hQ a hends.2⟩
  | error halt c' =>
    rw [hr] at hends
    cases halt with
    | fault f pos => exact hends
    | exhausted => trivial

/-- A rule that may be run anywhere. -/
theorem Builds.at {p : Parser α} (h : Builds ts Somewhere Q p) : Builds ts At Q p :=
  h.mono (fun _ _ => trivial) fun _ ha => ha

theorem Builds.imp {p : Parser α} {Q' : α → Prop} (h : Builds ts At Q p) (hQ : ∀ a, Q a → Q' a) :
    Builds ts At Q' p :=
  h.mono (fun _ hus => hus) hQ

/-- One rule behind another. -/
theorem Builds.bind {p : Parser α} {f : α → Parser β} (hp : Builds ts At Q p)
    (hf : ∀ a, Q a → Builds ts Somewhere S (f a)) : Builds ts At S (p >>= f) := by
  intro c hc hat
  have hends := hp c hc hat
  cases hr : p c with
  | ok a c' =>
    rw [hr] at hends
    rw [bind_of_ok hr]
    exact hf a hends.2 c' hends.1 trivial
  | error halt c' =>
    rw [hr] at hends
    rw [bind_of_error hr]
    cases halt with
    | fault f pos => exact hends
    | exhausted => trivial

/-- One rule behind another that may be run anywhere. -/
theorem Builds.seq {p : Parser α} {f : α → Parser β} (hp : Builds ts Somewhere Q p)
    (hf : ∀ a, Q a → Builds ts Somewhere S (f a)) : Builds ts At S (p >>= f) :=
  hp.at.bind hf

/-- Of tokens that cannot be there, there is nothing to say. -/
theorem builds_absurd {p : Parser α} (h : ∀ us, ¬ At us) : Builds ts At Q p :=
  fun _ _ hat => absurd hat (h _)

theorem builds_pure {a : α} (h : Q a) : Builds ts At Q (pure a) := fun _ hc _ => ⟨hc, h⟩

theorem builds_exhausted : Builds ts At Q (exhausted : Parser α) := fun _ _ _ => trivial

theorem builds_ite {c : Prop} [Decidable c] {p q : Parser α} (hp : c → Builds ts At Q p)
    (hq : ¬ c → Builds ts At Q q) : Builds ts At Q (if c then p else q) := by
  by_cases hc : c
  · rw [if_pos hc]
    exact hp hc
  · rw [if_neg hc]
    exact hq hc

/-! ### Looks at the tokens -/

/-- The token at hand is one of all. -/
theorem Inside.tokenAt_first {c : Cursor} (h : Inside ts c) : tokenAt ts (first c.tokens).pos = true := by
  have hmem : first c.tokens ∈ ts := by
    refine h.suffix.subset ?_
    cases htokens : c.tokens with
    | nil => exact absurd htokens h.ended.ne_nil
    | cons t us => exact List.mem_cons_self
  exact List.any_eq_true.mpr ⟨_, hmem, beq_self_eq_true _⟩

/-- A step that goes on at a part of the tokens. -/
theorem builds_pass {p : Parser α} {o : Cursor → α} {n : Cursor → List Token} {f : α → Parser β}
    (hrun : ∀ c, p c = .ok (o c) ⟨n c, c.faults⟩) (hsuffix : ∀ c, n c <:+ c.tokens)
    (hended : ∀ c, At c.tokens → Ended c.tokens → Ended (n c))
    (h : ∀ c, Inside ts c → At c.tokens → Builds ts (· = n c) S (f (o c))) :
    Builds ts At S (p >>= f) := by
  intro c hc hat
  rw [bind_of_ok (hrun c)]
  exact h c hc hat _ ⟨(hsuffix c).trans hc.suffix, hended c hat hc.ended, hc.faults⟩ rfl

theorem builds_get {f : Cursor → Parser β} (h : ∀ c, At c.tokens → Builds ts (· = c.tokens) S (f c)) :
    Builds ts At S (get >>= f) :=
  builds_pass (o := id) (n := Cursor.tokens) (fun _ => rfl) (fun _ => List.suffix_rfl)
    (fun _ _ he => he) fun c _ hat => h c hat

/-- A look at the token at hand. -/
theorem builds_current {f : Token → Parser β}
    (h : ∀ t, tokenAt ts t.pos = true → Builds ts (fun us => At us ∧ first us = t) S (f t)) :
    Builds ts At S (current >>= f) := by
  refine builds_pass (o := fun c => first c.tokens) (n := Cursor.tokens) (fun _ => rfl)
    (fun _ => List.suffix_rfl) (fun _ _ he => he) fun c hc hat => ?_
  refine (h (first c.tokens) hc.tokenAt_first).mono ?_ fun _ hb => hb
  rintro _ rfl
  exact ⟨hat, rfl⟩

/-- A look at the kind of the token at hand. -/
theorem builds_kind {f : Token.Kind → Parser β}
    (h : ∀ κ, Builds ts (fun us => At us ∧ (first us).kind = κ) S (f κ)) :
    Builds ts At S (kind >>= f) := by
  refine builds_pass (o := fun c => (first c.tokens).kind) (n := Cursor.tokens) (fun _ => rfl)
    (fun _ => List.suffix_rfl) (fun _ _ he => he) fun c hc hat => ?_
  refine (h (first c.tokens).kind).mono ?_ fun _ hb => hb
  rintro _ rfl
  exact ⟨hat, rfl⟩

theorem builds_failAt {f : GrammarFault} {pos : Position} (h : tokenAt ts pos = true) :
    Builds ts At Q (failAt f pos : Parser α) :=
  fun _ hc _ => ⟨hc, h⟩

theorem builds_failAt_bind {f : GrammarFault} {pos : Position} {g : α → Parser β}
    (h : tokenAt ts pos = true) : Builds ts At S (failAt f pos >>= g) :=
  fun _ hc _ => ⟨hc, h⟩

theorem builds_fail {f : GrammarFault} : Builds ts At Q (fail f : Parser α) :=
  builds_current fun _ ht => builds_failAt ht

theorem builds_fail_bind {f : GrammarFault} {g : α → Parser β} :
    Builds ts At S (fail f >>= g) :=
  (builds_fail (Q := fun _ => False)).bind fun _ ha => ha.elim

/-! ### Steps -/

/-- Reading the token at hand, which is not the end of file. -/
theorem builds_advance {f : Token → Parser β}
    (hAt : ∀ us, At us → (first us).kind ≠ .endOfFile)
    (h : ∀ t, tokenAt ts t.pos = true → Builds ts Somewhere S (f t)) :
    Builds ts At S (advance >>= f) := by
  refine builds_pass (o := fun c => first c.tokens) (n := fun c => c.tokens.tail) (fun _ => rfl)
    (fun c => List.tail_suffix c.tokens) (fun c hat he => ?_) fun c hc _ => ?_
  · obtain ⟨hfile, -⟩ | ⟨rest, htokens, -, hrest⟩ := Ended.cases he
    · exact absurd hfile (hAt _ hat)
    · rw [htokens]
      exact hrest
  · exact (h (first c.tokens) hc.tokenAt_first).at

/-- Reading a token of which the kind has been looked at. -/
theorem builds_take {κ : Token.Kind} {f : Token → Parser β} (hκ : κ ≠ .endOfFile)
    (h : ∀ t, tokenAt ts t.pos = true → Builds ts Somewhere S (f t)) :
    Builds ts (fun us => At us ∧ (first us).kind = κ) S (advance >>= f) :=
  builds_advance (fun _ hus => hus.2 ▸ hκ) h

/-- Reading a token that has been looked at. -/
theorem builds_takeToken {t : Token} {f : Token → Parser β} (ht : t.kind ≠ .endOfFile)
    (h : ∀ t, tokenAt ts t.pos = true → Builds ts Somewhere S (f t)) :
    Builds ts (fun us => At us ∧ first us = t) S (advance >>= f) :=
  builds_advance (fun _ hus => hus.2 ▸ ht) h

/-- Reading a token of a given kind. -/
theorem builds_expect {κ : Token.Kind} {f : Token → Parser β} (hκ : κ ≠ .endOfFile)
    (h : ∀ t, tokenAt ts t.pos = true → Builds ts Somewhere S (f t)) :
    Builds ts At S (expect κ >>= f) := by
  have hread : Builds ts At (fun t => tokenAt ts t.pos = true) (expect κ) := by
    refine builds_kind fun κ' => builds_ite (fun hk => ?_) fun _ => ?_
    · have hadvance : Builds ts (fun us => At us ∧ (first us).kind = κ')
          (fun t => tokenAt ts t.pos = true) (advance >>= pure) :=
        builds_take (hk ▸ hκ) fun t ht => builds_pure ht
      exact hadvance
    · exact builds_current fun _ _ => builds_fail
  exact hread.bind h

theorem builds_skipSemicolons {f : Unit → Parser β} (h : Builds ts Somewhere S (f ())) :
    Builds ts At S (skipSemicolons >>= f) :=
  builds_pass (o := fun _ => ()) (n := fun c => c.tokens.dropWhile (·.kind == .semicolon))
    (fun _ => rfl) (fun _ => List.dropWhile_suffix _) (fun _ _ he => ended_dropWhile he)
    fun _ _ _ => h.at

theorem builds_statementEnd {f : Unit → Parser β} (h : Builds ts Somewhere S (f ())) :
    Builds ts At S (statementEnd >>= f) := by
  have hends : Builds ts At (fun _ : Unit => True) statementEnd := by
    refine builds_kind fun κ => ?_
    split
    · exact builds_take (by decide) fun _ _ => builds_pure trivial
    · exact builds_pure trivial
    · exact builds_pure trivial
    · exact builds_pure trivial
    · exact builds_pure trivial
    · exact builds_current fun _ _ => builds_fail
  exact hends.bind fun _ _ => h

/-- A look for `else`; where there is one, it comes next. -/
theorem builds_elseAhead {f : Bool → Parser β}
    (h : ∀ found, Builds ts (fun us => found = true → (first us).kind = .kwElse) S (f found)) :
    Builds ts At S (elseAhead >>= f) := by
  refine builds_pass (n := fun c => elseRest c.tokens)
    (fun c => elseAhead_run c.tokens c.faults) (fun c => elseRest_suffix c.tokens)
    (fun c _ he => ended_elseRest he) fun c _ _ => ?_
  refine (h _).mono ?_ fun _ hb => hb
  rintro _ rfl
  exact of_decide_eq_true

theorem builds_record {fault : GrammarFault} {pos : Position} {f : Unit → Parser β}
    (hpos : tokenAt ts pos = true) (h : Builds ts Somewhere S (f ())) :
    Builds ts At S (modify (·.record fault pos) >>= f) := by
  have hrecord : Builds ts At (fun _ : Unit => True) (modify (·.record fault pos)) := by
    intro c hc _
    refine ⟨⟨hc.suffix, hc.ended, fun g hg => ?_⟩, trivial⟩
    rcases Array.mem_push.mp hg with hg | rfl
    · exact hc.faults g hg
    · exact hpos
  exact hrecord.bind fun _ _ => h

/-- A fault that is recovered from is recorded, and reading goes on at a part of the tokens. -/
theorem builds_recovering {closing : List Token.Kind} {p : Parser α} (hp : Builds ts At Q p) :
    Builds ts At (fun a? => ∀ a, a? = some a → Q a) (recovering closing p) := by
  intro c hc hat
  have hends := hp c hc hat
  unfold recovering
  cases hr : p c with
  | ok a c' =>
    rw [hr] at hends
    refine ⟨hends.1, ?_⟩
    rintro _ ⟨⟩
    exact hends.2
  | error halt c' =>
    rw [hr] at hends
    cases halt with
    | exhausted => trivial
    | fault f pos =>
      obtain ⟨hc', hpos⟩ := hends
      refine ⟨⟨?_, ended_resume hc'.ended, fun g hg => ?_⟩, nofun⟩
      · have hskip := skipStatement_suffix closing 0 c'.tokens
        exact (resume_suffix closing c.tokens c'.tokens).trans (hskip.trans hc'.suffix)
      · rcases Array.mem_push.mp hg with hg | rfl
        · exact hc'.faults g hg
        · exact hpos

end Parser

end Treewalk
