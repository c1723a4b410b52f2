/-
# Statements without a body are read back

Declarations, assignments, steps, calls and returns, and the header of a
loop. What begins with a name may be a short declaration: the parser looks
for names with commas and then `:=`. Nothing else that is written begins so.

The left side of an assignment is read as an expression first and is taken
for a target afterwards (`Target.expr`).

Key definitions: `Parser.shortAhead`, `Target.expr`.
Key theorems: `Parser.reads_varDecl`, `Parser.reads_constDecl`,
`Parser.reads_simpleStatement`, `Parser.reads_header`.
-/
import Treewalk.Grammar.Statement
import Treewalk.Proofs.RoundTrip.Expression

namespace Treewalk
namespace Parser

variable {n : Nat} {r w : List Word}

/-! ### Lists of names and of expressions -/

theorem reads_exprs {es : List Expr} (hne : es ≠ []) (hes : Expr.allWritten es = true)
    (hn : (exprsWords es).length < n) (hr : endsExpr (firstKind r) = true)
    (hcomma : firstKind r ≠ .comma) :
    Reads (commaList1 (exprRules n).expr n) (exprsWords es ++ r) r
      fun as => Expr.allUnplaced as = Expr.allUnplaced es := by
  rw [Expr.allWritten_eq, List.all_eq_true] at hes
  have hlen : es.length ≤ (exprsWords es).length := length_le_separated Expr.words_ne_nil es
  have hlist : Reads (commaList1 (exprRules n).expr n) (exprsWords es ++ r) r
      fun as => as.map Expr.unplaced = es.map Expr.unplaced := by
    refine reads_commaList1 hcomma hne (by omega) fun e he v hv => ?_
    have hmem : e.words.length ≤ (exprsWords es).length := length_mem_separated he
    refine (faithful n).expr (hes e he) (by omega) v ?_
    rcases hv with hv | hv <;> rw [hv]
    · rfl
    · exact hr
  refine hlist.imp fun as has => ?_
  rw [Expr.allUnplaced_eq, Expr.allUnplaced_eq, has]

theorem reads_binder {x : Binder} :
    Reads binder (.name x.name :: r) r fun a => a.unplaced = x.unplaced :=
  reads_expect rfl fun _ => .pure rfl

theorem reads_names {xs : List Binder} (hne : xs ≠ []) (hn : (namesWords xs).length ≤ n)
    (hr : firstKind r ≠ .comma) :
    Reads (commaList1 binder n) (namesWords xs ++ r) r
      fun ys => ys.map Binder.unplaced = xs.map Binder.unplaced := by
  have hname : ∀ x : Binder, [Word.name x.name] ≠ [] := fun x => List.cons_ne_nil _ _
  have hlen : xs.length ≤ (namesWords xs).length := length_le_separated hname xs
  exact reads_commaList1 hr hne (by omega) fun x _ v _ => reads_binder

theorem reads_type? {t : Option TypeExpr} (ht : t.all TypeExpr.isWritten = true)
    (hn : (typeWords t).length < n) (hr : (firstKind r).startsType = false) :
    Reads (type? (exprRules n)) (typeWords t ++ r) r
      fun t' => t'.map TypeExpr.unplaced = t.map TypeExpr.unplaced := by
  cases t with
  | none => exact reads_kind (reads_if_neg (by simpa [typeWords] using hr) (.pure rfl))
  | some t =>
    refine reads_kind (reads_if_pos (t.startsType_words r) ?_)
    refine ((faithful n).type ht hn).bind fun t' ht' => .pure ?_
    rw [Option.map_some, Option.map_some, ht']

/-! ### Declarations with a keyword -/

theorem firstKind_typeWords_ne {t : Option TypeExpr} {k : Token.Kind} (hk : k.startsType = false)
    (hr : firstKind r ≠ k) : firstKind (typeWords t ++ r) ≠ k := by
  cases t with
  | none => exact hr
  | some t =>
    rintro rfl
    rw [typeWords, Option.elim_some, t.startsType_words r] at hk
    cases hk

theorem allUnplaced_ne_nil {es as : List Expr} (h : Expr.allUnplaced as = Expr.allUnplaced es)
    (hes : es ≠ []) : as ≠ [] := by
  rintro rfl
  cases es with
  | nil => exact hes rfl
  | cons e es => cases h

theorem reads_varDecl {names : List Binder} {type : Option TypeExpr} {es : List Expr}
    {pos : Position} (h : (Stmt.varDecl names type es pos).isWritten = true)
    (hn : (namesWords names ++ (typeWords type ++ valueWords es)).length < n) :
    Reads (varDecl (exprRules n) n)
      (.kwVar :: (namesWords names ++ (typeWords type ++ (valueWords es ++ .lineEnd :: r)))) r
      fun s => s.unplaced = (Stmt.varDecl names type es pos).unplaced := by
  obtain ⟨h, hsome⟩ := Bool.and_eq_true_iff.mp h
  obtain ⟨h, hes⟩ := Bool.and_eq_true_iff.mp h
  obtain ⟨hnames, htype⟩ := Bool.and_eq_true_iff.mp h
  have hne : names ≠ [] := by simpa using (Bool.and_eq_true_iff.mp hnames).1
  simp only [List.length_append] at hn
  have hfirst : firstKind (valueWords es ++ .lineEnd :: r) =
      if es.isEmpty then .semicolon else .equal := by
    cases es <;> rfl
  have hstart : (firstKind (valueWords es ++ .lineEnd :: r)).startsType = false ∧
      firstKind (valueWords es ++ .lineEnd :: r) ≠ .comma := by
    rw [hfirst]
    cases es.isEmpty <;> decide
  refine reads_expect rfl fun _ => ?_
  refine (reads_names hne (by omega) (firstKind_typeWords_ne rfl hstart.2)).bind fun ns hns => ?_
  refine (reads_type? htype (by omega) hstart.1).bind fun t ht => reads_kind ?_
  rw [hfirst]
  cases es with
  | nil =>
    have hsome : ¬ (t.isNone = true ∧ ([] : List Expr).isEmpty = true) := by
      cases type <;> cases t <;> simp_all
    refine reads_if_neg (by decide) (Reads.bind (P := (· = [])) (.pure rfl) ?_)
    rintro _ rfl
    refine reads_if_neg hsome (reads_statementEnd (.pure ?_))
    rw [Stmt.unplaced, Stmt.unplaced, hns, ht]
  | cons e es =>
    have hlen : (exprsWords (e :: es)).length + 1 = (valueWords (e :: es)).length := rfl
    refine reads_if_pos rfl (reads_advance fun _ => ?_)
    refine (reads_exprs (by simp) hes (by omega) rfl (by simp [Word.lineEnd])).bind fun as has => ?_
    have hvalues : as.isEmpty = false := by simpa using allUnplaced_ne_nil has (by simp)
    refine reads_if_neg (by simp [hvalues]) (reads_statementEnd (.pure ?_))
    rw [Stmt.unplaced, Stmt.unplaced, hns, ht, has]

theorem reads_constDecl {x : String} {type : Option TypeExpr} {e : Expr} {pos : Position}
    (h : (Stmt.constDecl x type e pos).isWritten = true)
    (hn : (typeWords type ++ e.words).length < n) :
    Reads (constDecl (exprRules n))
      (.kwConst :: .name x :: (typeWords type ++ .equal :: (e.words ++ .lineEnd :: r))) r
      fun s => s.unplaced = (Stmt.constDecl x type e pos).unplaced := by
  obtain ⟨h, he⟩ := Bool.and_eq_true_iff.mp h
  obtain ⟨-, htype⟩ := Bool.and_eq_true_iff.mp h
  rw [List.length_append] at hn
  refine reads_expect rfl fun _ => (reads_binder (x := ⟨x, pos⟩)).bind fun b hb => ?_
  refine (reads_type? htype (by omega) rfl).bind fun t ht => reads_expect rfl fun _ => ?_
  refine ((faithful n).expr he (by omega) _ rfl).bind fun a ha => reads_statementEnd (.pure ?_)
  have hname : b.name = x := congrArg Binder.name hb
  rw [Stmt.unplaced, Stmt.unplaced, ht, ha, hname]

/-! ### What is read ahead -/

/-- Whether the words begin with names, commas between them, and then `:=`. -/
def shortAhead : List Word → Bool
  | a :: b :: rest =>
    a.kind == .identifier && (b.kind == .colonEqual || (b.kind == .comma && shortAhead rest))
  | _ => false

theorem startsShort_eq : ∀ ts : List Token, startsShort ts = shortAhead (ts.map Token.word)
  | [] => rfl
  | [_] => rfl
  | a :: b :: rest => by
    rw [startsShort, startsShort_eq rest]
    rfl

theorem not_startsShort {ts : List Token} (hts : ts.map Token.word = w)
    (h : shortAhead w = false) : ¬ startsShort ts = true := by
  rw [startsShort_eq, hts, h]
  decide

theorem shortAhead_names : ∀ {xs : List Binder}, xs ≠ [] →
    shortAhead (namesWords xs ++ .colonEqual :: r) = true
  | [x], _ => rfl
  | x :: y :: xs, _ => by
    have htail := shortAhead_names (List.cons_ne_nil y xs)
    exact htail

theorem shortAhead_of_not_name (h : firstKind w ≠ .identifier) : shortAhead w = false := by
  match w with
  | [] | [_] => rfl
  | a :: b :: rest => simp [shortAhead, show a.kind ≠ .identifier from h]

theorem shortAhead_of_next {a : Word} (hcomma : firstKind w ≠ .comma)
    (hshort : firstKind w ≠ .colonEqual) : shortAhead (a :: w) = false := by
  cases w with
  | nil => rfl
  | cons b rest =>
    simp [shortAhead, show b.kind ≠ .comma from hcomma, show b.kind ≠ .colonEqual from hshort]

/-- An expression that needs no parentheses does not begin a short declaration. -/
theorem shortAhead_of_not_compound {e : Expr} (h : e.isWritten = true) (hc : e.isCompound = false)
    (hcomma : firstKind r ≠ .comma) (hshort : firstKind r ≠ .colonEqual) :
    shortAhead (e.words ++ r) = false := by
  match e, h with
  | .int .., _ | .float .., _ | .str .., _ | .rune .., _ | .nil _, _ | .bool true _, _
  | .bool false _, _ => exact shortAhead_of_not_name (by simp [Expr.words, Word.nil, Word.bool])
  | .name x _, _ => exact shortAhead_of_next hcomma hshort
  | .call callee args _, _ =>
    rw [Expr.words]
    rcases calleeWords_cases callee with hone | ⟨x, y, htwo, -⟩
    · rw [hone]
      exact shortAhead_of_next (by simp [Word.openParen]) (by simp [Word.openParen])
    · rw [htwo]
      exact shortAhead_of_next (by simp [Word.dot]) (by simp [Word.dot])
  | .index x (i :: indices) _, _ =>
    exact shortAhead_of_next (by simp [Expr.indexWords, Word.openBracket])
      (by simp [Expr.indexWords, Word.openBracket])
  | .array (.array size elem) items _, _ =>
    exact shortAhead_of_not_name (by simp [Expr.words, TypeExpr.words, Word.openBracket])
  | .index x [] _, h => simp [Expr.isWritten] at h
  | .binary .., _ | .logical .., _ | .unary .., _ | .addressOf .., _ | .deref .., _ => cases hc

theorem shortAhead_operand {e : Expr} (h : e.isWritten = true) (hcomma : firstKind r ≠ .comma)
    (hshort : firstKind r ≠ .colonEqual) : shortAhead (e.operandWords ++ r) = false := by
  unfold Expr.operandWords
  cases hc : e.isCompound with
  | false => exact shortAhead_of_not_compound h hc hcomma hshort
  | true => exact shortAhead_of_not_name (by simp [grouped, Word.openParen])

theorem shortAhead_expr {e : Expr} (h : e.isWritten = true) (hcomma : firstKind r ≠ .comma)
    (hshort : firstKind r ≠ .colonEqual) : shortAhead (e.words ++ r) = false := by
  cases hc : e.isCompound with
  | false => exact shortAhead_of_not_compound h hc hcomma hshort
  | true =>
    match e, hc with
    | .binary op lhs rhs _, _ | .logical op lhs rhs _, _ =>
      rw [Expr.words, List.append_assoc]
      refine shortAhead_operand (Bool.and_eq_true_iff.mp h).1 ?_ ?_ <;> cases op <;>
        simp [BinaryOp.word, BinaryOp.kind, LogicalOp.word]
    | .unary .neg operand _, _ | .unary .not operand _, _ | .deref operand _, _
    | .addressOf x _, _ =>
      exact shortAhead_of_not_name (by simp [Expr.words, UnaryOp.word, Word.star, Word.ampersand])

end Parser

/-! ### Targets -/

/-- A target as the expression it is read as. -/
def Target.expr : Target → Expr
  | .name x => .name x .origin
  | .deref x => .deref (.name x .origin) .origin
  | .index x indices => .index x indices .origin

theorem Target.words_expr (t : Target) : t.expr.words = t.words := by
  cases t <;> rfl

theorem Target.isWritten_expr (t : Target) : t.expr.isWritten = t.isWritten := by
  cases t <;> rfl

namespace Parser

/-- What is read for a target is one. -/
theorem target?_of_unplaced {t : Target} {e : Expr} (h : e.unplaced = t.expr.unplaced) :
    ∃ t', target? e = some t' ∧ t'.unplaced = t.unplaced := by
  match t, e with
  | .name x, .name y _ =>
    cases h
    exact ⟨.name x, rfl, rfl⟩
  | .index x indices, .index y indices' _ =>
    refine ⟨.index y indices', rfl, ?_⟩
    rw [Target.expr, Expr.unplaced, Expr.unplaced] at h
    injection h with hx hindices
    rw [Target.unplaced, Target.unplaced, hx, hindices]
  | .deref x, .deref (.name y _) _ =>
    cases h
    exact ⟨.deref x, rfl, rfl⟩

theorem reads_target {t : Target} {e : Expr} {β : Type} {f : Target → Parser β} {Q : β → Prop}
    (he : e.unplaced = t.expr.unplaced)
    (h : ∀ t' : Target, t'.unplaced = t.unplaced → Reads (f t') w r Q) :
    Reads (target e >>= f) w r Q := by
  obtain ⟨t', htarget, ht'⟩ := target?_of_unplaced he
  rw [target, htarget]
  exact h t' ht'

theorem assignOp_word {op : AssignOp} (h : op.word.sound = true) : assignOp op.word.text = op := by
  cases op with
  | plain => rfl
  | compound op =>
    cases op
    case add | sub | mul | div => rfl
    all_goals exact absurd h (by decide)

/-- The left side of an assignment or a step, before its mark. -/
theorem reads_left {t : Target} {mark : Word} (ht : t.isWritten = true) (hn : t.words.length < n)
    (hmark : mark.kind ∈ [.equal, .compoundAssign, .increment, .decrement]) :
    shortAhead (t.words ++ mark :: w) = false ∧
      Reads (exprRules n).expr (t.words ++ mark :: w) (mark :: w)
        fun e => e.unplaced = t.expr.unplaced := by
  have hall : ∀ k ∈ [Token.Kind.equal, .compoundAssign, .increment, .decrement],
      endsExpr k = true ∧ k ≠ .comma ∧ k ≠ .colonEqual := by
    decide
  obtain ⟨hend, hcomma, hshort⟩ := hall mark.kind hmark
  rw [← t.isWritten_expr] at ht
  rw [← t.words_expr] at hn ⊢
  exact ⟨shortAhead_expr ht hcomma hshort, (faithful n).expr ht hn _ hend⟩

/-! ### Simple statements -/

theorem reads_shortDecl {names : List Binder} {es : List Expr} {pos : Position}
    (h : (Stmt.shortDecl names es pos).isHeader = true)
    (hn : (Stmt.shortDecl names es pos).simpleWords.length < n)
    (hr : endsExpr (firstKind r) = true) (hcomma : firstKind r ≠ .comma) :
    Reads (simpleStatement (exprRules n) n) ((Stmt.shortDecl names es pos).simpleWords ++ r) r
      fun a => a.unplaced = (Stmt.shortDecl names es pos).unplaced := by
  obtain ⟨h, hes⟩ := Bool.and_eq_true_iff.mp h
  obtain ⟨hnames, hne⟩ := Bool.and_eq_true_iff.mp h
  have hne' : names ≠ [] := by simpa using (Bool.and_eq_true_iff.mp hnames).1
  rw [Stmt.simpleWords, List.length_append, List.length_cons] at hn
  rw [Stmt.simpleWords, List.append_assoc, List.cons_append]
  refine reads_current_of_kind fun _ _ => reads_get fun ts faults hts => reads_if_pos ?_ ?_
  · rw [startsShort_eq, hts, shortAhead_names hne']
  refine (reads_names hne' (by omega) (by simp [Word.colonEqual])).bind fun ns hns => ?_
  refine reads_expect rfl fun _ => ?_
  refine (reads_exprs (by simpa using hne) hes (by omega) hr hcomma).bind fun as has => .pure ?_
  rw [Stmt.unplaced, Stmt.unplaced, hns, has]

theorem reads_assign {t : Target} {op : AssignOp} {e : Expr} {pos : Position}
    (h : (Stmt.assign t op e pos).isHeader = true)
    (hn : (Stmt.assign t op e pos).simpleWords.length < n) (hr : endsExpr (firstKind r) = true) :
    Reads (simpleStatement (exprRules n) n) ((Stmt.assign t op e pos).simpleWords ++ r) r
      fun a => a.unplaced = (Stmt.assign t op e pos).unplaced := by
  obtain ⟨h, he⟩ := Bool.and_eq_true_iff.mp h
  obtain ⟨ht, hop⟩ := Bool.and_eq_true_iff.mp h
  rw [Stmt.simpleWords, List.length_append, List.length_cons] at hn
  rw [Stmt.simpleWords, List.append_assoc, List.cons_append]
  have hmark : op.word.kind = .equal ∨ op.word.kind = .compoundAssign := by
    cases op <;> simp [AssignOp.word, Word.equal]
  obtain ⟨hshort, hleft⟩ := reads_left (n := n) (w := e.words ++ r) ht (by omega)
    (show op.word.kind ∈ _ by rcases hmark with hmark | hmark <;> simp [hmark])
  have hrest : ∀ left pos', left.unplaced = t.expr.unplaced → Reads (do
      let t ← target left
      let op := assignOp (← advance).text
      return Stmt.assign t op (← (exprRules n).expr) pos') (op.word :: (e.words ++ r)) r
      fun a => a.unplaced = (Stmt.assign t op e pos).unplaced := by
    intro left pos' hl
    refine reads_target hl fun t' ht' => reads_advance fun _ => ?_
    refine ((faithful n).expr he (by omega) r hr).bind fun a ha => .pure ?_
    rw [Stmt.unplaced, Stmt.unplaced, ht', ha, assignOp_word hop]
  refine reads_current_of_kind fun token _ => reads_get fun ts faults hts => ?_
  refine reads_if_neg (not_startsShort hts hshort) (hleft.bind fun left hl => reads_kind ?_)
  rw [firstKind_cons]
  rcases hmark with hmark | hmark
  · rw [hmark]
    exact hrest left token.pos hl
  · rw [hmark]
    exact hrest left token.pos hl

theorem reads_step {t : Target} {op : StepOp} {pos : Position} (h : t.isWritten = true)
    (hn : t.words.length < n) :
    Reads (simpleStatement (exprRules n) n) ((Stmt.step t op pos).simpleWords ++ r) r
      fun a => a.unplaced = (Stmt.step t op pos).unplaced := by
  rw [Stmt.simpleWords, List.append_assoc]
  obtain ⟨hshort, hleft⟩ := reads_left (w := r) h hn
    (show op.word.kind ∈ _ by cases op <;> simp [StepOp.word])
  refine reads_current_of_kind fun _ _ => reads_get fun ts faults hts => ?_
  refine reads_if_neg (not_startsShort hts hshort) (hleft.bind fun left hl => reads_kind ?_)
  cases op
  all_goals
    refine reads_target hl fun t' ht' => reads_advance fun _ => .pure ?_
    rw [Stmt.unplaced, Stmt.unplaced, ht']

theorem reads_exprStatement {e : Expr} (pos : Position) (h : e.isWritten = true)
    (hn : e.words.length < n) (hr : firstKind r = .semicolon ∨ firstKind r = .openBrace) :
    Reads (simpleStatement (exprRules n) n) (e.words ++ r) r
      fun a => a.unplaced = (Stmt.expr e pos).unplaced := by
  have hend : endsExpr (firstKind r) = true ∧ firstKind r ≠ .comma ∧ firstKind r ≠ .colonEqual := by
    rcases hr with hr | hr <;> rw [hr] <;> decide
  have hshort := shortAhead_expr h hend.2.1 hend.2.2
  refine reads_current_of_kind fun _ _ => reads_get fun ts faults hts => ?_
  refine reads_if_neg (not_startsShort hts hshort) ?_
  refine ((faithful n).expr h hn r hend.1).bind fun a ha => reads_kind ?_
  rcases hr with hr | hr <;> rw [hr] <;> refine .pure ?_ <;> rw [Stmt.unplaced, Stmt.unplaced, ha]

/-- **Simple statements are read back.** -/
theorem reads_simpleStatement {s : Stmt} (h : s.isHeader = true) (hn : s.simpleWords.length < n)
    (hr : firstKind r = .semicolon ∨ firstKind r = .openBrace) :
    Reads (simpleStatement (exprRules n) n) (s.simpleWords ++ r) r
      fun a => a.unplaced = s.unplaced := by
  have hend : endsExpr (firstKind r) = true ∧ firstKind r ≠ .comma := by
    rcases hr with hr | hr <;> rw [hr] <;> decide
  cases s with
  | shortDecl names es pos => exact reads_shortDecl h hn hend.1 hend.2
  | assign t op e pos => exact reads_assign h hn hend.1
  | step t op pos =>
    rw [Stmt.simpleWords, List.length_append] at hn
    exact reads_step h (by omega)
  | expr e pos => exact reads_exprStatement pos h hn hr
  | _ => cases h

/-- An expression by itself is a call, so what is read for it is one. -/
theorem isCall_of_unplaced {s : Stmt} {e : Expr} {pos : Position} (h : s.isWritten = true)
    (he : (Stmt.expr e pos).unplaced = s.unplaced) :
    ∃ callee args pos', e = .call callee args pos' := by
  cases s with
  | expr e' pos' =>
    cases e' with
    | call callee args pos'' =>
      rw [Stmt.unplaced, Stmt.unplaced] at he
      injection he with he
      cases e with
      | call callee' args' pos' => exact ⟨callee', args', pos', rfl⟩
      | _ => cases he
    | _ => cases h
  | _ => cases he

theorem reads_plainStatement {s : Stmt} (h : s.isWritten = true) (hs : s.isHeader = true)
    (hn : s.simpleWords.length < n) :
    Reads (plainStatement (exprRules n) n) (s.simpleWords ++ .lineEnd :: r) r
      fun a => a.unplaced = s.unplaced := by
  refine (reads_simpleStatement hs hn (.inl rfl)).bind fun a ha => ?_
  dsimp only
  split
  case h_1 => exact reads_statementEnd (.pure ha)
  case h_2 e pos hcall =>
    obtain ⟨callee, args, pos', rfl⟩ := isCall_of_unplaced h ha
    exact absurd rfl (hcall callee args pos')
  case h_3 => exact reads_statementEnd (.pure ha)

theorem reads_returnStmt {es : List Expr} {pos : Position} (h : Expr.allWritten es = true)
    (hn : (exprsWords es).length < n) :
    Reads (returnStmt (exprRules n) n) (.kwReturn :: (exprsWords es ++ .lineEnd :: r)) r
      fun s => s.unplaced = (Stmt.returnStmt es pos).unplaced := by
  refine reads_expect rfl fun _ => reads_kind ?_
  cases es with
  | nil =>
    refine Reads.bind (P := (· = [])) (.pure rfl) ?_
    rintro _ rfl
    exact reads_statementEnd (.pure rfl)
  | cons e es =>
    have hstart := startsExpr_exprsWords (List.cons_ne_nil e es) h (.lineEnd :: r)
    split
    case h_6 =>
      refine (reads_exprs (by simp) h hn rfl (by simp [Word.lineEnd])).bind fun as has => ?_
      refine reads_statementEnd (.pure ?_)
      rw [Stmt.unplaced, Stmt.unplaced, has]
    all_goals exact absurd ‹_ = _› (Token.Kind.ne_of_test hstart rfl)

/-! ### Headers of loops -/

/-- A part that may be left out, before a word of the kind `stop`. -/
theorem reads_option {α β γ : Type} {p : Parser α} {stop : Token.Kind}
    {f : Option α → Parser β} {o : Option α} {words : α → List Word} {v : List Word}
    {Q : β → Prop} (same : α → γ) (hv : firstKind v = stop)
    (hstart : ∀ a ∈ o, firstKind (words a ++ v) ≠ stop)
    (hp : ∀ a ∈ o, Reads p (words a ++ v) v fun b => same b = same a)
    (hf : ∀ o', o'.map same = o.map same → Reads (f o') v r Q) :
    Reads (do if (← kind) = stop then (do f (← pure none)) else (do f (← some <$> p)))
      (o.elim [] words ++ v) r Q := by
  refine reads_kind ?_
  cases o with
  | none => exact reads_if_pos hv (Reads.bind (P := (·.map same = none)) (.pure rfl) hf)
  | some a =>
    refine reads_if_neg (hstart a rfl) (Reads.bind ((hp a rfl).map fun b hb => ?_) hf)
    rw [Option.map_some, Option.map_some, hb]

/-- Whether a header was read for the parts of another. -/
def Header.Same (h : Header) (init : Option Stmt) (condition : Option Expr) (post : Option Stmt) :
    Prop :=
  h.init.map Stmt.unplaced = init.map Stmt.unplaced ∧
    h.condition.map Expr.unplaced = condition.map Expr.unplaced ∧
    h.post.map Stmt.unplaced = post.map Stmt.unplaced

section Headers

variable {init post : Option Stmt} {condition : Option Expr}

theorem reads_clauses {first : Option Stmt} (hcondition : condition.all Expr.isWritten = true)
    (hpost : post.all Stmt.isHeader = true)
    (hinit : first.map Stmt.unplaced = init.map Stmt.unplaced)
    (hn : (condition.elim [] Expr.words).length + (post.elim [] Stmt.simpleWords).length < n) :
    Reads (clauses (exprRules n) n first)
      (.semicolon :: (condition.elim [] Expr.words ++
        .semicolon :: (post.elim [] Stmt.simpleWords ++ .openBrace :: r)))
      (.openBrace :: r) fun h => h.Same init condition post := by
  refine reads_expect rfl fun _ => ?_
  refine reads_option Expr.unplaced rfl ?_ ?_ fun c hc => reads_expect rfl fun _ => ?_
  · rintro e rfl
    exact Token.Kind.ne_of_test (Expr.startsExpr_words hcondition _) rfl
  · rintro e rfl
    exact (faithful n).expr hcondition (by rw [Option.elim_some] at hn; omega) _ rfl
  refine reads_option Stmt.unplaced rfl ?_ ?_ fun p hp => .pure ⟨hinit, hc, hp⟩
  · rintro s rfl
    exact Token.Kind.ne_of_test (Stmt.startsExpr_simpleWords hpost _) rfl
  · rintro s rfl
    exact reads_simpleStatement hpost (by rw [Option.elim_some] at hn; omega) (.inr rfl)

theorem headerWords_of_parts (h : init.isSome = true ∨ post.isSome = true) :
    headerWords init condition post = init.elim [] Stmt.simpleWords ++ .semicolon ::
      (condition.elim [] Expr.words ++ .semicolon :: post.elim [] Stmt.simpleWords) := by
  unfold headerWords
  split
  · simp at h
  · simp at h
  · simp

theorem expr_of_unplaced {s : Stmt} {e : Expr} {pos : Position}
    (h : s.unplaced = (Stmt.expr e pos).unplaced) :
    ∃ e' pos', s = .expr e' pos' ∧ e'.unplaced = e.unplaced := by
  cases s with
  | expr e' pos' =>
    rw [Stmt.unplaced, Stmt.unplaced] at h
    injection h with h
    exact ⟨e', pos', rfl, h⟩
  | _ => cases h

/-- **Headers of loops are read back.** -/
theorem reads_header (hinit : init.all Stmt.isHeader = true)
    (hcondition : condition.all Expr.isWritten = true) (hpost : post.all Stmt.isHeader = true)
    (hn : (headerWords init condition post).length < n) :
    Reads (header (exprRules n) n) (headerWords init condition post ++ .openBrace :: r)
      (.openBrace :: r) fun h => h.Same init condition post := by
  by_cases hparts : init.isSome = true ∨ post.isSome = true
  · rw [headerWords_of_parts hparts] at hn ⊢
    simp only [List.length_append, List.length_cons] at hn
    rw [List.append_assoc, List.cons_append, List.append_assoc, List.cons_append]
    refine reads_kind ?_
    cases init with
    | none => exact reads_clauses hcondition hpost rfl (by omega)
    | some s =>
      have hstart := Stmt.startsExpr_simpleWords hinit
      split
      case h_3 =>
        refine (reads_simpleStatement hinit (by rw [Option.elim_some] at hn; omega) (.inl rfl)).bind fun a ha => ?_
        refine reads_kind (reads_if_pos rfl (reads_clauses hcondition hpost ?_ (by omega)))
        rw [Option.map_some, Option.map_some, ha]
      all_goals exact absurd ‹_ = _› (Token.Kind.ne_of_test (hstart _) rfl)
  · obtain ⟨rfl, rfl⟩ : init = none ∧ post = none := by simpa using hparts
    refine reads_kind ?_
    cases condition with
    | none => exact .pure ⟨rfl, rfl, rfl⟩
    | some e =>
      have hstart := Expr.startsExpr_words hcondition
      split
      case h_3 =>
        refine (reads_exprStatement .origin hcondition hn (.inr rfl)).bind fun a ha => ?_
        obtain ⟨e', pos', rfl, he'⟩ := expr_of_unplaced ha
        refine reads_kind (reads_if_neg (by simp [Word.openBrace]) (.pure ⟨rfl, ?_, rfl⟩))
        rw [Option.map_some, Option.map_some, he']
      all_goals exact absurd ‹_ = _› (Token.Kind.ne_of_test (hstart _) rfl)

end Headers

end Parser
end Treewalk
