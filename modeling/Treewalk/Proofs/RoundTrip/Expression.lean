/-
# Expressions and types are read back

The rules that nest are bounded, and a bound above the number of words is
enough: each nested construct comes with a word of its own. So the induction
is on the bound. `Faithful n` says what the rules with bound `n` read back,
and `Faithful.succ` carries it over to the next bound.

An operand is read through all levels of binary marks without a change, as
long as no mark follows. Two operands with a mark between them are joined at
the level of the mark; the levels outside see nothing of it.

Key definitions: `Parser.endsExpr`, `Parser.Faithful`.
Key theorems: `Parser.reads_level`, `Parser.reads_level_join`,
`Parser.Faithful.expr`, `Parser.faithful`.
-/
import Treewalk.Proofs.RoundTrip.Reads
import Treewalk.Proofs.RoundTrip.Spelling

namespace Treewalk
namespace Parser

variable {n : Nat} {r s w : List Word} {P Q : Expr → Prop}

/-! ### Levels of binary marks -/

/-- What a mark builds, by the tightest of the levels that has it. -/
def connective? (k : Token.Kind) : List (List (Token.Kind × Connective)) → Option Connective
  | [] => none
  | marks :: tighter => (connective? k tighter).or (marks.lookup k)

theorem connective?_binary (op : BinaryOp) :
    connective? op.word.kind precedence = some (.binary op) := by
  cases op <;> rfl

theorem connective?_logical (op : LogicalOp) :
    connective? op.word.kind precedence = some (.logical op) := by
  cases op <;> rfl

/-- Without a mark behind it, an operand is an expression of any levels. -/
theorem reads_level {unary : Parser Expr} {levels : List (List (Token.Kind × Connective))}
    (hunary : Reads unary w r P) (hr : connective? (firstKind r) levels = none) :
    Reads (level (n + 1) unary levels) w r P := by
  induction levels with
  | nil => exact hunary
  | cons marks tighter ih =>
    obtain ⟨htighter, hmarks⟩ := Option.or_eq_none_iff.mp hr
    refine (ih htighter).bind fun a ha => reads_kind ?_
    rw [hmarks]
    exact .pure ha

/-- Two operands are joined by the mark between them. -/
theorem reads_level_join {unary : Parser Expr} {levels : List (List (Token.Kind × Connective))}
    {mark : Word} {c : Connective} (hmark : connective? mark.kind levels = some c)
    (hleft : Reads unary w (mark :: s) P) (hright : Reads unary s r Q)
    (hr : connective? (firstKind r) levels = none) :
    Reads (level (n + 2) unary levels) w r fun e => ∃ a b, e = c.join a b ∧ P a ∧ Q b := by
  induction levels with
  | nil => cases hmark
  | cons marks tighter ih =>
    obtain ⟨htighter, hmarks⟩ := Option.or_eq_none_iff.mp hr
    rw [connective?] at hmark
    cases hk : connective? mark.kind tighter with
    | some d =>
      -- the mark belongs to a tighter level, and this one finds nothing left to do
      rw [hk] at hmark
      refine (ih (hk.trans hmark) htighter).bind fun e he => reads_kind ?_
      rw [hmarks]
      exact .pure he
    | none =>
      rw [hk, Option.none_or] at hmark
      refine (reads_level hleft hk).bind fun a ha => reads_kind ?_
      rw [firstKind_cons, hmark]
      refine reads_advance fun _ => (reads_level hright htighter).bind fun b hb => reads_kind ?_
      rw [hmarks]
      exact .pure ⟨a, b, rfl, ha, hb⟩

/-- The kinds that do not go on with an operand. -/
def endsOperand (k : Token.Kind) : Bool := k != .dot && k != .openParen && k != .openBracket

/-- The kinds that do not go on with an expression. -/
def endsExpr (k : Token.Kind) : Bool := endsOperand k && (connective? k precedence).isNone

theorem endsExpr_iff {k : Token.Kind} :
    endsExpr k = true ↔ endsOperand k = true ∧ connective? k precedence = none := by
  simp [endsExpr]

/-! ### Names, calls and elements -/

/-- The rule reads the words `w` as `e`, if they are not gone on with. -/
def ReadsExpr (p : Parser Expr) (w : List Word) (e : Expr) : Prop :=
  ∀ r, endsExpr (firstKind r) = true → Reads p (w ++ r) r fun a => a.unplaced = e.unplaced

theorem reads_arguments {expr : Parser Expr} {args : List Expr}
    (hwritten : Expr.allWritten args = true) (hn : args.length < n)
    (h : ∀ e ∈ args, ReadsExpr expr e.operandWords e) :
    Reads (arguments expr n) (.openParen :: (Expr.listWords args ++ .closeParen :: r)) r
      fun as => Expr.allUnplaced as = Expr.allUnplaced args := by
  rw [Expr.allWritten_eq, List.all_eq_true] at hwritten
  have hlist : Reads (commaList .closeParen expr n) (Expr.listWords args ++ .closeParen :: r)
      (.closeParen :: r) fun as => as.map Expr.unplaced = args.map Expr.unplaced := by
    rw [Expr.listWords_eq]
    refine reads_commaList (by simp [Word.closeParen]) hn ?_ ?_
    · intro e he v
      exact Token.Kind.ne_of_test (Expr.startsExpr_operandWords (hwritten e he) v) rfl
    · intro e he v hv
      refine h e he v ?_
      rcases hv with hv | hv <;> rw [hv] <;> rfl
  refine reads_expect rfl fun _ => hlist.bind fun as has => ?_
  refine reads_expect rfl fun _ => .pure ?_
  rw [Expr.allUnplaced_eq, Expr.allUnplaced_eq, has]

theorem reads_indices {expr : Parser Expr} (hr : firstKind r ≠ .openBracket) :
    ∀ {n : Nat} {es : List Expr}, es.length < n → (∀ e ∈ es, ReadsExpr expr e.operandWords e) →
      Reads (indices expr n) (Expr.indexWords es ++ r) r
        fun as => Expr.allUnplaced as = Expr.allUnplaced es
  | n + 1, [], _, _ => reads_kind (reads_if_pos hr (.pure rfl))
  | n + 1, e :: es, hn, h => by
    have htail := reads_indices hr (Nat.lt_of_succ_lt_succ hn) fun e' he' =>
      h e' (List.mem_cons_of_mem _ he')
    have hwords : Expr.indexWords (e :: es) ++ r =
        .openBracket :: (e.operandWords ++ .closeBracket :: (Expr.indexWords es ++ r)) := by
      simp [Expr.indexWords_cons]
    rw [hwords]
    refine reads_kind (reads_if_neg (by simp [Word.openBracket]) (reads_advance fun _ => ?_))
    refine (h e (by simp) _ rfl).bind fun a ha => reads_expect rfl fun _ => ?_
    refine htail.bind fun as has => .pure ?_
    rw [Expr.allUnplaced, Expr.allUnplaced, ha, has]

/-- A callee is one name, or two with a point between them. -/
theorem calleeWords_cases (callee : String) : calleeWords callee = [.name callee] ∨
    ∃ x y, calleeWords callee = [.name x, .dot, .name y] ∧ x ++ "." ++ y = callee := by
  unfold calleeWords
  split
  case h_1 => exact .inl rfl
  case h_2 c member hdrop =>
    refine .inr ⟨_, _, rfl, ?_⟩
    have hpoint : c = '.' := by
      have hhead := List.head?_dropWhile_not (· != '.') callee.toList
      rw [hdrop] at hhead
      simpa using hhead
    have hjoin := List.takeWhile_append_dropWhile (p := (· != '.')) (l := callee.toList)
    rw [hdrop, hpoint] at hjoin
    rw [← String.toList_inj]
    simpa using hjoin

theorem endsOperand_iff {k : Token.Kind} :
    endsOperand k = true ↔ k ≠ .dot ∧ k ≠ .openParen ∧ k ≠ .openBracket := by
  simp [endsOperand, and_assoc]

theorem reads_nameExpr {expr : Parser Expr} {x : String} {pos : Position}
    (hr : endsOperand (firstKind r) = true) :
    Reads (nameExpr expr n) (.name x :: r) r fun a => a.unplaced = (Expr.name x pos).unplaced := by
  obtain ⟨hdot, hparen, hbracket⟩ := endsOperand_iff.mp hr
  refine reads_advance fun _ => reads_kind (reads_if_neg hdot (reads_kind ?_))
  split
  · contradiction
  · contradiction
  · exact .pure rfl

theorem reads_nameExpr_call {expr : Parser Expr} {callee : String} {args : List Expr}
    {pos : Position} (hargs : Reads (arguments expr n) (.openParen :: w) r
      fun as => Expr.allUnplaced as = Expr.allUnplaced args) :
    Reads (nameExpr expr n) (calleeWords callee ++ .openParen :: w) r
      fun a => a.unplaced = (Expr.call callee args pos).unplaced := by
  rcases calleeWords_cases callee with hone | ⟨x, y, htwo, hcallee⟩
  · rw [hone]
    refine reads_advance fun _ => reads_kind (reads_if_neg (by simp [Word.openParen]) ?_)
    refine reads_kind (hargs.bind fun as has => .pure ?_)
    rw [Expr.unplaced, Expr.unplaced, has]
    rfl
  · rw [htwo]
    refine reads_advance fun _ => reads_kind (reads_if_pos rfl (reads_advance fun _ => ?_))
    refine reads_expect rfl fun _ => reads_kind (reads_if_pos rfl ?_)
    refine hargs.bind fun as has => .pure ?_
    rw [Expr.unplaced, Expr.unplaced, has, ← hcallee]
    rfl

theorem reads_nameExpr_index {expr : Parser Expr} {x : String} {indices : List Expr}
    {pos : Position} (hw : firstKind w = .openBracket)
    (hindices : Reads (Parser.indices expr n) w r
      fun as => Expr.allUnplaced as = Expr.allUnplaced indices) :
    Reads (nameExpr expr n) (.name x :: w) r
      fun a => a.unplaced = (Expr.index x indices pos).unplaced := by
  refine reads_advance fun _ => reads_kind (reads_if_neg (by simp [hw]) (reads_kind ?_))
  rw [hw]
  refine hindices.bind fun as has => .pure ?_
  rw [Expr.unplaced, Expr.unplaced, has]
  rfl

/-- An operand that begins with a name. -/
theorem reads_unary_name {rules : ExprRules} (hw : firstKind w = .identifier)
    (h : Reads (nameExpr rules.expr n) w r P) : Reads (unary rules n) w r P := by
  refine reads_current_of_kind fun t ht => ?_
  rw [ht, hw]
  refine reads_current_of_kind fun t' ht' => ?_
  rw [ht', hw]
  exact h

/-- An array literal. -/
theorem reads_unary_array {rules : ExprRules} (hw : firstKind w = .openBracket)
    (h : ∀ pos, Reads (do
      let ty ← type rules
      return .array ty (← elements rules n) pos) w r P) : Reads (unary rules n) w r P := by
  refine reads_current_of_kind fun t ht => ?_
  rw [ht, hw]
  refine reads_current_of_kind fun t' ht' => ?_
  rw [ht', hw]
  exact h t'.pos

/-- The elements of a list, which holds no statement ends. -/
theorem reads_elementItems {item : Parser Expr} : ∀ {n : Nat} {es : List Expr}, es.length < n →
    Expr.itemsWritten es = true → (∀ e ∈ es, ReadsExpr item e.operandWords e) →
    Reads (elementItems item n) (Expr.listWords es ++ .closeBrace :: r) (.closeBrace :: r)
      fun as => Expr.allUnplaced as = Expr.allUnplaced es
  | n + 1, [], _, _, _ => reads_skipSemicolons (reads_kind (reads_if_pos rfl (.pure rfl)))
  | n + 1, e :: es, hn, hwritten, h => by
    have hitems : e.isItem = true ∧ Expr.itemsWritten es = true := by
      rw [Expr.itemsWritten_eq] at hwritten ⊢
      exact Bool.and_eq_true_iff.mp hwritten
    have hfirst : ∀ v k, k.startsExpr = false → k ≠ .openBrace →
        firstKind (e.operandWords ++ v) ≠ k := by
      intro v k hk hbrace
      rcases Expr.starts_item hitems.1 v with hv | hv
      · exact Token.Kind.ne_of_test hv hk
      · exact fun hk' => hbrace (hk'.symm.trans hv)
    match es, hn with
    | [], _ =>
      refine reads_skipSemicolons ?_
      rw [Expr.listWords, ← Expr.operandWords, skipped_of_ne (hfirst _ _ rfl (by decide))]
      refine reads_kind (reads_if_neg (hfirst _ _ rfl (by decide)) ?_)
      refine (h e (by simp) _ rfl).bind fun a ha => reads_skipSemicolons ?_
      rw [skipped_of_ne (by simp [Word.closeBrace])]
      refine reads_kind (reads_if_pos (by simp [Word.closeBrace]) (.pure ?_))
      rw [Expr.allUnplaced, Expr.allUnplaced, ha]
      rfl
    | e' :: es, hn =>
      have htail := reads_elementItems (Nat.lt_of_succ_lt_succ hn) hitems.2 fun x hx =>
        h x (List.mem_cons_of_mem _ hx)
      have hwords : Expr.listWords (e :: e' :: es) ++ .closeBrace :: r =
          e.operandWords ++ .comma :: (Expr.listWords (e' :: es) ++ .closeBrace :: r) := by
        simp [Expr.listWords, Expr.operandWords]
      rw [hwords]
      refine reads_skipSemicolons ?_
      rw [skipped_of_ne (hfirst _ _ rfl (by decide))]
      refine reads_kind (reads_if_neg (hfirst _ _ rfl (by decide)) ?_)
      refine (h e (by simp) _ rfl).bind fun a ha => reads_skipSemicolons ?_
      rw [skipped_of_ne (by simp [Word.comma])]
      refine reads_kind (reads_if_neg (by simp [Word.comma]) (reads_advance fun _ => ?_))
      refine htail.bind fun as has => .pure ?_
      rw [Expr.allUnplaced, Expr.allUnplaced, ha, has]

/-! ### The rules with a bound -/

/-- Whether an expression is two operands with a mark between them. -/
def isJoined : Expr → Bool
  | .binary .. | .logical .. => true
  | _ => false

/-- What the rules with bound `n` read back. -/
structure Faithful (n : Nat) : Prop where
  /-- An expression without a mark outside parentheses. -/
  plain : ∀ {e : Expr} {r : List Word}, e.isWritten = true → isJoined e = false →
    e.words.length < n → endsOperand (firstKind r) = true →
    Reads (exprRules n).unary (e.words ++ r) r fun a => a.unplaced = e.unplaced
  inParens : ∀ {e : Expr} {r : List Word}, e.isWritten = true → e.words.length + 2 < n →
    Reads (exprRules n).unary (.openParen :: (e.words ++ .closeParen :: r)) r
      fun a => a.unplaced = e.unplaced
  type : ∀ {t : TypeExpr} {r : List Word}, t.isWritten = true → t.words.length < n →
    Reads (exprRules n).type (t.words ++ r) r fun t' => t'.unplaced = t.unplaced
  elements : ∀ {es : List Expr} {r : List Word}, Expr.itemsWritten es = true →
    (Expr.listWords es).length + 2 < n →
    Reads (exprRules n).elements (.openBrace :: (Expr.listWords es ++ .closeBrace :: r)) r
      fun as => Expr.allUnplaced as = Expr.allUnplaced es

namespace Faithful

variable {e : Expr} {t : TypeExpr} {es : List Expr}

theorem operand (h : Faithful n) (he : e.isWritten = true) (hn : e.operandWords.length < n)
    (hr : endsOperand (firstKind r) = true) :
    Reads (exprRules n).unary (e.operandWords ++ r) r fun a => a.unplaced = e.unplaced := by
  unfold Expr.operandWords at hn ⊢
  cases hc : e.isCompound with
  | false =>
    rw [hc] at hn
    have hplain : isJoined e = false := by
      cases e with
      | binary | logical => cases hc
      | _ => rfl
    exact h.plain he hplain hn hr
  | true =>
    rw [hc] at hn
    have hlen : e.words.length + 2 < n := by simpa [grouped] using hn
    simpa [grouped] using h.inParens he hlen

/-- What an operand is read as, an expression is. -/
theorem expr_of_unary (hw : w ≠ []) (hn : w.length < n)
    (h : ∀ r, endsOperand (firstKind r) = true →
      Reads (exprRules n).unary (w ++ r) r fun a => a.unplaced = e.unplaced) :
    ReadsExpr (exprRules n).expr w e := by
  have hpos := List.length_pos_iff.mpr hw
  obtain ⟨m, rfl⟩ : ∃ m, n = m + 2 := ⟨n - 2, by omega⟩
  intro r hr
  obtain ⟨hoperand, hmark⟩ := endsExpr_iff.mp hr
  exact reads_level (h r hoperand) hmark

theorem exprOperand (h : Faithful n) (he : e.isWritten = true) (hn : e.operandWords.length < n) :
    ReadsExpr (exprRules n).expr e.operandWords e :=
  expr_of_unary e.operandWords_ne_nil hn fun _ hr => h.operand he hn hr

/-- Two operands and the mark between them, given what the mark builds. -/
theorem expr_join (h : Faithful n) {lhs rhs : Expr} {mark : Word} {c : Connective}
    (hmark : connective? mark.kind precedence = some c) (hoperand : endsOperand mark.kind = true)
    (hlhs : lhs.isWritten = true) (hrhs : rhs.isWritten = true)
    (hn : (lhs.operandWords ++ mark :: rhs.operandWords).length < n)
    (hr : endsExpr (firstKind r) = true) :
    Reads (exprRules n).expr (lhs.operandWords ++ mark :: rhs.operandWords ++ r) r
      fun e => ∃ a b, e = c.join a b ∧ a.unplaced = lhs.unplaced ∧ b.unplaced = rhs.unplaced := by
  rw [List.length_append, List.length_cons] at hn
  have hl := List.length_pos_iff.mpr lhs.operandWords_ne_nil
  obtain ⟨m, rfl⟩ : ∃ m, n = m + 3 := ⟨n - 3, by omega⟩
  obtain ⟨hend, hnone⟩ := endsExpr_iff.mp hr
  rw [List.append_assoc, List.cons_append]
  exact reads_level_join hmark (h.operand hlhs (by omega) hoperand) (h.operand hrhs (by omega) hend)
    hnone

theorem expr (h : Faithful n) (he : e.isWritten = true) (hn : e.words.length < n) :
    ReadsExpr (exprRules n).expr e.words e := by
  cases hj : isJoined e with
  | false =>
    exact expr_of_unary e.words_ne_nil hn fun _ hr => h.plain he hj hn hr
  | true =>
    intro r hr
    match e, hj with
    | .binary op lhs rhs _, _ =>
      obtain ⟨hlhs, hrhs⟩ := Bool.and_eq_true_iff.mp he
      refine (h.expr_join (connective?_binary op) (by cases op <;> rfl) hlhs hrhs hn hr).imp ?_
      rintro _ ⟨a, b, rfl, ha, hb⟩
      simp only [Connective.join, Expr.unplaced, ha, hb]
    | .logical op lhs rhs _, _ =>
      obtain ⟨hlhs, hrhs⟩ := Bool.and_eq_true_iff.mp he
      refine (h.expr_join (connective?_logical op) (by cases op <;> rfl) hlhs hrhs hn hr).imp ?_
      rintro _ ⟨a, b, rfl, ha, hb⟩
      simp only [Connective.join, Expr.unplaced, ha, hb]

/-! The rules of the next bound, one by one. -/

theorem type_succ (h : Faithful n) (ht : t.isWritten = true) (hn : t.words.length < n + 1) :
    Reads (Parser.type (exprRules n)) (t.words ++ r) r fun t' => t'.unplaced = t.unplaced := by
  match t, ht with
  | .int32, _ | .float32, _ | .bool, _ | .string, _ | .rune, _ =>
    exact reads_current fun _ => reads_advance fun _ => .pure rfl
  | .array size elem, ht =>
    obtain ⟨hsize, helem⟩ := Bool.and_eq_true_iff.mp ht
    have hlen : size.operandWords.length + elem.words.length + 2 < n + 1 := by
      simpa [TypeExpr.words, Expr.operandWords, Nat.add_assoc] using hn
    have hwords : (TypeExpr.array size elem).words ++ r =
        .openBracket :: (size.operandWords ++ .closeBracket :: (elem.words ++ r)) := by
      simp [TypeExpr.words, Expr.operandWords]
    rw [hwords]
    refine reads_current fun _ => reads_advance fun _ => ?_
    refine (h.exprOperand hsize (by omega) _ rfl).bind fun a ha => reads_expect rfl fun _ => ?_
    refine (h.type helem (by omega)).bind fun t' ht' => .pure ?_
    rw [TypeExpr.unplaced, TypeExpr.unplaced, ha, ht']
  | .pointer target, ht =>
    have hlen : target.words.length + 1 < n + 1 := by simpa [TypeExpr.words] using hn
    refine reads_current fun _ => reads_advance fun _ => ?_
    refine (h.type (t := target) ht (by omega)).bind fun t' ht' => .pure ?_
    rw [TypeExpr.unplaced, TypeExpr.unplaced, ht']

theorem element (h : Faithful n) (he : e.isItem = true) (hn : e.operandWords.length < n) :
    ReadsExpr (Parser.element (exprRules n)) e.operandWords e := by
  intro r hr
  by_cases hw : e.isWritten = true
  · refine reads_current_of_kind fun token htoken => reads_if_neg ?_ (h.exprOperand hw hn r hr)
    rw [htoken]
    exact Token.Kind.ne_of_test (Expr.startsExpr_operandWords hw r) rfl
  · cases e with
    | elements items pos =>
      have hlen : (Expr.listWords items).length + 2 < n := by
        simpa [Expr.operandWords, Expr.isCompound, grouped, Expr.words] using hn
      have hwords : (Expr.elements items pos).operandWords ++ r =
          .openBrace :: (Expr.listWords items ++ .closeBrace :: r) := by
        simp [Expr.operandWords, Expr.isCompound, grouped, Expr.words]
      rw [hwords]
      refine reads_current fun _ => reads_if_pos rfl ?_
      refine (h.elements he hlen).bind fun as has => .pure ?_
      rw [Expr.unplaced, Expr.unplaced, has]
    | _ => exact absurd he hw

theorem elements_succ (h : Faithful n) (hes : Expr.itemsWritten es = true)
    (hn : (Expr.listWords es).length + 2 < n + 1) :
    Reads (Parser.elements (exprRules n) n)
      (.openBrace :: (Expr.listWords es ++ .closeBrace :: r)) r
      fun as => Expr.allUnplaced as = Expr.allUnplaced es := by
  have hlen := Expr.length_le_listWords es
  have hitems := hes
  rw [Expr.itemsWritten_eq, List.all_eq_true] at hitems
  refine reads_expect rfl fun _ => ?_
  refine (reads_elementItems (by omega) hes fun e he => ?_).bind fun as has => ?_
  · have hmem := Expr.length_mem_listWords he
    exact h.element (hitems e he) (by omega)
  · refine reads_skipSemicolons ?_
    rw [skipped_of_ne (by simp [Word.closeBrace])]
    exact reads_expect rfl fun _ => .pure has

theorem arguments (h : Faithful n) (hes : Expr.allWritten es = true)
    (hn : (Expr.listWords es).length < n) :
    Reads (Parser.arguments (exprRules n).expr n)
      (.openParen :: (Expr.listWords es ++ .closeParen :: r)) r
      fun as => Expr.allUnplaced as = Expr.allUnplaced es := by
  have hlen := Expr.length_le_listWords es
  refine reads_arguments hes (by omega) fun e he => ?_
  rw [Expr.allWritten_eq, List.all_eq_true] at hes
  have hmem := Expr.length_mem_listWords he
  exact h.exprOperand (hes e he) (by omega)

theorem indices (h : Faithful n) (hes : Expr.allWritten es = true)
    (hn : (Expr.indexWords es).length < n) (hr : firstKind r ≠ .openBracket) :
    Reads (Parser.indices (exprRules n).expr n) (Expr.indexWords es ++ r) r
      fun as => Expr.allUnplaced as = Expr.allUnplaced es := by
  have hlen := Expr.length_le_indexWords es
  rw [Expr.allWritten_eq, List.all_eq_true] at hes
  refine reads_indices hr (by omega) fun e he => ?_
  have hmem := Expr.length_mem_indexWords he
  exact h.exprOperand (hes e he) (by omega)

theorem inParens_succ (h : Faithful n) (he : e.isWritten = true)
    (hn : e.words.length + 2 < n + 1) :
    Reads (Parser.unary (exprRules n) n) (.openParen :: (e.words ++ .closeParen :: r)) r
      fun a => a.unplaced = e.unplaced := by
  refine reads_current fun _ => reads_current fun _ => reads_advance fun _ => ?_
  refine (h.expr he (by omega) _ rfl).bind fun a ha => ?_
  exact reads_expect rfl fun _ => .pure ha

theorem plain_succ (h : Faithful n) (he : e.isWritten = true) (hj : isJoined e = false)
    (hn : e.words.length < n + 1) (hr : endsOperand (firstKind r) = true) :
    Reads (Parser.unary (exprRules n) n) (e.words ++ r) r fun a => a.unplaced = e.unplaced := by
  match e, he with
  | .int .., _ | .float .., _ | .str .., _ | .rune .., _ | .nil _, _ =>
    exact reads_current fun _ => reads_current fun _ => reads_advance fun _ => .pure rfl
  | .bool true _, _ | .bool false _, _ =>
    exact reads_current fun _ => reads_current fun _ => reads_advance fun _ => .pure rfl
  | .name x _, _ => exact reads_unary_name rfl (reads_nameExpr hr)
  | .unary .neg operand _, he | .unary .not operand _, he | .deref operand _, he =>
    have hlen : operand.operandWords.length + 1 < n + 1 := by
      simpa [Expr.words, Expr.operandWords] using hn
    refine reads_current fun _ => reads_advance fun _ => ?_
    refine (h.operand (e := operand) he (by omega) hr).bind fun a ha => .pure ?_
    rw [Expr.unplaced, Expr.unplaced, ha]
  | .addressOf x _, _ =>
    refine reads_current fun _ => reads_advance fun _ => reads_kind (reads_if_neg ?_ ?_)
    · simp [Word.name]
    · exact reads_advance fun _ => .pure rfl
  | .call callee args pos, he =>
    obtain ⟨-, hargs⟩ := Bool.and_eq_true_iff.mp he
    have hwords : (Expr.call callee args pos).words ++ r = calleeWords callee ++
        .openParen :: (Expr.listWords args ++ .closeParen :: r) := by
      simp [Expr.words]
    have hlen : (Expr.listWords args).length < n := by
      simp only [Expr.words, List.length_append, List.length_cons] at hn
      omega
    rw [hwords]
    refine reads_unary_name (firstKind_calleeWords callee _) ?_
    exact reads_nameExpr_call (h.arguments hargs hlen)
  | .index x indices _, he =>
    obtain ⟨hleft, hindices⟩ := Bool.and_eq_true_iff.mp he
    have hne : indices ≠ [] := by simpa using (Bool.and_eq_true_iff.mp hleft).2
    have hfirst : firstKind (Expr.indexWords indices ++ r) = .openBracket := by
      cases indices with
      | nil => exact absurd rfl hne
      | cons e es => rfl
    have hlen : (Expr.indexWords indices).length < n := by
      simp only [Expr.words, List.length_cons] at hn
      omega
    have hbracket := (endsOperand_iff.mp hr).2.2
    exact reads_unary_name rfl (reads_nameExpr_index hfirst (h.indices hindices hlen hbracket))
  | .array (.array size elem) items pos, he =>
    obtain ⟨htype, hitems⟩ := Bool.and_eq_true_iff.mp he
    have hwords : (Expr.array (.array size elem) items pos).words ++ r =
        (TypeExpr.array size elem).words ++
          .openBrace :: (Expr.listWords items ++ .closeBrace :: r) := by
      simp [Expr.words]
    simp only [Expr.words, List.length_append, List.length_cons, List.length_nil] at hn
    rw [hwords]
    refine reads_unary_array rfl fun _ => ?_
    refine (h.type_succ (t := .array size elem) htype (by omega)).bind fun t' ht' => ?_
    refine (h.elements_succ hitems (by omega)).bind fun as has => .pure ?_
    rw [Expr.unplaced, Expr.unplaced, ht', has]
  | .binary .., _ | .logical .., _ => cases hj

theorem succ (h : Faithful n) : Faithful (n + 1) where
  plain := h.plain_succ
  inParens := h.inParens_succ
  type := h.type_succ
  elements := h.elements_succ

end Faithful

/-- **Expressions and types are read back** by the rules with a bound above their length. -/
theorem faithful : ∀ n : Nat, Faithful n
  | 0 =>
    { plain := fun _ _ h => absurd h (Nat.not_lt_zero _)
      inParens := fun _ h => absurd h (Nat.not_lt_zero _)
      type := fun _ h => absurd h (Nat.not_lt_zero _)
      elements := fun _ h => absurd h (Nat.not_lt_zero _) }
  | n + 1 => (faithful n).succ

end Parser
end Treewalk
