/-
# Printed integers are read back

The text of an integer is a row of digits, with a minus before it if the
integer is negative. As an expression that is a literal, or the opposite of
one: the minus is an operator, and the digits behind it have to be in range
by themselves. So every integer is read back from its text but the least,
whose digits are one beyond the greatest.

Key definitions: `writtenInt`, `ScansAs`, `declaring`.
Key theorems: `readInt32?_repr`, `scansAs_writtenInt`, `means_writtenInt`,
`execute_declaring`, `printed_integers_read_back`.
-/
import Treewalk.Proofs.Glyphs
import Treewalk.Proofs.Outcome
import Treewalk.Proofs.RoundTrip
import Treewalk.Proofs.Slots
import Treewalk.Session

namespace Treewalk

/-! ### Digits -/

theorem isDigit_toDigits (k : Nat) : ∀ c ∈ Nat.toDigits 10 k, c.isDigit = true :=
  fun _ hc => Nat.isDigit_of_mem_toDigits (by decide) (by decide) hc

/-- The digits of a number stand for it, -/
theorem nat?_toDigits (k : Nat) : Reading.nat? (Nat.toDigits 10 k) = some k := by
  have hdigits := List.all_eq_true.mpr (isDigit_toDigits k)
  have hvalue : Reading.value (Nat.toDigits 10 k) = k :=
    Nat.ofDigitChars_toDigits (by decide) (by decide)
  rw [Reading.nat?, if_pos ⟨Nat.toDigits_ne_nil, hdigits⟩, hvalue]

/-- and have no sign. -/
theorem sign_toDigits (k : Nat) :
    Reading.sign (Nat.toDigits 10 k) = (false, Nat.toDigits 10 k) := by
  have hdigits := isDigit_toDigits k
  generalize Nat.toDigits 10 k = digits at hdigits
  unfold Reading.sign
  split
  · cases hdigits '-' (.head _)
  · cases hdigits '+' (.head _)
  · rfl

/-- **The digits of a number are an integer literal if the number is in range.** -/
theorem readInt32?_repr (k : Nat) : readInt32? k.repr =
    if k ≤ Int32.maxValue.toInt then some (Int32.ofInt k) else none := by
  have hint : Reading.int? k.repr.toList = some (k : Int) := by
    rw [Nat.toList_repr, Reading.int?, sign_toDigits]
    simp only [nat?_toDigits]
    rfl
  have hmin : Int32.minValue.toInt ≤ (k : Int) := by
    rw [Int32.toInt_minValue]
    omega
  unfold readInt32?
  rw [hint]
  simp only [hmin, true_and]

theorem sound_repr (k : Nat) : Word.sound ⟨.int, k.repr⟩ = true := by
  have hdigits := List.all_eq_true.mpr (isDigit_toDigits k)
  simp [Word.sound, isDigits, Nat.toList_repr, Nat.toDigits_ne_nil, hdigits]

/-! ### Words in a text -/

/-- Before anything that does not go on with a number, the text is scanned as the words, with
nothing wrong in it, and what follows is scanned as it is by itself. -/
def ScansAs (text : List Char) (ws : List Word) : Prop :=
  ∀ after, (∀ d, after.head? = some d → (d.isDigit || d == '.') = false) → ∀ due pos,
    (tokensFrom due pos (lexemes (text ++ after))).map Token.word =
      ws ++ (tokensFrom true (pos.after text) (lexemes after)).map Token.word ∧
    faultsFrom pos (lexemes (text ++ after)) = faultsFrom (pos.after text) (lexemes after)

/-- A whole piece is cut off as itself. -/
theorem lexemes_append {l : Lexeme} {rest : List Char} (hwhole : l.isWhole = true)
    (hstops : l.Stops rest) : lexemes (l.text ++ rest) = l :: lexemes rest := by
  obtain ⟨c, cs, htext, hnext⟩ := Lexeme.next_of_isWhole hwhole hstops
  rw [htext, List.cons_append, lexemes_cons, hnext]

section Words

variable {w : Word} {rest : List Char} (hw : w.sound = true) (hstops : w.lexeme.Stops rest)
  (pos : Position)

include hw hstops

theorem tokensFrom_append (due : Bool) :
    (tokensFrom due pos (lexemes (w.lexeme.text ++ rest))).map Token.word =
      w :: (tokensFrom w.kind.endsStatement (pos.after w.lexeme.text) (lexemes rest)).map
        Token.word := by
  rw [lexemes_append (Word.isWhole_lexeme hw) hstops, tokensFrom_word hw]
  rfl

theorem faults_append :
    faultsFrom pos (lexemes (w.lexeme.text ++ rest)) =
      faultsFrom (pos.after w.lexeme.text) (lexemes rest) := by
  have hnone := Lexeme.faults_of_isWhole (Word.isWhole_lexeme hw) pos
  rw [lexemes_append (Word.isWhole_lexeme hw) hstops, faultsFrom_cons, hnone, List.nil_append]

end Words

/-! ### The text of an integer -/

/-- The expression that the text of an integer is. -/
def writtenInt (n : Int32) : Expr :=
  let digits := Expr.int n.toInt.natAbs.repr .origin
  if n.toInt < 0 then .unary .neg digits .origin else digits

theorem isWritten_writtenInt (n : Int32) : (writtenInt n).isWritten = true := by
  have hsound := sound_repr n.toInt.natAbs
  unfold writtenInt
  split
  · exact hsound
  · exact hsound

theorem text_int (heap : Heap) (n : Int32) : heap.text (.int n) = n.toInt.repr := by
  unfold Heap.text
  cases heap.size <;> rfl

/-- Digits are scanned as a literal. -/
theorem scansAs_repr (k : Nat) : ScansAs k.repr.toList [⟨.int, k.repr⟩] := by
  intro after hafter due pos
  exact ⟨tokensFrom_append (sound_repr k) hafter pos due, faults_append (sound_repr k) hafter pos⟩

theorem lexeme_minus : Word.lexeme ⟨.minus, "-"⟩ = .mark .minus ['-'] := by decide

/-- No digit goes on with a minus. -/
theorem stops_minus {rest : List Char} (h : ∀ d, rest.head? = some d → d.isDigit = true) :
    (Word.lexeme ⟨.minus, "-"⟩).Stops rest := by
  intro d hd
  have hdigit := h d hd
  have hmarks : ∀ p ∈ Token.doubleMarks, p.1.2.isDigit = false := by decide
  have hnone : Token.doubleMarks.lookup ('-', d) = none := by
    rw [List.lookup_eq_none_iff]
    intro p hp
    rw [bne_iff_ne]
    intro he
    have hsecond := hmarks p hp
    rw [← he, hdigit] at hsecond
    cases hsecond
  simp [lexeme_minus, Lexeme.extendedBy, hnone]

/-- So a minus before digits is a word of its own. -/
theorem scansAs_minus (k : Nat) :
    ScansAs ('-' :: k.repr.toList) [⟨.minus, "-"⟩, ⟨.int, k.repr⟩] := by
  intro after hafter due pos
  have hstops : (Word.lexeme ⟨.minus, "-"⟩).Stops (k.repr.toList ++ after) := by
    refine stops_minus fun d hd => isDigit_toDigits k d ?_
    obtain ⟨c, cs, hdigits⟩ := List.exists_cons_of_ne_nil (Nat.toDigits_ne_nil (n := k) (b := 10))
    rw [Nat.toList_repr, hdigits] at hd
    cases hd
    exact hdigits ▸ .head _
  have hsound : Word.sound ⟨.minus, "-"⟩ = true := UnaryOp.sound_word .neg
  have hsign := tokensFrom_append hsound hstops pos due
  have hnone := faults_append hsound hstops pos
  rw [lexeme_minus] at hsign hnone
  have hdigits := scansAs_repr k after hafter false (pos.next '-')
  exact ⟨hsign.trans (congrArg _ hdigits.1), hnone.trans hdigits.2⟩

/-- **The text of an integer is scanned as the words of its expression.** -/
theorem scansAs_writtenInt (n : Int32) : ScansAs n.toInt.repr.toList (writtenInt n).words := by
  unfold writtenInt
  by_cases hneg : n.toInt < 0
  · have htext : n.toInt.repr.toList = '-' :: n.toInt.natAbs.repr.toList := by
      rw [Int.repr_eq_if, if_neg (by omega), show (-n.toInt).toNat = n.toInt.natAbs by omega,
        String.toList_append]
      rfl
    rw [htext, if_pos hneg]
    exact scansAs_minus _
  · have htext : n.toInt.repr = n.toInt.natAbs.repr := by
      rw [Int.repr_eq_if, if_pos (by omega), show n.toInt.toNat = n.toInt.natAbs by omega]
    rw [htext, if_neg hneg]
    exact scansAs_repr _

/-! ### Its value -/

section Value

variable (ctx : Context) (frame : FrameId) (m : Machine)

theorem run_eval_int {k : Nat} (h : (k : Int) ≤ Int32.maxValue.toInt) (pos : Position) :
    ((Expr.int k.repr pos).eval ctx frame).run m = .ok (.int (.ofInt k)) m := by
  rw [Expr.eval, Expr.raw, readInt32?_repr, if_pos h]
  rfl

/-- A literal beyond the range is nil, and reported. -/
theorem run_eval_int_beyond {k : Nat} (h : ¬ (k : Int) ≤ Int32.maxValue.toInt) (pos : Position) :
    ((Expr.int k.repr pos).eval ctx frame).run m = .ok .nil (m.report (.intRange k.repr) pos) := by
  rw [Expr.eval, Expr.raw, readInt32?_repr, if_neg h]
  rfl

theorem run_eval_neg {operand : Expr} {v : Value} {m' : Machine} (hv : v.isMulti = false)
    (h : (operand.eval ctx frame).run m = .ok v m') (pos : Position) :
    ((Expr.unary .neg operand pos).eval ctx frame).run m = .ok v.negate m' := by
  have hone : (Eval.one operand.pos (operand.raw ctx frame)).run m = .ok v m' :=
    Eval.run_one_of_settled h hv operand.pos
  refine Eval.run_settled_of_ok ?_
  rw [Expr.raw]
  exact Eval.run_bind_of_ok hone

end Value

/-! Expressions that are read from the words of others are those but for their positions. -/

theorem eq_int_of_unplaced {a : Expr} {text : String} {pos : Position}
    (ha : a.unplaced = (Expr.int text pos).unplaced) : ∃ pos', a = .int text pos' := by
  cases a <;> cases ha
  exact ⟨_, rfl⟩

theorem eq_neg_of_unplaced {a : Expr} {text : String} {pos pos' : Position}
    (ha : a.unplaced = (Expr.unary .neg (.int text pos) pos').unplaced) :
    ∃ pos pos', a = .unary .neg (.int text pos) pos' := by
  cases a
  case unary op operand pos' =>
    obtain ⟨rfl, hoperand, -⟩ := Expr.unary.inj ha
    obtain ⟨pos, rfl⟩ := eq_int_of_unplaced hoperand
    exact ⟨pos, pos', rfl⟩
  all_goals cases ha

/-- **Every integer but the least has the value it is written for.** -/
theorem means_writtenInt {n : Int32} (h : n ≠ Int32.minValue) {a : Expr}
    (ha : a.unplaced = (writtenInt n).unplaced) : a.Means (.int n) := by
  intro ctx frame m
  have hle : -2 ^ 31 ≤ n.toInt := n.le_toInt
  have hlt : n.toInt < 2 ^ 31 := n.toInt_lt
  have hmax : Int32.maxValue.toInt = 2 ^ 31 - 1 := Int32.toInt_maxValue
  unfold writtenInt at ha
  by_cases hneg : n.toInt < 0
  · rw [if_pos hneg] at ha
    obtain ⟨pos, pos', rfl⟩ := eq_neg_of_unplaced ha
    have hleast : n.toInt ≠ -2 ^ 31 := by
      intro he
      exact h (Int32.toInt_inj.mp (he.trans Int32.toInt_minValue.symm))
    have hdigits := run_eval_int ctx frame m (k := n.toInt.natAbs) (by omega) pos
    rw [run_eval_neg ctx frame m rfl hdigits pos', Value.negate, ← Int32.ofInt_neg,
      show -(n.toInt.natAbs : Int) = n.toInt by omega, Int32.ofInt_toInt]
  · rw [if_neg hneg] at ha
    obtain ⟨pos, rfl⟩ := eq_int_of_unplaced ha
    rw [run_eval_int ctx frame m (by omega), show (n.toInt.natAbs : Int) = n.toInt by omega,
      Int32.ofInt_toInt]

/-- What the text of the least integer is evaluated to. -/
def BeyondRange (e : Expr) : Prop :=
  ∃ pos, ∀ ctx frame m,
    (e.eval ctx frame).run m = .ok .nil (m.report (.intRange "2147483648") pos)

/-- **The digits of the least are reported, and its value is nil.** -/
theorem beyondRange_writtenInt {a : Expr}
    (ha : a.unplaced = (writtenInt Int32.minValue).unplaced) : BeyondRange a := by
  have hleast : writtenInt Int32.minValue =
      .unary .neg (.int (2147483648 : Nat).repr .origin) .origin := by
    rfl
  rw [hleast] at ha
  obtain ⟨pos, pos', rfl⟩ := eq_neg_of_unplaced ha
  refine ⟨pos, fun ctx frame m => ?_⟩
  have hdigits := run_eval_int_beyond ctx frame m (k := 2147483648) (by decide) pos
  exact run_eval_neg ctx frame m rfl hdigits pos'

/-! ### As the value of a variable -/

/-- The program that declares a variable with the expression as its value. -/
def declaring (e : Expr) : Program := ⟨[.varDecl [⟨"x", .origin⟩] none [e] .origin]⟩

/-- A word and the blank behind it. -/
theorem scan_word_blank {w : Word} (hw : w.sound = true) (rest : List Char) (due : Bool)
    (pos : Position) :
    (tokensFrom due pos (lexemes (w.lexeme.text ++ ' ' :: rest))).map Token.word =
      w :: (tokensFrom w.kind.endsStatement ((pos.after w.lexeme.text).next ' ')
        (lexemes rest)).map Token.word ∧
    faultsFrom pos (lexemes (w.lexeme.text ++ ' ' :: rest)) =
      faultsFrom ((pos.after w.lexeme.text).next ' ') (lexemes rest) := by
  have hstops : w.lexeme.Stops (' ' :: rest) := Lexeme.stops_blank (.inl rfl)
  have hblank : lexemes (' ' :: rest) = .blank ' ' :: lexemes rest := lexemes_cons ' ' rest
  rw [tokensFrom_append hw hstops, faults_append hw hstops, hblank]
  exact ⟨rfl, rfl⟩

theorem scan_declaring {text : List Char} {ws : List Word} (h : ScansAs text ws) :
    (Scan.ofText (String.ofList ("var x = ".toList ++ (text ++ ['\n'])))).tokens.map Token.word =
      [.kwVar, .name "x", .equal] ++ (ws ++ [.lineEnd, .endOfFile]) ∧
    (Scan.ofText (String.ofList ("var x = ".toList ++ (text ++ ['\n'])))).faults = [] := by
  have hsource : "var x = ".toList ++ (text ++ ['\n']) = Word.kwVar.lexeme.text ++ ' ' ::
      ((Word.name "x").lexeme.text ++ ' ' ::
        (Word.equal.lexeme.text ++ ' ' :: (text ++ ['\n']))) := by
    rfl
  have hvar := scan_word_blank (w := .kwVar) (by decide)
  have hname := scan_word_blank (w := .name "x") (by decide)
  have hequal := scan_word_blank (w := .equal) (by decide)
  have htext := h ['\n'] (by simp)
  have hscan : ∀ ls, Scan.ofLexemes ls = ⟨tokensFrom false .start ls, faultsFrom .start ls⟩ :=
    fun _ => rfl
  rw [Scan.ofText, String.toList_ofList, hsource, hscan]
  constructor
  · rw [(hvar _ _ _).1, (hname _ _ _).1, (hequal _ _ _).1, (htext _ _).1]
    rfl
  · rw [(hvar _ false _).2, (hname _ false _).2, (hequal _ false _).2, (htext false _).2]
    rfl

theorem wordsOf_declaring (e : Expr) :
    wordsOf (declaring e).lines = [.kwVar, .name "x", .equal] ++ (e.words ++ [.lineEnd]) := by
  have hends : Line.ends ([.kwVar, .name "x", .equal] ++ e.words) = true :=
    Line.ends_append e.ends_words
  have hline : (declaring e).lines = [[.kwVar, .name "x", .equal] ++ e.words] := rfl
  rw [hline, wordsOf_cons, Line.words_of_ends hends, wordsOf_nil, List.append_nil,
    List.append_assoc]

/-- A declaration that is read from these words. -/
theorem eq_declaring_of_unplaced {q : Program} {e : Expr}
    (hq : q.unplaced = (declaring e).unplaced) : ∃ a pos pos', a.unplaced = e.unplaced ∧
      q = ⟨[.varDecl [⟨"x", pos⟩] none [a] pos']⟩ := by
  obtain ⟨ds⟩ := q
  have hds := congrArg Program.declarations hq
  simp only [Program.unplaced, Stmt.allUnplaced_eq] at hds
  obtain ⟨s, rfl, hs⟩ : ∃ s, ds = [s] ∧
      s.unplaced = .varDecl [⟨"x", .origin⟩] none [e.unplaced] .origin := by
    simpa [declaring, Stmt.unplaced, Binder.unplaced, Expr.allUnplaced] using hds
  cases s
  case varDecl names type es pos' =>
    obtain ⟨hnames, htype, hes, -⟩ := Stmt.varDecl.inj hs
    obtain ⟨x, rfl, hx⟩ := List.map_eq_singleton_iff.mp hnames
    obtain rfl := Option.map_eq_none_iff.mp htype
    rw [Expr.allUnplaced_eq] at hes
    obtain ⟨a, rfl, ha⟩ := List.map_eq_singleton_iff.mp hes
    obtain ⟨name, pos⟩ := x
    obtain rfl : name = "x" := congrArg Binder.name hx
    exact ⟨a, pos, pos', ha, rfl⟩
  all_goals cases hs

theorem ofText_declaring {text : List Char} {e : Expr} (he : e.isWritten = true)
    (h : ScansAs text e.words) : ∃ a pos pos', a.unplaced = e.unplaced ∧
      Parsed.ofText (String.ofList ("var x = ".toList ++ (text ++ ['\n']))) =
        ⟨⟨[.varDecl [⟨"x", pos⟩] none [a] pos']⟩, []⟩ := by
  obtain ⟨hwords, hfaults⟩ := scan_declaring h
  have hwritten : (declaring e).isWritten = true := by
    simp [declaring, Program.isWritten, Stmt.isDeclaration, Stmt.isWritten, Expr.allWritten, he]
    decide
  have hlines : wordsOf (declaring e).lines ++ [.endOfFile] =
      [.kwVar, .name "x", .equal] ++ (e.words ++ [.lineEnd, .endOfFile]) := by
    rw [wordsOf_declaring]
    simp
  obtain ⟨q, hread, hq⟩ := Program.ofTokens_of_words hwritten (hwords.trans hlines.symm)
  obtain ⟨a, pos, pos', ha, rfl⟩ := eq_declaring_of_unplaced hq
  refine ⟨a, pos, pos', ha, ?_⟩
  simp only [Parsed.ofText, hread, hfaults, List.map_nil, List.append_nil, List.mergeSort_nil]

/-- Evaluating the expression gives `v`, reports `log` and leaves the variables alone. -/
def Expr.Reports (e : Expr) (v : Value) (log : List Diagnostic) : Prop :=
  ∀ ctx frame m, ∃ m', (e.eval ctx frame).run m = .ok v m' ∧ m'.frames = m.frames ∧
    m'.errors.toList = m.errors.toList ++ log

section Declaration

variable {m : Machine} {frame : FrameId} {p : Option FrameId}

/-- A declaration binds its name and reports nothing. -/
theorem run_declare (hlive : m.frames.parent? frame = some p) (x : String) (v : Value)
    (pos : Position) (role : Role) :
    ∃ m', (Eval.declare frame x none v pos role).run m = .ok () m' ∧
      m'.frames.value? frame x = some v ∧ m'.errors = m.errors := by
  rw [Eval.declare_eq]
  refine ⟨_, rfl, ?_, rfl⟩
  have hlocal : ∀ slot entry,
      ((m.frames.bind frame x slot).bindSymbol frame x entry).local? frame x = some slot := by
    intro slot entry
    rw [Frames.local?_bindSymbol, Frames.local?_bind, if_pos ⟨rfl, rfl⟩, hlive]
    rfl
  have howner := fun slot entry =>
    Frames.resolve_of_hasLocal (Frames.hasLocal_of_local? (hlocal slot entry))
  rw [Frames.value?_eq, (Frames.slot?_of_resolve (howner _ _)).1]
  exact congrArg (Option.map Slot.value) (hlocal _ _)

theorem exec_varDecl {e : Expr} {v : Value} {log : List Diagnostic} (he : e.Reports v log)
    (hv : v.isMulti = false) {ctx : Context} (x : Binder) (pos : Position)
    (hsteps : ∀ max, ctx.config.limits.maxSteps = some max → m.steps < max)
    (hlive : m.frames.parent? frame = some p) (hnew : m.frames.hasLocal frame x.name = false) :
    ∃ m', (Stmt.exec ctx (.varDecl [x] none [e] pos) frame).run m = .ok () m' ∧
      m'.frames.value? frame x.name = some v ∧ m'.errors.toList = m.errors.toList ++ log := by
  obtain ⟨m₁, hrun, hframes, herrors⟩ := he ctx frame { m with steps := m.steps + 1 }
  have hvalues : (Eval.values ctx [e] 1 frame pos).run { m with steps := m.steps + 1 } =
      .ok [v] m₁ := by
    refine (Eval.run_bind_of_ok hrun).trans ?_
    cases v <;> first | rfl | cases hv
  obtain ⟨m₂, hdeclare, hvalue, hkept⟩ := run_declare (m := m₁) (hframes ▸ hlive) x.name v x.pos
    .variable
  have hvars : (Eval.declareVars frame none [x] [v]).run m₁ = .ok () m₂ := by
    have hfree : m₁.frames.hasLocal frame x.name = false := hframes ▸ hnew
    refine (Eval.run_bind_of_ok (a := m₁) rfl).trans ?_
    rw [hfree]
    refine (Eval.run_bind_of_ok (a := v) rfl).trans ?_
    exact Eval.run_bind_of_ok hdeclare
  have hraw : (Stmt.raw ctx (.varDecl [x] none [e] pos) frame).run
      { m with steps := m.steps + 1 } = .ok () m₂ := by
    rw [Stmt.raw]
    refine (Eval.run_bind_of_ok (a := none) rfl).trans ?_
    exact (Eval.run_bind_of_ok hvalues).trans hvars
  refine ⟨m₂, (Eval.run_bind_of_ok (Eval.run_tick pos m hsteps)).trans ?_, hvalue, ?_⟩
  · simp only [Eval.orElseReport, Eval.handle, hraw]
  · rw [hkept, herrors]

end Declaration

/-- **A program that declares a variable with the text as its value.** -/
theorem execute_declaring {config : Config} (hsteps : config.limits.maxSteps ≠ some 0) {e : Expr}
    {v : Value} {log : List Diagnostic} (he : e.Reports v log) (hv : v.isMulti = false)
    (pos pos' : Position) :
    let m := Machine.initial.executeParsed config ⟨⟨[.varDecl [⟨"x", pos⟩] none [e] pos']⟩, []⟩
    m.frames.value? Frames.globalId "x" = some v ∧ m.errors.toList = log := by
  have hleft : ∀ max, config.limits.maxSteps = some max → 0 < max := by
    intro max hmax
    refine Nat.pos_of_ne_zero ?_
    rintro rfl
    exact hsteps hmax
  obtain ⟨m, hrun, hvalue, herrors⟩ : ∃ m, (Stmt.exec config.context
      (.varDecl [⟨"x", pos⟩] none [e] pos') Frames.globalId).run Machine.initial = .ok () m ∧
        m.frames.value? Frames.globalId "x" = some v ∧ m.errors.toList = log :=
    exec_varDecl he hv ⟨"x", pos⟩ pos' hleft rfl rfl
  have hprogram : (Eval.program config.context ⟨[.varDecl [⟨"x", pos⟩] none [e] pos']⟩).run
      Machine.initial = .ok () m := by
    refine (Eval.run_bind_of_ok (a := ()) rfl).trans ?_
    exact Eval.run_bind_of_ok (Eval.run_bind_of_ok hrun)
  have hend : Machine.initial.executeParsed config
      ⟨⟨[.varDecl [⟨"x", pos⟩] none [e] pos']⟩, []⟩ = m := by
    change Machine.initial.execute config _ = m
    rw [Machine.execute, hprogram]
  rw [hend]
  exact ⟨hvalue, herrors⟩

/-- **Printed integers are read back,** all but the least. Whatever follows it, as long as it does
not go on with a number, the text of an integer is scanned as the words of one expression, without
an error. Wherever an expression is due these words are read as one, which in every context has
the integer as its value, with nothing reported; so has a variable that is declared with the text.
The text of the least integer is scanned and read likewise, but its digits are beyond the range:
they are reported, once, and the value is nil. -/
theorem printed_integers_read_back (n : Int32) (heap : Heap) :
    ScansAs (heap.text (.int n)).toList (writtenInt n).words ∧
    (n ≠ Int32.minValue →
      ReadAs (writtenInt n).words (·.Means (.int n)) ∧
      ∀ config : Config, config.limits.maxSteps ≠ some 0 →
        let m := Machine.initial.executeParsed config
          (.ofText ("var x = " ++ heap.text (.int n) ++ "\n"))
        m.frames.value? Frames.globalId "x" = some (.int n) ∧ m.errors.toList = []) ∧
    (n = Int32.minValue →
      ReadAs (writtenInt n).words BeyondRange ∧
      ∀ config : Config, config.limits.maxSteps ≠ some 0 →
        let m := Machine.initial.executeParsed config
          (.ofText ("var x = " ++ heap.text (.int n) ++ "\n"))
        m.frames.value? Frames.globalId "x" = some .nil ∧ ∃ pos, m.errors.toList =
          [⟨.semantic, "integer literal out of int32 range: 2147483648", pos⟩]) := by
  have hscan := scansAs_writtenInt n
  have hwritten := isWritten_writtenInt n
  have hsource : "var x = " ++ n.toInt.repr ++ "\n" =
      String.ofList ("var x = ".toList ++ (n.toInt.repr.toList ++ ['\n'])) :=
    String.toList_inj.mp (by simp)
  rw [text_int, hsource]
  refine ⟨hscan, fun hn => ⟨readAs_words hwritten fun a => means_writtenInt hn, ?_⟩, ?_⟩
  · intro config hsteps
    obtain ⟨a, pos, pos', ha, hparsed⟩ := ofText_declaring hwritten hscan
    have hreports : a.Reports (.int n) [] :=
      fun ctx frame m => ⟨m, means_writtenInt hn ha ctx frame m, rfl, (List.append_nil _).symm⟩
    rw [hparsed]
    exact execute_declaring hsteps hreports rfl pos pos'
  · rintro rfl
    refine ⟨readAs_words hwritten fun a => beyondRange_writtenInt, ?_⟩
    intro config hsteps
    obtain ⟨a, pos, pos', ha, hparsed⟩ := ofText_declaring hwritten hscan
    obtain ⟨place, hrun⟩ := beyondRange_writtenInt ha
    have hreports : a.Reports .nil
        [⟨.semantic, "integer literal out of int32 range: 2147483648", place⟩] :=
      fun ctx frame m => ⟨_, hrun ctx frame m, rfl, ErrorLog.toList_push _ _⟩
    rw [hparsed]
    obtain ⟨hvalue, herrors⟩ := execute_declaring hsteps hreports rfl pos pos'
    exact ⟨hvalue, place, herrors⟩

/-- The greatest integer, and the least that is read back. -/
theorem ends_of_range_read_back :
    ReadAs [⟨.int, "2147483647"⟩] (·.Means (.int 2147483647)) ∧
      ReadAs [⟨.minus, "-"⟩, ⟨.int, "2147483647"⟩] (·.Means (.int (-2147483647))) :=
  ⟨((printed_integers_read_back 2147483647 .empty).2.1 (by decide)).1,
    ((printed_integers_read_back (-2147483647) .empty).2.1 (by decide)).1⟩

/-- The text of the least integer as the value of a variable: an error is reported, and the variable
is nil. -/
theorem least_integer_not_read_back :
    let m := Machine.initial.executeParsed ⟨{}, ""⟩
      (.ofText ("var x = " ++ Heap.empty.text (.int Int32.minValue) ++ "\n"))
    m.errors.isEmpty = false ∧ (m.frames.value? Frames.globalId "x").any Value.isNil = true := by
  decide +kernel

end Treewalk
