/-
# Statements are read back

A statement with a body leaves the end of its last line to the list it stands
in, which skips it; all others read their own. So what a statement leaves is
`Stmt.left`. An `if` looks behind its line end for an `else`: what follows
must not be one, and no statement begins so.

As with expressions the induction is on the bound, which the number of words
does not exceed.

Key definitions: `Stmt.left`, `Parser.ReadsStmt`, `Parser.ReadsStmts`.
Key theorems: `Parser.reads_statementList`, `Parser.reads_elseParts`,
`Parser.reads_switchClauses`, `Parser.readsStmts`.
-/
import Treewalk.Proofs.RoundTrip.Simple

namespace Treewalk

/-- Whether a statement ends with a body. -/
def Stmt.isBraced : Stmt → Bool
  | .block .. | .ifElse .. | .loop .. | .switch .. | .func .. => true
  | _ => false

/-- The words that a statement leaves before `r`. -/
def Stmt.left (s : Stmt) (r : List Word) : List Word := if s.isBraced then .lineEnd :: r else r

/-! ### The words of statements -/

/-- The words of statements one after the other. -/
def bodyWords (ss : List Stmt) : List Word := wordsOf (Stmt.allLines ss)

theorem bodyWords_cons (s : Stmt) (ss : List Stmt) :
    bodyWords (s :: ss) = wordsOf s.lines ++ bodyWords ss :=
  wordsOf_append _ _

/-- Words in braces. -/
def braced (body : List Stmt) : List Word := .openBrace :: (bodyWords body ++ [.closeBrace])

theorem length_braced (body : List Stmt) : (braced body).length = (bodyWords body).length + 2 := by
  simp [braced]

/-- A line that opens a body has no statement end, -/
theorem words_opening (l : Line) : Line.words (l ++ [.openBrace]) = l ++ [.openBrace] :=
  Line.words_of_open (Line.ends_concat l .openBrace)

/-- and one that closes it has one. -/
theorem words_closing : Line.words [.closeBrace] = [.closeBrace, .lineEnd] := rfl

theorem wordsOf_braced (l : Line) (body : List Stmt) :
    wordsOf ((l ++ [.openBrace]) :: Stmt.allLines body ++ [[.closeBrace]]) =
      l ++ (braced body ++ [.lineEnd]) := by
  simp [words_opening, words_closing, braced, bodyWords]

/-- The words behind the closing brace of an arm. -/
def elseWords : List (Branch Stmt) → Option (List Stmt) → List Word
  | [], none => [.lineEnd]
  | [], some body => .kwElse :: (braced body ++ [.lineEnd])
  | b :: bs, otherwise =>
    .kwElse :: .kwIf :: (b.condition.words ++ (braced b.body ++ elseWords bs otherwise))

/-- An arm reaches up to its closing brace, which stands in a line of what follows. -/
theorem wordsOf_arm (lead : List Word) (b : Branch Stmt) (bs : List (Branch Stmt))
    {w : List Word} {ls : List Line}
    (h : wordsOf (Stmt.branchLines [.closeBrace, .kwElse, .kwIf] bs ++ ls) = .closeBrace :: w) :
    wordsOf (Stmt.branchLines lead (b :: bs) ++ ls) =
      lead ++ (b.condition.words ++ (braced b.body ++ w)) := by
  rw [wordsOf_append] at h
  simp only [Stmt.branchLines, wordsOf_append, wordsOf_cons, words_opening]
  simp [h, braced, bodyWords]

theorem wordsOf_else (otherwise : Option (List Stmt)) : ∀ bs : List (Branch Stmt),
    wordsOf (Stmt.branchLines [.closeBrace, .kwElse, .kwIf] bs ++ Stmt.elseLines otherwise) =
      .closeBrace :: elseWords bs otherwise
  | [] => by
    cases otherwise with
    | none => rfl
    | some body => exact wordsOf_braced [.closeBrace, .kwElse] body
  | b :: bs => wordsOf_arm _ b bs (wordsOf_else otherwise bs)

theorem wordsOf_ifElse (b : Branch Stmt) (bs : List (Branch Stmt)) (otherwise : Option (List Stmt))
    (pos : Position) : wordsOf (Stmt.ifElse (b :: bs) otherwise pos).lines =
      .kwIf :: (b.condition.words ++ (braced b.body ++ elseWords bs otherwise)) :=
  wordsOf_arm [.kwIf] b bs (wordsOf_else otherwise bs)

/-- The words of clauses, and of a default behind them. -/
def clauseWords : List (Clause Stmt) → Option (List Stmt) → List Word
  | [], none => []
  | [], some body => .kwDefault :: .colon :: bodyWords body
  | c :: cs, otherwise =>
    .kwCase :: (exprsWords c.values ++ .colon :: (bodyWords c.body ++ clauseWords cs otherwise))

theorem wordsOf_clauses (otherwise : Option (List Stmt)) : ∀ cs : List (Clause Stmt),
    wordsOf (Stmt.clauseLines cs ++ Stmt.defaultLines otherwise) = clauseWords cs otherwise
  | [] => by
    cases otherwise with
    | none => rfl
    | some body => rfl
  | c :: cs => by
    have hopen : Line.words (.kwCase :: exprsWords c.values ++ [.colon]) =
        .kwCase :: exprsWords c.values ++ [.colon] :=
      Line.words_of_open (Line.ends_concat (.kwCase :: exprsWords c.values) .colon)
    have htail := wordsOf_clauses otherwise cs
    rw [wordsOf_append] at htail
    rw [clauseWords, ← htail, Stmt.clauseLines, wordsOf_append, wordsOf_append, wordsOf_cons, hopen]
    simp [bodyWords]

theorem wordsOf_switch (subject : Expr) (cs : List (Clause Stmt)) (otherwise : Option (List Stmt))
    (pos : Position) : wordsOf (Stmt.switch subject cs otherwise pos).lines =
      .kwSwitch :: (subject.words ++
        .openBrace :: (clauseWords cs otherwise ++ [.closeBrace, .lineEnd])) := by
  have hclauses := wordsOf_clauses otherwise cs
  rw [wordsOf_append] at hclauses
  rw [← hclauses, Stmt.lines]
  simp only [wordsOf_append, wordsOf_cons, words_opening, words_closing]
  simp

theorem length_le_elseWords (otherwise : Option (List Stmt)) : ∀ bs : List (Branch Stmt),
    bs.length ≤ (elseWords bs otherwise).length
  | [] => Nat.zero_le _
  | b :: bs => by
    have htail := length_le_elseWords otherwise bs
    simp only [elseWords, List.length_append, List.length_cons]
    omega

theorem length_le_clauseWords (otherwise : Option (List Stmt)) : ∀ cs : List (Clause Stmt),
    cs.length ≤ (clauseWords cs otherwise).length
  | [] => Nat.zero_le _
  | c :: cs => by
    have htail := length_le_clauseWords otherwise cs
    simp only [clauseWords, List.length_append, List.length_cons]
    omega

theorem Stmt.branchesUnplaced_cons (b : Branch Stmt) (bs : List (Branch Stmt)) :
    Stmt.branchesUnplaced (b :: bs) =
      ⟨b.condition.unplaced, Stmt.allUnplaced b.body⟩ :: Stmt.branchesUnplaced bs :=
  rfl

theorem Stmt.clausesUnplaced_cons (c : Clause Stmt) (cs : List (Clause Stmt)) :
    Stmt.clausesUnplaced (c :: cs) =
      ⟨Expr.allUnplaced c.values, Stmt.allUnplaced c.body, .origin⟩ :: Stmt.clausesUnplaced cs :=
  rfl

/-! ### Lists of statements -/

theorem bodyWords_starts {ss : List Stmt} {r : List Word} {k : Token.Kind}
    (hss : ∀ s ∈ ss, s.isWritten = true ∨ s.isDeclaration = true) (hr : firstKind r ≠ k)
    (hk : k.beginsStatement = false) : firstKind (bodyWords ss ++ r) ≠ k := by
  cases ss with
  | nil => exact hr
  | cons s ss =>
    rw [bodyWords_cons, List.append_assoc]
    exact Token.Kind.ne_of_test (Stmt.begins_lines (hss s (by simp)) _) hk

theorem Stmt.skipped_left (s : Stmt) {r : List Word} (hr : firstKind r ≠ .semicolon) :
    Parser.skipped (s.left r) = r := by
  unfold Stmt.left
  split
  · rw [Parser.skipped_lineEnd, Parser.skipped_of_ne hr]
  · exact Parser.skipped_of_ne hr

theorem length_le_bodyWords : ∀ {ss : List Stmt},
    (∀ s ∈ ss, s.isWritten = true ∨ s.isDeclaration = true) → ss.length ≤ (bodyWords ss).length
  | [], _ => Nat.zero_le _
  | s :: ss, h => by
    have htail := length_le_bodyWords fun s' hs' => h s' (List.mem_cons_of_mem s hs')
    have hfirst := Stmt.begins_lines (h s (by simp)) []
    have hpos : 0 < (wordsOf s.lines).length := by
      rw [List.length_pos_iff]
      intro hnil
      rw [hnil] at hfirst
      cases hfirst
    rw [bodyWords_cons, List.length_append, List.length_cons]
    omega

theorem length_mem_bodyWords {s : Stmt} : ∀ {ss : List Stmt}, s ∈ ss →
    (wordsOf s.lines).length ≤ (bodyWords ss).length
  | s' :: ss, h => by
    rw [bodyWords_cons, List.length_append]
    rcases List.mem_cons.mp h with rfl | h
    · omega
    · have htail := length_mem_bodyWords h
      omega

namespace Parser

variable {m n : Nat} {r w : List Word}

/-- The rule reads the words of `s` as `s`. -/
def ReadsStmt (p : Parser Stmt) (s : Stmt) : Prop :=
  ∀ r, firstKind r ≠ .kwElse →
    Reads p (wordsOf s.lines ++ r) (s.left r) fun a => a.unplaced = s.unplaced

/-- A list of statements goes on up to a closing word, whatever line ends stand before it. -/
theorem reads_statementList {p : Parser Stmt} {closing : List Token.Kind}
    (hclosing : ∀ k ∈ closing, k.beginsStatement = false) (hr : firstKind r ∈ closing)
    (hsemi : firstKind r ≠ .semicolon) (helse : firstKind r ≠ .kwElse) :
    ∀ {n : Nat} {ss : List Stmt} {w : List Word}, ss.length < n →
      skipped w = bodyWords ss ++ r → (∀ s ∈ ss, s.isWritten = true) →
      (∀ s ∈ ss, ReadsStmt p s) →
      Reads (statementList p closing n) w r fun as => Stmt.allUnplaced as = Stmt.allUnplaced ss
  | n + 1, [], w, _, hw, _, _ => by
    refine reads_skipSemicolons ?_
    rw [hw]
    exact reads_kind (reads_if_pos (.inr hr) (.pure rfl))
  | n + 1, s :: ss, w, hn, hw, hss, h => by
    have hrest : ∀ k, firstKind r ≠ k → k.beginsStatement = false →
        firstKind (bodyWords ss ++ r) ≠ k := fun k =>
      bodyWords_starts fun s' hs' => .inl (hss s' (List.mem_cons_of_mem s hs'))
    have htail := reads_statementList hclosing hr hsemi helse (Nat.lt_of_succ_lt_succ hn)
      (s.skipped_left (hrest _ hsemi rfl)) (fun s' hs' => hss s' (List.mem_cons_of_mem s hs'))
      fun s' hs' => h s' (List.mem_cons_of_mem s hs')
    have hfirst := Stmt.begins_lines (.inl (hss s (by simp))) (bodyWords ss ++ r)
    refine reads_skipSemicolons ?_
    rw [hw, bodyWords_cons, List.append_assoc]
    refine reads_kind (reads_if_neg ?_ ?_)
    · rintro (hk | hk)
      · exact Token.Kind.ne_of_test hfirst rfl hk
      · exact Token.Kind.ne_of_test hfirst (hclosing _ hk) rfl
    refine (h s (by simp) _ (hrest _ helse rfl)).recovering.bind ?_
    rintro _ ⟨a, rfl, ha⟩
    refine htail.bind fun as has => .pure ?_
    rw [Stmt.allUnplaced, Stmt.allUnplaced, ha, has]

/-- What the rule with bound `n` reads back. -/
def ReadsStmts (n : Nat) : Prop :=
  ∀ s : Stmt, s.isWritten = true → (wordsOf s.lines).length ≤ n → ReadsStmt (statement n) s

theorem ReadsStmts.list (h : ReadsStmts n) {body : List Stmt} {closing : List Token.Kind}
    (hclosing : closing = [.closeBrace] ∨ closing = [.kwCase, .kwDefault, .closeBrace])
    (hr : firstKind r ∈ closing) (hbody : Stmt.allWritten body = true)
    (hn : (bodyWords body).length ≤ n) (hm : (bodyWords body).length < m) :
    Reads (statementList (statement n) closing m) (bodyWords body ++ r) r
      fun as => Stmt.allUnplaced as = Stmt.allUnplaced body := by
  rw [Stmt.allWritten_eq, List.all_eq_true] at hbody
  have hcloses : ∀ k ∈ closing, k.beginsStatement = false ∧ k ≠ .semicolon ∧ k ≠ .kwElse := by
    rcases hclosing with rfl | rfl <;> decide
  obtain ⟨-, hsemi, helse⟩ := hcloses _ hr
  have hlen := length_le_bodyWords fun s hs => .inl (hbody s hs)
  refine reads_statementList (fun k hk => (hcloses k hk).1) hr hsemi helse (by omega) ?_ hbody ?_
  · exact skipped_of_ne (bodyWords_starts (fun s hs => .inl (hbody s hs)) hsemi rfl)
  · intro s hs
    have hmem := length_mem_bodyWords hs
    exact h s (hbody s hs) (by omega)

theorem ReadsStmts.block (h : ReadsStmts n) {body : List Stmt} (hbody : Stmt.allWritten body = true)
    (hn : (bodyWords body).length ≤ n) (hm : (bodyWords body).length < m) :
    Reads (Parser.block (statement n) m) (braced body ++ r) r
      fun as => Stmt.allUnplaced as = Stmt.allUnplaced body := by
  have hwords : braced body ++ r = .openBrace :: (bodyWords body ++ .closeBrace :: r) := by
    simp [braced]
  rw [hwords]
  refine reads_expect rfl fun _ => ?_
  refine (h.list (.inl rfl) (by simp [Word.closeBrace]) hbody hn hm).bind fun as has => ?_
  exact reads_expect rfl fun _ => .pure has

/-! ### Statements with a body -/

theorem ReadsStmts.branch (h : ReadsStmts n) {b : Branch Stmt}
    (hcondition : b.condition.isWritten = true) (hbody : Stmt.allWritten b.body = true)
    (hn : (bodyWords b.body).length ≤ n)
    (hm : (b.condition.words ++ braced b.body).length ≤ m) :
    Reads (Parser.branch (exprRules m) (statement n) m)
      (b.condition.words ++ (braced b.body ++ r)) r
      fun b' => b'.condition.unplaced = b.condition.unplaced ∧
        Stmt.allUnplaced b'.body = Stmt.allUnplaced b.body := by
  rw [List.length_append, length_braced] at hm
  refine ((faithful m).expr hcondition (by omega) _ rfl).bind fun c hc => ?_
  exact (h.block hbody hn (by omega)).bind fun as has => .pure ⟨hc, has⟩

theorem reads_elseAhead_true {β : Type} {f : Bool → Parser β} {Q : β → Prop}
    (h : Reads (f true) (.kwElse :: w) r Q) : Reads (elseAhead >>= f) (.kwElse :: w) r Q := by
  have hread : Reads elseAhead (.kwElse :: w) (.kwElse :: w) fun b => b = true := by
    refine reads_current fun _ => reads_get fun ts faults _ => reads_if_neg ?_ ?_
    · rintro ⟨hk, -⟩
      cases hk
    · exact reads_kind (.pure rfl)
  refine hread.bind ?_
  rintro _ rfl
  exact h

theorem kind_ahead {ts : List Token} {v : Word} (faults : Array (GrammarFault × Position))
    (h : ts.map Token.word = v :: w) : ((Cursor.mk ts faults).ahead 1).kind = firstKind w := by
  match ts, h with
  | t :: ts, h =>
    cases h
    exact kind_current faults rfl

theorem reads_elseAhead_false {β : Type} {f : Bool → Parser β} {Q : β → Prop}
    (hw : firstKind w ≠ .kwElse) (h : Reads (f false) (.lineEnd :: w) r Q) :
    Reads (elseAhead >>= f) (.lineEnd :: w) r Q := by
  have hread : Reads elseAhead (.lineEnd :: w) (.lineEnd :: w) fun b => b = false := by
    refine reads_current fun _ => reads_get fun ts faults hts => reads_if_neg ?_ ?_
    · rintro ⟨-, -, hk⟩
      rw [kind_ahead faults hts] at hk
      exact hw hk
    · exact reads_kind (.pure rfl)
  refine hread.bind ?_
  rintro _ rfl
  exact h

/-- The arms of an `if` behind the first. -/
theorem reads_elseParts (h : ReadsStmts n) {otherwise : Option (List Stmt)}
    (hotherwise : Stmt.otherwiseWritten otherwise = true) (hr : firstKind r ≠ .kwElse) :
    ∀ {k : Nat} {bs : List (Branch Stmt)}, bs.length < k → Stmt.branchesWritten bs = true →
      (elseWords bs otherwise).length ≤ n → (elseWords bs otherwise).length ≤ m →
      Reads (elseParts (exprRules m) (statement n) m k) (elseWords bs otherwise ++ r)
        (.lineEnd :: r)
        fun p => Stmt.branchesUnplaced p.1 = Stmt.branchesUnplaced bs ∧
          Stmt.otherwiseUnplaced p.2 = Stmt.otherwiseUnplaced otherwise
  | k + 1, [], _, _, hn, hm => by
    cases otherwise with
    | none => exact reads_elseAhead_false hr (.pure ⟨rfl, rfl⟩)
    | some body =>
      simp only [elseWords, List.length_append, List.length_cons, length_braced] at hn hm
      have hwords : elseWords [] (some body) ++ r =
          .kwElse :: (braced body ++ .lineEnd :: r) := by
        simp [elseWords]
      rw [hwords]
      refine reads_elseAhead_true (reads_advance fun _ => reads_kind (reads_if_neg ?_ ?_))
      · simp [braced, Word.openBrace]
      · refine (h.block hotherwise (by omega) (by omega)).bind fun as has => .pure ⟨rfl, ?_⟩
        rw [Stmt.otherwiseUnplaced, Stmt.otherwiseUnplaced, has]
  | k + 1, b :: bs, hk, hbs, hn, hm => by
    obtain ⟨hb, hbs⟩ := Bool.and_eq_true_iff.mp hbs
    obtain ⟨hcondition, hbody⟩ := Bool.and_eq_true_iff.mp hb
    simp only [elseWords, List.length_append, List.length_cons] at hn hm
    have hlen := length_braced b.body
    have htail := reads_elseParts h hotherwise hr (Nat.lt_of_succ_lt_succ hk) hbs (by omega)
      (by omega)
    have hwords : elseWords (b :: bs) otherwise ++ r =
        .kwElse :: .kwIf :: (b.condition.words ++
          (braced b.body ++ (elseWords bs otherwise ++ r))) := by
      simp [elseWords]
    rw [hwords]
    refine reads_elseAhead_true (reads_advance fun _ => reads_kind (reads_if_pos rfl ?_))
    refine reads_advance fun _ => ?_
    refine (h.branch hcondition hbody (by omega) (by rw [List.length_append]; omega)).bind ?_
    rintro b' ⟨hc, hbody'⟩
    refine htail.bind ?_
    rintro ⟨bs', otherwise'⟩ ⟨hbs', hotherwise'⟩
    refine .pure ⟨?_, hotherwise'⟩
    rw [Stmt.branchesUnplaced_cons, Stmt.branchesUnplaced_cons, hc, hbody', hbs']

theorem ReadsStmts.ifElse (h : ReadsStmts n) {branches : List (Branch Stmt)}
    {otherwise : Option (List Stmt)} {pos : Position}
    (hs : (Stmt.ifElse branches otherwise pos).isWritten = true)
    (hn : (wordsOf (Stmt.ifElse branches otherwise pos).lines).length ≤ n + 1) :
    ReadsStmt (Parser.ifElse (exprRules (n + 1)) (statement n) (n + 1))
      (.ifElse branches otherwise pos) := by
  intro r hr
  obtain ⟨hs, hotherwise⟩ := Bool.and_eq_true_iff.mp hs
  obtain ⟨hne, hbranches⟩ := Bool.and_eq_true_iff.mp hs
  match branches, hne with
  | b :: bs, _ =>
    obtain ⟨hb, hbs⟩ := Bool.and_eq_true_iff.mp hbranches
    obtain ⟨hcondition, hbody⟩ := Bool.and_eq_true_iff.mp hb
    have hbodyLen := length_braced b.body
    have hbsLen := length_le_elseWords otherwise bs
    rw [wordsOf_ifElse] at hn ⊢
    simp only [List.length_append, List.length_cons] at hn
    have hwords : .kwIf :: (b.condition.words ++ (braced b.body ++ elseWords bs otherwise)) ++ r =
        .kwIf :: (b.condition.words ++ (braced b.body ++ (elseWords bs otherwise ++ r))) := by
      simp
    rw [hwords]
    refine reads_expect rfl fun _ => ?_
    refine (h.branch hcondition hbody (by omega) (by rw [List.length_append]; omega)).bind ?_
    rintro b' ⟨hc, hbody'⟩
    refine (reads_elseParts h hotherwise hr (by omega) hbs (by omega) (by omega)).bind ?_
    rintro ⟨bs', otherwise'⟩ ⟨hbs', hotherwise'⟩
    refine .pure ?_
    rw [Stmt.unplaced, Stmt.unplaced, Stmt.branchesUnplaced_cons, Stmt.branchesUnplaced_cons, hc,
      hbody', hbs', hotherwise']

theorem ReadsStmts.loop (h : ReadsStmts n) {init post : Option Stmt} {condition : Option Expr}
    {body : List Stmt} {pos : Position}
    (hs : (Stmt.loop init condition post body pos).isWritten = true)
    (hn : (wordsOf (Stmt.loop init condition post body pos).lines).length ≤ n + 1) :
    ReadsStmt (Parser.loop (exprRules (n + 1)) (statement n) (n + 1))
      (.loop init condition post body pos) := by
  intro r _
  obtain ⟨hs, hbody⟩ := Bool.and_eq_true_iff.mp hs
  obtain ⟨hs, hpost⟩ := Bool.and_eq_true_iff.mp hs
  obtain ⟨hinit, hcondition⟩ := Bool.and_eq_true_iff.mp hs
  have hwords : wordsOf (Stmt.loop init condition post body pos).lines =
      .kwFor :: headerWords init condition post ++ (braced body ++ [.lineEnd]) :=
    wordsOf_braced (.kwFor :: headerWords init condition post) body
  have hlen := length_braced body
  rw [hwords] at hn ⊢
  simp only [List.length_append, List.length_cons] at hn
  have hsplit : .kwFor :: headerWords init condition post ++ (braced body ++ [.lineEnd]) ++ r =
      .kwFor :: (headerWords init condition post ++ (braced body ++ .lineEnd :: r)) := by
    simp
  rw [hsplit]
  refine reads_expect rfl fun _ => ?_
  refine (reads_header hinit hcondition hpost (by omega)).bind fun header hheader => ?_
  refine (h.block hbody (by omega) (by omega)).bind fun as has => .pure ?_
  obtain ⟨h1, h2, h3⟩ := hheader
  rw [Stmt.unplaced, Stmt.unplaced, Stmt.optionUnplaced_eq, Stmt.optionUnplaced_eq,
    Stmt.optionUnplaced_eq, Stmt.optionUnplaced_eq, h1, h2, h3, has]

/-! ### Switches -/

/-- What clauses begin with, or what follows them. -/
theorem firstKind_clauseWords (cs : List (Clause Stmt)) (otherwise : Option (List Stmt)) :
    firstKind (clauseWords cs otherwise ++ .closeBrace :: r) ∈
      [Token.Kind.kwCase, .kwDefault, .closeBrace] := by
  cases cs with
  | cons c cs => simp [clauseWords, Word.kwCase]
  | nil => cases otherwise <;> simp [clauseWords, Word.kwDefault, Word.closeBrace]

theorem reads_switchClauses (h : ReadsStmts n) {otherwise : Option (List Stmt)}
    (hotherwise : Stmt.otherwiseWritten otherwise = true) :
    ∀ {k : Nat} {cs : List (Clause Stmt)}, cs.length + 1 < k → Stmt.clausesWritten cs = true →
      (clauseWords cs otherwise).length ≤ n → (clauseWords cs otherwise).length < m →
      Reads (switchClauses (exprRules m) (statement n) m k none)
        (clauseWords cs otherwise ++ .closeBrace :: r) (.closeBrace :: r)
        fun p => Stmt.clausesUnplaced p.1 = Stmt.clausesUnplaced cs ∧
          Stmt.otherwiseUnplaced p.2 = Stmt.otherwiseUnplaced otherwise
  | k + 1, [], hk, _, hn, hm => by
    obtain ⟨k, rfl⟩ : ∃ j, k = j + 1 := Nat.exists_eq_add_one.mpr (Nat.lt_of_succ_lt_succ hk)
    cases otherwise with
    | none => exact reads_skipSemicolons (reads_current fun _ => .pure ⟨rfl, rfl⟩)
    | some body =>
      simp only [clauseWords, List.length_cons] at hn hm
      refine reads_skipSemicolons (reads_current fun _ => reads_advance fun _ => ?_)
      refine reads_expect rfl fun _ => ?_
      have hbody := h.list (m := m) (r := .closeBrace :: r) (.inr rfl) (by simp [Word.closeBrace])
        hotherwise (by omega) (by omega)
      refine hbody.bind fun as has => reads_if_neg (by decide) ?_
      refine reads_skipSemicolons (reads_current fun _ => .pure ⟨rfl, ?_⟩)
      rw [Stmt.otherwiseUnplaced, Stmt.otherwiseUnplaced, has]
  | k + 1, c :: cs, hk, hcs, hn, hm => by
    obtain ⟨hc, hcs⟩ := Bool.and_eq_true_iff.mp hcs
    obtain ⟨hc, hbody⟩ := Bool.and_eq_true_iff.mp hc
    obtain ⟨hne, hvalues⟩ := Bool.and_eq_true_iff.mp hc
    simp only [clauseWords, List.length_append, List.length_cons] at hn hm
    have htail := reads_switchClauses h hotherwise (Nat.lt_of_succ_lt_succ hk) hcs (by omega)
      (by omega)
    have hwords : clauseWords (c :: cs) otherwise ++ .closeBrace :: r =
        .kwCase :: (exprsWords c.values ++ .colon :: (bodyWords c.body ++
          (clauseWords cs otherwise ++ .closeBrace :: r))) := by
      simp [clauseWords]
    rw [hwords]
    refine reads_skipSemicolons (reads_current fun pos => reads_advance fun _ => ?_)
    refine (reads_exprs (by simpa using hne) hvalues (by omega) rfl (by simp [Word.colon])).bind ?_
    intro as has
    refine reads_expect rfl fun _ => ?_
    have hlist := h.list (m := m) (.inr rfl) (firstKind_clauseWords (r := r) cs otherwise) hbody
      (by omega) (by omega)
    refine hlist.bind fun body hbody' => htail.bind ?_
    rintro ⟨cs', otherwise'⟩ ⟨hcs', hotherwise'⟩
    refine .pure ⟨?_, hotherwise'⟩
    rw [Stmt.clausesUnplaced_cons, Stmt.clausesUnplaced_cons, has, hbody', hcs']

theorem ReadsStmts.switch (h : ReadsStmts n) {subject : Expr} {cs : List (Clause Stmt)}
    {otherwise : Option (List Stmt)} {pos : Position}
    (hs : (Stmt.switch subject cs otherwise pos).isWritten = true)
    (hn : (wordsOf (Stmt.switch subject cs otherwise pos).lines).length ≤ n + 1) :
    ReadsStmt (Parser.switch (exprRules (n + 1)) (statement n) (n + 1))
      (.switch subject cs otherwise pos) := by
  intro r _
  obtain ⟨hs, hotherwise⟩ := Bool.and_eq_true_iff.mp hs
  obtain ⟨hsubject, hcs⟩ := Bool.and_eq_true_iff.mp hs
  have hlen := length_le_clauseWords otherwise cs
  rw [wordsOf_switch] at hn ⊢
  simp only [List.length_append, List.length_cons, List.length_nil] at hn
  have hsplit : .kwSwitch :: (subject.words ++
        .openBrace :: (clauseWords cs otherwise ++ [.closeBrace, .lineEnd])) ++ r =
      .kwSwitch :: (subject.words ++
        .openBrace :: (clauseWords cs otherwise ++ .closeBrace :: .lineEnd :: r)) := by
    simp
  rw [hsplit]
  refine reads_expect rfl fun _ => ?_
  refine ((faithful (n + 1)).expr hsubject (by omega) _ rfl).bind fun a ha => ?_
  refine reads_expect rfl fun _ => ?_
  refine (reads_switchClauses h hotherwise (by omega) hcs (by omega) (by omega)).bind ?_
  rintro ⟨cs', otherwise'⟩ ⟨hcs', hotherwise'⟩
  refine reads_expect rfl fun _ => .pure ?_
  rw [Stmt.unplaced, Stmt.unplaced, ha, hcs', hotherwise']

/-! ### All statements -/

/-- A statement that begins as an expression does is a simple one. -/
theorem reads_statementWith_plain {rules : ExprRules} {inner : Parser Stmt} {P : Stmt → Prop}
    (hw : (firstKind w).startsExpr = true) (h : Reads (plainStatement rules n) w r P) :
    Reads (statementWith rules n inner) w r P := by
  refine reads_current_of_kind fun t ht => ?_
  rw [← ht] at hw
  split
  case h_11 => exact h
  all_goals exact absurd ‹_ = _› (Token.Kind.ne_of_test hw rfl)

theorem wordsOf_simple {s : Stmt} (h : s.isHeader = true) :
    wordsOf [s.simpleWords] = s.simpleWords ++ [.lineEnd] := by
  rw [wordsOf_cons, Line.words_of_ends (Stmt.ends_simpleWords h), wordsOf_nil, List.append_nil]

theorem readsStmt_simple {inner : Parser Stmt} {s : Stmt} (hs : s.isWritten = true)
    (hsimple : s.isHeader = true) (hlines : s.lines = [s.simpleWords]) (hleft : s.isBraced = false)
    (hn : (wordsOf s.lines).length ≤ n) : ReadsStmt (statementWith (exprRules n) n inner) s := by
  intro r _
  rw [hlines, wordsOf_simple hsimple] at hn ⊢
  rw [List.length_append, List.length_singleton] at hn
  rw [List.append_assoc, Stmt.left, hleft]
  exact reads_statementWith_plain (Stmt.startsExpr_simpleWords hsimple _)
    (reads_plainStatement hs hsimple (by omega))

theorem wordsOf_varDecl {names : List Binder} {type : Option TypeExpr} {es : List Expr}
    {pos : Position} (h : (Stmt.varDecl names type es pos).isWritten = true) :
    wordsOf (Stmt.varDecl names type es pos).lines =
      .kwVar :: (namesWords names ++ (typeWords type ++ (valueWords es ++ [.lineEnd]))) := by
  have hends := ends_declaration (l := .kwVar :: namesWords names) (Bool.and_eq_true_iff.mp h).2
  rw [Stmt.lines, wordsOf_cons, Line.words_of_ends hends]
  simp

theorem wordsOf_constDecl (x : String) (type : Option TypeExpr) (e : Expr) (pos : Position) :
    wordsOf (Stmt.constDecl x type e pos).lines =
      .kwConst :: .name x :: (typeWords type ++ .equal :: (e.words ++ [.lineEnd])) := by
  have hends : Line.ends (.kwConst :: .name x :: typeWords type ++ .equal :: e.words) = true :=
    Line.ends_append (Line.ends_cons e.ends_words)
  rw [Stmt.lines, wordsOf_cons, Line.words_of_ends hends]
  simp

theorem wordsOf_returnStmt (es : List Expr) (pos : Position) :
    wordsOf (Stmt.returnStmt es pos).lines = .kwReturn :: (exprsWords es ++ [.lineEnd]) := by
  have hends : Line.ends (.kwReturn :: exprsWords es) = true := by
    cases es with
    | nil => rfl
    | cons e es => exact Line.ends_cons (ends_exprsWords (List.cons_ne_nil e es))
  rw [Stmt.lines, wordsOf_cons, Line.words_of_ends hends]
  simp

theorem readsStmt_varDecl {names : List Binder} {type : Option TypeExpr} {es : List Expr}
    {pos : Position} (h : (Stmt.varDecl names type es pos).isWritten = true)
    (hn : (wordsOf (Stmt.varDecl names type es pos).lines).length ≤ n) :
    ReadsStmt (varDecl (exprRules n) n) (.varDecl names type es pos) := by
  intro r _
  rw [wordsOf_varDecl h] at hn ⊢
  simp only [List.length_append, List.length_cons] at hn
  have hread := reads_varDecl (n := n) (r := r) h (by simp only [List.length_append]; omega)
  simpa [Stmt.left, Stmt.isBraced] using hread

theorem readsStmt_constDecl {x : String} {type : Option TypeExpr} {e : Expr} {pos : Position}
    (h : (Stmt.constDecl x type e pos).isWritten = true)
    (hn : (wordsOf (Stmt.constDecl x type e pos).lines).length ≤ n) :
    ReadsStmt (constDecl (exprRules n)) (.constDecl x type e pos) := by
  intro r _
  rw [wordsOf_constDecl] at hn ⊢
  simp only [List.length_append, List.length_cons] at hn
  have hread := reads_constDecl (n := n) (r := r) h (by simp only [List.length_append]; omega)
  simpa [Stmt.left, Stmt.isBraced] using hread

theorem readsStmt_statementWith (h : ReadsStmts n) {s : Stmt} (hs : s.isWritten = true)
    (hn : (wordsOf s.lines).length ≤ n + 1) :
    ReadsStmt (statementWith (exprRules (n + 1)) (n + 1) (statement n)) s := by
  intro r hr
  cases s with
  | varDecl names type es pos =>
    exact reads_current_of_kind fun t ht => by rw [ht]; exact readsStmt_varDecl hs hn r hr
  | constDecl x type e pos =>
    exact reads_current_of_kind fun t ht => by rw [ht]; exact readsStmt_constDecl hs hn r hr
  | shortDecl names es pos => exact readsStmt_simple hs hs rfl rfl hn r hr
  | assign target op e pos => exact readsStmt_simple hs hs rfl rfl hn r hr
  | step target op pos => exact readsStmt_simple hs hs rfl rfl hn r hr
  | expr e pos =>
    have hsimple : (Stmt.expr e pos).isHeader = true := by
      cases e with
      | call => exact hs
      | _ => cases hs
    exact readsStmt_simple hs hsimple rfl rfl hn r hr
  | block body pos =>
    have hwords : wordsOf (Stmt.block body pos).lines = braced body ++ [.lineEnd] :=
      wordsOf_braced [] body
    have hlen := length_braced body
    rw [hwords] at hn ⊢
    rw [List.length_append, List.length_singleton] at hn
    rw [List.append_assoc]
    refine reads_current fun _ => ?_
    refine (h.block hs (by omega) (by omega)).bind fun as has => .pure ?_
    rw [Stmt.unplaced, Stmt.unplaced, has]
  | ifElse branches otherwise pos =>
    refine reads_current_of_kind fun t ht => ?_
    have hkind : t.kind = .kwIf := by
      cases branches with
      | nil => simp [Stmt.isWritten] at hs
      | cons b bs => exact ht
    rw [hkind]
    exact h.ifElse hs hn r hr
  | loop init condition post body pos =>
    exact reads_current_of_kind fun t ht => by rw [ht]; exact h.loop hs hn r hr
  | switch subject cs otherwise pos =>
    exact reads_current_of_kind fun t ht => by rw [ht]; exact h.switch hs hn r hr
  | breakStmt pos =>
    exact reads_current fun _ => reads_advance fun _ => reads_statementEnd (.pure rfl)
  | continueStmt pos =>
    exact reads_current fun _ => reads_advance fun _ => reads_statementEnd (.pure rfl)
  | returnStmt es pos =>
    rw [wordsOf_returnStmt] at hn ⊢
    simp only [List.length_append, List.length_cons] at hn
    rw [List.cons_append, List.append_assoc]
    exact reads_current fun _ => reads_returnStmt hs (by omega)
  | func f pos => cases hs

/-- **Statements are read back** by the rule with a bound above their length. -/
theorem readsStmts : ∀ n : Nat, ReadsStmts n
  | 0 => fun s hs hn => by
    have hfirst := Stmt.begins_lines (.inl hs) []
    rw [List.eq_nil_of_length_eq_zero (Nat.le_zero.mp hn)] at hfirst
    cases hfirst
  | n + 1 => fun s hs hn => readsStmt_statementWith (readsStmts n) hs hn

end Parser
end Treewalk
