/-
# Programs are read back

A program that the parser can build is written with one statement a line, and
the front end reads what is written: it finds nothing wrong, and the tree it
builds is the program up to positions. So the tree holds all that a source
says, and no two programs are written alike unless they differ in positions
only.

The way there is the one of the front end. The scanner gives back the words
of every line (`RoundTrip/Line`); from the words alone the rules of the
grammar build expressions, statements and declarations again (`Reads`).

Key theorems: `Parser.reads_function`, `Parser.reads_declarations`,
`Treewalk.ofText_render`.
-/
import Treewalk.Grammar.Program
import Treewalk.Proofs.RoundTrip.Statement

namespace Treewalk
namespace Parser

variable {n : Nat} {r w : List Word}

/-! ### Functions -/

/-- One parameter, and what is left to do behind it. -/
theorem reads_param {rules : ExprRules} {p : Param} {v : List Word} {Q : List Param → Prop}
    (htype : Reads rules.type (p.type.words ++ v) v fun t => t.unplaced = p.type.unplaced)
    (h : ∀ q : Param, q.unplaced = p.unplaced → Reads (do
      if (← kind) ≠ .comma then return [q]
      let _ ← advance
      return [q] ++ (← params rules n [])) v r Q) :
    Reads (params rules (n + 1) []) (paramWords p ++ v) r Q := by
  refine reads_kind (reads_if_neg (by simp [paramWords, Word.name]) ?_)
  refine (reads_binder (x := ⟨p.name, p.pos⟩)).bind fun b hb => reads_kind ?_
  have hstart := p.type.startsType_words v
  split
  case h_3 =>
    refine htype.bind fun t ht => h ⟨b.name, t, b.pos⟩ ?_
    have hname : b.name = p.name := congrArg Binder.name hb
    rw [Param.unplaced, Param.unplaced, ht, hname]
  all_goals exact absurd ‹_ = _› (Token.Kind.ne_of_test hstart rfl)

theorem reads_params {rules : ExprRules} : ∀ {n : Nat} {ps : List Param}, ps.length < n →
    (∀ p ∈ ps, ∀ v, Reads rules.type (p.type.words ++ v) v fun t => t.unplaced = p.type.unplaced) →
    Reads (params rules n []) (separated (ps.map paramWords) ++ .closeParen :: r) (.closeParen :: r)
      fun qs => qs.map Param.unplaced = ps.map Param.unplaced
  | n + 1, [], _, _ => reads_kind (reads_if_pos rfl (.pure rfl))
  | n + 1, [p], _, h => by
    refine reads_param (h p (by simp) _) fun q hq => ?_
    refine reads_kind (reads_if_pos (by simp [Word.closeParen]) (.pure ?_))
    rw [List.map_singleton, List.map_singleton, hq]
  | n + 1, p :: p' :: ps, hn, h => by
    have htail := reads_params (Nat.lt_of_succ_lt_succ hn) fun q hq =>
      h q (List.mem_cons_of_mem p hq)
    rw [separated_append]
    refine reads_param (h p (by simp) _) fun q hq => ?_
    refine reads_kind (reads_if_neg (by simp [Word.comma]) (reads_advance fun _ => ?_))
    refine htail.bind fun qs hqs => .pure ?_
    rw [List.singleton_append, List.map_cons, List.map_cons, hq, hqs]

theorem reads_resultTypes {ts : List TypeExpr} (hts : ts.all TypeExpr.isWritten = true)
    (hn : (resultWords ts).length < n) (hr : firstKind r = .openBrace) :
    Reads (resultTypes (exprRules n) n) (resultWords ts ++ r) r
      fun us => us.map TypeExpr.unplaced = ts.map TypeExpr.unplaced := by
  rw [List.all_eq_true] at hts
  refine reads_kind ?_
  match ts with
  | [] =>
    refine reads_if_neg (by simp [resultWords, hr]) (reads_if_neg ?_ (.pure rfl))
    simp [resultWords, hr, Token.Kind.startsType]
  | [t] =>
    have hstart := t.startsType_words r
    refine reads_if_neg (Token.Kind.ne_of_test hstart rfl) (reads_if_pos hstart ?_)
    refine ((faithful n).type (hts t (by simp)) hn).bind fun u hu => .pure ?_
    rw [List.map_singleton, List.map_singleton, hu]
  | t :: t' :: ts =>
    have hwords : resultWords (t :: t' :: ts) ++ r = .openParen ::
        (separated ((t :: t' :: ts).map TypeExpr.words) ++ .closeParen :: r) := by
      simp [resultWords]
    have hlen : (separated ((t :: t' :: ts).map TypeExpr.words)).length + 2 < n := by
      simpa [resultWords] using hn
    have hcount := length_le_separated TypeExpr.words_ne_nil (t :: t' :: ts)
    have hlist : Reads (commaList .closeParen (exprRules n).type n)
        (separated ((t :: t' :: ts).map TypeExpr.words) ++ .closeParen :: r) (.closeParen :: r)
        fun us => us.map TypeExpr.unplaced = (t :: t' :: ts).map TypeExpr.unplaced := by
      refine reads_commaList (by simp [Word.closeParen]) (by omega) ?_ ?_
      · exact fun u _ v => Token.Kind.ne_of_test (u.startsType_words v) rfl
      · intro u hu v _
        have hmem : u.words.length ≤ _ := length_mem_separated hu
        exact (faithful n).type (hts u hu) (by omega)
    rw [hwords]
    refine reads_if_pos rfl (reads_advance fun _ => hlist.bind fun us hus => ?_)
    exact reads_expect rfl fun _ => .pure hus

/-- The words of a function declaration. -/
theorem wordsOf_func (f : FuncDecl) (pos : Position) : wordsOf (Stmt.func f pos).lines =
    .kwFunc :: .name f.name :: .openParen :: (separated (f.params.map paramWords) ++
      .closeParen :: (resultWords f.results ++ (braced f.body ++ [.lineEnd]))) := by
  have hwords := wordsOf_braced (.kwFunc :: .name f.name :: .openParen ::
    separated (f.params.map paramWords) ++ .closeParen :: resultWords f.results) f.body
  simpa [Stmt.lines] using hwords

theorem reads_function {f : FuncDecl} {pos : Position} (hf : f.isWritten = true)
    (hn : (wordsOf (Stmt.func f pos).lines).length ≤ n) :
    ReadsStmt (function (exprRules n) n (statement n)) (.func f pos) := by
  intro r _
  obtain ⟨hf, hbody⟩ := Bool.and_eq_true_iff.mp hf
  obtain ⟨hf, hresults⟩ := Bool.and_eq_true_iff.mp hf
  obtain ⟨-, hparams⟩ := Bool.and_eq_true_iff.mp hf
  rw [List.all_eq_true] at hparams
  rw [wordsOf_func] at hn ⊢
  simp only [List.length_append, List.length_cons] at hn
  have hbodyLen := length_braced f.body
  have hcount := length_le_separated paramWords_ne_nil f.params
  have htypes : ∀ p ∈ f.params, ∀ v, Reads (exprRules n).type (p.type.words ++ v) v
      fun t => t.unplaced = p.type.unplaced := by
    intro p hp v
    have hmem : (paramWords p).length ≤ _ := length_mem_separated hp
    rw [paramWords, List.length_cons] at hmem
    exact (faithful n).type (Bool.and_eq_true_iff.mp (hparams p hp)).2 (by omega)
  have hsplit : .kwFunc :: .name f.name :: .openParen :: (separated (f.params.map paramWords) ++
        .closeParen :: (resultWords f.results ++ (braced f.body ++ [.lineEnd]))) ++ r =
      .kwFunc :: .name f.name :: .openParen :: (separated (f.params.map paramWords) ++
        .closeParen :: (resultWords f.results ++ (braced f.body ++ .lineEnd :: r))) := by
    simp
  rw [hsplit]
  refine reads_expect rfl fun _ => (reads_binder (x := ⟨f.name, pos⟩)).bind fun b hb => ?_
  refine reads_expect rfl fun _ => (reads_params (by omega) htypes).bind fun ps hps => ?_
  refine reads_expect rfl fun _ => (reads_resultTypes hresults (by omega) rfl).bind fun ts hts => ?_
  refine ((readsStmts n).block hbody (by omega) (by omega)).bind fun body hbody' => .pure ?_
  have hname : b.name = f.name := congrArg Binder.name hb
  rw [Stmt.unplaced, Stmt.unplaced, hps, hts, hbody', hname]

/-! ### Declarations -/

theorem readsStmt_shortDecl {names : List Binder} {es : List Expr} {pos : Position}
    (hs : (Stmt.shortDecl names es pos).isHeader = true)
    (hn : (wordsOf (Stmt.shortDecl names es pos).lines).length ≤ n) :
    ReadsStmt (declaration n) (.shortDecl names es pos) := by
  intro r _
  have hne : names ≠ [] := by
    obtain ⟨h, -⟩ := Bool.and_eq_true_iff.mp hs
    simpa using (Bool.and_eq_true_iff.mp (Bool.and_eq_true_iff.mp h).1).1
  rw [Stmt.lines, wordsOf_simple hs] at hn ⊢
  rw [List.length_append, List.length_singleton] at hn
  rw [List.append_assoc, List.singleton_append]
  have hread := reads_simpleStatement (n := n) (r := .lineEnd :: r) hs (by omega) (.inl rfl)
  refine reads_current_of_kind fun t ht => ?_
  have hkind : t.kind = .identifier := by
    rw [ht, Stmt.simpleWords, List.append_assoc, firstKind_namesWords hne]
  rw [hkind]
  refine reads_get fun ts faults hts => reads_if_pos ?_ ?_
  · rw [startsShort_eq, hts, Stmt.simpleWords, List.append_assoc]
    exact shortAhead_names hne
  · exact hread.bind fun a ha => reads_statementEnd (.pure ha)

theorem readsStmt_declaration {s : Stmt} (hs : s.isDeclaration = true)
    (hn : (wordsOf s.lines).length ≤ n) : ReadsStmt (declaration n) s := by
  intro r hr
  cases s with
  | func f pos =>
    exact reads_current_of_kind fun t ht => by rw [ht]; exact reads_function hs hn r hr
  | varDecl names type es pos =>
    exact reads_current_of_kind fun t ht => by rw [ht]; exact readsStmt_varDecl hs hn r hr
  | constDecl x type e pos =>
    exact reads_current_of_kind fun t ht => by rw [ht]; exact readsStmt_constDecl hs hn r hr
  | shortDecl names es pos => exact readsStmt_shortDecl hs hn r hr
  | _ => cases hs

theorem reads_declarations : ∀ {k : Nat} {ss : List Stmt} {w : List Word}, ss.length < k →
    skipped w = bodyWords ss ++ [.endOfFile] → (∀ s ∈ ss, s.isDeclaration = true) →
    (∀ s ∈ ss, (wordsOf s.lines).length ≤ n) →
    Reads (declarations n k) w [.endOfFile]
      fun as => Stmt.allUnplaced as = Stmt.allUnplaced ss
  | k + 1, [], w, _, hw, _, _ => by
    refine reads_skipSemicolons ?_
    rw [hw]
    exact reads_kind (reads_if_pos rfl (.pure rfl))
  | k + 1, s :: ss, w, hk, hw, hss, hn => by
    have hrest : ∀ k, Token.Kind.endOfFile ≠ k → k.beginsStatement = false →
        firstKind (bodyWords ss ++ [.endOfFile]) ≠ k := fun k hk hb =>
      bodyWords_starts (fun s' hs' => .inr (hss s' (List.mem_cons_of_mem s hs'))) hk hb
    have htail := reads_declarations (Nat.lt_of_succ_lt_succ hk)
      (s.skipped_left (hrest _ (by decide) rfl)) (fun s' hs' => hss s' (List.mem_cons_of_mem s hs'))
      fun s' hs' => hn s' (List.mem_cons_of_mem s hs')
    have hfirst := Stmt.begins_lines (.inr (hss s (by simp))) (bodyWords ss ++ [.endOfFile])
    have hread := readsStmt_declaration (hss s (by simp)) (hn s (by simp)) _
      (hrest .kwElse (by decide) rfl)
    refine reads_skipSemicolons ?_
    rw [hw, bodyWords_cons, List.append_assoc]
    refine reads_kind (reads_if_neg (Token.Kind.ne_of_test hfirst rfl) ?_)
    refine hread.recovering.bind ?_
    rintro _ ⟨a, rfl, ha⟩
    refine htail.bind fun as has => .pure ?_
    rw [Stmt.allUnplaced, Stmt.allUnplaced, ha, has]

end Parser
namespace Program

/-- The words of a program are read back, whatever places they stand at. -/
theorem ofTokens_of_words {p : Program} (h : p.isWritten = true) {tokens : List Token}
    (ht : tokens.map Token.word = wordsOf p.lines ++ [.endOfFile]) :
    ∃ q, ofTokens tokens = (q, []) ∧ q.unplaced = p.unplaced := by
  rw [Program.isWritten, List.all_eq_true] at h
  have hbound : tokens.length = (bodyWords p.declarations).length + 1 := by
    have hlen := congrArg List.length ht
    rwa [List.length_map, List.length_append] at hlen
  have hcount := length_le_bodyWords fun s hs => .inr (h s hs)
  have hskip : Parser.skipped (wordsOf p.lines ++ [.endOfFile]) =
      bodyWords p.declarations ++ [.endOfFile] :=
    Parser.skipped_of_ne (bodyWords_starts (fun s hs => .inr (h s hs)) (by decide) rfl)
  have hlen : ∀ s ∈ p.declarations, (wordsOf s.lines).length ≤ tokens.length := by
    intro s hs
    have hmem := length_mem_bodyWords hs
    omega
  have hread := Parser.reads_declarations (k := tokens.length) (by omega) hskip h hlen
  obtain ⟨ds, rest, hrun, -, hds⟩ := hread tokens #[] ht
  refine ⟨⟨ds⟩, ?_, congrArg Program.mk hds⟩
  simp only [ofTokens, hrun]

end Program

/-- **Programs are read back.** What is written for a program that the parser can build, the front
end reads without a fault as the same program up to positions. -/
theorem ofText_render (p : Program) (h : p.isWritten = true) :
    (Parsed.ofText p.render).errors = [] ∧
      (Parsed.ofText p.render).program.unplaced = p.unplaced := by
  have hsound := Program.sound_lines h
  obtain ⟨q, hread, hq⟩ := Program.ofTokens_of_words h (words_tokens_source hsound)
  have hparsed : Parsed.ofText p.render = ⟨q, []⟩ := by
    simp only [Parsed.ofText, Program.render, hread, faults_source hsound, List.map_nil,
      List.append_nil, List.mergeSort_nil]
  rw [hparsed]
  exact ⟨rfl, hq⟩

/-- A program with every form of declaration and statement: a nested array literal, escapes in its
literals, results in parentheses, all headers of loops, an `else if` and a default. -/
def tour : Program :=
  let name x := Expr.name x .origin
  let int n := Expr.int n .origin
  let grid := TypeExpr.array (int "2") (.array (.binary .add (int "1") (int "1") .origin) .int32)
  let rows := [Expr.elements [int "1", int "2"] .origin,
    .elements [int "3", .unary .neg (int "4") .origin] .origin]
  let last := Expr.index "grid" [int "1", .binary .sub (name "k") (int "1") .origin] .origin
  ⟨[.varDecl [⟨"grid", .origin⟩] (some grid) [.array grid rows .origin] .origin,
    .constDecl "greeting" (some .string) (.str "\\tto \\\"all\\\"" .origin) .origin,
    .shortDecl [⟨"late", .origin⟩] [.float "0.50" .origin] .origin,
    .func ⟨"swap", [⟨"p", .pointer .int32, .origin⟩, ⟨"q", .pointer .int32, .origin⟩],
      [.int32, .bool],
      [.shortDecl [⟨"x", .origin⟩, ⟨"y", .origin⟩]
        [.deref (name "p") .origin, .deref (name "q") .origin] .origin,
       .assign (.deref "p") .plain (name "y") .origin,
       .assign (.deref "q") (.compound .sub)
        (.binary .mul (.binary .sub (name "x") (.unary .neg (int "1") .origin) .origin) (int "2")
          .origin) .origin,
       .returnStmt [name "x",
        .logical .or (.unary .not (.bool true .origin) .origin)
          (.binary .eq (name "p") (.nil .origin) .origin) .origin] .origin]⟩ .origin,
    .func ⟨"main", [], [],
      [.loop (some (.shortDecl [⟨"k", .origin⟩] [int "0"] .origin))
        (some (.binary .lt (name "k") (int "9") .origin))
        (some (.step (.name "k") .increment .origin))
        [.ifElse [⟨.binary .eq (.binary .mod (name "k") (int "2") .origin) (int "0") .origin,
            [.continueStmt .origin]⟩,
          ⟨.binary .gt (name "k") (int "6") .origin, [.breakStmt .origin]⟩]
          (some [.assign (.index "grid" [int "1", name "k"]) (.compound .add) last .origin])
          .origin,
         .ifElse [⟨.bool false .origin, []⟩] none .origin] .origin,
       .loop none (some (.call "ready" [] .origin)) none [.block [] .origin] .origin,
       .loop none none none [.breakStmt .origin] .origin,
       .switch (.rune "\\n" .origin)
        [⟨[.rune "a" .origin, .rune "\\'" .origin], [], .origin⟩]
        (some [.expr (.call "fmt.Println" [last, .addressOf "late" .origin] .origin) .origin])
        .origin,
       .returnStmt [] .origin]⟩ .origin]⟩

theorem tour_is_read_back : tour.isWritten = true ∧ (Parsed.ofText tour.render).errors = [] ∧
    (Parsed.ofText tour.render).program.unplaced = tour.unplaced :=
  ⟨by decide +kernel, ofText_render tour (by decide +kernel)⟩

end Treewalk
