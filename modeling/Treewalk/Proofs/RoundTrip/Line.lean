/-
# Lines and how they are scanned

A source is laid out in lines of words. Between two words of a line there is
a blank, unless they belong together, as a name and the parenthesis behind it
do. Where two words without a blank would be scanned as something else, the
blank stands in any case, so that the scanner finds the words of every line
again whatever they are (`words_tokens_source`). It adds a statement end to
the lines whose last word may end a statement.

Key definitions: `Word.apart`, `Line.lexemes`, `Line.words`, `sourceText`.
Key theorems: `pieces_of_scannable`, `words_tokens_source`, `faults_source`.
-/
import Treewalk.Proofs.RoundTrip.Word

namespace Treewalk

/-! ### The layout -/

namespace Word

/-- The statement end that the scanner adds to a line. -/
def lineEnd : Word := ⟨.semicolon, "\n"⟩

/-- The end of the source. -/
def endOfFile : Word := ⟨.endOfFile, "EOF"⟩

/-- Whether a word is a sign before its operand, seen from the word before it. -/
def isSign (before : Option Word) (w : Word) : Bool :=
  w.kind == .bang || w.kind == .ampersand ||
    ((w.kind == .minus || w.kind == .star) && !before.any (·.kind.endsStatement))

/-- Whether two neighbours belong together. -/
def joins (before : Option Word) (w v : Word) : Bool :=
  w.isSign before || [.openParen, .openBracket, .openBrace, .dot].contains w.kind ||
    [.closeParen, .closeBracket, .closeBrace, .comma, .colon, .dot, .increment,
      .decrement].contains v.kind ||
    ((w.kind == .star || w.kind == .closeBracket) && v.kind.startsType) ||
    (w.kind == .identifier && (v.kind == .openParen || v.kind == .openBracket)) ||
    (v.kind == .semicolon && w.kind != .kwFor)

/-- Whether there is a blank between two neighbours: where they do not belong together, and where
they would run together. -/
def apart (before : Option Word) (w v : Word) : Bool :=
  !w.joins before v || v.lexeme.text.head?.any w.lexeme.extendedBy

end Word

/-- The kind of the word at hand, where the given words are to be read. -/
def firstKind (ws : List Word) : Token.Kind := (ws.headD .endOfFile).kind

@[simp] theorem firstKind_cons (w : Word) (ws : List Word) : firstKind (w :: ws) = w.kind := rfl

/-- One line of a source. -/
abbrev Line := List Word

namespace Line

/-- The pieces of the rest of a line behind a word. -/
def lexemesFrom (before : Option Word) : Line → List Lexeme
  | [] => []
  | [w] => [w.lexeme]
  | w :: v :: rest =>
    w.lexeme :: ((if w.apart before v then [.blank ' '] else []) ++
      lexemesFrom (some w) (v :: rest))

/-- The pieces of a line. -/
def lexemes (l : Line) : List Lexeme := lexemesFrom none l ++ [.lineBreak]

/-- The words of the rest of a line, and its statement end if one is due. -/
def wordsFrom (due : Bool) : Line → List Word
  | [] => if due then [.lineEnd] else []
  | w :: rest => w :: wordsFrom w.kind.endsStatement rest

/-- What the parser gets of a line. -/
def words (l : Line) : List Word := wordsFrom false l

/-- Whether the last word of a line may end a statement. -/
def ends (l : Line) : Bool := l.getLast?.any (·.kind.endsStatement)

theorem ends_concat (l : Line) (w : Word) : ends (l ++ [w]) = w.kind.endsStatement := by
  simp [ends]

theorem ne_nil_of_ends {l : Line} (h : ends l = true) : l ≠ [] := by
  rintro rfl
  cases h

theorem ends_append {l m : Line} (h : ends m = true) : ends (l ++ m) = true := by
  unfold ends at h ⊢
  rw [List.getLast?_append]
  cases hm : m.getLast? with
  | none => rw [hm] at h; cases h
  | some w => rw [hm] at h; exact h

theorem ends_cons {w : Word} {l : Line} (h : ends l = true) : ends (w :: l) = true :=
  ends_append (l := [w]) h

theorem wordsFrom_eq : ∀ (due : Bool) (l : Line), wordsFrom due l =
    l ++ if l.getLast?.elim due (·.kind.endsStatement) then [.lineEnd] else []
  | _, [] => rfl
  | _, w :: l => by
    rw [wordsFrom, wordsFrom_eq w.kind.endsStatement l, List.getLast?_cons]
    cases l.getLast? <;> rfl

/-- A line whose last word may end a statement. -/
theorem words_of_ends {l : Line} (h : ends l = true) : words l = l ++ [.lineEnd] := by
  rw [words, wordsFrom_eq]
  unfold ends at h
  cases hl : l.getLast? with
  | none => rw [hl] at h; cases h
  | some w => rw [hl] at h; simp [show w.kind.endsStatement = _ from h]

/-- A line that goes on in the next one. -/
theorem words_of_open {l : Line} (h : ends l = false) : words l = l := by
  rw [words, wordsFrom_eq]
  unfold ends at h
  cases hl : l.getLast? with
  | none => simp
  | some w => rw [hl] at h; simp [show w.kind.endsStatement = _ from h]

end Line

/-- What the parser gets of lines. -/
def wordsOf (ls : List Line) : List Word := ls.flatMap Line.words

@[simp] theorem wordsOf_nil : wordsOf [] = [] := rfl

@[simp] theorem wordsOf_cons (l : Line) (ls : List Line) :
    wordsOf (l :: ls) = l.words ++ wordsOf ls := rfl

@[simp] theorem wordsOf_append (ls ms : List Line) :
    wordsOf (ls ++ ms) = wordsOf ls ++ wordsOf ms :=
  List.flatMap_append

/-- The pieces of a source. -/
def sourceLexemes (ls : List Line) : List Lexeme := ls.flatMap Line.lexemes

/-- A source, as it is written. -/
def sourceText (ls : List Line) : String :=
  String.ofList ((sourceLexemes ls).flatMap Lexeme.text)

/-! ### Pieces that are scanned back -/

/-- Whole pieces, none of which is gone on with by those behind it. -/
def Scannable : List Lexeme → Prop
  | [] => True
  | l :: ls => l.isWhole = true ∧ l.Stops (ls.flatMap Lexeme.text) ∧ Scannable ls

theorem pieces_of_scannable : ∀ {ls : List Lexeme} {n : Nat}, Scannable ls → ls.length ≤ n →
    Lexeme.pieces n (ls.flatMap Lexeme.text) = ls
  | [], n, _, _ => by cases n <;> rfl
  | l :: ls, n + 1, ⟨hwhole, hstops, hls⟩, hn => by
    obtain ⟨c, cs, htext, hnext⟩ := Lexeme.next_of_isWhole hwhole hstops
    have hrest := pieces_of_scannable hls (Nat.le_of_succ_le_succ hn)
    rw [List.flatMap_cons, htext, List.cons_append]
    simp only [Lexeme.pieces, hnext, hrest]

theorem length_le_of_scannable : ∀ {ls : List Lexeme}, Scannable ls →
    ls.length ≤ (ls.flatMap Lexeme.text).length
  | [], _ => Nat.le_refl 0
  | l :: ls, ⟨hwhole, hstops, hls⟩ => by
    obtain ⟨c, cs, htext, -⟩ := Lexeme.next_of_isWhole hwhole hstops
    have hrest := length_le_of_scannable hls
    rw [List.flatMap_cons, htext]
    simp only [List.length_cons, List.length_append]
    omega

theorem lexemes_of_scannable {ls : List Lexeme} (h : Scannable ls) :
    lexemes (ls.flatMap Lexeme.text) = ls :=
  pieces_of_scannable h (length_le_of_scannable h)

theorem faults_of_scannable : ∀ {ls : List Lexeme} (pos : Position), Scannable ls →
    ((located pos ls).flatMap fun (l, pos) => l.faults pos) = []
  | [], _, _ => rfl
  | l :: ls, pos, ⟨hwhole, _, hls⟩ => by
    simp [located, Lexeme.faults_of_isWhole hwhole, faults_of_scannable _ hls]

/-! ### Lines are scanned back -/

/-- No piece goes on with a blank or a line end. -/
theorem Lexeme.not_extendedBy {l : Lexeme} {d : Char} (hd : d = ' ' ∨ d = '\n') :
    l.extendedBy d = false := by
  have hmark : ∀ c, Token.doubleMarks.lookup (c, d) = none := by
    intro c
    have hall : ∀ p ∈ Token.doubleMarks, p.1.2 ≠ ' ' ∧ p.1.2 ≠ '\n' := by decide
    rw [List.lookup_eq_none_iff]
    intro p hp
    rw [bne_iff_ne]
    intro he
    have hsecond : p.1.2 = d := by rw [← he]
    rcases hd with rfl | rfl
    · exact (hall p hp).1 hsecond
    · exact (hall p hp).2 hsecond
  unfold Lexeme.extendedBy
  split
  · rcases hd with rfl | rfl <;> rfl
  · rcases hd with rfl | rfl <;> rfl
  · rw [hmark]
    rcases hd with rfl | rfl <;> simp
  · rfl

theorem Lexeme.stops_blank {l : Lexeme} {d : Char} {rest : List Char} (hd : d = ' ' ∨ d = '\n') :
    l.Stops (d :: rest) := by
  intro e he
  cases he
  exact l.not_extendedBy hd

theorem scannable_cons_blank {ls : List Lexeme} (h : Scannable ls) :
    Scannable (.blank ' ' :: ls) :=
  ⟨rfl, fun _ _ => rfl, h⟩

/-- A word whose lexeme is followed by that of another. -/
theorem Word.stops_of_not_apart {before : Option Word} {w v : Word} (hv : v.sound = true)
    (h : w.apart before v = false) (rest : List Char) :
    w.lexeme.Stops (v.lexeme.text ++ rest) := by
  obtain ⟨c, cs, htext, -⟩ := Lexeme.next_of_isWhole (Word.isWhole_lexeme hv)
    (show v.lexeme.Stops [] from fun d hd => by cases hd)
  obtain ⟨-, hany⟩ := Bool.or_eq_false_iff.mp h
  intro d hd
  rw [htext] at hd hany
  cases hd
  simpa using hany

theorem scannable_line {rest : List Lexeme} (hrest : Scannable rest) :
    ∀ (before : Option Word) (l : Line), (∀ w ∈ l, w.sound = true) →
      Scannable (Line.lexemesFrom before l ++ .lineBreak :: rest)
  | _, [], _ => ⟨rfl, fun _ _ => rfl, hrest⟩
  | _, [w], h => by
    have hw := Word.isWhole_lexeme (h w (by simp))
    exact ⟨hw, Lexeme.stops_blank (.inr rfl), rfl, fun _ _ => rfl, hrest⟩
  | before, w :: v :: l, h => by
    have hw := Word.isWhole_lexeme (h w (by simp))
    have hv : v.sound = true := h v (by simp)
    have htail := scannable_line hrest (some w) (v :: l) fun x hx => h x (by simp [hx])
    unfold Line.lexemesFrom
    cases hapart : w.apart before v with
    | true => exact ⟨hw, Lexeme.stops_blank (.inl rfl), scannable_cons_blank htail⟩
    | false =>
      refine ⟨hw, ?_, htail⟩
      obtain ⟨rest', hfirst⟩ : ∃ rest', Line.lexemesFrom (some w) (v :: l) = v.lexeme :: rest' := by
        cases l with
        | nil => exact ⟨[], rfl⟩
        | cons x l => exact ⟨_, rfl⟩
      have hstops := Word.stops_of_not_apart hv hapart
        ((rest' ++ .lineBreak :: rest).flatMap Lexeme.text)
      simpa [hfirst] using hstops

theorem scannable_source : ∀ ls : List Line, (∀ l ∈ ls, ∀ w ∈ l, w.sound = true) →
    Scannable (sourceLexemes ls)
  | [], _ => trivial
  | l :: ls, h => by
    have hrest := scannable_source ls fun l' hl' => h l' (by simp [hl'])
    have hline := scannable_line hrest none l (h l (by simp))
    simpa [sourceLexemes, Line.lexemes] using hline

/-! ### The tokens of lines -/

theorem tokensFrom_word {w : Word} (hw : w.sound = true) (due : Bool) (pos : Position)
    (ls : List Lexeme) : tokensFrom due pos (w.lexeme :: ls) =
      ⟨w.kind, w.text, pos⟩ :: tokensFrom w.kind.endsStatement (pos.after w.lexeme.text) ls := by
  simp [tokensFrom, Word.endsLine_lexeme, Word.token_lexeme hw]

/-- The tokens of a line, and of what stands in the lines behind it. -/
theorem words_tokensFrom_line (rest : List Lexeme) : ∀ (before : Option Word) (due : Bool)
    (pos : Position) (l : Line), (∀ w ∈ l, w.sound = true) → ∃ pos',
      (tokensFrom due pos (Line.lexemesFrom before l ++ .lineBreak :: rest)).map Token.word =
        Line.wordsFrom due l ++ (tokensFrom false pos' rest).map Token.word
  | _, due, pos, [], _ => by
    refine ⟨pos.next '\n', ?_⟩
    cases due <;> rfl
  | _, due, pos, [w], h => by
    have hw : w.sound = true := h w (by simp)
    obtain ⟨pos', htail⟩ := words_tokensFrom_line rest (some w) w.kind.endsStatement
      (pos.after w.lexeme.text) [] (by simp)
    refine ⟨pos', ?_⟩
    rw [Line.lexemesFrom, List.singleton_append, tokensFrom_word hw, List.map_cons]
    exact congrArg _ htail
  | before, due, pos, w :: v :: l, h => by
    have hw : w.sound = true := h w (by simp)
    have htail := fun pos => words_tokensFrom_line rest (some w) w.kind.endsStatement pos
      (v :: l) fun x hx => h x (by simp [hx])
    unfold Line.lexemesFrom
    rw [List.cons_append, tokensFrom_word hw, List.map_cons, List.append_assoc]
    cases w.apart before v with
    | true =>
      -- the blank leaves no token
      obtain ⟨pos', htail⟩ := htail ((pos.after w.lexeme.text).after [' '])
      exact ⟨pos', congrArg _ htail⟩
    | false =>
      obtain ⟨pos', htail⟩ := htail (pos.after w.lexeme.text)
      exact ⟨pos', congrArg _ htail⟩

theorem words_tokensFrom_source : ∀ (ls : List Line) (pos : Position),
    (∀ l ∈ ls, ∀ w ∈ l, w.sound = true) →
    (tokensFrom false pos (sourceLexemes ls)).map Token.word = wordsOf ls ++ [.endOfFile]
  | [], _, _ => rfl
  | l :: ls, pos, h => by
    obtain ⟨pos', hline⟩ := words_tokensFrom_line (sourceLexemes ls) none false pos l
      (h l (by simp))
    have hrest := words_tokensFrom_source ls pos' fun l' hl' => h l' (by simp [hl'])
    rw [hrest] at hline
    simpa [sourceLexemes, Line.lexemes, Line.words] using hline

/-- **The words of a source are scanned back,** -/
theorem words_tokens_source {ls : List Line} (h : ∀ l ∈ ls, ∀ w ∈ l, w.sound = true) :
    (Scan.ofText (sourceText ls)).tokens.map Token.word =
      wordsOf ls ++ [.endOfFile] := by
  rw [Scan.ofText, sourceText, String.toList_ofList, lexemes_of_scannable (scannable_source ls h)]
  exact words_tokensFrom_source ls .start h

/-- **with nothing wrong in them.** -/
theorem faults_source {ls : List Line} (h : ∀ l ∈ ls, ∀ w ∈ l, w.sound = true) :
    (Scan.ofText (sourceText ls)).faults = [] := by
  rw [Scan.ofText, sourceText, String.toList_ofList, lexemes_of_scannable (scannable_source ls h)]
  exact faults_of_scannable .start (scannable_source ls h)

end Treewalk
