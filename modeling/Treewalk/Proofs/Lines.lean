/-
# Scanning goes by lines

A line break ends every piece but a block comment that is still open, just as
the end of the text does. So the pieces of two texts with a line break between
them are the pieces of the first, the line break, and the pieces of the second
(`lexemes_lineBreak`). Behind the line break the scanner knows nothing of what
came before it: a statement end that was due has been put in, at the place
where the end of the first text would have put it. The tokens and the faults
of the second text are then those it has by itself, further down
(`tokensFrom_down`, `faults_down`).

Key definitions: `Lexeme.breaksAt`, `Position.down`, `Token.down`,
`lineCount`.
Key theorems: `Lexeme.next_lineBreak`, `lexemes_lineBreak`,
`tokensFrom_lineBreak`, `scanning_goes_by_lines`.
-/
import Treewalk.Proofs.Coverage

namespace Treewalk

/-! ### A piece before a line break -/

namespace Lexeme

/-- Whether a line break ends the piece. Only a block comment goes on behind it. -/
def breaksAt : Lexeme → Bool
  | blockComment _ false => false
  | _ => true

/-- A closed comment is closed before whatever is put behind the text. -/
theorem blockBody_append {cs : List Char} (more : List Char) (h : (blockBody cs).2.1 = true) :
    blockBody (cs ++ more) = ((blockBody cs).1, true, (blockBody cs).2.2 ++ more) := by
  fun_induction blockBody cs with
  | case1 rest => rfl
  | case2 c rest hne body closed after hbody ih =>
    rw [hbody] at ih
    have hrest : blockBody (rest ++ more) = (body, true, after ++ more) := ih h
    have hopen : ∀ tail, c = '*' → rest ++ more ≠ '/' :: tail := by
      intro tail hc he
      cases rest with
      | nil =>
        -- a comment that ends with its star would not be closed
        have hfalse : closed = false := by simpa [blockBody] using congrArg (·.2.1) hbody.symm
        rw [hfalse] at h
        cases h
      | cons d rest =>
        obtain ⟨rfl, -⟩ := List.cons.inj he
        exact hne rest hc rfl
    rw [List.cons_append, blockBody]
    · rw [hrest]
    · exact fun tail hc he => hopen tail hc he
  | case3 => cases h

/-- A character of a literal that is neither a backslash nor a line break. -/
theorem quotedBody_cons {mark c : Char} {rest : List Char} (hnl : c ≠ '\n') (hslash : c ≠ '\\') :
    quotedBody mark (c :: rest) = if c = mark then ([], true, rest)
      else (c :: (quotedBody mark rest).1, (quotedBody mark rest).2) := by
  rw [quotedBody]
  all_goals simp [hnl, hslash]

/-- A backslash before nothing, or before anything, is a backslash. -/
theorem ne_backslash {c : Char} {rest : List Char} (hnil : c = '\\' → rest = [] → False)
    (hcons : ∀ d tail, c = '\\' → rest = d :: tail → False) : c ≠ '\\' := by
  intro hc
  cases rest with
  | nil => exact hnil hc rfl
  | cons d tail => exact hcons d tail hc rfl

/-- A line break behind a literal leaves its body as it is. -/
theorem quotedBody_lineBreak (mark : Char) (more : List Char) : ∀ cs : List Char,
    quotedBody mark (cs ++ '\n' :: more) = ((quotedBody mark cs).1, (quotedBody mark cs).2.1,
      (quotedBody mark cs).2.2 ++ '\n' :: more) := by
  intro cs
  fun_induction quotedBody mark cs with
  | case1 => rfl
  | case2 => rfl
  | case3 => rfl
  | case4 => rfl
  | case5 c rest hne body closed after hbody ih =>
    rw [hbody] at ih
    have hc : c ≠ '\n' := fun he => hne he
    simp [quotedBody, ih]
  | case6 rest hnl hlast _ hslash =>
    have hmark : mark ≠ '\\' := ne_backslash hlast hslash
    rw [List.cons_append, quotedBody_cons hnl hmark, if_pos rfl]
  | case7 c rest hnl hlast _ hslash hne body closed after hbody ih =>
    have hc : c ≠ '\\' := ne_backslash hlast hslash
    rw [List.cons_append, quotedBody_cons hnl hc, if_neg hne, ih, hbody]

/-- What is at the head of a text is there before a line break too. -/
theorem head?_lineBreak {x : Char} (hx : x ≠ '\n') (rest more : List Char) :
    (rest ++ '\n' :: more).head? = some x ↔ rest.head? = some x := by
  cases rest with
  | nil => simp [Ne.symm hx]
  | cons c rest => rfl

theorem numberBody_lineBreak (more : List Char) : ∀ cs : List Char,
    numberBody (cs ++ '\n' :: more) = ((numberBody cs).1, (numberBody cs).2 ++ '\n' :: more)
  | [] => rfl
  | c :: rest => by
    have ih := numberBody_lineBreak more rest
    have hhead : (rest ++ '\n' :: more).head?.any Char.isDigit = rest.head?.any Char.isDigit := by
      cases rest with
      | nil => rfl
      | cons d rest => rfl
    rw [List.cons_append, numberBody, numberBody, hhead]
    by_cases hc : (c.isDigit || (c = '.' && rest.head?.any Char.isDigit)) = true
    · rw [if_pos hc, if_pos hc, ih]
    · rw [if_neg hc, if_neg hc]
      rfl

/-- A run of characters of one class, before a line break that is not of it. -/
theorem span_lineBreak {p : Char → Bool} (hp : p '\n' = false) (cs more : List Char) :
    (cs ++ '\n' :: more).takeWhile p = cs.takeWhile p ∧
      (cs ++ '\n' :: more).dropWhile p = cs.dropWhile p ++ '\n' :: more := by
  induction cs with
  | nil => simp [hp]
  | cons c cs ih =>
    by_cases hc : p c = true
    · simp [hc, ih]
    · simp [hc]

theorem markOf_lineBreak (c : Char) (rest more : List Char) :
    markOf c (rest ++ '\n' :: more) = ((markOf c rest).1, (markOf c rest).2 ++ '\n' :: more) := by
  cases rest with
  | nil =>
    have hnone : Token.doubleMarks.lookup (c, '\n') = none := by
      have hall : ∀ p ∈ Token.doubleMarks, p.1.2 ≠ '\n' := by decide
      rw [List.lookup_eq_none_iff]
      intro p hp
      rw [bne_iff_ne]
      intro he
      exact hall p hp (by rw [← he])
    cases hsingle : Token.singleMarks.lookup c with
    | none => simp [markOf, hnone, hsingle]
    | some kind => simp [markOf, hnone, hsingle]
  | cons d rest =>
    unfold markOf
    simp only [List.cons_append, List.head?_cons, List.tail_cons]
    split
    · rfl
    · split <;> rfl

/-- **A piece ends at a line break as it ends at the end of the text.** -/
theorem next_lineBreak {c : Char} {rest : List Char} (more : List Char)
    (h : (next c rest).1.breaksAt = true) :
    next c (rest ++ '\n' :: more) = ((next c rest).1, (next c rest).2 ++ '\n' :: more) := by
  have hslash := head?_lineBreak (x := '/') (by decide) rest more
  have hstar := head?_lineBreak (x := '*') (by decide) rest more
  have htail : ∀ {x}, rest.head? = some x → (rest ++ '\n' :: more).tail = rest.tail ++ '\n' :: more := by
    intro x hx
    obtain ⟨tail, rfl⟩ := List.head?_eq_some_iff.mp hx
    rfl
  unfold next at h ⊢
  simp only [hslash, hstar]
  split
  · rfl
  split
  · rfl
  split
  · next hcomment =>
    have hrest := of_decide_eq_true (Bool.and_eq_true_iff.mp hcomment).2
    obtain ⟨htake, hdrop⟩ := span_lineBreak (p := (· != '\n')) rfl rest.tail more
    rw [htail hrest, htake, hdrop]
  split
  · next hblank hnl hline hcomment =>
    have hrest := of_decide_eq_true (Bool.and_eq_true_iff.mp hcomment).2
    rw [if_neg hblank, if_neg hnl, if_neg hline, if_pos hcomment] at h
    have hclosed : (blockBody rest.tail).2.1 = true := by
      cases hc : (blockBody rest.tail).2.1 with
      | true => rfl
      | false => simp [breaksAt, hc] at h
    rw [htail hrest, blockBody_append _ hclosed, hclosed]
  split
  · rw [quotedBody_lineBreak]
  split
  · rw [quotedBody_lineBreak]
  split
  · rw [← List.cons_append, numberBody_lineBreak]
  split
  · obtain ⟨htake, hdrop⟩ := span_lineBreak (p := isNameChar) (by decide) (c :: rest) more
    rw [← List.cons_append, htake, hdrop]
  · exact markOf_lineBreak c rest more

/-! ### All pieces -/

theorem length_next_lt (c : Char) (rest : List Char) : (next c rest).2.length < (c :: rest).length := by
  have htotal := congrArg List.length (next_text c rest)
  have hne := List.length_pos_iff.mpr (text_ne_nil (next_cut c rest))
  rw [List.length_append] at htotal
  omega

/-- As many pieces as there are characters are enough, and more change nothing. -/
theorem pieces_bound : ∀ {n k : Nat} {cs : List Char}, cs.length ≤ n → cs.length ≤ k →
    pieces n cs = pieces k cs
  | 0, 0, _, _, _ => rfl
  | 0, _ + 1, [], _, _ => rfl
  | _ + 1, 0, [], _, _ => rfl
  | _ + 1, _ + 1, [], _, _ => rfl
  | n + 1, k + 1, c :: rest, hn, hk => by
    have hlt := length_next_lt c rest
    rw [pieces_succ, pieces_succ, pieces_bound (show (next c rest).2.length ≤ n by omega)
      (show (next c rest).2.length ≤ k by omega)]

end Lexeme

/-- The pieces of a text are its first piece and those of the text behind it. -/
theorem lexemes_cons (c : Char) (rest : List Char) :
    lexemes (c :: rest) = (Lexeme.next c rest).1 :: lexemes (Lexeme.next c rest).2 := by
  have hlt := Lexeme.length_next_lt c rest
  have hbound : Lexeme.pieces rest.length (Lexeme.next c rest).2 = lexemes (Lexeme.next c rest).2 :=
    Lexeme.pieces_bound (Nat.le_of_lt_succ hlt) (Nat.le_refl _)
  rw [← hbound]
  rfl

/-- **A line break is cut out of a text,** unless a comment runs over it. -/
theorem lexemes_lineBreak (cs more : List Char) (h : ∀ l ∈ lexemes cs, l.breaksAt = true) :
    lexemes (cs ++ '\n' :: more) = lexemes cs ++ .lineBreak :: lexemes more := by
  -- the text behind the first piece is shorter
  induction hlen : cs.length using Nat.strongRecOn generalizing cs with
  | ind n ih =>
    cases cs with
    | nil => exact lexemes_cons '\n' more
    | cons c rest =>
      have hlt := Lexeme.length_next_lt c rest
      rw [lexemes_cons, List.forall_mem_cons] at h
      have hrest := ih _ (hlen ▸ hlt) _ h.2 rfl
      rw [List.cons_append, lexemes_cons, Lexeme.next_lineBreak more h.1, hrest, lexemes_cons]
      rfl

/-! ### Further down -/

/-- The position so many lines further down. -/
def Position.down (n : Nat) (p : Position) : Position := { p with line := p.line + n }

/-- The token so many lines further down. -/
def Token.down (n : Nat) (t : Token) : Token := { t with pos := t.pos.down n }

theorem Position.next_down (n : Nat) (p : Position) (c : Char) :
    (p.down n).next c = (p.next c).down n := by
  unfold next down
  by_cases hc : c = '\n'
  · simp only [if_pos hc]
    congr 1
    omega
  · simp only [if_neg hc]

theorem Position.after_down (n : Nat) (p : Position) (text : List Char) :
    (p.down n).after text = (p.after text).down n := by
  induction text generalizing p with
  | nil => rfl
  | cons c text ih => rw [after_cons, after_cons, next_down, ih]

theorem unknownEscapes_down (n : Nat) (pos : Position) (body : List Char) :
    unknownEscapes (pos.down n) body =
      (unknownEscapes pos body).map (Prod.map id (Position.down n)) := by
  fun_induction unknownEscapes pos body with
  | case1 pos c rest faults hc ih =>
    simp only [unknownEscapes, if_pos hc, Position.next_down]
    exact ih
  | case2 pos c rest faults hc ih =>
    simp only [unknownEscapes, if_neg hc, Position.next_down, List.map_cons]
    rw [ih]
    rfl
  | case3 pos c rest hne ih =>
    rw [unknownEscapes, Position.next_down, ih]
    exact hne
  | case4 => rfl

namespace Lexeme

theorem token?_down (l : Lexeme) (n : Nat) (pos : Position) :
    l.token? (pos.down n) = (l.token? pos).map (Token.down n) := by
  unfold token?
  split <;> rfl

theorem faults_down (l : Lexeme) (n : Nat) (pos : Position) :
    l.faults (pos.down n) = (l.faults pos).map (Prod.map id (Position.down n)) := by
  unfold faults
  split
  · rfl
  · rw [Position.next_down, unknownEscapes_down, List.map_append]
    congr 1
    split
    · rfl
    · rfl
    · split <;> rfl
    · rfl
  · split <;> rfl
  · rfl
  · rfl

end Lexeme

theorem lineEnd?_down (due : Bool) (n : Nat) (pos : Position) :
    lineEnd? due (pos.down n) = (lineEnd? due pos).map (Token.down n) := by
  cases due <;> rfl

/-- The tokens of pieces that begin further down stand further down. -/
theorem tokensFrom_down (n : Nat) : ∀ (due : Bool) (pos : Position) (ls : List Lexeme),
    tokensFrom due (pos.down n) ls = (tokensFrom due pos ls).map (Token.down n)
  | due, pos, [] => by
    rw [tokensFrom, tokensFrom, lineEnd?_down, List.map_append]
    rfl
  | due, pos, l :: ls => by
    have ih := fun due => tokensFrom_down n due (pos.after l.text) ls
    rw [tokensFrom, tokensFrom, Position.after_down, Lexeme.token?_down, lineEnd?_down]
    by_cases hl : l.endsLine = true
    · rw [if_pos hl, if_pos hl, ih, List.map_append]
    · rw [if_neg hl, if_neg hl]
      cases ht : l.token? pos with
      | none => exact ih due
      | some t => exact congrArg _ (ih t.kind.endsStatement)

/-- The faults of the pieces that begin at a position. -/
def faultsFrom (pos : Position) (ls : List Lexeme) : List (LexicalFault × Position) :=
  (located pos ls).flatMap fun (l, pos) => l.faults pos

theorem faultsFrom_cons (pos : Position) (l : Lexeme) (ls : List Lexeme) :
    faultsFrom pos (l :: ls) = l.faults pos ++ faultsFrom (pos.after l.text) ls := rfl

theorem faultsFrom_down (n : Nat) : ∀ (pos : Position) (ls : List Lexeme),
    faultsFrom (pos.down n) ls = (faultsFrom pos ls).map (Prod.map id (Position.down n))
  | _, [] => rfl
  | pos, l :: ls => by
    rw [faultsFrom_cons, faultsFrom_cons, Lexeme.faults_down, Position.after_down,
      faultsFrom_down n, List.map_append]

/-! ### Tokens and faults behind a line break -/

/-- No statement end is the end of file. -/
theorem filter_lineEnd? (due : Bool) (pos : Position) :
    (lineEnd? due pos).filter (·.kind != .endOfFile) = lineEnd? due pos := by
  cases due <;> rfl

/-- Behind a line break nothing is due: the tokens before it are those that a text ending there has,
but for its end of file. -/
theorem tokensFrom_lineBreak : ∀ {ls : List Lexeme} (ms : List Lexeme) (due : Bool) (pos : Position),
    Lexeme.AllCut ls → tokensFrom due pos (ls ++ .lineBreak :: ms) =
      (tokensFrom due pos ls).filter (·.kind != .endOfFile) ++
        tokensFrom false ((pos.after (ls.flatMap Lexeme.text)).next '\n') ms
  | [], ms, due, pos, _ => by
    cases due <;> rfl
  | l :: ls, ms, due, pos, ⟨hcut, hls⟩ => by
    have ih := fun due => tokensFrom_lineBreak ms due (pos.after l.text) hls
    rw [List.flatMap_cons, Position.after_append, List.cons_append, tokensFrom, tokensFrom]
    by_cases hl : l.endsLine = true
    · rw [if_pos hl, if_pos hl, ih, List.filter_append, filter_lineEnd?, List.append_assoc]
    · rw [if_neg hl, if_neg hl]
      cases ht : l.token? pos with
      | none => exact ih due
      | some t =>
        have hkind : (t.kind != .endOfFile) = true :=
          bne_iff_ne.mpr (Lexeme.spelling_token hcut ht).2.2.1
        simp only [List.filter_cons, hkind, if_true, List.cons_append]
        rw [ih]

theorem faultsFrom_lineBreak : ∀ (ls ms : List Lexeme) (pos : Position),
    faultsFrom pos (ls ++ .lineBreak :: ms) = faultsFrom pos ls ++
      faultsFrom ((pos.after (ls.flatMap Lexeme.text)).next '\n') ms
  | [], _, _ => rfl
  | l :: ls, ms, pos => by
    rw [List.cons_append, faultsFrom_cons, faultsFrom_cons, faultsFrom_lineBreak ls ms,
      List.flatMap_cons, Position.after_append, List.append_assoc]

/-- An open comment is reported. -/
theorem unclosedComment_mem : ∀ {ls : List Lexeme} {l : Lexeme} (pos : Position), l ∈ ls →
    l.breaksAt = false → ∃ f ∈ faultsFrom pos ls, f.1 = .unclosedComment
  | k :: ls, l, pos, hmem, hl => by
    rw [faultsFrom_cons]
    rcases List.mem_cons.mp hmem with rfl | hmem
    · match l, hl with
      | .blockComment body false, _ =>
        exact ⟨(.unclosedComment, pos), by simp [Lexeme.faults], rfl⟩
    · obtain ⟨f, hf, he⟩ := unclosedComment_mem (pos.after k.text) hmem hl
      exact ⟨f, List.mem_append_right _ hf, he⟩

/-! ### Texts -/

/-- The number of lines of a text: one more than it has line breaks. -/
def lineCount (text : String) : Nat := text.toList.count '\n' + 1

/-- Behind a text and a line break, a further text begins on the next line. -/
theorem start_down_lineCount (text : String) :
    (Position.start.after text.toList).next '\n' = Position.start.down (lineCount text) := by
  rw [Position.after_start]
  simp only [Position.next, Position.behind, if_true, Position.down, Position.start, lineCount]
  congr 1
  omega

/-- **Scanning goes by lines.** Two texts with a line break between them have the tokens of the
first, but for its end of file, and then those of the second, as many lines further down as the
first has; and so it is with their faults. This holds unless a comment of the first is not closed.
With fewer than `UInt32.size - 2` characters together no line and no column outgrows 32 bits. -/
theorem scanning_goes_by_lines (a b : String)
    (h : ∀ f ∈ (Scan.ofText a).faults, f.1 ≠ .unclosedComment) :
    (Scan.ofText (a ++ "\n" ++ b)).tokens =
        (Scan.ofText a).tokens.filter (·.kind != .endOfFile) ++
          (Scan.ofText b).tokens.map (Token.down (lineCount a)) ∧
      (Scan.ofText (a ++ "\n" ++ b)).faults =
        (Scan.ofText a).faults ++
          (Scan.ofText b).faults.map (Prod.map id (Position.down (lineCount a))) ∧
      (a.length + b.length < UInt32.size - 2 →
        (∀ t ∈ (Scan.ofText (a ++ "\n" ++ b)).tokens,
          t.pos.line < UInt32.size ∧ t.pos.column < UInt32.size) ∧
        ∀ f ∈ (Scan.ofText (a ++ "\n" ++ b)).faults,
          f.2.line < UInt32.size ∧ f.2.column < UInt32.size) := by
  have hbreaks : ∀ l ∈ lexemes a.toList, l.breaksAt = true := by
    intro l hl
    cases hopen : l.breaksAt with
    | true => rfl
    | false =>
      obtain ⟨f, hf, he⟩ := unclosedComment_mem .start hl hopen
      exact absurd he (h f hf)
  have htext : (a ++ "\n" ++ b).toList = a.toList ++ '\n' :: b.toList := by simp
  have hpieces := lexemes_lineBreak a.toList b.toList hbreaks
  have hbehind : (Position.start.after ((lexemes a.toList).flatMap Lexeme.text)).next '\n' =
      Position.start.down (lineCount a) := by
    rw [text_lexemes, start_down_lineCount]
  refine ⟨?_, ?_, ?_⟩
  · show tokensFrom false .start (lexemes (a ++ "\n" ++ b).toList) = _
    rw [htext, hpieces, tokensFrom_lineBreak _ _ _ (cut_lexemes a.toList), hbehind, tokensFrom_down]
    rfl
  · show faultsFrom .start (lexemes (a ++ "\n" ++ b).toList) = _
    rw [htext, hpieces, faultsFrom_lineBreak, hbehind, faultsFrom_down]
    rfl
  · intro hlen
    have hlen' : (a ++ "\n" ++ b).length < UInt32.size - 1 := by
      have hbreak : "\n".length = 1 := rfl
      rw [String.length_append, String.length_append, hbreak]
      omega
    refine ⟨fun t ht => ?_, fun f hf => ?_⟩
    · obtain ⟨before, after, hsplit, hpos⟩ := Scan.pos_mem_tokens ht
      exact behind_lt hlen' hsplit hpos
    · obtain ⟨before, after, hsplit, hpos⟩ := Scan.pos_mem_faults hf
      exact behind_lt hlen' hsplit hpos

/-- The first text ends in a literal that is not closed, behind a comment over two lines. -/
theorem openLiteral_goes_by_lines :
    (∀ f ∈ (Scan.ofText "x /* 1\n2 */ 'q\\").faults, f.1 ≠ .unclosedComment) ∧
      (Scan.ofText ("x /* 1\n2 */ 'q\\" ++ "\n" ++ "y \"\\q")).tokens =
        (Scan.ofText "x /* 1\n2 */ 'q\\").tokens.filter (·.kind != .endOfFile) ++
          (Scan.ofText "y \"\\q").tokens.map (Token.down 2) ∧
      (Scan.ofText ("x /* 1\n2 */ 'q\\" ++ "\n" ++ "y \"\\q")).faults =
        [(.unclosedRune, ⟨2, 6⟩)] ++
          [(.unknownEscape 'q', ⟨1, 4⟩), (.unclosedString, ⟨1, 3⟩)].map
            (Prod.map id (Position.down 2)) := by
  have hclosed : ∀ f ∈ (Scan.ofText "x /* 1\n2 */ 'q\\").faults, f.1 ≠ .unclosedComment := by
    decide +kernel
  obtain ⟨htokens, hfaults, -⟩ := scanning_goes_by_lines _ "y \"\\q" hclosed
  refine ⟨hclosed, htokens, ?_⟩
  have ha : (Scan.ofText "x /* 1\n2 */ 'q\\").faults = [(.unclosedRune, ⟨2, 6⟩)] := by
    decide +kernel
  have hb : (Scan.ofText "y \"\\q").faults =
      [(.unknownEscape 'q', ⟨1, 4⟩), (.unclosedString, ⟨1, 3⟩)] := by
    decide +kernel
  rw [hfaults, ha, hb]
  rfl

end Treewalk
