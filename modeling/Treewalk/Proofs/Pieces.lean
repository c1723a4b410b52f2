/-
# Cutting a text into pieces

The scanner cuts a text into pieces and loses nothing: the texts of the
pieces, in order, are the source, and each has a character at least, so that
as many pieces as there are characters are enough. What a piece is and what
stands behind it go together: a comment that is not closed runs to the end of
the text, a literal that is not closed to the end of its line, and a stray
character begins nothing at all.

Every token of a source is that of a piece, a line end put in, or the end of
file, which is the last one and stands nowhere else.

Key definitions: `Lexeme.Cut`, `Ended`.
Key theorems: `Lexeme.next_text`, `Lexeme.next_cut`, `text_lexemes`,
`cut_lexemes`, `Lexeme.spelling_token`, `tokensFrom_cases`,
`Scan.ended_tokens`.
-/
import Treewalk.Proofs.RoundTrip.Word

namespace Treewalk

/-! ### One piece -/

/-- The body of a literal that is still open: no line break, and the mark only behind a backslash.
A backslash may be the last character. -/
def isOpenBody (mark : Char) : List Char → Bool
  | [] => true
  | ['\\'] => true
  | '\\' :: c :: rest => c != '\n' && isOpenBody mark rest
  | c :: rest => c != '\n' && c != mark && isOpenBody mark rest

/-- The text has come to the end of a line. -/
def AtLineEnd (text : List Char) : Prop := text.head?.all (· == '\n') = true

/-- A character that begins no piece but a stray one before the given text. -/
def IsStray (c : Char) (after : List Char) : Prop :=
  Lexeme.beginsMark c = true ∧ Token.singleMarks.lookup c = none ∧
    ∀ d, after.head? = some d → Token.doubleMarks.lookup (c, d) = none

namespace Lexeme

/-- What holds of a piece that is cut off before the text `after`. -/
def Cut : Lexeme → List Char → Prop
  | blank c, _ => isBlank c = true
  | lineBreak, _ => True
  | lineComment body, after => '\n' ∉ body ∧ AtLineEnd after
  | blockComment body closed, after => ¬ ['*', '/'] <:+: body ∧ (closed = false → after = [])
  | quoted quote body closed, after =>
    isOpenBody quote.mark body = true ∧ (closed = false → AtLineEnd after)
  | number digits, _ => ∃ c rest, digits = c :: rest ∧ c.isDigit = true
  | word letters, _ => ∃ c rest, letters = c :: rest ∧ isNameStart c = true
  | mark kind characters, _ => isMark kind characters = true
  | stray c, after => IsStray c after

theorem blockBody_text : ∀ cs : List Char,
    (blockBody cs).1 ++ (if (blockBody cs).2.1 then ['*', '/'] else []) ++ (blockBody cs).2.2 = cs := by
  intro cs
  fun_induction blockBody cs with
  | case1 rest => rfl
  | case2 c rest _ body closed after hbody ih =>
    rw [hbody] at ih
    simpa using ih
  | case3 => rfl

theorem blockBody_cut : ∀ cs : List Char, ¬ ['*', '/'] <:+: (blockBody cs).1 ∧
    ((blockBody cs).2.1 = false → (blockBody cs).2.2 = []) := by
  intro cs
  fun_induction blockBody cs with
  | case1 rest => simp
  | case2 c rest hne body closed after hbody ih =>
    have htext := blockBody_text rest
    rw [hbody] at ih htext
    refine ⟨?_, ih.2⟩
    rw [List.infix_cons_iff]
    rintro (hstart | hlater)
    · obtain ⟨tail, htail⟩ := hstart
      obtain ⟨rfl, hbodyEq⟩ := List.cons.inj htail
      refine hne (tail ++ (if closed then ['*', '/'] else []) ++ after) rfl ?_
      rw [← htext, ← hbodyEq]
      simp
    · exact ih.1 hlater
  | case3 => simp

theorem quotedBody_text (mark : Char) : ∀ cs : List Char, (quotedBody mark cs).1 ++
    (if (quotedBody mark cs).2.1 then [mark] else []) ++ (quotedBody mark cs).2.2 = cs := by
  intro cs
  fun_induction quotedBody mark cs with
  | case1 => rfl
  | case2 => rfl
  | case3 => rfl
  | case4 => rfl
  | case5 c rest _ body closed after hbody ih =>
    rw [hbody] at ih
    simpa using ih
  | case6 rest => simp
  | case7 c rest _ _ _ _ hne body closed after hbody ih =>
    rw [hbody] at ih
    simpa using ih

theorem quotedBody_cut (mark : Char) : ∀ cs : List Char,
    isOpenBody mark (quotedBody mark cs).1 = true ∧
      ((quotedBody mark cs).2.1 = false → AtLineEnd (quotedBody mark cs).2.2) := by
  intro cs
  fun_induction quotedBody mark cs with
  | case1 => exact ⟨rfl, fun _ => rfl⟩
  | case2 => exact ⟨rfl, fun _ => rfl⟩
  | case3 => exact ⟨rfl, fun _ => rfl⟩
  | case4 => exact ⟨rfl, fun _ => rfl⟩
  | case5 c rest hne body closed after hbody ih =>
    rw [hbody] at ih
    refine ⟨?_, ih.2⟩
    have hc : c ≠ '\n' := fun he => hne (by rw [he])
    simp [isOpenBody, hc, ih.1]
  | case6 rest => exact ⟨rfl, nofun⟩
  | case7 c rest hnl hlast hbreak hslash hne body closed after hbody ih =>
    rw [hbody] at ih
    refine ⟨?_, ih.2⟩
    have hc : c ≠ '\\' := by
      rintro rfl
      cases rest with
      | nil => exact hlast rfl rfl
      | cons d rest => exact hslash d rest rfl rfl
    have hnewline : c ≠ '\n' := fun he => hnl he
    rw [isOpenBody]
    · simp [hnewline, hne, ih.1]
    all_goals simp [hc]

theorem numberBody_text : ∀ cs : List Char, (numberBody cs).1 ++ (numberBody cs).2 = cs := by
  intro cs
  fun_induction numberBody cs with
  | case1 => rfl
  | case2 c rest _ digits after hbody ih =>
    rw [hbody] at ih
    simpa using ih
  | case3 => rfl

/-- The mark at the beginning of a text, in its three cases. -/
theorem markOf_cases (c : Char) (rest : List Char) :
    (∃ d after kind, rest = d :: after ∧ Token.doubleMarks.lookup (c, d) = some kind ∧
        markOf c rest = (mark kind [c, d], after)) ∨
      (∃ kind, Token.singleMarks.lookup c = some kind ∧ markOf c rest = (mark kind [c], rest)) ∨
      (Token.singleMarks.lookup c = none ∧
        (∀ d, rest.head? = some d → Token.doubleMarks.lookup (c, d) = none) ∧
        markOf c rest = (stray c, rest)) := by
  unfold markOf
  split
  · next d kind h =>
    obtain ⟨e, hhead, hmap⟩ := Option.bind_eq_some_iff.mp h
    obtain ⟨kind', hlookup, he⟩ := Option.map_eq_some_iff.mp hmap
    obtain ⟨rfl, rfl⟩ := Prod.mk.inj he
    obtain ⟨after, rfl⟩ := List.head?_eq_some_iff.mp hhead
    exact .inl ⟨e, after, kind', rfl, hlookup, rfl⟩
  · next hnone =>
    cases hsingle : Token.singleMarks.lookup c with
    | some kind => exact .inr (.inl ⟨kind, rfl, rfl⟩)
    | none =>
      refine .inr (.inr ⟨rfl, ?_, rfl⟩)
      intro d hd
      rw [hd] at hnone
      simpa using hnone

/-- **Cutting off a piece loses nothing.** -/
theorem next_text (c : Char) (rest : List Char) :
    (next c rest).1.text ++ (next c rest).2 = c :: rest := by
  unfold next
  split
  · rfl
  split
  · next hnl => rw [hnl]; rfl
  split
  · next h =>
    obtain ⟨hc, hrest⟩ := Bool.and_eq_true_iff.mp h
    obtain ⟨tail, rfl⟩ := List.head?_eq_some_iff.mp (of_decide_eq_true hrest)
    simp [text, of_decide_eq_true hc]
  split
  · next h =>
    obtain ⟨hc, hrest⟩ := Bool.and_eq_true_iff.mp h
    obtain ⟨tail, rfl⟩ := List.head?_eq_some_iff.mp (of_decide_eq_true hrest)
    rw [of_decide_eq_true hc]
    exact congrArg (fun t => '/' :: '*' :: t) (blockBody_text tail)
  split
  · next hc =>
    have hbody := quotedBody_text '"' rest
    simpa [text, Quote.mark, hc] using hbody
  split
  · next hc =>
    have hbody := quotedBody_text '\'' rest
    simpa [text, Quote.mark, hc] using hbody
  split
  · exact numberBody_text (c :: rest)
  split
  · exact List.takeWhile_append_dropWhile
  · obtain ⟨d, after, kind, rfl, -, he⟩ | ⟨kind, -, he⟩ | ⟨-, -, he⟩ := markOf_cases c rest <;>
      rw [he] <;> rfl

theorem next_cut (c : Char) (rest : List Char) : (next c rest).1.Cut (next c rest).2 := by
  unfold next
  split
  · next hblank => exact hblank
  split
  · trivial
  split
  · refine ⟨?_, ?_⟩
    · intro hmem
      have hnl := List.all_eq_true.mp List.all_takeWhile _ hmem
      simp at hnl
    · show (List.dropWhile _ _).head?.all _ = true
      cases hdrop : (rest.tail.dropWhile (· != '\n')).head? with
      | none => rfl
      | some d =>
        have hd := List.head?_dropWhile_not (· != '\n') rest.tail
        rw [hdrop] at hd
        simpa using hd
  split
  · exact blockBody_cut rest.tail
  split
  · exact quotedBody_cut '"' rest
  split
  · exact quotedBody_cut '\'' rest
  split
  · next hdigit => exact ⟨c, _, by simp [numberBody, hdigit]; rfl, hdigit⟩
  split
  · next hname =>
    exact ⟨c, _, List.takeWhile_cons_of_pos (isNameChar_of_isNameStart hname), hname⟩
  · next hblank hnl _ _ hstr hrune hdigit hname =>
    obtain ⟨d, after, kind, rfl, hk, he⟩ | ⟨kind, hk, he⟩ | ⟨hsingle, hdouble, he⟩ :=
      markOf_cases c rest
    · rw [he]
      exact beq_iff_eq.mpr hk
    · rw [he]
      exact beq_iff_eq.mpr hk
    · rw [he]
      exact ⟨by simp [beginsMark, hblank, hnl, hstr, hrune, hdigit, hname], hsingle, hdouble⟩

theorem text_ne_nil {l : Lexeme} {after : List Char} (h : l.Cut after) : l.text ≠ [] := by
  cases l with
  | number digits =>
    obtain ⟨c, rest, rfl, -⟩ := h
    exact List.cons_ne_nil c rest
  | word letters =>
    obtain ⟨c, rest, rfl, -⟩ := h
    exact List.cons_ne_nil c rest
  | mark kind characters =>
    rintro rfl
    cases h
  | _ => exact List.cons_ne_nil _ _

/-! ### All pieces -/

/-- Pieces one after the other, each cut off before the text of those behind it. -/
def AllCut : List Lexeme → Prop
  | [] => True
  | l :: ls => l.Cut (ls.flatMap text) ∧ AllCut ls

theorem allCut_cons {l : Lexeme} {ls : List Lexeme} :
    AllCut (l :: ls) ↔ l.Cut (ls.flatMap text) ∧ AllCut ls := Iff.rfl

theorem pieces_succ (n : Nat) (c : Char) (rest : List Char) :
    pieces (n + 1) (c :: rest) = (next c rest).1 :: pieces n (next c rest).2 := rfl

theorem pieces_covers : ∀ (n : Nat) (cs : List Char), cs.length ≤ n →
    (pieces n cs).flatMap text = cs ∧ AllCut (pieces n cs)
  | 0, [], _ => ⟨rfl, trivial⟩
  | n + 1, [], _ => ⟨rfl, trivial⟩
  | n + 1, c :: rest, hn => by
    have htext := next_text c rest
    have hcut := next_cut c rest
    have hlen : (next c rest).2.length ≤ n := by
      have hne := List.length_pos_iff.mpr (text_ne_nil hcut)
      have htotal := congrArg List.length htext
      rw [List.length_append, List.length_cons] at htotal
      rw [List.length_cons] at hn
      omega
    obtain ⟨hrest, hall⟩ := pieces_covers n _ hlen
    rw [pieces_succ, List.flatMap_cons, allCut_cons, hrest]
    exact ⟨htext, hcut, hall⟩

end Lexeme

/-- **The texts of the pieces are the source.** -/
theorem text_lexemes (source : List Char) : (lexemes source).flatMap Lexeme.text = source :=
  (Lexeme.pieces_covers source.length source (Nat.le_refl _)).1

theorem cut_lexemes (source : List Char) : Lexeme.AllCut (lexemes source) :=
  (Lexeme.pieces_covers source.length source (Nat.le_refl _)).2

/-! ### The token of a piece -/

/-- The characters that a token is written as. -/
def Token.spelling (t : Token) : List Char :=
  match t.kind with
  | .str => '"' :: t.text.toList ++ ['"']
  | .rune => '\'' :: t.text.toList ++ ['\'']
  | .compoundAssign => t.text.toList ++ ['=']
  | _ => t.text.toList

/-- The kinds of words: names and reserved words. -/
def Token.Kind.isWord (k : Token.Kind) : Bool :=
  k == .identifier || (Token.keywords.map Prod.snd).contains k

theorem Token.Kind.isWord_ofWord (word : String) : (Token.Kind.ofWord word).isWord = true := by
  unfold Token.Kind.ofWord
  cases h : Token.keywords.lookup word with
  | none => rfl
  | some kind =>
    obtain ⟨before, after, he, -⟩ := List.lookup_eq_some_iff.mp h
    have hmem : kind ∈ Token.keywords.map Prod.snd :=
      List.mem_map.mpr ⟨(word, kind), by simp [he], rfl⟩
    simp [Token.Kind.isWord, hmem]

/-- A word is written as its text. -/
theorem Token.spelling_of_isWord {t : Token} (h : t.kind.isWord = true) :
    t.spelling = t.text.toList := by
  unfold Token.spelling
  split
  · next hk => rw [hk] at h; cases h
  · next hk => rw [hk] at h; cases h
  · next hk => rw [hk] at h; cases h
  · rfl

/-- What kind of token the characters of a mark are: no literal, no end of file, and an equals sign
ends a compound assignment of one of four operators. -/
def IsMarkOf (kind : Token.Kind) (characters : List Char) : Prop :=
  kind ≠ .str ∧ kind ≠ .rune ∧ kind ≠ .endOfFile ∧
    (kind = .semicolon → characters = [';']) ∧ (kind = .equal → characters = ['=']) ∧
    (kind = .compoundAssign → ['+', '-', '*', '/'].any (characters == [·, '=']) = true)

instance (kind : Token.Kind) (characters : List Char) : Decidable (IsMarkOf kind characters) := by
  unfold IsMarkOf
  infer_instance

theorem isMarkOf {kind : Token.Kind} {characters : List Char} (h : isMark kind characters = true) :
    IsMarkOf kind characters := by
  have hsingle : ∀ p ∈ Token.singleMarks, IsMarkOf p.2 [p.1] := by decide
  have hdouble : ∀ p ∈ Token.doubleMarks, IsMarkOf p.2 [p.1.1, p.1.2] := by decide
  match characters, h with
  | [c], h =>
    obtain ⟨before, after, he, -⟩ := List.lookup_eq_some_iff.mp (beq_iff_eq.mp h)
    exact hsingle (c, kind) (by simp [he])
  | [c, d], h =>
    obtain ⟨before, after, he, -⟩ := List.lookup_eq_some_iff.mp (beq_iff_eq.mp h)
    exact hdouble ((c, d), kind) (by simp [he])

namespace Lexeme

/-- **A token is written as its piece.** It stands where the piece begins, and is neither a line
end put in nor the end of file. -/
theorem spelling_token {l : Lexeme} {after : List Char} {pos : Position} {t : Token} (h : l.Cut after)
    (ht : l.token? pos = some t) : t.spelling = l.text ∧ t.pos = pos ∧ t.kind ≠ .endOfFile ∧
      (t.kind = .semicolon → t.text = ";") := by
  match l, h, ht with
  | quoted .string body true, _, ht =>
    cases ht
    exact ⟨by simp [Token.spelling, text, Quote.mark], rfl, nofun, nofun⟩
  | quoted .rune body true, _, ht =>
    cases ht
    exact ⟨by simp [Token.spelling, text, Quote.mark], rfl, nofun, nofun⟩
  | number digits, _, ht =>
    cases ht
    by_cases hpoint : digits.contains '.' = true
    · rw [if_pos hpoint]
      exact ⟨by simp [Token.spelling, text], rfl, nofun, nofun⟩
    · rw [if_neg hpoint]
      exact ⟨by simp [Token.spelling, text], rfl, nofun, nofun⟩
  | word letters, _, ht =>
    cases ht
    have hword := Token.Kind.isWord_ofWord (String.ofList letters)
    refine ⟨?_, rfl, ?_, ?_⟩
    · rw [Token.spelling_of_isWord hword]
      exact String.toList_ofList
    · exact fun he => by rw [show Token.Kind.ofWord _ = _ from he] at hword; cases hword
    · exact fun he => by rw [show Token.Kind.ofWord _ = _ from he] at hword; cases hword
  | mark kind characters, h, ht =>
    obtain ⟨hstr, hrune, hfile, hsemi, -, hcompound⟩ := isMarkOf h
    by_cases hc : kind = .compoundAssign
    · subst hc
      cases ht
      obtain ⟨c, -, hc⟩ := List.any_eq_true.mp (hcompound rfl)
      obtain rfl := beq_iff_eq.mp hc
      exact ⟨by simp [Token.spelling, text], rfl, nofun, nofun⟩
    · have ht' : (mark kind characters).token? pos = some ⟨kind, String.ofList characters, pos⟩ := by
        simp [token?]
      rw [ht'] at ht
      cases ht
      refine ⟨?_, rfl, hfile, ?_⟩
      · simp [Token.spelling, text]
      · intro he
        rw [hsemi he]

end Lexeme

/-! ### The end of file -/

/-- Tokens that end with the end of file, which stands nowhere else. -/
def Ended (tokens : List Token) : Prop :=
  ∃ init last, tokens = init ++ [last] ∧ last.kind = .endOfFile ∧ ∀ t ∈ init, t.kind ≠ .endOfFile

theorem ended_singleton {t : Token} (h : t.kind = .endOfFile) : Ended [t] :=
  ⟨[], t, rfl, h, nofun⟩

theorem ended_cons {t : Token} {ts : List Token} (h : t.kind ≠ .endOfFile) :
    Ended (t :: ts) ↔ Ended ts := by
  constructor
  · rintro ⟨init, last, he, hlast, hinit⟩
    cases init with
    | nil =>
      obtain ⟨rfl, -⟩ := List.cons.inj he
      exact absurd hlast h
    | cons u init =>
      obtain ⟨rfl, rfl⟩ := List.cons.inj he
      exact ⟨init, last, rfl, hlast, fun t ht => hinit t (List.mem_cons_of_mem _ ht)⟩
  · rintro ⟨init, last, rfl, hlast, hinit⟩
    exact ⟨t :: init, last, rfl, hlast, List.forall_mem_cons.mpr ⟨h, hinit⟩⟩

theorem Ended.ne_nil {ts : List Token} (h : Ended ts) : ts ≠ [] := by
  obtain ⟨init, last, rfl, -⟩ := h
  simp

/-- What stands behind the end of file is nothing. -/
theorem Ended.eq_singleton {t : Token} {ts : List Token} (h : Ended (t :: ts))
    (ht : t.kind = .endOfFile) : ts = [] := by
  obtain ⟨init, last, he, -, hinit⟩ := h
  cases init with
  | nil => exact (List.cons.inj he).2
  | cons u init =>
    obtain ⟨rfl, -⟩ := List.cons.inj he
    exact absurd ht (hinit t (by simp))

theorem ended_lineEnd? {due : Bool} {pos : Position} {ts : List Token} (h : Ended ts) :
    Ended (lineEnd? due pos ++ ts) := by
  cases due with
  | false => exact h
  | true => exact (ended_cons (t := Token.lineEnd pos) nofun).mpr h

/-- What the first piece adds to the tokens: the line end that is due, a token, or nothing. -/
theorem tokensFrom_cases (due : Bool) (pos : Position) (l : Lexeme) (ls : List Lexeme) :
    (l.token? pos = none ∧ tokensFrom due pos (l :: ls) =
        lineEnd? due pos ++ tokensFrom false (pos.after l.text) ls) ∨
      (∃ t, l.token? pos = some t ∧ tokensFrom due pos (l :: ls) =
        t :: tokensFrom t.kind.endsStatement (pos.after l.text) ls) ∨
      (l.token? pos = none ∧ tokensFrom due pos (l :: ls) =
        tokensFrom due (pos.after l.text) ls) := by
  by_cases hline : l.endsLine = true
  · have hnone : l.token? pos = none := by
      cases l with
      | lineBreak => rfl
      | blockComment body closed => rfl
      | _ => cases hline
    exact .inl ⟨hnone, by rw [tokensFrom, if_pos hline]⟩
  · cases ht : l.token? pos with
    | some t => exact .inr (.inl ⟨t, rfl, by rw [tokensFrom, if_neg hline, ht]⟩)
    | none => exact .inr (.inr ⟨rfl, by rw [tokensFrom, if_neg hline, ht]⟩)

theorem ended_tokensFrom : ∀ {ls : List Lexeme} (due : Bool) (pos : Position), Lexeme.AllCut ls →
    Ended (tokensFrom due pos ls)
  | [], due, pos, _ => ended_lineEnd? (ended_singleton rfl)
  | l :: ls, due, pos, ⟨hcut, hls⟩ => by
    obtain ⟨-, he⟩ | ⟨t, ht, he⟩ | ⟨-, he⟩ := tokensFrom_cases due pos l ls
    · rw [he]
      exact ended_lineEnd? (ended_tokensFrom false _ hls)
    · have hkind := (Lexeme.spelling_token hcut ht).2.2.1
      rw [he, ended_cons hkind]
      exact ended_tokensFrom _ _ hls
    · rw [he]
      exact ended_tokensFrom due _ hls

/-- **Every source has one end of file,** behind all its tokens. -/
theorem Scan.ended_tokens (source : String) : Ended (Scan.ofText source).tokens :=
  ended_tokensFrom false .start (cut_lexemes source.toList)

end Treewalk
