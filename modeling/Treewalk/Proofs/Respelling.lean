/-
# Tokens written out are scanned back

The tokens of a source, written out one after the other with a blank between
them, are scanned as the same tokens again, whatever was wrong with the
source. A piece that stands for a token is cut off as itself when a blank
follows it (`Lexeme.Legible`): a literal ends at its closing mark, and no
number, name or mark goes on with a blank. A statement end that was put in is
written as a line break, which puts it in again, since it comes right behind
the token that made it due; and where nothing was due, there is no line break.

Key definitions: `Token.written`, `writtenOut`, `Lexeme.Legible`.
Key theorems: `Lexeme.legible_next`, `words_tokensFrom_writtenOut`,
`scanning_is_stable`.
-/
import Treewalk.Proofs.Lines
import Treewalk.Proofs.RoundTrip.Line

namespace Treewalk

/-! ### Writing tokens out -/

/-- The characters a token is written out as. The end of file is nothing. -/
def Token.written (t : Token) : List Char := if t.kind = .endOfFile then [] else t.spelling

/-- Tokens one after the other, with a blank between them. -/
def writtenOut (ts : List Token) : List Char := [' '].intercalate (ts.map Token.written)

theorem writtenOut_cons (t : Token) {ts : List Token} (h : ts ≠ []) :
    writtenOut (t :: ts) = t.written ++ ' ' :: writtenOut ts := by
  obtain ⟨u, ts, rfl⟩ := List.exists_cons_of_ne_nil h
  simp [writtenOut, List.intercalate]

/-! ### Pieces before a blank -/

namespace Lexeme

/-- Before a blank, the piece is cut off as itself. -/
def Legible (l : Lexeme) : Prop :=
  ∃ c cs, l.text = c :: cs ∧ ∀ more, next c (cs ++ ' ' :: more) = (l, ' ' :: more)

/-- A closed literal is closed there whatever follows it. -/
theorem quotedBody_closed (mark : Char) (hm : mark ≠ '\n' ∧ mark ≠ '\\') (more : List Char) :
    ∀ {cs : List Char}, (quotedBody mark cs).2.1 = true →
      quotedBody mark ((quotedBody mark cs).1 ++ mark :: more) =
        ((quotedBody mark cs).1, true, more) := by
  intro cs h
  fun_induction quotedBody mark cs with
  | case1 => cases h
  | case2 => cases h
  | case3 => cases h
  | case4 => cases h
  | case5 c rest hne body closed after hbody ih =>
    rw [hbody] at ih
    have hc : c ≠ '\n' := fun he => hne he
    simp [quotedBody, ih h]
  | case6 rest => rw [List.nil_append, quotedBody_cons hm.1 hm.2, if_pos rfl]
  | case7 c rest hnl hlast _ hslash hne body closed after hbody ih =>
    rw [hbody] at ih
    have hc : c ≠ '\\' := ne_backslash hlast hslash
    rw [List.cons_append, quotedBody_cons hnl hc, if_neg hne, ih h]

/-- A number is read again from its digits alone. -/
theorem numberBody_again (more : List Char) : ∀ cs : List Char,
    numberBody ((numberBody cs).1 ++ ' ' :: more) = ((numberBody cs).1, ' ' :: more)
  | [] => rfl
  | c :: rest => by
    have ih := numberBody_again more rest
    by_cases hc : (c.isDigit || (c = '.' && rest.head?.any Char.isDigit)) = true
    · -- a point that belongs to the number has its digit behind it still
      have hhead : rest.head?.any Char.isDigit = true →
          ((numberBody rest).1 ++ ' ' :: more).head?.any Char.isDigit = true := by
        intro hany
        cases rest with
        | nil => cases hany
        | cons d rest =>
          have hd : d.isDigit = true := hany
          simp [numberBody, hd]
      have hfirst : (numberBody (c :: rest)).1 = c :: (numberBody rest).1 := by
        rw [numberBody, if_pos hc]
      have hagain : (c.isDigit || (c = '.' &&
          ((numberBody rest).1 ++ ' ' :: more).head?.any Char.isDigit)) = true := by
        rcases Bool.or_eq_true_iff.mp hc with hdigit | hpoint
        · rw [hdigit, Bool.true_or]
        · obtain ⟨hdot, hany⟩ := Bool.and_eq_true_iff.mp hpoint
          rw [hdot, hhead hany, Bool.and_self, Bool.or_true]
      rw [hfirst, List.cons_append, numberBody, if_pos hagain, ih]
    · have hfirst : (numberBody (c :: rest)).1 = [] := by rw [numberBody, if_neg hc]
      rw [hfirst]
      rfl

theorem legible_string {rest : List Char} (h : (quotedBody '"' rest).2.1 = true) :
    (quoted .string (quotedBody '"' rest).1 true).Legible := by
  refine ⟨'"', (quotedBody '"' rest).1 ++ ['"'], rfl, fun more => ?_⟩
  have hbody := quotedBody_closed '"' (by decide) (' ' :: more) h
  rw [List.append_assoc, List.singleton_append]
  simp [next, isBlank, hbody]

theorem legible_rune {rest : List Char} (h : (quotedBody '\'' rest).2.1 = true) :
    (quoted .rune (quotedBody '\'' rest).1 true).Legible := by
  refine ⟨'\'', (quotedBody '\'' rest).1 ++ ['\''], rfl, fun more => ?_⟩
  have hbody := quotedBody_closed '\'' (by decide) (' ' :: more) h
  rw [List.append_assoc, List.singleton_append]
  simp [next, isBlank, hbody]

theorem legible_number {c : Char} {rest : List Char} (hc : c.isDigit = true) :
    (number (numberBody (c :: rest)).1).Legible := by
  have hfirst : (numberBody (c :: rest)).1 = c :: (numberBody rest).1 := by simp [numberBody, hc]
  refine ⟨c, (numberBody rest).1, hfirst, fun more => ?_⟩
  have hagain := numberBody_again more (c :: rest)
  rw [hfirst] at hagain ⊢
  rw [next_of_isPlainStart (isPlainStart_of (by decide) hc), if_pos hc, ← List.cons_append, hagain]

theorem legible_word {c : Char} {rest : List Char} (hdigit : c.isDigit = false)
    (hc : isNameStart c = true) : (word ((c :: rest).takeWhile isNameChar)).Legible := by
  have hfirst : (c :: rest).takeWhile isNameChar = c :: rest.takeWhile isNameChar :=
    List.takeWhile_cons_of_pos (isNameChar_of_isNameStart hc)
  refine ⟨c, rest.takeWhile isNameChar, hfirst, fun more => ?_⟩
  have hletters : ∀ d ∈ (c :: rest).takeWhile isNameChar, isNameChar d = true :=
    List.all_eq_true.mp List.all_takeWhile
  have hblank : isNameChar ' ' = false := by decide
  rw [next_of_isPlainStart (isPlainStart_of (by decide) hc), hdigit, if_neg Bool.false_ne_true,
    if_pos hc, ← List.cons_append, ← hfirst, List.takeWhile_append_of_pos hletters,
    List.dropWhile_append_of_pos hletters]
  simp [hblank]

theorem legible_mark {kind : Token.Kind} {characters : List Char}
    (h : isMark kind characters = true) : (mark kind characters).Legible := by
  cases characters with
  | nil => cases h
  | cons c cs => exact ⟨c, cs, rfl, fun more => next_mark h (stops_blank (.inl rfl))⟩

/-- **A piece that stands for a token is legible.** -/
theorem legible_next {c : Char} {rest : List Char} {pos : Position} {t : Token}
    (h : (next c rest).1.token? pos = some t) : (next c rest).1.Legible := by
  have hcut := next_cut c rest
  revert h hcut
  unfold next
  split
  · rintro ⟨⟩
  split
  · rintro ⟨⟩
  split
  · rintro ⟨⟩
  split
  · rintro ⟨⟩
  split
  · intro h _
    cases hclosed : (quotedBody '"' rest).2.1 with
    | true => simpa only [hclosed] using legible_string hclosed
    | false => simp [token?, hclosed] at h
  split
  · intro h _
    cases hclosed : (quotedBody '\'' rest).2.1 with
    | true => simpa only [hclosed] using legible_rune hclosed
    | false => simp [token?, hclosed] at h
  split
  · next hdigit => exact fun _ _ => legible_number hdigit
  split
  · next hdigit hname => exact fun _ _ => legible_word (Bool.eq_false_iff.mpr hdigit) hname
  · obtain ⟨d, after, kind, -, -, he⟩ | ⟨kind, -, he⟩ | ⟨-, -, he⟩ := markOf_cases c rest
    · rw [he]
      exact fun _ hmark => legible_mark hmark
    · rw [he]
      exact fun _ hmark => legible_mark hmark
    · rw [he]
      rintro ⟨⟩

theorem token?_pos (l : Lexeme) (pos pos' : Position) :
    l.token? pos' = (l.token? pos).map fun t => ⟨t.kind, t.text, pos'⟩ := by
  unfold token?
  split <;> rfl

end Lexeme

/-- The pieces of a source that stand for tokens are legible. -/
theorem legible_lexemes (source : List Char) : ∀ l ∈ lexemes source, ∀ pos t,
    l.token? pos = some t → l.Legible := by
  induction hlen : source.length using Nat.strongRecOn generalizing source with
  | ind n ih =>
    cases source with
    | nil => exact fun l hl => nomatch hl
    | cons c rest =>
      rw [lexemes_cons, List.forall_mem_cons]
      refine ⟨fun pos t ht => Lexeme.legible_next ht, ?_⟩
      exact ih _ (hlen ▸ Lexeme.length_next_lt c rest) _ rfl

/-- A legible piece before a blank is the first piece of the text, and the blank is the second. -/
theorem lexemes_of_legible {l : Lexeme} (h : l.Legible) (more : List Char) :
    lexemes (l.text ++ ' ' :: more) = l :: .blank ' ' :: lexemes more := by
  obtain ⟨c, cs, htext, hnext⟩ := h
  rw [htext, List.cons_append, lexemes_cons, hnext, lexemes_cons]
  rfl

theorem legible_lineBreak : Lexeme.lineBreak.Legible := ⟨'\n', [], rfl, fun _ => rfl⟩

/-! ### Scanning what is written out -/

/-- What a token and those behind it are scanned as, if it is written as a legible piece. -/
theorem lexemes_writtenOut {l : Lexeme} {t : Token} {ts : List Token} (hl : l.Legible)
    (ht : t.written = l.text) (hts : ts ≠ []) :
    lexemes (writtenOut (t :: ts)) = l :: .blank ' ' :: lexemes (writtenOut ts) := by
  rw [writtenOut_cons t hts, ht, lexemes_of_legible hl]

theorem written_lineEnd (pos : Position) : (Token.lineEnd pos).written = ['\n'] := by
  simp [Token.written, Token.lineEnd, Token.spelling]

theorem writtenOut_endOfFile (pos : Position) : writtenOut [Token.endOfFile pos] = [] := rfl

/-- A statement end that is due is put in again by the line break that it is written as. -/
theorem words_lineEnd {due : Bool} {pos : Position} {ts : List Token} (hts : ts ≠ [])
    (h : ∀ pos', (tokensFrom false pos' (lexemes (writtenOut ts))).map Token.word = ts.map Token.word)
    (pos' : Position) :
    (tokensFrom due pos' (lexemes (writtenOut (lineEnd? due pos ++ ts)))).map Token.word =
      (lineEnd? due pos ++ ts).map Token.word := by
  cases due with
  | false => exact h pos'
  | true =>
    have hbreak := lexemes_writtenOut legible_lineBreak (written_lineEnd pos) hts
    show (tokensFrom true pos' (lexemes (writtenOut (Token.lineEnd pos :: ts)))).map Token.word =
      (Token.lineEnd pos :: ts).map Token.word
    rw [hbreak]
    exact congrArg (List.cons Word.lineEnd) (h _)

/-- The tokens of pieces, written out, are scanned as the same words. -/
theorem words_tokensFrom_writtenOut : ∀ {ls : List Lexeme} (due : Bool) (pos pos' : Position),
    Lexeme.AllCut ls → (∀ l ∈ ls, ∀ pos t, l.token? pos = some t → l.Legible) →
    (tokensFrom due pos' (lexemes (writtenOut (tokensFrom due pos ls)))).map Token.word =
      (tokensFrom due pos ls).map Token.word
  | [], due, pos, pos', _, _ => by
    refine words_lineEnd (List.cons_ne_nil _ _) (fun pos' => ?_) pos'
    rw [writtenOut_endOfFile]
    rfl
  | l :: ls, due, pos, pos', ⟨hcut, hls⟩, hlegible => by
    rw [List.forall_mem_cons] at hlegible
    have ih := fun due pos' =>
      words_tokensFrom_writtenOut due (pos.after l.text) pos' hls hlegible.2
    have hne : ∀ due, tokensFrom due (pos.after l.text) ls ≠ [] := fun due =>
      (ended_tokensFrom due _ hls).ne_nil
    obtain ⟨-, he⟩ | ⟨t, ht, he⟩ | ⟨-, he⟩ := tokensFrom_cases due pos l ls
    · rw [he]
      exact words_lineEnd (hne false) (ih false) pos'
    · obtain ⟨hspelling, -, hkind, -⟩ := Lexeme.spelling_token hcut ht
      have hwritten : t.written = l.text := by rw [Token.written, if_neg hkind, hspelling]
      have hagain : l.token? pos' = some ⟨t.kind, t.text, pos'⟩ := by
        rw [l.token?_pos pos pos', ht]
        rfl
      have hline : l.endsLine = false := by
        cases l with
        | lineBreak => cases ht
        | blockComment body closed => cases ht
        | _ => rfl
      rw [he, lexemes_writtenOut (hlegible.1 pos t ht) hwritten (hne _), tokensFrom, hline,
        if_neg Bool.false_ne_true, hagain]
      exact congrArg (List.cons t.word) (ih t.kind.endsStatement _)
    · rw [he]
      exact ih due pos'

/-- **Tokens written out are scanned back.** The tokens of any source, written out with a blank
between them, are scanned as tokens of the same kinds and texts. -/
theorem scanning_is_stable (source : String) :
    (Scan.ofText (String.ofList (writtenOut (Scan.ofText source).tokens))).tokens.map
        (fun t => (t.kind, t.text)) =
      (Scan.ofText source).tokens.map fun t => (t.kind, t.text) := by
  have hwords := words_tokensFrom_writtenOut false .start .start (cut_lexemes source.toList)
    (legible_lexemes source.toList)
  have hpairs := congrArg (List.map fun w : Word => (w.kind, w.text)) hwords
  rw [List.map_map, List.map_map] at hpairs
  unfold Scan.ofText Scan.ofLexemes
  simp only [String.toList_ofList]
  exact hpairs

end Treewalk
