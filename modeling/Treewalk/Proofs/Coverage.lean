/-
# The tokens cover the source

A source text is one segment after the other: the text of a token, or
something that the scanner skips, which is a blank, a comment, a character
that it does not know or a literal that is not closed. What it skips for a
fault it reports. Every token and every such fault stands where its segment
begins, counted in lines and characters from 1, and positions grow from token
to token; only the last line end that is put in may share the position of the
end of file.

The segments are those the scanner cuts (`Pieces`). Positions are counted
afresh here, from the text before a segment (`Position.behind`), and agree
with those that the scanner carries along.

Key definitions: `Segment`, `Segment.Fits`, `Position.behind`,
`Position.Before`.
Key theorems: `Position.after_start`, `Lexeme.exists_segment`,
`exists_segments`, `tokensFrom_pairwise`, `tokens_cover_source`.
-/
import Treewalk.Proofs.Pieces

namespace Treewalk

/-! ### Positions -/

namespace Position

/-- The position behind a text: one line more than it has line breaks, and one column more than it
has characters on its last line. -/
def behind (text : List Char) : Position :=
  ⟨text.count '\n' + 1, (text.reverse.takeWhile (· != '\n')).length + 1⟩

/-- Reading order, strictly. -/
def Before (p q : Position) : Prop := p.line < q.line ∨ p.line = q.line ∧ p.column < q.column

theorem behind_concat (text : List Char) (c : Char) :
    behind (text ++ [c]) = (behind text).next c := by
  unfold behind next
  by_cases hc : c = '\n'
  · subst hc
    simp [List.count_append]
  · rw [if_neg hc]
    simp [List.count_append, hc]

theorem after_behind (before text : List Char) :
    (behind before).after text = behind (before ++ text) := by
  induction text generalizing before with
  | nil => rw [after_nil, List.append_nil]
  | cons c text ih =>
    rw [after_cons, ← behind_concat, ih, List.append_assoc, List.singleton_append]

/-- Counting along a text is counting afresh behind it. -/
theorem after_start (text : List Char) : start.after text = behind text :=
  after_behind [] text

theorem behind_le (text : List Char) :
    (behind text).line ≤ text.length + 1 ∧ (behind text).column ≤ text.length + 1 := by
  have hcount : text.count '\n' ≤ text.length := List.count_le_length
  have hlast := (List.takeWhile_sublist (· != '\n') (l := text.reverse)).length_le
  rw [List.length_reverse] at hlast
  exact ⟨Nat.succ_le_succ hcount, Nat.succ_le_succ hlast⟩

theorem Before.trans {p q r : Position} (hpq : p.Before q) (hqr : q.Before r) : p.Before r := by
  unfold Before at *
  omega

theorem before_next (p : Position) (c : Char) : p.Before (p.next c) := by
  unfold Before next
  by_cases hc : c = '\n'
  · rw [if_pos hc]
    exact .inl (Nat.lt_succ_self _)
  · rw [if_neg hc]
    exact .inr ⟨rfl, Nat.lt_succ_self _⟩

/-- A text takes its position further, unless it is empty. -/
theorem eq_or_before_after (p : Position) (text : List Char) :
    text = [] ∨ p.Before (p.after text) := by
  induction text generalizing p with
  | nil => exact .inl rfl
  | cons c text ih =>
    right
    rw [after_cons]
    rcases ih (p.next c) with rfl | hlater
    · exact p.before_next c
    · exact (p.before_next c).trans hlater

theorem before_after {p : Position} {text : List Char} (h : text ≠ []) : p.Before (p.after text) :=
  (p.eq_or_before_after text).resolve_left h

end Position

/-! ### Segments -/

/-- What a segment of a source is. -/
inductive Segment.Content where
  | token (kind : Token.Kind) (text : String)
  | blank (c : Char)
  | lineComment (body : List Char)
  | blockComment (body : List Char) (closed : Bool)
  | unclosed (quote : Quote) (body : List Char)
  | stray (c : Char)

/-- A segment of a source and where it begins. -/
structure Segment where
  content : Segment.Content
  pos : Position

/-- The faults for which a part of the source is skipped. -/
def LexicalFault.skips : LexicalFault → Bool
  | strayCharacter _ | unclosedString | unclosedRune | unclosedComment => true
  | twoPoints _ | runeLength _ | unknownEscape _ => false

/-- A line end that the scanner puts in. The ones that are written have another text. -/
def Token.isInserted (t : Token) : Bool := t.kind == .semicolon && t.text == "\n"

namespace Segment

/-- The token of a segment that is not skipped. -/
def token? (s : Segment) : Option Token :=
  match s.content with
  | .token kind text => some ⟨kind, text, s.pos⟩
  | _ => none

/-- The characters of a segment. -/
def text (s : Segment) : List Char :=
  match s.content with
  | .token kind text => Token.spelling ⟨kind, text, s.pos⟩
  | .blank c => [c]
  | .lineComment body => '/' :: '/' :: body
  | .blockComment body closed => '/' :: '*' :: body ++ (if closed then ['*', '/'] else [])
  | .unclosed quote body => quote.mark :: body
  | .stray c => [c]

/-- The fault for which a segment is skipped. -/
def fault? (s : Segment) : Option (LexicalFault × Position) :=
  match s.content with
  | .blockComment _ false => some (.unclosedComment, s.pos)
  | .unclosed .string _ => some (.unclosedString, s.pos)
  | .unclosed .rune _ => some (.unclosedRune, s.pos)
  | .stray c => some (.strayCharacter c, s.pos)
  | _ => none

/-- A segment is what it is called, seen from the text behind it. -/
def Fits (s : Segment) (after : List Char) : Prop :=
  match s.content with
  | .token kind _ => s.text ≠ [] ∧ kind ≠ .endOfFile
  | .blank c => c ∈ [' ', '\t', '\r', '\n']
  | .lineComment body => '\n' ∉ body ∧ AtLineEnd after
  | .blockComment body closed => ¬ ['*', '/'] <:+: body ∧ (closed = false → after = [])
  | .unclosed quote body => isOpenBody quote.mark body = true ∧ AtLineEnd after
  | .stray c => IsStray c after

/-- Segments one behind the other, the first at `pos`. -/
def Placed : Position → List Segment → Prop
  | _, [] => True
  | pos, s :: ss => s.pos = pos ∧ s.Fits (ss.flatMap text) ∧ Placed (pos.after s.text) ss

theorem Placed.split {before : List Segment} {s : Segment} {after : List Segment} {pos : Position}
    (h : Placed pos (before ++ s :: after)) :
    s.pos = pos.after (before.flatMap text) ∧ s.Fits (after.flatMap text) := by
  induction before generalizing pos with
  | nil => exact ⟨h.1, h.2.1⟩
  | cons u before ih =>
    obtain ⟨hpos, hfits⟩ := ih h.2.2
    rw [hpos, List.flatMap_cons, Position.after_append]
    exact ⟨rfl, hfits⟩

end Segment

/-! ### From pieces to segments -/

theorem unknownEscapes_not_skips (pos : Position) (body : List Char) :
    (unknownEscapes pos body).filter (·.1.skips) = [] := by
  fun_induction unknownEscapes pos body with
  | case1 pos c rest faults hc ih => exact ih
  | case2 pos c rest faults hc ih =>
    rw [List.filter_cons_of_neg (by simp [LexicalFault.skips])]
    exact ih
  | case3 pos c rest _ ih => exact ih
  | case4 => rfl

/-- A token that has a piece is not put in. -/
theorem Token.not_isInserted {t : Token} (h : t.kind = .semicolon → t.text = ";") :
    t.isInserted = false := by
  unfold Token.isInserted
  by_cases hk : t.kind = .semicolon
  · rw [h hk, hk]
    decide
  · simp [hk]

namespace Lexeme

/-- The faults of a piece that stands for a token skip nothing. -/
theorem token_not_skips {l : Lexeme} {pos : Position} {t : Token} (h : l.token? pos = some t) :
    (l.faults pos).filter (·.1.skips) = [] := by
  match l, h with
  | quoted .string body true, _ =>
    simp only [faults, List.filter_append, unknownEscapes_not_skips]
    rfl
  | quoted .rune body true, _ =>
    simp only [faults, List.filter_append, unknownEscapes_not_skips]
    split <;> rfl
  | number digits, _ =>
    simp only [faults]
    split <;> rfl
  | word _, _ => rfl
  | mark _ _, _ => rfl

/-- **Every piece is a segment:** with the same characters, the same token, and the same fault if it
is skipped for one. -/
theorem exists_segment {l : Lexeme} {after : List Char} (h : l.Cut after) (pos : Position) :
    ∃ s : Segment, s.pos = pos ∧ s.text = l.text ∧ s.Fits after ∧ s.token? = l.token? pos ∧
      s.fault?.toList = (l.faults pos).filter (·.1.skips) := by
  cases ht : l.token? pos with
  | some t =>
    obtain ⟨hspelling, rfl, hkind, -⟩ := spelling_token h ht
    refine ⟨⟨.token t.kind t.text, t.pos⟩, rfl, hspelling, ⟨?_, hkind⟩, rfl, ?_⟩
    · exact fun he => text_ne_nil h (hspelling ▸ he)
    · rw [token_not_skips ht]
      rfl
  | none =>
    match l, h, ht with
    | blank c, h, _ =>
      have hc : (c = ' ' ∨ c = '\t') ∨ c = '\r' := by simpa [Cut, isBlank] using h
      refine ⟨⟨.blank c, pos⟩, rfl, rfl, ?_, rfl, rfl⟩
      rcases hc with (rfl | rfl) | rfl <;> simp [Segment.Fits]
    | lineBreak, _, _ => exact ⟨⟨.blank '\n', pos⟩, rfl, rfl, by simp [Segment.Fits], rfl, rfl⟩
    | lineComment body, h, _ => exact ⟨⟨.lineComment body, pos⟩, rfl, rfl, h, rfl, rfl⟩
    | blockComment body true, h, _ =>
      exact ⟨⟨.blockComment body true, pos⟩, rfl, rfl, h, rfl, rfl⟩
    | blockComment body false, h, _ =>
      exact ⟨⟨.blockComment body false, pos⟩, rfl, rfl, h, rfl, rfl⟩
    | quoted .string body false, h, _ =>
      refine ⟨⟨.unclosed .string body, pos⟩, rfl, ?_, ⟨h.1, h.2 rfl⟩, rfl, ?_⟩
      · simp [Segment.text, text]
      · simp only [faults, List.filter_append, unknownEscapes_not_skips]
        rfl
    | quoted .rune body false, h, _ =>
      refine ⟨⟨.unclosed .rune body, pos⟩, rfl, ?_, ⟨h.1, h.2 rfl⟩, rfl, ?_⟩
      · simp [Segment.text, text]
      · simp only [faults, List.filter_append, unknownEscapes_not_skips]
        rfl
    | stray c, h, _ => exact ⟨⟨.stray c, pos⟩, rfl, rfl, h, rfl, rfl⟩

end Lexeme

/-- One piece adds its token to those that are not put in. -/
theorem tokensFrom_cons {l : Lexeme} {after : List Char} (h : l.Cut after) (due : Bool)
    (pos : Position) (ls : List Lexeme) : ∃ due',
    (tokensFrom due pos (l :: ls)).filter (!·.isInserted) = (l.token? pos).toList ++
      (tokensFrom due' (pos.after l.text) ls).filter (!·.isInserted) := by
  obtain ⟨ht, he⟩ | ⟨t, ht, he⟩ | ⟨ht, he⟩ := tokensFrom_cases due pos l ls
  · refine ⟨false, ?_⟩
    rw [he, ht]
    cases due <;> rfl
  · have hwritten := Token.not_isInserted (Lexeme.spelling_token h ht).2.2.2
    refine ⟨t.kind.endsStatement, ?_⟩
    rw [he, ht, List.filter_cons_of_pos (by simp [hwritten])]
    rfl
  · refine ⟨due, ?_⟩
    rw [he, ht]
    rfl

/-- Tokens and faults of all pieces are those of their segments. -/
theorem exists_segments : ∀ {ls : List Lexeme} (due : Bool) (pos : Position), Lexeme.AllCut ls →
    ∃ segments : List Segment,
      segments.flatMap Segment.text = ls.flatMap Lexeme.text ∧ Segment.Placed pos segments ∧
      (tokensFrom due pos ls).filter (!·.isInserted) = segments.filterMap Segment.token? ++
        [Token.endOfFile (pos.after (ls.flatMap Lexeme.text))] ∧
      ((located pos ls).flatMap fun (l, pos) => l.faults pos).filter (·.1.skips) =
        segments.filterMap Segment.fault?
  | [], due, pos, _ => ⟨[], rfl, trivial, by cases due <;> rfl, rfl⟩
  | l :: ls, due, pos, ⟨hcut, hls⟩ => by
    obtain ⟨s, hpos, htext, hfits, htoken, hfault⟩ := Lexeme.exists_segment hcut pos
    obtain ⟨due', hstep⟩ := tokensFrom_cons hcut due pos ls
    obtain ⟨ss, htexts, hplaced, htokens, hfaults⟩ :=
      exists_segments due' (pos.after l.text) hls
    refine ⟨s :: ss, ?_, ⟨hpos, htexts ▸ hfits, htext ▸ hplaced⟩, ?_, ?_⟩
    · rw [List.flatMap_cons, List.flatMap_cons, htext, htexts]
    · rw [hstep, htokens, ← htoken, List.flatMap_cons, Position.after_append, ← List.append_assoc]
      cases hs : s.token? with
      | none => rw [List.filterMap_cons_none hs]; rfl
      | some t => rw [List.filterMap_cons_some hs]; rfl
    · have hlocated : located pos (l :: ls) = (l, pos) :: located (pos.after l.text) ls := rfl
      rw [hlocated, List.flatMap_cons, List.filter_append, hfaults, ← hfault]
      cases hs : s.fault? with
      | none => rw [List.filterMap_cons_none hs]; rfl
      | some f => rw [List.filterMap_cons_some hs]; rfl

/-! ### The order of tokens -/

/-- A token before another in the source; the last line end may be put in at the end of file. -/
def Token.Precedes (t u : Token) : Prop :=
  t.pos.Before u.pos ∨ t.isInserted = true ∧ u.kind = .endOfFile ∧ t.pos = u.pos

theorem mem_lineEnd? {due : Bool} {pos : Position} {t : Token} (h : t ∈ lineEnd? due pos) :
    t = Token.lineEnd pos := by
  cases due with
  | false => cases h
  | true => exact List.mem_singleton.mp h

/-- A token stands behind some part of the text from which it is read. -/
theorem pos_mem_tokensFrom : ∀ {ls : List Lexeme} {due : Bool} {pos : Position} {t : Token},
    Lexeme.AllCut ls → t ∈ tokensFrom due pos ls →
    ∃ before after, ls.flatMap Lexeme.text = before ++ after ∧ t.pos = pos.after before
  | [], due, pos, t, _, ht => by
    refine ⟨[], [], rfl, ?_⟩
    rcases List.mem_append.mp ht with ht | ht
    · rw [mem_lineEnd? ht]
      rfl
    · rw [List.mem_singleton.mp ht]
      rfl
  | l :: ls, due, pos, t, ⟨hcut, hls⟩, ht => by
    -- behind the piece, its text comes before the part that the rest gives
    have hlater : ∀ due', t ∈ tokensFrom due' (pos.after l.text) ls → ∃ before after,
        (l :: ls).flatMap Lexeme.text = before ++ after ∧ t.pos = pos.after before := by
      intro due' ht
      obtain ⟨before, after, htext, hpos⟩ := pos_mem_tokensFrom hls ht
      refine ⟨l.text ++ before, after, ?_, ?_⟩
      · rw [List.flatMap_cons, htext, List.append_assoc]
      · rw [hpos, Position.after_append]
    obtain ⟨-, he⟩ | ⟨u, hu, he⟩ | ⟨-, he⟩ := tokensFrom_cases due pos l ls
    · rw [he] at ht
      rcases List.mem_append.mp ht with ht | ht
      · exact ⟨[], _, rfl, by rw [mem_lineEnd? ht]; rfl⟩
      · exact hlater _ ht
    · rw [he] at ht
      rcases List.mem_cons.mp ht with rfl | ht
      · exact ⟨[], _, rfl, (Lexeme.spelling_token hcut hu).2.1⟩
      · exact hlater _ ht
    · rw [he] at ht
      exact hlater _ ht

/-- Tokens behind a piece stand behind its first character. -/
theorem before_of_mem_tokensFrom {l : Lexeme} {ls : List Lexeme} {due : Bool} {pos : Position}
    {t : Token} (h : Lexeme.AllCut (l :: ls)) (ht : t ∈ tokensFrom due (pos.after l.text) ls) :
    pos.Before t.pos := by
  obtain ⟨before, after, -, hpos⟩ := pos_mem_tokensFrom h.2 ht
  have hpiece : pos.Before (pos.after l.text) := Position.before_after (Lexeme.text_ne_nil h.1)
  rw [hpos]
  rcases (pos.after l.text).eq_or_before_after before with rfl | hlater
  · exact hpiece
  · exact hpiece.trans hlater

theorem tokensFrom_pairwise : ∀ {ls : List Lexeme} (due : Bool) (pos : Position),
    Lexeme.AllCut ls → (tokensFrom due pos ls).Pairwise Token.Precedes
  | [], due, pos, _ => by
    cases due with
    | false => exact List.pairwise_singleton _ _
    | true => exact List.pairwise_pair.mpr (.inr ⟨rfl, rfl, rfl⟩)
  | l :: ls, due, pos, h => by
    have htail : ∀ due', (tokensFrom due' (pos.after l.text) ls).Pairwise Token.Precedes :=
      fun due' => tokensFrom_pairwise due' _ h.2
    obtain ⟨-, he⟩ | ⟨t, ht, he⟩ | ⟨-, he⟩ := tokensFrom_cases due pos l ls
    · rw [he, List.pairwise_append]
      refine ⟨?_, htail false, ?_⟩
      · cases due with
        | false => exact List.Pairwise.nil
        | true => exact List.pairwise_singleton _ _
      · intro t ht u hu
        rw [mem_lineEnd? ht]
        exact .inl (before_of_mem_tokensFrom h hu)
    · have hpos := (Lexeme.spelling_token h.1 ht).2.1
      rw [he, List.pairwise_cons]
      exact ⟨fun u hu => .inl (hpos ▸ before_of_mem_tokensFrom h hu), htail _⟩
    · rw [he]
      exact htail due

/-! ### The places of faults -/

theorem pos_mem_unknownEscapes {pos : Position} {body : List Char} {f : LexicalFault × Position}
    (h : f ∈ unknownEscapes pos body) :
    ∃ before after, body = before ++ after ∧ f.2 = pos.after before := by
  fun_induction unknownEscapes pos body with
  | case1 pos c rest faults hc ih =>
    obtain ⟨before, after, rfl, hpos⟩ := ih h
    exact ⟨'\\' :: c :: before, after, rfl, hpos⟩
  | case2 pos c rest faults hc ih =>
    rcases List.mem_cons.mp h with rfl | h
    · exact ⟨[], _, rfl, rfl⟩
    · obtain ⟨before, after, rfl, hpos⟩ := ih h
      exact ⟨'\\' :: c :: before, after, rfl, hpos⟩
  | case3 pos c rest _ ih =>
    obtain ⟨before, after, rfl, hpos⟩ := ih h
    exact ⟨c :: before, after, rfl, hpos⟩
  | case4 => cases h

/-- The fault of a piece that begins with it, apart from those inside its literal. -/
theorem Lexeme.faults_cases {l : Lexeme} {pos : Position} {f : LexicalFault × Position}
    (h : f ∈ l.faults pos) : f.2 = pos ∨ ∃ quote body closed, l = .quoted quote body closed ∧
      f ∈ unknownEscapes (pos.next quote.mark) body := by
  cases l with
  | quoted quote body closed =>
    rcases List.mem_append.mp h with h | h
    · exact .inr ⟨quote, body, closed, rfl, h⟩
    · left
      cases quote <;> cases closed
      · rw [List.mem_singleton.mp h]
      · cases h
      · rw [List.mem_singleton.mp h]
      · simp only at h
        split at h
        · cases h
        · rw [List.mem_singleton.mp h]
  | blockComment body closed =>
    cases closed with
    | true => cases h
    | false => left; rw [List.mem_singleton.mp h]
  | number digits =>
    simp only [Lexeme.faults] at h
    split at h
    · left; rw [List.mem_singleton.mp h]
    · cases h
  | stray c => left; rw [List.mem_singleton.mp h]
  | _ => cases h

theorem Lexeme.pos_mem_faults {l : Lexeme} {pos : Position} {f : LexicalFault × Position}
    (h : f ∈ l.faults pos) : ∃ before after, l.text = before ++ after ∧ f.2 = pos.after before := by
  rcases Lexeme.faults_cases h with hpos | ⟨quote, body, closed, rfl, hescape⟩
  · exact ⟨[], l.text, rfl, hpos⟩
  · obtain ⟨before, after, rfl, hpos⟩ := pos_mem_unknownEscapes hescape
    refine ⟨quote.mark :: before, after ++ (if closed then [quote.mark] else []), ?_, hpos⟩
    simp [Lexeme.text]

/-- A fault stands behind some part of the text in which it is found. -/
theorem pos_mem_located : ∀ {ls : List Lexeme} {pos : Position} {f : LexicalFault × Position},
    (f ∈ (located pos ls).flatMap fun (l, pos) => l.faults pos) →
    ∃ before after, ls.flatMap Lexeme.text = before ++ after ∧ f.2 = pos.after before
  | [], _, _, h => by cases h
  | l :: ls, pos, f, h => by
    rw [located, List.flatMap_cons] at h
    rcases List.mem_append.mp h with h | h
    · obtain ⟨before, after, htext, hpos⟩ := Lexeme.pos_mem_faults h
      refine ⟨before, after ++ ls.flatMap Lexeme.text, ?_, hpos⟩
      rw [List.flatMap_cons, htext, List.append_assoc]
    · obtain ⟨before, after, htext, hpos⟩ := pos_mem_located h
      refine ⟨l.text ++ before, after, ?_, ?_⟩
      · rw [List.flatMap_cons, htext, List.append_assoc]
      · rw [hpos, Position.after_append]

/-! ### The source -/

namespace Scan

variable {source : String}

theorem pos_mem_tokens {t : Token} (h : t ∈ (ofText source).tokens) :
    ∃ before after, source.toList = before ++ after ∧ t.pos = .behind before := by
  obtain ⟨before, after, htext, hpos⟩ := pos_mem_tokensFrom (cut_lexemes source.toList) h
  rw [text_lexemes] at htext
  exact ⟨before, after, htext, hpos.trans (Position.after_start before)⟩

theorem pos_mem_faults {f : LexicalFault × Position} (h : f ∈ (ofText source).faults) :
    ∃ before after, source.toList = before ++ after ∧ f.2 = .behind before := by
  obtain ⟨before, after, htext, hpos⟩ := pos_mem_located h
  rw [text_lexemes] at htext
  exact ⟨before, after, htext, hpos.trans (Position.after_start before)⟩

end Scan

/-- Behind a part of a text, neither line nor column is more than the text is long. -/
theorem behind_lt {source : String} {before after : List Char} {pos : Position} {bound : Nat}
    (hlen : source.length < bound - 1) (htext : source.toList = before ++ after)
    (hpos : pos = .behind before) : pos.line < bound ∧ pos.column < bound := by
  have htotal := congrArg List.length htext
  rw [String.length_toList, List.length_append] at htotal
  have hle := Position.behind_le before
  rw [hpos]
  omega

/-- **The tokens cover the source.** A source is one segment after the other. The tokens but those
put in are the tokens of the segments and the end of file; the faults for which something is skipped
are those of the segments; both stand where their segment begins. There is one end of file, the
last token, and positions grow, save that a line end may be put in at the end of file. With fewer
than `UInt32.size - 1` characters no line and no column outgrows 32 bits. -/
theorem tokens_cover_source (source : String) :
    ∃ segments : List Segment,
      segments.flatMap Segment.text = source.toList ∧
      (∀ before s after, segments = before ++ s :: after →
        s.pos = .behind (before.flatMap Segment.text) ∧ s.Fits (after.flatMap Segment.text)) ∧
      (Scan.ofText source).tokens.filter (!·.isInserted) =
        segments.filterMap Segment.token? ++ [Token.endOfFile (.behind source.toList)] ∧
      (Scan.ofText source).faults.filter (·.1.skips) = segments.filterMap Segment.fault? ∧
      Ended (Scan.ofText source).tokens ∧
      (Scan.ofText source).tokens.Pairwise Token.Precedes ∧
      (source.length < UInt32.size - 1 →
        (∀ t ∈ (Scan.ofText source).tokens, t.pos.line < UInt32.size ∧ t.pos.column < UInt32.size) ∧
        ∀ f ∈ (Scan.ofText source).faults, f.2.line < UInt32.size ∧ f.2.column < UInt32.size) := by
  have hcut := cut_lexemes source.toList
  obtain ⟨segments, htext, hplaced, htokens, hfaults⟩ := exists_segments false .start hcut
  rw [text_lexemes] at htext htokens
  refine ⟨segments, htext, ?_, ?_, hfaults, Scan.ended_tokens source,
    tokensFrom_pairwise false .start hcut, ?_⟩
  · rintro before s after rfl
    obtain ⟨hpos, hfits⟩ := hplaced.split
    exact ⟨hpos.trans (Position.after_start _), hfits⟩
  · rw [← Position.after_start]
    exact htokens
  · intro hlen
    refine ⟨fun t ht => ?_, fun f hf => ?_⟩
    · obtain ⟨before, after, hsplit, hpos⟩ := Scan.pos_mem_tokens ht
      exact behind_lt hlen hsplit hpos
    · obtain ⟨before, after, hsplit, hpos⟩ := Scan.pos_mem_faults hf
      exact behind_lt hlen hsplit hpos

end Treewalk
