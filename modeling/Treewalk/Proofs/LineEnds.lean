/-
# Where line ends are put in

The scanner puts a line end behind a token that can end a statement, if the
line ends there or the source does. It looks at one piece after the other:
line breaks, comments over several lines and the end of the source each may
put one in, and what stands between two tokens may hold several of these, or
pieces that leave no token at all. A line end is due from the token before on
and is due no more once it is there, so that two tokens have one between them
or none.

What stands between two tokens is read off their positions, which no two
parts of a source share (`Position.behind_inj`). It has a line break exactly
if one of its pieces ends a line (`Lexeme.endsLine_iff`).

Key definition: `Token.Gap`.
Key theorems: `tokensFrom_next`, `tokensFrom_between`, `line_ends_are_exact`.
-/
import Treewalk.Proofs.Coverage

namespace Treewalk

/-! ### What stands between two tokens -/

/-- In the source, the first token is written at its place, the gap follows, and behind it the second
token begins. -/
def Token.Gap (source : List Char) (t u : Token) (gap : List Char) : Prop :=
  ∃ before after, source = before ++ t.spelling ++ gap ++ after ∧ t.pos = .behind before ∧
    u.pos = .behind (before ++ t.spelling ++ gap)

/-- The parts of a source that come before a place are one and the same. -/
theorem Position.behind_inj {a b c d : List Char} (htext : a ++ c = b ++ d)
    (hpos : Position.behind a = .behind b) : a = b := by
  have hshort : ∀ {a e : List Char}, Position.behind a = .behind (a ++ e) → e = [] := by
    intro a e he
    cases e with
    | nil => rfl
    | cons x e =>
      have hbefore : (Position.behind a).Before (.behind (a ++ x :: e)) := by
        rw [← after_behind]
        exact before_after (List.cons_ne_nil x e)
      rw [← he] at hbefore
      unfold Before at hbefore
      omega
  obtain ⟨e, rfl, -⟩ | ⟨e, rfl, -⟩ := List.append_eq_append_iff.mp htext
  · rw [hshort hpos, List.append_nil]
  · rw [hshort hpos.symm, List.append_nil]

/-- There is but one gap between two tokens. -/
theorem Token.Gap.unique {source : List Char} {t u : Token} {gap gap' : List Char}
    (h : Token.Gap source t u gap) (h' : Token.Gap source t u gap') : gap = gap' := by
  obtain ⟨before, after, htext, hfirst, hsecond⟩ := h
  obtain ⟨before', after', htext', hfirst', hsecond'⟩ := h'
  have hwhole : before ++ t.spelling ++ gap = before' ++ t.spelling ++ gap' :=
    Position.behind_inj (htext.symm.trans htext') (hsecond.symm.trans hsecond')
  have hbefore : before = before' := by
    refine Position.behind_inj (c := t.spelling ++ gap) (d := t.spelling ++ gap') ?_
      (hfirst.symm.trans hfirst')
    simpa only [List.append_assoc] using hwhole
  subst hbefore
  exact List.append_cancel_left hwhole

/-! ### Line breaks in pieces -/

theorem newline_not_mem_of_isOpenBody {mark : Char} {body : List Char}
    (h : isOpenBody mark body = true) : '\n' ∉ body := by
  fun_induction isOpenBody mark body with
  | case1 => simp
  | case2 => simp
  | case3 c rest ih =>
    obtain ⟨hc, hrest⟩ := Bool.and_eq_true_iff.mp h
    simp [ih hrest, Ne.symm (bne_iff_ne.mp hc)]
  | case4 c rest _ _ ih =>
    obtain ⟨hc, hrest⟩ := Bool.and_eq_true_iff.mp h
    simp [ih hrest, Ne.symm (bne_iff_ne.mp (Bool.and_eq_true_iff.mp hc).1)]

namespace Lexeme

/-- A piece that ends a line leaves no token. -/
theorem token?_of_endsLine {l : Lexeme} (h : l.endsLine = true) (pos : Position) :
    l.token? pos = none := by
  cases l with
  | lineBreak => rfl
  | blockComment body closed => rfl
  | _ => cases h

/-- A piece without a token ends a line exactly if there is a line break in it. -/
theorem endsLine_iff {l : Lexeme} {after : List Char} {pos : Position} (h : l.Cut after)
    (ht : l.token? pos = none) : l.endsLine = true ↔ '\n' ∈ l.text := by
  match l, h, ht with
  | blank c, h, _ =>
    have hc : c ≠ '\n' := by
      rintro rfl
      cases h
    simp [endsLine, text, hc.symm]
  | lineBreak, _, _ => simp [endsLine, text]
  | lineComment body, h, _ => simp [endsLine, text, h.1]
  | blockComment body true, _, _ => simp [endsLine, text]
  | blockComment body false, _, _ => simp [endsLine, text]
  | quoted .string body false, h, _ =>
    simp [endsLine, text, Quote.mark, newline_not_mem_of_isOpenBody h.1]
  | quoted .rune body false, h, _ =>
    simp [endsLine, text, Quote.mark, newline_not_mem_of_isOpenBody h.1]
  | stray c, h, _ =>
    have hc : c ≠ '\n' := by
      rintro rfl
      cases h.1
    simp [endsLine, text, hc.symm]

end Lexeme

/-! ### From one token to the next -/

/-- A line end that is put in comes before every token that is not. -/
theorem lineEnd?_append_eq {due : Bool} {pos : Position} {ts before rest : List Token} {t : Token}
    (h : lineEnd? due pos ++ ts = before ++ t :: rest) (ht : t.isInserted = false) :
    ∃ before', before = lineEnd? due pos ++ before' ∧ ts = before' ++ t :: rest := by
  cases due with
  | false => exact ⟨before, rfl, h⟩
  | true =>
    cases before with
    | nil =>
      obtain ⟨rfl, -⟩ := List.cons.inj h
      cases ht
    | cons s before =>
      obtain ⟨rfl, hts⟩ := List.cons.inj h
      exact ⟨before, rfl, hts⟩

/-- From any place of a source to the next token: one line end if one is due and the line or the
source ends before that token, and none otherwise. -/
theorem tokensFrom_next : ∀ {ls : List Lexeme} {due : Bool} {pos : Position}
    {between after : List Token} {u : Token}, Lexeme.AllCut ls →
    tokensFrom due pos ls = between ++ u :: after →
    (∀ s ∈ between, s.isInserted = true) → u.isInserted = false →
    ∃ gap rest, ls.flatMap Lexeme.text = gap ++ rest ∧ u.pos = pos.after gap ∧
      between.length = if due = true ∧ ('\n' ∈ gap ∨ u.kind = .endOfFile) then 1 else 0
  | [], due, pos, between, after, u, _, h, hbetween, hu => by
    obtain ⟨between, rfl, hfile⟩ := lineEnd?_append_eq h hu
    cases between with
    | nil =>
      obtain ⟨rfl, -⟩ := List.cons.inj hfile
      refine ⟨[], [], rfl, rfl, ?_⟩
      cases due <;> rfl
    | cons s between =>
      obtain ⟨rfl, -⟩ := List.cons.inj hfile
      cases hbetween (Token.endOfFile pos) (by simp)
  | l :: ls, due, pos, between, after, u, ⟨hcut, hls⟩, h, hbetween, hu => by
    by_cases hline : l.endsLine = true
    · have hbreak := (Lexeme.endsLine_iff hcut (Lexeme.token?_of_endsLine hline pos)).mp hline
      rw [tokensFrom, if_pos hline] at h
      obtain ⟨between, rfl, hnext⟩ := lineEnd?_append_eq h hu
      obtain ⟨gap, rest, htext, hpos, hlength⟩ :=
        tokensFrom_next hls hnext (fun s hs => hbetween s (by simp [hs])) hu
      -- behind this line end no other one is due
      refine ⟨l.text ++ gap, rest, ?_, ?_, ?_⟩
      · rw [List.flatMap_cons, htext, List.append_assoc]
      · rw [hpos, Position.after_append]
      · rw [List.length_append, hlength]
        cases due <;> simp [lineEnd?, hbreak]
    · rw [tokensFrom, if_neg hline] at h
      cases ht : l.token? pos with
      | some t =>
        rw [ht] at h
        obtain ⟨-, hplace, hkind, hwritten⟩ := Lexeme.spelling_token hcut ht
        cases between with
        | nil =>
          obtain ⟨rfl, -⟩ := List.cons.inj h
          exact ⟨[], (l :: ls).flatMap Lexeme.text, rfl, hplace, by simp [hkind]⟩
        | cons s between =>
          obtain ⟨rfl, -⟩ := List.cons.inj h
          have hput := hbetween t (by simp)
          rw [Token.not_isInserted hwritten] at hput
          cases hput
      | none =>
        have hbreak : '\n' ∉ l.text := fun hmem => hline ((Lexeme.endsLine_iff hcut ht).mpr hmem)
        rw [ht] at h
        obtain ⟨gap, rest, htext, hpos, hlength⟩ := tokensFrom_next hls h hbetween hu
        refine ⟨l.text ++ gap, rest, ?_, ?_, ?_⟩
        · rw [List.flatMap_cons, htext, List.append_assoc]
        · rw [hpos, Position.after_append]
        · rw [hlength]
          simp [hbreak]

/-- From one token to the next, wherever they stand. -/
theorem tokensFrom_between : ∀ {ls : List Lexeme} {due : Bool} {pos : Position}
    {before between after : List Token} {t u : Token}, Lexeme.AllCut ls →
    tokensFrom due pos ls = before ++ t :: (between ++ u :: after) → t.isInserted = false →
    (∀ s ∈ between, s.isInserted = true) → u.isInserted = false →
    ∃ first gap rest, ls.flatMap Lexeme.text = first ++ t.spelling ++ gap ++ rest ∧
      t.pos = pos.after first ∧ u.pos = pos.after (first ++ t.spelling ++ gap) ∧
      between.length =
        if t.kind.endsStatement = true ∧ ('\n' ∈ gap ∨ u.kind = .endOfFile) then 1 else 0
  | [], due, pos, before, between, after, t, u, _, h, ht, _, _ => by
    obtain ⟨before, -, hfile⟩ := lineEnd?_append_eq h ht
    have hlength := congrArg List.length hfile
    simp only [List.length_append, List.length_cons, List.length_nil] at hlength
    omega
  | l :: ls, due, pos, before, between, after, t, u, ⟨hcut, hls⟩, h, ht, hbetween, hu => by
    -- where both tokens lie behind the first piece, that piece comes before them
    have hbehind : ∀ {due before},
        tokensFrom due (pos.after l.text) ls = before ++ t :: (between ++ u :: after) →
        ∃ first gap rest, (l :: ls).flatMap Lexeme.text = first ++ t.spelling ++ gap ++ rest ∧
          t.pos = pos.after first ∧ u.pos = pos.after (first ++ t.spelling ++ gap) ∧
          between.length =
            if t.kind.endsStatement = true ∧ ('\n' ∈ gap ∨ u.kind = .endOfFile) then 1 else 0 := by
      intro due before h
      obtain ⟨first, gap, rest, htext, hfirst, hsecond, hlength⟩ :=
        tokensFrom_between hls h ht hbetween hu
      refine ⟨l.text ++ first, gap, rest, ?_, ?_, ?_, hlength⟩
      · simp only [List.flatMap_cons, htext, List.append_assoc]
      · rw [hfirst, Position.after_append]
      · rw [hsecond, ← Position.after_append]
        simp only [List.append_assoc]
    obtain ⟨-, he⟩ | ⟨s, hs, he⟩ | ⟨-, he⟩ := tokensFrom_cases due pos l ls
    · rw [he] at h
      obtain ⟨before, -, hnext⟩ := lineEnd?_append_eq h ht
      exact hbehind hnext
    · rw [he] at h
      cases before with
      | nil =>
        obtain ⟨rfl, hnext⟩ := List.cons.inj h
        obtain ⟨hspelling, hplace, -, -⟩ := Lexeme.spelling_token hcut hs
        obtain ⟨gap, rest, htext, hpos, hlength⟩ := tokensFrom_next hls hnext hbetween hu
        refine ⟨[], gap, rest, ?_, hplace, ?_, hlength⟩
        · simp only [List.flatMap_cons, htext, hspelling, List.nil_append, List.append_assoc]
        · rw [hpos, ← Position.after_append, hspelling, List.nil_append]
      | cons s' before =>
        exact hbehind (List.cons.inj h).2
    · rw [he] at h
      exact hbehind h

/-! ### Neighbours -/

/-- Where no line end is due, the first token is not one that is put in. -/
theorem head_tokensFrom : ∀ {ls : List Lexeme} {pos : Position} {t : Token} {rest : List Token},
    Lexeme.AllCut ls → tokensFrom false pos ls = t :: rest → t.isInserted = false
  | [], pos, t, rest, _, h => by
    obtain ⟨rfl, -⟩ := List.cons.inj h
    rfl
  | l :: ls, pos, t, rest, ⟨hcut, hls⟩, h => by
    obtain ⟨-, he⟩ | ⟨s, hs, he⟩ | ⟨-, he⟩ := tokensFrom_cases false pos l ls
    · exact head_tokensFrom hls (he ▸ h)
    · rw [he] at h
      obtain ⟨rfl, -⟩ := List.cons.inj h
      exact Token.not_isInserted (Lexeme.spelling_token hcut hs).2.2.2
    · exact head_tokensFrom hls (he ▸ h)

/-- Behind a line end that is put in there is another token. -/
theorem tokensFrom_neighbours : ∀ {ls : List Lexeme} {due : Bool} {pos : Position}
    {before after : List Token} {t u : Token}, Lexeme.AllCut ls →
    tokensFrom due pos ls = before ++ t :: u :: after → t.isInserted = true →
    u.isInserted = false
  | [], due, pos, before, after, t, u, _, h, ht => by
    have hfile : ∀ {before}, [Token.endOfFile pos] = before ++ t :: u :: after → False := by
      intro before h
      have hlength := congrArg List.length h
      simp only [List.length_append, List.length_cons, List.length_nil] at hlength
      omega
    cases due with
    | false => exact (hfile h).elim
    | true =>
      cases before with
      | nil =>
        obtain ⟨-, hnext⟩ := List.cons.inj h
        obtain ⟨rfl, -⟩ := List.cons.inj hnext
        rfl
      | cons s before => exact (hfile (List.cons.inj h).2).elim
  | l :: ls, due, pos, before, after, t, u, ⟨hcut, hls⟩, h, ht => by
    obtain ⟨-, he⟩ | ⟨s, hs, he⟩ | ⟨-, he⟩ := tokensFrom_cases due pos l ls
    · rw [he] at h
      cases due with
      | false => exact tokensFrom_neighbours hls h ht
      | true =>
        cases before with
        | nil => exact head_tokensFrom hls (List.cons.inj h).2
        | cons s before => exact tokensFrom_neighbours hls (List.cons.inj h).2 ht
    · rw [he] at h
      cases before with
      | nil =>
        obtain ⟨rfl, -⟩ := List.cons.inj h
        rw [Token.not_isInserted (Lexeme.spelling_token hcut hs).2.2.2] at ht
        cases ht
      | cons s' before => exact tokensFrom_neighbours hls (List.cons.inj h).2 ht
    · exact tokensFrom_neighbours hls (he ▸ h) ht

/-- **Line ends are put in exactly where they are due.** Of two tokens that are not put in, with
none but line ends put in between them, the first is followed by one such line end if it can end a
statement and either there is a line break in what stands between them or the second is the end of
file, and by none otherwise. A line end that is put in is not the first token, and no two of them
stand side by side. -/
theorem line_ends_are_exact (source : String) :
    (∀ before t between u after,
      (Scan.ofText source).tokens = before ++ t :: (between ++ u :: after) →
      t.isInserted = false → (∀ s ∈ between, s.isInserted = true) → u.isInserted = false →
      (∃ gap, Token.Gap source.toList t u gap) ∧
        ∀ gap, Token.Gap source.toList t u gap → between.length =
          if t.kind.endsStatement = true ∧ ('\n' ∈ gap ∨ u.kind = .endOfFile) then 1 else 0) ∧
    (∀ t rest, (Scan.ofText source).tokens = t :: rest → t.isInserted = false) ∧
    ∀ before t u after, (Scan.ofText source).tokens = before ++ t :: u :: after →
      t.isInserted = true → u.isInserted = false := by
  have hcut := cut_lexemes source.toList
  refine ⟨?_, fun t rest h => head_tokensFrom hcut h,
    fun before t u after h ht => tokensFrom_neighbours hcut h ht⟩
  intro before t between u after h ht hbetween hu
  obtain ⟨first, gap, rest, htext, hfirst, hsecond, hlength⟩ :=
    tokensFrom_between hcut h ht hbetween hu
  rw [text_lexemes] at htext
  rw [Position.after_start] at hfirst hsecond
  have hgap : Token.Gap source.toList t u gap := ⟨first, rest, htext, hfirst, hsecond⟩
  exact ⟨⟨gap, hgap⟩, fun gap' hgap' => hgap.unique hgap' ▸ hlength⟩

/-- A comment over two lines, a stray character and a line break behind it put in one line end. -/
example : (Scan.ofText "x /* a\nb */ #\n\n/**/ = 1").tokens.map Token.isInserted =
    [false, true, false, false, true, false] := by
  decide +kernel

end Treewalk
