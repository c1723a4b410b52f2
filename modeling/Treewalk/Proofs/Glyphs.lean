/-
# Characters in literals

The text between the quotes of a literal is a row of glyphs: a glyph is a
character that stands for itself, or a backslash with the character behind
it. Three functions go through that text, and each pairs the backslashes by
itself: the scanner looks for the closing quote, the check of escapes for
those that are not known, and the decoder for the characters meant. They all
cross a glyph as one (`quotedBody_glyph`, `unknownEscapes_glyph`,
`decodeEscapes_glyph`), and so they part the text at the same places.

Every character has a glyph (`Glyph.ofChar`), and so every text can be
written as a string literal and every character as a rune literal.

Key definitions: `Glyph`, `Glyph.ofChar`, `Quote.literal`, `SplitsAlike`,
`ReadAs`, `Expr.Means`, `OneLiteral`.
Key theorems: `exists_glyphs`, `splitsAlike`, `scan_glyphs`,
`glyphs_of_mem_located`, `literals_express_every_text`.
-/
import Treewalk.Eval.Expression
import Treewalk.Proofs.Respelling
import Treewalk.Proofs.RoundTrip.Expression

namespace Treewalk

/-- A character of a literal as it is written: by itself or behind a backslash. -/
inductive Glyph where
  | plain (c : Char)
  | escaped (c : Char)
  deriving DecidableEq, Repr

namespace Glyph

def text : Glyph → List Char
  | plain c => [c]
  | escaped c => ['\\', c]

/-- The character that is meant. -/
def char : Glyph → Char
  | plain c => c
  | escaped c => if c = 'n' then '\n' else if c = 't' then '\t' else if c = 'r' then '\r' else c

/-- Whether a glyph may stand in a literal with the given quotes. -/
def isLegal (mark : Char) : Glyph → Bool
  | plain c => c != '\\' && c != '\n' && c != mark
  | escaped c => escapable.contains c

/-- How a character is written in a literal with the given quotes. -/
def ofChar (mark c : Char) : Glyph :=
  if c = '\n' then escaped 'n'
  else if c = '\t' then escaped 't'
  else if c = '\r' then escaped 'r'
  else if c = '\\' ∨ c = mark then escaped c
  else plain c

end Glyph

/-- The text of a row of glyphs. -/
def glyphText (gs : List Glyph) : List Char := gs.flatMap Glyph.text

namespace Quote

/-- The glyphs of a text in a literal. -/
def glyphs (q : Quote) (cs : List Char) : List Glyph := cs.map (Glyph.ofChar q.mark)

/-- A text as a literal. -/
def literal (q : Quote) (cs : List Char) : String :=
  String.ofList (q.mark :: glyphText (q.glyphs cs) ++ [q.mark])

/-- The kind of token that a literal is. -/
def kind : Quote → Token.Kind
  | string => .str
  | rune => .rune

theorem mark_ne (q : Quote) : q.mark ≠ '\\' ∧ q.mark ≠ '\n' := by
  cases q <;> decide

end Quote

@[simp] theorem glyphText_nil : glyphText [] = [] := rfl

@[simp] theorem glyphText_cons (g : Glyph) (gs : List Glyph) :
    glyphText (g :: gs) = g.text ++ glyphText gs := rfl

/-! ### One glyph -/

section OneGlyph

variable {mark : Char} {g : Glyph}

theorem Glyph.isLegal_plain {c : Char} :
    (Glyph.plain c).isLegal mark = true ↔ c ≠ '\\' ∧ c ≠ '\n' ∧ c ≠ mark := by
  simp [Glyph.isLegal, and_assoc]

/-- The characters that may be escaped, one by one. -/
theorem mem_escapable {c : Char} (h : escapable.contains c = true) :
    c = 'n' ∨ c = 't' ∨ c = 'r' ∨ c = '\\' ∨ c = '"' ∨ c = '\'' := by
  simpa [escapable] using h

theorem unescape_of_escapable {c : Char} (h : escapable.contains c = true) :
    unescape c = [(Glyph.escaped c).char] := by
  rcases mem_escapable h with rfl | rfl | rfl | rfl | rfl | rfl <;> rfl

/-- The decoder crosses a glyph. -/
theorem decodeEscapes_glyph (h : g.isLegal mark = true) (rest : List Char) :
    decodeEscapes (g.text ++ rest) = g.char :: decodeEscapes rest := by
  cases g with
  | plain c =>
    have hc := (Glyph.isLegal_plain.mp h).1
    simp [Glyph.text, Glyph.char, decodeEscapes, hc]
  | escaped c =>
    simp only [Glyph.text, List.cons_append, List.nil_append, decodeEscapes,
      unescape_of_escapable h]

/-- The scanner crosses a glyph. -/
theorem quotedBody_glyph (h : g.isLegal mark = true) (rest : List Char) :
    Lexeme.quotedBody mark (g.text ++ rest) =
      (g.text ++ (Lexeme.quotedBody mark rest).1, (Lexeme.quotedBody mark rest).2) := by
  cases g with
  | plain c =>
    obtain ⟨hslash, hnl, hmark⟩ := Glyph.isLegal_plain.mp h
    rw [Glyph.text, List.singleton_append, Lexeme.quotedBody_cons hnl hslash, if_neg hmark]
    rfl
  | escaped c =>
    have hc : c ≠ '\n' := by
      rintro rfl
      cases h
    simp [Glyph.text, Lexeme.quotedBody]

/-- The check of escapes crosses a glyph. -/
theorem unknownEscapes_glyph (h : g.isLegal mark = true) (pos : Position) (rest : List Char) :
    unknownEscapes pos (g.text ++ rest) = unknownEscapes (pos.after g.text) rest := by
  cases g with
  | plain c =>
    have hc := (Glyph.isLegal_plain.mp h).1
    simp [Glyph.text, unknownEscapes, hc]
  | escaped c =>
    have hc : escapable.contains c = true := h
    simp only [Glyph.text, List.cons_append, List.nil_append, unknownEscapes, if_pos hc,
      Position.after_cons, Position.after_nil]

/-- Nothing else begins as a glyph does. -/
theorem Glyph.text_inj {g' : Glyph} (h : g.isLegal mark = true) (h' : g'.isLegal mark = true)
    {rest rest' : List Char} (he : g.text ++ rest = g'.text ++ rest') : g = g' ∧ rest = rest' := by
  cases g with
  | plain c =>
    cases g' with
    | plain c' =>
      obtain ⟨rfl, hrest⟩ := List.cons.inj he
      exact ⟨rfl, hrest⟩
    | escaped c' => exact absurd (List.cons.inj he).1 (Glyph.isLegal_plain.mp h).1
  | escaped c =>
    cases g' with
    | plain c' => exact absurd (List.cons.inj he).1.symm (Glyph.isLegal_plain.mp h').1
    | escaped c' =>
      obtain ⟨rfl, hrest⟩ := List.cons.inj (List.cons.inj he).2
      exact ⟨rfl, hrest⟩

/-- The glyph of a character is legal, and means the character. -/
theorem Glyph.isLegal_ofChar_and_char (q : Quote) (c : Char) :
    (Glyph.ofChar q.mark c).isLegal q.mark = true ∧ (Glyph.ofChar q.mark c).char = c := by
  unfold Glyph.ofChar
  by_cases hnl : c = '\n'
  · subst hnl
    exact ⟨rfl, rfl⟩
  rw [if_neg hnl]
  by_cases htab : c = '\t'
  · subst htab
    exact ⟨rfl, rfl⟩
  rw [if_neg htab]
  by_cases hcr : c = '\r'
  · subst hcr
    exact ⟨rfl, rfl⟩
  rw [if_neg hcr]
  by_cases hself : c = '\\' ∨ c = q.mark
  · rw [if_pos hself]
    rcases hself with rfl | rfl
    · exact ⟨rfl, rfl⟩
    · cases q <;> exact ⟨rfl, rfl⟩
  · rw [if_neg hself]
    rw [not_or] at hself
    exact ⟨Glyph.isLegal_plain.mpr ⟨hself.1, hnl, hself.2⟩, rfl⟩

end OneGlyph

/-! ### Rows of glyphs -/

section Rows

variable {mark : Char} {gs : List Glyph}

theorem decodeEscapes_glyphs (h : ∀ g ∈ gs, g.isLegal mark = true) (rest : List Char) :
    decodeEscapes (glyphText gs ++ rest) = gs.map Glyph.char ++ decodeEscapes rest := by
  induction gs with
  | nil => rfl
  | cons g gs ih =>
    rw [List.forall_mem_cons] at h
    rw [glyphText_cons, List.append_assoc, decodeEscapes_glyph h.1, ih h.2]
    rfl

theorem decodeEscapes_glyphText (h : ∀ g ∈ gs, g.isLegal mark = true) :
    decodeEscapes (glyphText gs) = gs.map Glyph.char := by
  have hall := decodeEscapes_glyphs h []
  rwa [List.append_nil, decodeEscapes, List.append_nil] at hall

theorem quotedBody_glyphs (h : ∀ g ∈ gs, g.isLegal mark = true) (rest : List Char) :
    Lexeme.quotedBody mark (glyphText gs ++ rest) =
      (glyphText gs ++ (Lexeme.quotedBody mark rest).1, (Lexeme.quotedBody mark rest).2) := by
  induction gs with
  | nil => rfl
  | cons g gs ih =>
    rw [List.forall_mem_cons] at h
    rw [glyphText_cons, List.append_assoc, quotedBody_glyph h.1, ih h.2, List.append_assoc]

theorem unknownEscapes_glyphs (h : ∀ g ∈ gs, g.isLegal mark = true) (pos : Position)
    (rest : List Char) : unknownEscapes pos (glyphText gs ++ rest) =
      unknownEscapes (pos.after (glyphText gs)) rest := by
  induction gs generalizing pos with
  | nil => rfl
  | cons g gs ih =>
    rw [List.forall_mem_cons] at h
    rw [glyphText_cons, List.append_assoc, unknownEscapes_glyph h.1, ih h.2, Position.after_append]

theorem isQuotable_glyph {g : Glyph} (h : g.isLegal mark = true) (rest : List Char) :
    isQuotable mark (g.text ++ rest) = isQuotable mark rest := by
  cases g with
  | plain c =>
    obtain ⟨hslash, hnl, hmark⟩ := Glyph.isLegal_plain.mp h
    simp [Glyph.text, isQuotable, hslash, hnl, hmark]
  | escaped c =>
    have hc : escapable.contains c = true := h
    simp only [Glyph.text, List.cons_append, List.nil_append, isQuotable, hc, Bool.true_and]

theorem isQuotable_glyphs (h : ∀ g ∈ gs, g.isLegal mark = true) :
    isQuotable mark (glyphText gs) = true := by
  induction gs with
  | nil => rfl
  | cons g gs ih =>
    rw [List.forall_mem_cons] at h
    rw [glyphText_cons, isQuotable_glyph h.1, ih h.2]

theorem glyphText_ne_nil (g : Glyph) (gs : List Glyph) : glyphText (g :: gs) ≠ [] := by
  cases g <;> exact List.cons_ne_nil _ _

/-- A text is a row of legal glyphs in one way at most. -/
theorem glyphText_inj : ∀ {gs hs : List Glyph}, (∀ g ∈ gs, g.isLegal mark = true) →
    (∀ g ∈ hs, g.isLegal mark = true) → glyphText gs = glyphText hs → gs = hs
  | [], [], _, _, _ => rfl
  | [], h :: hs, _, _, he => absurd he.symm (glyphText_ne_nil h hs)
  | g :: gs, [], _, _, he => absurd he (glyphText_ne_nil g gs)
  | g :: gs, h :: hs, hg, hh, he => by
    rw [List.forall_mem_cons] at hg hh
    obtain ⟨rfl, hrest⟩ := Glyph.text_inj hg.1 hh.1 he
    rw [glyphText_inj hg.2 hh.2 hrest]

/-- What the scanner finds between two quotes is a row of legal glyphs, unless an escape in it is
not known. -/
theorem exists_glyphs {cs : List Char} (hclosed : (Lexeme.quotedBody mark cs).2.1 = true)
    (pos : Position) (hknown : unknownEscapes pos (Lexeme.quotedBody mark cs).1 = []) :
    ∃ gs, (Lexeme.quotedBody mark cs).1 = glyphText gs ∧ ∀ g ∈ gs, g.isLegal mark = true := by
  fun_induction Lexeme.quotedBody mark cs generalizing pos with
  | case1 | case2 | case3 | case4 => cases hclosed
  | case5 c rest hne body closed after hbody ih =>
    rw [hbody] at ih
    cases hc : escapable.contains c with
    | false =>
      simp only [unknownEscapes, hc] at hknown
      cases hknown
    | true =>
      have hrest : unknownEscapes ((pos.next '\\').next c) body = [] := by
        simpa only [unknownEscapes, hc, if_true] using hknown
      obtain ⟨gs, htext, hlegal⟩ := ih hclosed _ hrest
      have htext : body = glyphText gs := htext
      exact ⟨.escaped c :: gs, by simp [Glyph.text, htext], List.forall_mem_cons.mpr ⟨hc, hlegal⟩⟩
  | case6 => exact ⟨[], rfl, List.forall_mem_nil _⟩
  | case7 c rest hnl hlast _ hslash hmark body closed after hbody ih =>
    rw [hbody] at ih
    have hc : c ≠ '\\' := Lexeme.ne_backslash hlast hslash
    have hrest : unknownEscapes (pos.next c) body = [] := by
      simpa [unknownEscapes, hc] using hknown
    obtain ⟨gs, htext, hlegal⟩ := ih hclosed _ hrest
    have htext : body = glyphText gs := htext
    exact ⟨.plain c :: gs, by simp [Glyph.text, htext],
      List.forall_mem_cons.mpr ⟨Glyph.isLegal_plain.mpr ⟨hc, hnl, hmark⟩, hlegal⟩⟩

end Rows

/-! ### Where the text is parted -/

/-- The scanner crosses `p` whatever follows it, and begins anew behind it. -/
def ScanCrosses (mark : Char) (p : List Char) : Prop :=
  ∀ rest, Lexeme.quotedBody mark (p ++ rest) =
    (p ++ (Lexeme.quotedBody mark rest).1, (Lexeme.quotedBody mark rest).2)

/-- So does the check of escapes. -/
def CheckCrosses (p : List Char) : Prop :=
  ∀ pos rest, unknownEscapes pos (p ++ rest) = unknownEscapes (pos.after p) rest

/-- So does the decoder, which takes `p` for `out`. -/
def DecodeCrosses (p out : List Char) : Prop :=
  ∀ rest, decodeEscapes (p ++ rest) = out ++ decodeEscapes rest

/-- `p` is the text of the first glyphs. -/
def EndsGlyph (gs : List Glyph) (p : List Char) : Prop :=
  ∃ first, first <+: gs ∧ p = glyphText first

/-- The glyphs are those of the body of a literal: there are no others, and it is behind them, and
nowhere else, that each of the functions that go through the body begins anew. -/
structure SplitsAlike (mark : Char) (body : List Char) (gs : List Glyph) : Prop where
  legal : ∀ g ∈ gs, g.isLegal mark = true
  text : glyphText gs = body
  only : ∀ hs, (∀ h ∈ hs, h.isLegal mark = true) → glyphText hs = body → hs = gs
  scanned : ∀ p, p <+: body → (ScanCrosses mark p ↔ EndsGlyph gs p)
  checked : ∀ p, p <+: body → (CheckCrosses p ↔ EndsGlyph gs p)
  decoded : ∀ p, p <+: body → ((∃ out, DecodeCrosses p out) ↔ EndsGlyph gs p)
  chars : ∀ first, first <+: gs → DecodeCrosses (glyphText first) (first.map Glyph.char)

section Parting

variable {mark : Char} {gs : List Glyph} {p : List Char}

/-- A text breaks off behind a glyph or in the middle of an escape. -/
theorem endsGlyph_or_backslash : ∀ {gs : List Glyph} {p : List Char}, p <+: glyphText gs →
    EndsGlyph gs p ∨ ∃ first, first <+: gs ∧ p = glyphText first ++ ['\\']
  | [], p, h => .inl ⟨[], List.nil_prefix, List.prefix_nil.mp h⟩
  | g :: gs, p, h => by
    have hlater : ∀ {q}, p = g.text ++ q → q <+: glyphText gs →
        EndsGlyph (g :: gs) p ∨ ∃ first, first <+: g :: gs ∧ p = glyphText first ++ ['\\'] := by
      rintro q rfl hq
      rcases endsGlyph_or_backslash hq with ⟨first, hfirst, rfl⟩ | ⟨first, hfirst, rfl⟩
      · exact .inl ⟨g :: first, (List.prefix_cons_inj g).mpr hfirst, rfl⟩
      · exact .inr ⟨g :: first, (List.prefix_cons_inj g).mpr hfirst, by simp⟩
    cases g with
    | plain c =>
      cases p with
      | nil => exact .inl ⟨[], List.nil_prefix, rfl⟩
      | cons d q =>
        obtain ⟨rfl, hq⟩ := List.cons_prefix_cons.mp h
        exact hlater rfl hq
    | escaped c =>
      match p, h with
      | [], _ => exact .inl ⟨[], List.nil_prefix, rfl⟩
      | [d], h =>
        obtain ⟨rfl, -⟩ := List.cons_prefix_cons.mp h
        exact .inr ⟨[], List.nil_prefix, rfl⟩
      | d :: e :: q, h =>
        obtain ⟨rfl, hrest⟩ := List.cons_prefix_cons.mp h
        obtain ⟨rfl, hq⟩ := List.cons_prefix_cons.mp hrest
        exact hlater rfl hq

/-- None of the functions begins anew in the middle of an escape: the next character tells. -/
theorem not_crosses_backslash (h : ∀ g ∈ gs, g.isLegal mark = true)
    (hm : mark ≠ '\\' ∧ mark ≠ '\n') :
    ¬ ScanCrosses mark (glyphText gs ++ ['\\']) ∧ ¬ CheckCrosses (glyphText gs ++ ['\\']) ∧
      ∀ out, ¬ DecodeCrosses (glyphText gs ++ ['\\']) out := by
  refine ⟨fun hscan => ?_, fun hcheck => ?_, fun out hdecode => ?_⟩
  · -- a quote there would not close the literal
    have hclosed := congrArg (·.2.1) (hscan [mark])
    rw [List.append_assoc, quotedBody_glyphs h] at hclosed
    simp [Lexeme.quotedBody, hm] at hclosed
  · -- an unknown escape there would go unseen
    have hseen := hcheck .start ['z']
    rw [List.append_assoc, unknownEscapes_glyphs h] at hseen
    simp [unknownEscapes, escapable] at hseen
  · -- the letter of an escape there would stay as it is
    have hnone := hdecode []
    have hletter := hdecode ['n']
    rw [List.append_assoc, decodeEscapes_glyphs h] at hnone hletter
    have hshort := congrArg List.length hnone
    have hlong := congrArg List.length hletter
    simp [decodeEscapes, unescape] at hshort hlong
    omega

/-- **A row of legal glyphs is parted alike by all who go through it.** -/
theorem splitsAlike (h : ∀ g ∈ gs, g.isLegal mark = true) (hm : mark ≠ '\\' ∧ mark ≠ '\n') :
    SplitsAlike mark (glyphText gs) gs := by
  have hfirst : ∀ {first}, first <+: gs → ∀ g ∈ first, g.isLegal mark = true :=
    fun hp g hg => h g (hp.subset hg)
  have hmiddle : ∀ {p}, p <+: glyphText gs → ¬ EndsGlyph gs p →
      ¬ ScanCrosses mark p ∧ ¬ CheckCrosses p ∧ ∀ out, ¬ DecodeCrosses p out := by
    intro p hp hends
    obtain ⟨first, hpre, rfl⟩ := (endsGlyph_or_backslash hp).resolve_left hends
    exact not_crosses_backslash (hfirst hpre) hm
  refine
    { legal := h
      text := rfl
      only := fun hs hlegal htext => glyphText_inj hlegal h htext
      scanned := fun p hp => ⟨fun hscan => ?_, ?_⟩
      checked := fun p hp => ⟨fun hcheck => ?_, ?_⟩
      decoded := fun p hp => ⟨fun ⟨out, hdecode⟩ => ?_, ?_⟩
      chars := fun first hpre rest => decodeEscapes_glyphs (hfirst hpre) rest }
  · exact Classical.not_not.mp fun hends => (hmiddle hp hends).1 hscan
  · rintro ⟨first, hpre, rfl⟩ rest
    exact quotedBody_glyphs (hfirst hpre) rest
  · exact Classical.not_not.mp fun hends => (hmiddle hp hends).2.1 hcheck
  · rintro ⟨first, hpre, rfl⟩ pos rest
    exact unknownEscapes_glyphs (hfirst hpre) pos rest
  · exact Classical.not_not.mp fun hends => (hmiddle hp hends).2.2 out hdecode
  · rintro ⟨first, hpre, rfl⟩
    exact ⟨_, decodeEscapes_glyphs (hfirst hpre)⟩

end Parting

/-! ### Literals as expressions -/

/-- Where an expression is due, the words are read as one with `P`, with nothing wrong in them. -/
def ReadAs (ws : List Word) (P : Expr → Prop) : Prop :=
  ∀ n, ws.length < n → ∀ rest, Parser.endsExpr (firstKind rest) = true →
    Parser.Reads (exprRules n).expr (ws ++ rest) rest P

/-- The expression has the value `v` whatever the context, and evaluating it does nothing else. -/
def Expr.Means (e : Expr) (v : Value) : Prop :=
  ∀ ctx frame m, (e.eval ctx frame).run m = .ok v m

theorem readAs_words {e : Expr} {P : Expr → Prop} (he : e.isWritten = true)
    (hP : ∀ a : Expr, a.unplaced = e.unplaced → P a) : ReadAs e.words P :=
  fun n hn rest hrest => ((Parser.faithful n).expr he hn rest hrest).imp hP

/-- A source that is one literal and nothing else. -/
structure OneLiteral (source : String) (q : Quote) (raw : List Char) (v : Value) : Prop where
  tokens : ∃ pos, (Scan.ofText source).tokens =
    [⟨q.kind, String.ofList raw, .start⟩, .lineEnd pos, .endOfFile pos]
  faults : (Scan.ofText source).faults = []
  value : ReadAs [⟨q.kind, String.ofList raw⟩] (·.Means v)

section Literals

variable {q : Quote} {gs : List Glyph}

/-- A literal of legal glyphs is a sound word; a rune is one glyph. -/
theorem sound_glyphs (h : ∀ g ∈ gs, g.isLegal q.mark = true) (hrune : q = .rune → gs.length = 1) :
    Word.sound ⟨q.kind, String.ofList (glyphText gs)⟩ = true := by
  have hquotable := isQuotable_glyphs h
  cases q with
  | string => simpa [Word.sound, Quote.kind, Quote.mark] using hquotable
  | rune =>
    obtain ⟨g, rfl⟩ := List.length_eq_one_iff.mp (hrune rfl)
    have hbody : isRuneBody g.text = true := by cases g <;> rfl
    simpa [Word.sound, Quote.kind, Quote.mark, hbody] using hquotable

theorem scan_glyphs (h : ∀ g ∈ gs, g.isLegal q.mark = true) (hrune : q = .rune → gs.length = 1) :
    ∃ pos, Scan.ofText (String.ofList (q.mark :: glyphText gs ++ [q.mark])) =
      ⟨[⟨q.kind, String.ofList (glyphText gs), .start⟩, .lineEnd pos, .endOfFile pos], []⟩ := by
  have hsound := sound_glyphs h hrune
  have hlexeme : Word.lexeme ⟨q.kind, String.ofList (glyphText gs)⟩ =
      .quoted q (glyphText gs) true := by
    cases q <;> simp [Word.lexeme, Quote.kind]
  have hscannable : Scannable [Word.lexeme ⟨q.kind, String.ofList (glyphText gs)⟩] := by
    refine ⟨Word.isWhole_lexeme hsound, ?_, trivial⟩
    intro d hd
    cases hd
  have htext : q.mark :: glyphText gs ++ [q.mark] =
      [Word.lexeme ⟨q.kind, String.ofList (glyphText gs)⟩].flatMap Lexeme.text := by
    rw [hlexeme]
    simp [Lexeme.text]
  have hdue : q.kind.endsStatement = true := by cases q <;> rfl
  unfold Scan.ofText Scan.ofLexemes
  rw [String.toList_ofList, htext, lexemes_of_scannable hscannable, tokensFrom_word hsound,
    faults_of_scannable _ hscannable, hdue]
  exact ⟨_, rfl⟩

end Literals

/-- The value of a string literal is the text its glyphs mean. -/
theorem readAs_string {gs : List Glyph} (h : ∀ g ∈ gs, g.isLegal '"' = true) :
    ReadAs [⟨.str, String.ofList (glyphText gs)⟩]
      (·.Means (.str (String.ofList (gs.map Glyph.char)))) := by
  refine readAs_words (e := .str (String.ofList (glyphText gs)) .start)
    (sound_glyphs (q := .string) h fun hq => nomatch hq) ?_
  intro a ha ctx frame m
  cases a <;> cases ha
  rw [← decodeEscapes_glyphText h, Expr.eval, Expr.raw, String.toList_ofList]
  rfl

/-- The value of a rune literal is the code point of the character its glyph means. -/
theorem readAs_rune {g : Glyph} (h : g.isLegal '\'' = true) :
    ReadAs [⟨.rune, String.ofList g.text⟩] (·.Means (.rune (.ofNat g.char.toNat))) := by
  have hchars : decodeRune g.text = g.char.toNat := by
    have hall := decodeEscapes_glyph h []
    rw [List.append_nil] at hall
    rw [decodeRune, hall]
    rfl
  have hsound : Word.sound ⟨.rune, String.ofList g.text⟩ = true := by
    have hrow : ∀ g' ∈ [g], g'.isLegal Quote.rune.mark = true := List.forall_mem_singleton.mpr h
    simpa [Quote.kind] using sound_glyphs hrow fun _ => rfl
  refine readAs_words (e := .rune (String.ofList g.text) .start) hsound ?_
  intro a ha ctx frame m
  cases a <;> cases ha
  rw [← hchars, Expr.eval, Expr.raw, String.toList_ofList]
  rfl

/-! ### Every text has a literal -/

section Writing

variable (q : Quote)

theorem Quote.isLegal_glyphs (cs : List Char) : ∀ g ∈ q.glyphs cs, g.isLegal q.mark = true := by
  intro g hg
  obtain ⟨c, -, rfl⟩ := List.mem_map.mp hg
  exact (Glyph.isLegal_ofChar_and_char q c).1

theorem Quote.map_char_glyphs (cs : List Char) : (q.glyphs cs).map Glyph.char = cs := by
  rw [Quote.glyphs, List.map_map]
  exact List.map_id'' (fun c => (Glyph.isLegal_ofChar_and_char q c).2) cs

theorem oneLiteral_string (s : String) :
    OneLiteral (Quote.string.literal s.toList) .string (glyphText (Quote.string.glyphs s.toList))
      (.str s) := by
  have hlegal := Quote.string.isLegal_glyphs s.toList
  obtain ⟨pos, hscan⟩ := scan_glyphs hlegal fun hq => nomatch hq
  have hvalue := readAs_string hlegal
  rw [Quote.map_char_glyphs, String.ofList_toList] at hvalue
  exact ⟨⟨pos, congrArg Scan.tokens hscan⟩, congrArg Scan.faults hscan, hvalue⟩

theorem oneLiteral_rune (c : Char) :
    OneLiteral (Quote.rune.literal [c]) .rune (glyphText (Quote.rune.glyphs [c]))
      (.rune (.ofNat c.toNat)) := by
  obtain ⟨hlegal, hchar⟩ := Glyph.isLegal_ofChar_and_char .rune c
  obtain ⟨pos, hscan⟩ := scan_glyphs (Quote.rune.isLegal_glyphs [c]) fun _ => rfl
  have hvalue := readAs_rune hlegal
  rw [hchar] at hvalue
  exact ⟨⟨pos, congrArg Scan.tokens hscan⟩, congrArg Scan.faults hscan,
    by simpa [Quote.glyphs, Quote.kind] using hvalue⟩

end Writing

/-- A code point fits in a rune, -/
theorem toInt_ofNat_toNat (c : Char) : (Int32.ofNat c.toNat).toInt = c.toNat := by
  refine Int32.toInt_ofNat_of_lt ?_
  have hvalid : c.toNat.isValidChar := c.valid
  omega

/-- which is shown as its character. -/
theorem runeChar_ofNat_toNat (c : Char) : runeChar (.ofNat c.toNat) = c := by
  have hvalid : c.toNat.isValidChar := c.valid
  rw [runeChar, toInt_ofNat_toNat, Int.toNat_natCast, if_pos ⟨Int.natCast_nonneg _, hvalid⟩,
    Char.ofNat_toNat]

/-! ### Every literal has its glyphs -/

theorem mem_lexemes_of_mem_located : ∀ {ls : List Lexeme} {start pos : Position} {l : Lexeme},
    (l, pos) ∈ located start ls → l ∈ ls
  | _ :: _, _, _, _, .head _ => .head _
  | _ :: _, _, _, _, .tail _ h => .tail _ (mem_lexemes_of_mem_located h)

/-- The check of escapes finds nothing else. -/
theorem exists_unknownEscape {pos : Position} {body : List Char} : ∀ f ∈ unknownEscapes pos body,
    ∃ c, f.1 = .unknownEscape c := by
  fun_induction unknownEscapes pos body with
  | case1 pos c rest faults hc ih => exact ih
  | case2 pos c rest faults hc ih => exact List.forall_mem_cons.mpr ⟨⟨c, rfl⟩, ih⟩
  | case3 pos c rest hne ih => exact ih
  | case4 => exact List.forall_mem_nil _

/-- A closed literal of a source is closed by its quote whatever stands behind it. -/
theorem quotedBody_of_mem_lexemes {source : List Char} {q : Quote} {body : List Char}
    (h : .quoted q body true ∈ lexemes source) :
    Lexeme.quotedBody q.mark (body ++ [q.mark, ' ']) = (body, true, [' ']) := by
  obtain ⟨c, cs, htext, hnext⟩ := legible_lexemes source _ h .start
    ⟨q.kind, String.ofList body, .start⟩ (by cases q <;> rfl)
  obtain ⟨rfl, rfl⟩ : q.mark = c ∧ body ++ [q.mark] = cs := by
    simpa [Lexeme.text] using htext
  have hcut := hnext []
  rw [List.append_assoc] at hcut
  cases q with
  | string => simpa [Lexeme.next, Quote.mark, isBlank, Prod.ext_iff, and_assoc] using hcut
  | rune => simpa [Lexeme.next, Quote.mark, isBlank, Prod.ext_iff, and_assoc] using hcut

/-- **The literals of a source are rows of glyphs,** those with an unknown escape apart. -/
theorem glyphs_of_mem_located {source : List Char} {q : Quote} {body : List Char} {pos : Position}
    (h : (.quoted q body true, pos) ∈ located .start (lexemes source))
    (hknown : ∀ f ∈ (Lexeme.quoted q body true).faults pos, ∀ c, f.1 ≠ .unknownEscape c) :
    ∃ gs, body = glyphText gs ∧ ∀ g ∈ gs, g.isLegal q.mark = true := by
  have hbody := quotedBody_of_mem_lexemes (mem_lexemes_of_mem_located h)
  have hnone : unknownEscapes (pos.next q.mark) body = [] := by
    rw [List.eq_nil_iff_forall_not_mem]
    intro f hf
    obtain ⟨c, hc⟩ := exists_unknownEscape f hf
    exact hknown f (List.mem_append_left _ hf) c hc
  have hclosed : (Lexeme.quotedBody q.mark (body ++ [q.mark, ' '])).2.1 = true := by rw [hbody]
  have hgs := exists_glyphs hclosed (pos.next q.mark)
  rw [hbody] at hgs
  exact hgs hnone

/-- The body of a rune is one glyph. -/
theorem length_eq_one_of_isRuneBody {mark : Char} {gs : List Glyph}
    (h : ∀ g ∈ gs, g.isLegal mark = true) (hrune : isRuneBody (glyphText gs) = true) :
    gs.length = 1 := by
  match gs with
  | [] => cases hrune
  | [_] => rfl
  | g :: g' :: gs =>
    obtain ⟨d, rest, htext⟩ := List.exists_cons_of_ne_nil (glyphText_ne_nil g' gs)
    rw [glyphText_cons, htext] at hrune
    cases g with
    | plain c =>
      have hc := (Glyph.isLegal_plain.mp (h _ (.head _))).1
      simp [Glyph.text, isRuneBody, hc] at hrune
    | escaped c => simp [Glyph.text, isRuneBody] at hrune

/-- **Literals can express everything, and nothing in them is read in two ways.** Every text has a
string literal, which by itself is one token with nothing wrong in it, decoded to the text; every
character has a rune literal, whose value is its code point, shown as the character again. A
closed literal of any source, unless an escape in it is not known, is a row of glyphs: the scanner,
the check of escapes and the decoder all begin anew behind the same of its characters, and each
glyph is decoded to one character, a lone one to itself. -/
theorem literals_express_every_text :
    (∀ s : String, OneLiteral (Quote.string.literal s.toList) .string
        (glyphText (Quote.string.glyphs s.toList)) (.str s) ∧
      decodeEscapes (glyphText (Quote.string.glyphs s.toList)) = s.toList) ∧
    (∀ c : Char, ∃ n : Int32, OneLiteral (Quote.rune.literal [c]) .rune
        (glyphText (Quote.rune.glyphs [c])) (.rune n) ∧ n.toInt = c.toNat ∧ runeChar n = c) ∧
    ∀ (source : String) (q : Quote) (body : List Char) (pos : Position),
      (.quoted q body true, pos) ∈ located .start (lexemes source.toList) →
      (∀ f ∈ (Lexeme.quoted q body true).faults pos, ∀ c, f.1 ≠ .unknownEscape c) →
      ∃ gs, SplitsAlike q.mark body gs ∧ decodeEscapes body = gs.map Glyph.char ∧
        (q = .rune → (Lexeme.quoted q body true).faults pos = [] → gs.length = 1) := by
  refine ⟨fun s => ⟨oneLiteral_string s, ?_⟩, fun c => ?_, fun source q body pos h hknown => ?_⟩
  · rw [decodeEscapes_glyphText (Quote.string.isLegal_glyphs _), Quote.map_char_glyphs]
  · exact ⟨_, oneLiteral_rune c, toInt_ofNat_toNat c, runeChar_ofNat_toNat c⟩
  · obtain ⟨gs, rfl, hlegal⟩ := glyphs_of_mem_located h hknown
    refine ⟨gs, splitsAlike hlegal q.mark_ne, decodeEscapes_glyphText hlegal, ?_⟩
    rintro rfl hnone
    have hlength := (List.append_eq_nil_iff.mp hnone).2
    refine length_eq_one_of_isRuneBody hlegal ?_
    cases hrune : isRuneBody (glyphText gs) with
    | true => rfl
    | false => simp [hrune] at hlength

/-- Three backslashes before a quote: the third escapes it, and the next quote closes. -/
theorem backslashes_before_quote_split_alike :
    SplitsAlike '"' ['\\', '\\', '\\', '"'] [.escaped '\\', .escaped '"'] ∧
      decodeEscapes ['\\', '\\', '\\', '"'] = ['\\', '"'] := by
  obtain ⟨gs, hsplit, hchars, -⟩ := literals_express_every_text.2.2 "x = \"\\\\\\\"\" // \"" .string
    ['\\', '\\', '\\', '"'] ⟨1, 5⟩ (by decide +kernel) (fun f hf => nomatch hf)
  obtain rfl := hsplit.only [.escaped '\\', .escaped '"'] (by decide) rfl
  exact ⟨hsplit, hchars⟩

end Treewalk
