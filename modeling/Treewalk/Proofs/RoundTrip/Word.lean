/-
# Words and how they are written

A word is what a token is but for its place: a kind, and the text that the
parser sees. Most words are written as that text; string and rune literals
stand between their quotes, and a compound assignment has its equals sign.

The scanner always takes the longest piece it can. A word is scanned back
as itself if what follows does not go on with it, which the first character
behind it decides (`Lexeme.extendedBy`).

Key definitions: `Word`, `Word.lexeme`, `Word.sound`, `Lexeme.isWhole`,
`Lexeme.extendedBy`.
Key theorems: `Lexeme.next_of_isWhole`, `Lexeme.faults_of_isWhole`,
`Word.token_lexeme`.
-/
import Treewalk.Token.Scan

namespace Treewalk

/-- A token without its place. -/
structure Word where
  kind : Token.Kind
  text : String
  deriving DecidableEq, Repr

def Token.word (t : Token) : Word := ⟨t.kind, t.text⟩

/-! ### The texts of words -/

/-- Digits only, and one at least. -/
def isDigits (cs : List Char) : Bool := !cs.isEmpty && cs.all Char.isDigit

/-- Digits, a point and digits. -/
def isDecimal (cs : List Char) : Bool :=
  match cs.dropWhile Char.isDigit with
  | '.' :: fraction => isDigits (cs.takeWhile Char.isDigit) && isDigits fraction
  | _ => false

/-- The body of a closed literal: no line break, no bare mark, and a backslash only before what it
may escape. -/
def isQuotable (mark : Char) : List Char → Bool
  | [] => true
  | '\\' :: c :: rest => escapable.contains c && isQuotable mark rest
  | c :: rest => c != '\\' && c != '\n' && c != mark && isQuotable mark rest

/-- A letter, and letters and digits behind it. -/
def isName : List Char → Bool
  | [] => false
  | c :: rest => isNameStart c && rest.all isNameChar

/-- The spelling of a mark of the given kind. -/
def isMark (kind : Token.Kind) : List Char → Bool
  | [c] => Token.singleMarks.lookup c == some kind
  | [c, d] => Token.doubleMarks.lookup (c, d) == some kind
  | _ => false

namespace Lexeme

/-- A piece of source text with nothing wrong in it. Comments are left out. -/
def isWhole : Lexeme → Bool
  | .blank c => c == ' '
  | .lineBreak => true
  | .quoted .string body true => isQuotable '"' body
  | .quoted .rune body true => isQuotable '\'' body && isRuneBody body
  | .number digits => isDigits digits || isDecimal digits
  | .word letters => isName letters
  | .mark kind characters => isMark kind characters
  | _ => false

/-- Whether the piece would be scanned as a longer one with this character behind it. -/
def extendedBy : Lexeme → Char → Bool
  | .number _, d => d.isDigit || d == '.'
  | .word _, d => isNameChar d
  | .mark _ [c], d =>
    (Token.doubleMarks.lookup (c, d)).isSome || (c == '/' && (d == '/' || d == '*'))
  | _, _ => false

/-- Nothing behind the piece goes on with it. -/
def Stops (l : Lexeme) (rest : List Char) : Prop :=
  ∀ d, rest.head? = some d → l.extendedBy d = false

end Lexeme

/-! ### Characters -/

theorem isNameChar_of_isNameStart {c : Char} (h : isNameStart c = true) : isNameChar c = true := by
  unfold isNameStart at h
  unfold isNameChar Text.isAlphanumeric
  rcases Bool.or_eq_true_iff.mp h with h | h
  · rw [h]; rfl
  · rw [h, Bool.or_true]

theorem not_isNameStart_of_isDigit {c : Char} (h : c.isDigit = true) : isNameStart c = false := by
  simp only [Char.isDigit, Bool.and_eq_true, decide_eq_true_eq, ge_iff_le, UInt32.le_iff_toNat_le]
    at h
  have hval : c.toNat = c.val.toNat := rfl
  have hnine : '9'.val.toNat = 57 := rfl
  have hA : 'A'.val.toNat = 65 := rfl
  have ha : 'a'.val.toNat = 97 := rfl
  have hupper : c.isUpper = false := by
    rw [Bool.eq_false_iff]
    intro hc
    have hle := UInt32.le_iff_toNat_le.mp (of_decide_eq_true hc).1
    omega
  have hlower : c.isLower = false := by
    rw [Bool.eq_false_iff]
    intro hc
    have hle := UInt32.le_iff_toNat_le.mp (of_decide_eq_true (Bool.and_eq_true_iff.mp hc).1)
    omega
  have halpha : c.isAlpha = false := Bool.or_eq_false_iff.mpr ⟨hupper, hlower⟩
  have hne : c ≠ '_' := by
    rintro rfl
    exact absurd h.2 (by decide)
  rw [isNameStart, Text.isAlphabetic_of_ascii (by omega), halpha, Bool.false_or]
  exact decide_eq_false hne

/-- A character that begins neither blanks, line ends, literals nor comments. -/
def isPlainStart (c : Char) : Bool :=
  !isBlank c && c != '\n' && c != '"' && c != '\'' && c != '/'

/-- A class of characters without those that begin something else. -/
theorem isPlainStart_of {p : Char → Bool} {c : Char}
    (hp : [' ', '\t', '\r', '\n', '"', '\'', '/'].any p = false) (h : p c = true) :
    isPlainStart c = true := by
  have hne : ∀ d ∈ [' ', '\t', '\r', '\n', '"', '\'', '/'], c ≠ d := by
    rintro d hd rfl
    exact List.any_eq_false.mp hp c hd h
  simp only [List.forall_mem_cons] at hne
  obtain ⟨hsp, htab, hcr, hnl, hstr, hrune, hslash, -⟩ := hne
  simp [isPlainStart, isBlank, hsp, htab, hcr, hnl, hstr, hrune, hslash]

/-! ### Scanning one piece -/

namespace Lexeme

variable {c : Char} {rest : List Char}

/-- Only words, numbers and marks begin with a plain character. -/
theorem next_of_isPlainStart (h : isPlainStart c = true) : next c rest =
    if c.isDigit then (number (numberBody (c :: rest)).1, (numberBody (c :: rest)).2)
    else if isNameStart c then
      (word ((c :: rest).takeWhile isNameChar), (c :: rest).dropWhile isNameChar)
    else markOf c rest := by
  simp only [isPlainStart, Bool.and_eq_true, Bool.not_eq_true', bne_iff_ne] at h
  obtain ⟨⟨⟨⟨hblank, hnl⟩, hstr⟩, hrune⟩, hslash⟩ := h
  simp [next, hblank, hnl, hstr, hrune, hslash]

theorem numberBody_of_stops (h : ∀ d, rest.head? = some d → (d.isDigit || d == '.') = false) :
    numberBody rest = ([], rest) := by
  cases rest with
  | nil => rfl
  | cons d rest =>
    have hd := h d rfl
    simp only [Bool.or_eq_false_iff, beq_eq_false_iff_ne] at hd
    simp [numberBody, hd]

theorem numberBody_digits {digits : List Char} (h : ∀ c ∈ digits, c.isDigit = true) :
    numberBody (digits ++ rest) = (digits ++ (numberBody rest).1, (numberBody rest).2) := by
  induction digits with
  | nil => rfl
  | cons c digits ih =>
    have hc : c.isDigit = true := h c (by simp)
    have hrest := ih fun d hd => h d (by simp [hd])
    simp [numberBody, hc, hrest]

theorem all_isDigit_of_isDigits {cs : List Char} (h : isDigits cs = true) :
    cs ≠ [] ∧ ∀ c ∈ cs, c.isDigit = true := by
  simpa [isDigits] using h

theorem isDecimal_iff {cs : List Char} : isDecimal cs = true ↔ ∃ whole fraction,
    cs = whole ++ '.' :: fraction ∧ isDigits whole = true ∧ isDigits fraction = true := by
  constructor
  · intro h
    unfold isDecimal at h
    split at h
    · next fraction hdrop =>
      obtain ⟨hw, hf⟩ := Bool.and_eq_true_iff.mp h
      refine ⟨cs.takeWhile Char.isDigit, fraction, ?_, hw, hf⟩
      rw [← hdrop, List.takeWhile_append_dropWhile]
    · cases h
  · rintro ⟨whole, fraction, rfl, hw, hf⟩
    obtain ⟨-, hdigits⟩ := all_isDigit_of_isDigits hw
    have hpoint : ('.' : Char).isDigit = false := rfl
    have hdrop : (whole ++ '.' :: fraction).dropWhile Char.isDigit = '.' :: fraction := by
      rw [List.dropWhile_append_of_pos hdigits]
      simp [hpoint]
    have htake : (whole ++ '.' :: fraction).takeWhile Char.isDigit = whole := by
      rw [List.takeWhile_append_of_pos hdigits]
      simp [hpoint]
    simp [isDecimal, hdrop, htake, hw, hf]

/-- A number is scanned up to its last digit. -/
theorem numberBody_of_isWhole {digits : List Char} (h : (number digits).isWhole = true)
    (hs : (number digits).Stops rest) : numberBody (digits ++ rest) = (digits, rest) := by
  have hend := numberBody_of_stops hs
  rcases Bool.or_eq_true_iff.mp h with h | h
  · obtain ⟨-, hdigits⟩ := all_isDigit_of_isDigits h
    rw [numberBody_digits hdigits, hend, List.append_nil]
  · obtain ⟨whole, fraction, rfl, hw, hf⟩ := isDecimal_iff.mp h
    obtain ⟨-, hwhole⟩ := all_isDigit_of_isDigits hw
    obtain ⟨hne, hfraction⟩ := all_isDigit_of_isDigits hf
    obtain ⟨d, fraction, rfl⟩ := List.exists_cons_of_ne_nil hne
    have hd : d.isDigit = true := hfraction d (by simp)
    have hpoint : numberBody ('.' :: (d :: fraction ++ rest)) = ('.' :: d :: fraction, rest) := by
      rw [numberBody, numberBody_digits hfraction, hend, List.append_nil]
      simp [hd]
    rw [List.append_assoc, List.cons_append, numberBody_digits hwhole, hpoint]

theorem isDigit_head {digits : List Char} (h : (number digits).isWhole = true) :
    ∃ c cs, digits = c :: cs ∧ c.isDigit = true := by
  have hfirst : ∀ {cs}, isDigits cs = true → ∃ c rest, cs = c :: rest ∧ c.isDigit = true := by
    intro cs hcs
    obtain ⟨hne, hdigits⟩ := all_isDigit_of_isDigits hcs
    obtain ⟨c, rest, rfl⟩ := List.exists_cons_of_ne_nil hne
    exact ⟨c, rest, rfl, hdigits c (by simp)⟩
  rcases Bool.or_eq_true_iff.mp h with h | h
  · exact hfirst h
  · obtain ⟨whole, fraction, rfl, hw, -⟩ := isDecimal_iff.mp h
    obtain ⟨c, rest, rfl, hc⟩ := hfirst hw
    exact ⟨c, _, rfl, hc⟩

/-- A literal is scanned up to its closing mark. -/
theorem quotedBody_of_isQuotable {mark : Char} {body : List Char} (hm : mark ≠ '\\' ∧ mark ≠ '\n')
    (h : isQuotable mark body = true) :
    quotedBody mark (body ++ mark :: rest) = (body, true, rest) := by
  fun_induction isQuotable mark body with
  | case1 =>
    simp [quotedBody, hm]
  | case2 c body ih =>
    obtain ⟨hc, hbody⟩ := Bool.and_eq_true_iff.mp h
    have hne : c ≠ '\n' := by
      rintro rfl
      cases hc
    simp [quotedBody, ih hbody]
  | case3 c body hne ih =>
    simp only [Bool.and_eq_true, bne_iff_ne] at h
    obtain ⟨⟨⟨hslash, hnl⟩, hmark⟩, hbody⟩ := h
    simp [quotedBody, hslash, hmark, ih hbody]

theorem unknownEscapes_of_isQuotable {mark : Char} {body : List Char} (pos : Position)
    (h : isQuotable mark body = true) : unknownEscapes pos body = [] := by
  fun_induction isQuotable mark body generalizing pos with
  | case1 => rfl
  | case2 c body ih =>
    obtain ⟨hc, hbody⟩ := Bool.and_eq_true_iff.mp h
    simp only [unknownEscapes, ih _ hbody, if_pos hc]
  | case3 c body hne ih =>
    simp only [Bool.and_eq_true, bne_iff_ne] at h
    obtain ⟨⟨⟨hslash, -⟩, -⟩, hbody⟩ := h
    simp [unknownEscapes, ih _ hbody]

/-! ### Marks -/

/-- A character that may begin a mark and nothing else, comments apart. -/
def beginsMark (c : Char) : Bool :=
  !isBlank c && c != '\n' && c != '"' && c != '\'' && !c.isDigit && !isNameStart c

theorem beginsMark_of_single {kind : Token.Kind} (h : Token.singleMarks.lookup c = some kind) :
    beginsMark c = true := by
  have hall : ∀ p ∈ Token.singleMarks, beginsMark p.1 = true := by decide
  obtain ⟨before, after, he, -⟩ := List.lookup_eq_some_iff.mp h
  exact hall (c, kind) (by simp [he])

theorem beginsMark_of_double {d : Char} {kind : Token.Kind}
    (h : Token.doubleMarks.lookup (c, d) = some kind) :
    beginsMark c = true ∧ ¬ (c = '/' ∧ (d = '/' ∨ d = '*')) := by
  have hall : ∀ p ∈ Token.doubleMarks, beginsMark p.1.1 = true ∧
      ¬ (p.1.1 = '/' ∧ (p.1.2 = '/' ∨ p.1.2 = '*')) := by decide
  obtain ⟨before, after, he, -⟩ := List.lookup_eq_some_iff.mp h
  exact hall ((c, d), kind) (by simp [he])

/-- A mark is scanned where no comment begins. -/
theorem next_of_beginsMark (h : beginsMark c = true)
    (hcomment : ¬ (c = '/' ∧ (rest.head? = some '/' ∨ rest.head? = some '*'))) :
    next c rest = markOf c rest := by
  simp only [beginsMark, Bool.and_eq_true, Bool.not_eq_true', bne_iff_ne] at h
  obtain ⟨⟨⟨⟨⟨hblank, hnl⟩, hstr⟩, hrune⟩, hdigit⟩, hname⟩ := h
  have hline : ¬ (c = '/' ∧ rest.head? = some '/') := fun ⟨hc, hr⟩ => hcomment ⟨hc, .inl hr⟩
  have hblock : ¬ (c = '/' ∧ rest.head? = some '*') := fun ⟨hc, hr⟩ => hcomment ⟨hc, .inr hr⟩
  simp [next, hblank, hnl, hstr, hrune, hdigit, hname, hline, hblock]

theorem next_mark {kind : Token.Kind} {c : Char} {cs : List Char}
    (h : isMark kind (c :: cs) = true) (hs : (mark kind (c :: cs)).Stops rest) :
    next c (cs ++ rest) = (mark kind (c :: cs), rest) := by
  match cs with
  | [] =>
    have hk : Token.singleMarks.lookup c = some kind := beq_iff_eq.mp h
    have hstop : ∀ d, rest.head? = some d → Token.doubleMarks.lookup (c, d) = none ∧
        ¬ (c = '/' ∧ (d = '/' ∨ d = '*')) := by
      intro d hd
      have hext := hs d hd
      simpa [extendedBy] using hext
    have hcomment : ¬ (c = '/' ∧ (rest.head? = some '/' ∨ rest.head? = some '*')) := by
      rintro ⟨hc, hr | hr⟩
      · exact (hstop _ hr).2 ⟨hc, .inl rfl⟩
      · exact (hstop _ hr).2 ⟨hc, .inr rfl⟩
    have hnone :
        (rest.head?.bind fun d => (Token.doubleMarks.lookup (c, d)).map (d, ·)) = none := by
      cases hr : rest.head? with
      | none => rfl
      | some d => simp [(hstop d hr).1]
    rw [List.nil_append, next_of_beginsMark (beginsMark_of_single hk) hcomment]
    simp only [markOf, hnone, hk]
  | [d] =>
    have hk : Token.doubleMarks.lookup (c, d) = some kind := beq_iff_eq.mp h
    obtain ⟨hbegins, hno⟩ := beginsMark_of_double hk
    rw [List.singleton_append, next_of_beginsMark hbegins (by simpa using hno)]
    simp [markOf, hk]
  | _ :: _ :: _ => cases h

/-! ### Whole pieces -/

/-- **A whole piece is scanned as itself** where nothing behind it goes on with it. -/
theorem next_of_isWhole {l : Lexeme} (h : l.isWhole = true) (hs : l.Stops rest) :
    ∃ c cs, l.text = c :: cs ∧ next c (cs ++ rest) = (l, rest) := by
  match l, h, hs with
  | .blank c, h, _ =>
    obtain rfl : c = ' ' := beq_iff_eq.mp h
    exact ⟨' ', [], rfl, rfl⟩
  | .lineBreak, _, _ => exact ⟨'\n', [], rfl, rfl⟩
  | .quoted .string body true, h, _ =>
    have hbody : quotedBody '"' (body ++ '"' :: rest) = _ :=
      quotedBody_of_isQuotable (by decide) h
    refine ⟨'"', body ++ ['"'], rfl, ?_⟩
    rw [List.append_assoc, List.singleton_append]
    simp [next, isBlank, hbody]
  | .quoted .rune body true, h, _ =>
    have hbody : quotedBody '\'' (body ++ '\'' :: rest) = _ :=
      quotedBody_of_isQuotable (by decide) (Bool.and_eq_true_iff.mp h).1
    refine ⟨'\'', body ++ ['\''], rfl, ?_⟩
    rw [List.append_assoc, List.singleton_append]
    simp [next, isBlank, hbody]
  | .number digits, h, hs =>
    obtain ⟨c, cs, rfl, hc⟩ := isDigit_head h
    have hbody := numberBody_of_isWhole h hs
    refine ⟨c, cs, rfl, ?_⟩
    rw [next_of_isPlainStart (isPlainStart_of (by decide) hc), if_pos hc, ← List.cons_append, hbody]
  | .word (c :: cs), h, hs =>
    obtain ⟨hc, hcs⟩ := Bool.and_eq_true_iff.mp h
    have hletters : ∀ d ∈ c :: cs, isNameChar d = true := by
      rw [List.forall_mem_cons]
      exact ⟨isNameChar_of_isNameStart hc, List.all_eq_true.mp hcs⟩
    have hdigit : c.isDigit = false := by
      cases hd : c.isDigit with
      | false => rfl
      | true => rw [not_isNameStart_of_isDigit hd] at hc; cases hc
    have htake : rest.takeWhile isNameChar = [] ∧ rest.dropWhile isNameChar = rest := by
      cases rest with
      | nil => exact ⟨rfl, rfl⟩
      | cons d rest =>
        have hd : isNameChar d = false := hs d rfl
        simp [hd]
    refine ⟨c, cs, rfl, ?_⟩
    rw [next_of_isPlainStart (isPlainStart_of (by decide) hc), hdigit, if_neg Bool.false_ne_true,
      if_pos hc, ← List.cons_append, List.takeWhile_append_of_pos hletters,
      List.dropWhile_append_of_pos hletters, htake.1, htake.2, List.append_nil]
  | .mark kind (c :: cs), h, hs => exact ⟨c, cs, rfl, next_mark h hs⟩

theorem faults_of_isWhole {l : Lexeme} (h : l.isWhole = true) (pos : Position) :
    l.faults pos = [] := by
  match l, h with
  | .blank _, _ | .lineBreak, _ | .word _, _ | .mark _ _, _ => rfl
  | .quoted .string body true, h =>
    simp [faults, unknownEscapes_of_isQuotable _ h]
  | .quoted .rune body true, h =>
    obtain ⟨hbody, hrune⟩ := Bool.and_eq_true_iff.mp h
    simp [faults, unknownEscapes_of_isQuotable _ hbody, hrune]
  | .number digits, h =>
    have hpoints : ∀ {cs}, isDigits cs = true → cs.count '.' = 0 := by
      intro cs hcs
      rw [List.count_eq_zero]
      intro hmem
      have := (all_isDigit_of_isDigits hcs).2 '.' hmem
      cases this
    have hcount : digits.count '.' ≤ 1 := by
      rcases Bool.or_eq_true_iff.mp h with h | h
      · rw [hpoints h]
        exact Nat.zero_le 1
      · obtain ⟨whole, fraction, rfl, hw, hf⟩ := isDecimal_iff.mp h
        simp [List.count_append, hpoints hw, hpoints hf]
    simp [faults, Nat.not_lt.mpr hcount]

end Lexeme

/-! ### Words -/

namespace Word

/-- The piece of source text that a word is written as. -/
def lexeme (w : Word) : Lexeme :=
  match w.kind with
  | .int | .float => .number w.text.toList
  | .str => .quoted .string w.text.toList true
  | .rune => .quoted .rune w.text.toList true
  | .identifier => .word w.text.toList
  | .compoundAssign => .mark .compoundAssign (w.text.toList ++ ['='])
  | kind =>
    if Token.keywords.lookup w.text = some kind then .word w.text.toList
    else .mark kind w.text.toList

/-- A word with the text that its kind asks for. A name is no reserved word. -/
def sound (w : Word) : Bool :=
  match w.kind with
  | .int => isDigits w.text.toList
  | .float => isDecimal w.text.toList
  | .str => isQuotable '"' w.text.toList
  | .rune => isQuotable '\'' w.text.toList && isRuneBody w.text.toList
  | .identifier => isName w.text.toList && (Token.keywords.lookup w.text).isNone
  | .compoundAssign => isMark .compoundAssign (w.text.toList ++ ['='])
  | kind => Token.keywords.lookup w.text = some kind || isMark kind w.text.toList

theorem isName_of_keyword {text : String} {kind : Token.Kind}
    (h : Token.keywords.lookup text = some kind) : isName text.toList = true := by
  have hall : ∀ p ∈ Token.keywords, isName p.1.toList = true := by decide +kernel
  obtain ⟨before, after, he, -⟩ := List.lookup_eq_some_iff.mp h
  exact hall (text, kind) (by simp [he])

/-- A word of fixed spelling is a reserved word or a mark. -/
theorem isWhole_fixed {text : String} {kind : Token.Kind}
    (h : (decide (Token.keywords.lookup text = some kind) || isMark kind text.toList) = true) :
    (if Token.keywords.lookup text = some kind then Lexeme.word text.toList
      else Lexeme.mark kind text.toList).isWhole = true := by
  by_cases hk : Token.keywords.lookup text = some kind
  · rw [if_pos hk]
    exact isName_of_keyword hk
  · rw [if_neg hk]
    rw [decide_eq_false hk, Bool.false_or] at h
    exact h

theorem isWhole_lexeme {w : Word} (h : w.sound = true) : w.lexeme.isWhole = true := by
  obtain ⟨kind, text⟩ := w
  cases kind
  case int => exact Bool.or_eq_true_iff.mpr (.inl h)
  case float => exact Bool.or_eq_true_iff.mpr (.inr h)
  case str => exact h
  case rune => exact h
  case identifier => exact (Bool.and_eq_true_iff.mp h).1
  case compoundAssign => exact h
  all_goals exact isWhole_fixed h

theorem token_fixed {text : String} {kind : Token.Kind} (hc : kind ≠ .compoundAssign)
    (pos : Position) :
    (if Token.keywords.lookup text = some kind then Lexeme.word text.toList
      else Lexeme.mark kind text.toList).token? pos = some ⟨kind, text, pos⟩ := by
  by_cases hk : Token.keywords.lookup text = some kind
  · rw [if_pos hk]
    simp [Lexeme.token?, Token.Kind.ofWord, hk]
  · rw [if_neg hk]
    simp [Lexeme.token?]

theorem endsLine_lexeme (w : Word) : w.lexeme.endsLine = false := by
  obtain ⟨kind, text⟩ := w
  unfold lexeme
  split
  case h_7 => split <;> rfl
  all_goals rfl

/-- **The piece that a sound word is written as stands for that word.** -/
theorem token_lexeme {w : Word} (h : w.sound = true) (pos : Position) :
    w.lexeme.token? pos = some ⟨w.kind, w.text, pos⟩ := by
  obtain ⟨kind, text⟩ := w
  cases kind
  case int =>
    have hpoint : text.toList.contains '.' = false := by
      rw [List.contains_eq_mem, decide_eq_false_iff_not]
      intro hmem
      have := (Lexeme.all_isDigit_of_isDigits h).2 '.' hmem
      cases this
    simp only [lexeme, Lexeme.token?, hpoint, String.ofList_toList]
    rfl
  case float =>
    have hpoint : text.toList.contains '.' = true := by
      obtain ⟨whole, fraction, he, -⟩ := Lexeme.isDecimal_iff.mp h
      rw [List.contains_eq_mem, decide_eq_true_eq, he]
      simp
    simp only [lexeme, Lexeme.token?, hpoint, String.ofList_toList]
    rfl
  case str => simp [lexeme, Lexeme.token?]
  case rune => simp [lexeme, Lexeme.token?]
  case identifier =>
    have hnone := Option.isNone_iff_eq_none.mp (Bool.and_eq_true_iff.mp h).2
    simp [lexeme, Lexeme.token?, Token.Kind.ofWord, hnone]
  case compoundAssign =>
    have hmark : isMark .compoundAssign (text.toList ++ ['=']) = true := h
    obtain ⟨c, hc⟩ : ∃ c, text.toList = [c] := by
      cases htext : text.toList with
      | nil => rw [htext] at hmark; exact absurd hmark (by decide)
      | cons c cs =>
        cases cs with
        | nil => exact ⟨c, rfl⟩
        | cons d cs => rw [htext] at hmark; simp [isMark] at hmark
    have htext : text = String.ofList [c] := by rw [← hc, String.ofList_toList]
    simp [lexeme, Lexeme.token?, hc, ← htext]
  all_goals exact token_fixed (by simp) pos

end Word

end Treewalk
