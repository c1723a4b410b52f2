/-
# Rules and the words they read

A rule of the grammar looks at the kinds and texts of tokens, never at their
places. `Reads p w r P` says what it does with the words alone: where `w` is
to be read, `p` reads up to `r`, finds nothing wrong and gives a result with
`P`. A rule is followed step by step: each step is read off the words at
hand, and what is left is a statement about the rest of the rule.

Key definitions: `Parser.Reads`.
Key theorems: `Parser.Reads.bind`, `Parser.reads_commaList1`,
`Parser.reads_commaList`.
-/
import Treewalk.Grammar.Expression
import Treewalk.Proofs.RoundTrip.Written

namespace Treewalk
namespace Parser

variable {α β : Type} {w r s : List Word} {P : α → Prop} {Q : β → Prop}

/-- The rule reads the words `w` up to `r` and gives a result with `P`. -/
def Reads (p : Parser α) (w r : List Word) (P : α → Prop) : Prop :=
  ∀ ts faults, ts.map Token.word = w →
    ∃ a ts', p ⟨ts, faults⟩ = .ok a ⟨ts', faults⟩ ∧ ts'.map Token.word = r ∧ P a

theorem kind_current {ts : List Token} (faults : Array (GrammarFault × Position))
    (h : ts.map Token.word = w) : (Cursor.mk ts faults).current.kind = firstKind w := by
  subst h
  cases ts <;> rfl

/-! ### Steps of a rule -/

theorem Reads.pure {a : α} (h : P a) : Reads (Pure.pure a) w w P :=
  fun ts _ hts => ⟨a, ts, rfl, hts, h⟩

theorem Reads.imp {p : Parser α} {P' : α → Prop} (h : Reads p w r P) (hP : ∀ a, P a → P' a) :
    Reads p w r P' := by
  intro ts faults hts
  obtain ⟨a, ts', hrun, hts', ha⟩ := h ts faults hts
  exact ⟨a, ts', hrun, hts', hP a ha⟩

theorem Reads.bind {p : Parser α} {f : α → Parser β} (hp : Reads p w r P)
    (hf : ∀ a, P a → Reads (f a) r s Q) : Reads (p >>= f) w s Q := by
  intro ts faults hts
  obtain ⟨a, ts', hrun, hts', ha⟩ := hp ts faults hts
  obtain ⟨b, ts'', hrun', hts'', hb⟩ := hf a ha ts' faults hts'
  refine ⟨b, ts'', ?_, hts'', hb⟩
  change EStateM.bind p f _ = _
  rw [EStateM.bind, hrun]
  exact hrun'

theorem Reads.map {p : Parser α} {f : α → β} (hp : Reads p w r P) (hf : ∀ a, P a → Q (f a)) :
    Reads (f <$> p) w r Q := by
  intro ts faults hts
  obtain ⟨a, ts', hrun, hts', ha⟩ := hp ts faults hts
  refine ⟨f a, ts', ?_, hts', hf a ha⟩
  change EStateM.map f p _ = _
  rw [EStateM.map, hrun]

theorem reads_if_pos {c : Prop} [Decidable c] {p q : Parser α} (hc : c) (h : Reads p w r P) :
    Reads (if c then p else q) w r P := by
  rwa [if_pos hc]

theorem reads_if_neg {c : Prop} [Decidable c] {p q : Parser α} (hc : ¬ c) (h : Reads q w r P) :
    Reads (if c then p else q) w r P := by
  rwa [if_neg hc]

theorem reads_get {f : Cursor → Parser β}
    (h : ∀ ts faults, ts.map Token.word = w → Reads (f ⟨ts, faults⟩) w r Q) :
    Reads (get >>= f) w r Q :=
  fun ts faults hts => h ts faults hts ts faults hts

theorem reads_kind {f : Token.Kind → Parser β} (h : Reads (f (firstKind w)) w r Q) :
    Reads (kind >>= f) w r Q := by
  intro ts faults hts
  have hrun := h ts faults hts
  rw [← kind_current faults hts] at hrun
  exact hrun

theorem reads_current {v : Word} {f : Token → Parser β}
    (h : ∀ pos, Reads (f ⟨v.kind, v.text, pos⟩) (v :: w) r Q) :
    Reads (current >>= f) (v :: w) r Q := by
  intro ts faults hts
  match ts, hts with
  | ⟨kind, text, pos⟩ :: ts, hts =>
    have hrun := h pos (⟨kind, text, pos⟩ :: ts) faults hts
    cases hts
    exact hrun

/-- A step that looks at a token of which the kind is known. -/
theorem reads_current_of_kind {f : Token → Parser β}
    (h : ∀ t : Token, t.kind = firstKind w → Reads (f t) w r Q) : Reads (current >>= f) w r Q :=
  fun ts faults hts => h _ (kind_current faults hts) ts faults hts

theorem reads_advance {v : Word} {f : Token → Parser β}
    (h : ∀ pos, Reads (f ⟨v.kind, v.text, pos⟩) w r Q) :
    Reads (advance >>= f) (v :: w) r Q := by
  intro ts faults hts
  match ts, hts with
  | ⟨kind, text, pos⟩ :: ts, hts =>
    cases hts
    exact h pos ts faults rfl

theorem reads_expect {v : Word} {k : Token.Kind} {f : Token → Parser β} (hk : v.kind = k)
    (h : ∀ pos, Reads (f ⟨v.kind, v.text, pos⟩) w r Q) :
    Reads (expect k >>= f) (v :: w) r Q := by
  have hread : Reads (expect k) (v :: w) w fun t => ∃ pos, t = ⟨v.kind, v.text, pos⟩ := by
    refine reads_kind (reads_if_pos hk ?_)
    intro ts faults hts
    match ts, hts with
    | ⟨kind, text, pos⟩ :: ts, hts =>
      cases hts
      exact ⟨_, ts, rfl, rfl, pos, rfl⟩
  refine hread.bind ?_
  rintro _ ⟨pos, rfl⟩
  exact h pos

/-! ### Statement ends -/

/-- The words behind statement ends. -/
def skipped (w : List Word) : List Word := w.dropWhile (·.kind == .semicolon)

theorem skipped_of_ne (h : firstKind w ≠ .semicolon) : skipped w = w := by
  cases w with
  | nil => rfl
  | cons v w => simp [skipped, show ¬ v.kind = .semicolon from h]

@[simp] theorem skipped_lineEnd : skipped (.lineEnd :: w) = skipped w := rfl

theorem map_word_skipped (ts : List Token) :
    (ts.dropWhile (·.kind == .semicolon)).map Token.word = skipped (ts.map Token.word) := by
  induction ts with
  | nil => rfl
  | cons t ts ih =>
    by_cases ht : t.kind = .semicolon
    · simpa [skipped, ht, Token.word] using ih
    · simp [skipped, ht, Token.word]

theorem reads_skipSemicolons {f : Unit → Parser β} (h : Reads (f ()) (skipped w) r Q) :
    Reads (skipSemicolons >>= f) w r Q := by
  intro ts faults hts
  exact h _ faults (by rw [map_word_skipped, hts])

theorem reads_statementEnd {f : Unit → Parser β} (h : Reads (f ()) w r Q) :
    Reads (statementEnd >>= f) (.lineEnd :: w) r Q := by
  have hread : Reads statementEnd (.lineEnd :: w) w fun _ => True :=
    reads_kind (reads_advance fun _ => .pure trivial)
  exact hread.bind fun _ _ => h

/-- A rule that finds nothing wrong has nothing to recover from. -/
theorem Reads.recovering {p : Parser α} {closing : List Token.Kind} (h : Reads p w r P) :
    Reads (recovering closing p) w r fun o => ∃ a, o = some a ∧ P a := by
  intro ts faults hts
  obtain ⟨a, ts', hrun, hts', ha⟩ := h ts faults hts
  refine ⟨some a, ts', ?_, hts', a, rfl, ha⟩
  rw [Parser.recovering, hrun]

/-! ### Lists with commas

The items of a list are words of `xs`, and what is read is as good as them up to `same`. -/

section CommaLists

variable {item : Parser α} {words : α → List Word} {same : α → β} {n : Nat}

theorem separated_append (x y : α) (xs : List α) :
    separated ((x :: y :: xs).map words) ++ r =
      words x ++ .comma :: (separated ((y :: xs).map words) ++ r) := by
  simp [separated]

theorem reads_commaList1 {xs : List α} (hr : firstKind r ≠ .comma) (hne : xs ≠ [])
    (hn : xs.length ≤ n)
    (h : ∀ x ∈ xs, ∀ v, firstKind v = .comma ∨ firstKind v = firstKind r →
      Reads item (words x ++ v) v fun a => same a = same x) :
    Reads (commaList1 item n) (separated (xs.map words) ++ r) r fun as =>
      as.map same = xs.map same := by
  induction n generalizing xs with
  | zero => exact absurd (List.eq_nil_of_length_eq_zero (Nat.le_zero.mp hn)) hne
  | succ n ih =>
    match xs, hne, hn with
    | [x], _, _ =>
      refine (h x (by simp) r (.inr rfl)).bind fun a ha => ?_
      refine reads_kind (reads_if_pos hr (.pure ?_))
      rw [List.map_singleton, List.map_singleton, ha]
    | x :: y :: xs, _, hn =>
      have htail := ih (by simp) (Nat.le_of_succ_le_succ hn) fun z hz =>
        h z (List.mem_cons_of_mem _ hz)
      rw [separated_append]
      refine (h x (by simp) _ (.inl rfl)).bind fun a ha => ?_
      refine reads_kind (reads_if_neg (by simp [Word.comma]) (reads_advance fun _ => ?_))
      refine htail.bind fun as has => .pure ?_
      rw [List.map_cons, List.map_cons, ha, has]

/-- The list may be empty here; no item begins with the closing mark. -/
theorem reads_commaList {xs : List α} (hr : firstKind r ≠ .comma) (hn : xs.length < n)
    (hfirst : ∀ x ∈ xs, ∀ v, firstKind (words x ++ v) ≠ firstKind r)
    (h : ∀ x ∈ xs, ∀ v, firstKind v = .comma ∨ firstKind v = firstKind r →
      Reads item (words x ++ v) v fun a => same a = same x) :
    Reads (commaList (firstKind r) item n) (separated (xs.map words) ++ r) r fun as =>
      as.map same = xs.map same := by
  induction n generalizing xs with
  | zero => exact absurd hn (Nat.not_lt_zero _)
  | succ n ih =>
    match xs, hn with
    | [], _ => exact reads_kind (reads_if_pos rfl (.pure rfl))
    | [x], _ =>
      refine reads_kind (reads_if_neg (hfirst x (by simp) r) ?_)
      refine (h x (by simp) r (.inr rfl)).bind fun a ha => ?_
      refine reads_kind (reads_if_pos hr (.pure ?_))
      rw [List.map_singleton, List.map_singleton, ha]
    | x :: y :: xs, hn =>
      have htail := ih (Nat.lt_of_succ_lt_succ hn)
        (fun z hz => hfirst z (List.mem_cons_of_mem _ hz))
        (fun z hz => h z (List.mem_cons_of_mem _ hz))
      rw [separated_append]
      refine reads_kind (reads_if_neg (hfirst x (by simp) _) ?_)
      refine (h x (by simp) _ (.inl rfl)).bind fun a ha => ?_
      refine reads_kind (reads_if_neg (by simp [Word.comma]) (reads_advance fun _ => ?_))
      refine htail.bind fun as has => .pure ?_
      rw [List.map_cons, List.map_cons, ha, has]

end CommaLists

end Parser
end Treewalk
