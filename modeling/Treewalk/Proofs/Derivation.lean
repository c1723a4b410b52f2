/-
# Nothing is dropped silently

A program that is read without a fault has been read whole: the tokens of its
source, up to the end of file, are a phrase of it (`Phrase.OfProgram`). Each
token has its place in the phrase, no node of the tree is without tokens, and
operators are grouped as the grammar says. So whatever in a source is not in
the tree has left a fault.

What the rules have read is put together in `Derivation.Expression` and
`Derivation.Statement`; here it is said of whole sources, whose tokens are
spelled as the rules expect.

Key theorems: `Lexeme.spelled_token`, `Scan.spelled_tokens`,
`faultless_program_is_derived`.
-/
import Treewalk.Proofs.Derivation.Statement
import Treewalk.Proofs.Forward

namespace Treewalk

/-! ### The marks of assignments -/

theorem Token.spelled_of_kind {t : Token} (hequal : t.kind ≠ .equal)
    (hcompound : t.kind ≠ .compoundAssign) : t.Spelled :=
  fun h => absurd h (by simp [hequal, hcompound])

/-- The mark of an assignment is made of the operator it is read as. -/
theorem Lexeme.spelled_token {l : Lexeme} {after : List Char} {pos : Position} {t : Token}
    (h : l.Cut after) (ht : l.token? pos = some t) : t.Spelled := by
  match l, h, ht with
  | quoted .string body true, _, ht =>
    cases ht
    exact Token.spelled_of_kind nofun nofun
  | quoted .rune body true, _, ht =>
    cases ht
    exact Token.spelled_of_kind nofun nofun
  | number digits, _, ht =>
    cases ht
    by_cases hpoint : digits.contains '.' = true
    · rw [if_pos hpoint]
      exact Token.spelled_of_kind nofun nofun
    · rw [if_neg hpoint]
      exact Token.spelled_of_kind nofun nofun
  | word letters, _, ht =>
    cases ht
    have hword := Token.Kind.isWord_ofWord (String.ofList letters)
    refine Token.spelled_of_kind ?_ ?_
    all_goals
      intro he
      rw [show Token.Kind.ofWord _ = _ from he] at hword
      cases hword
  | mark kind characters, h, ht =>
    obtain ⟨-, -, -, -, hequal, hcompound⟩ := isMarkOf h
    by_cases hk : kind = .compoundAssign
    · subst hk
      cases ht
      obtain ⟨c, hc, he⟩ := List.any_eq_true.mp (hcompound rfl)
      obtain rfl := beq_iff_eq.mp he
      have hfour : ∀ c ∈ ['+', '-', '*', '/'],
          Token.word ⟨.compoundAssign, String.ofList [c], pos⟩ =
            (Parser.assignOp (String.ofList [c])).word := by
        simp only [List.mem_cons, List.not_mem_nil, or_false, forall_eq_or_imp, forall_eq]
        exact ⟨rfl, rfl, rfl, rfl⟩
      exact fun _ => hfour c hc
    · have ht' : (mark kind characters).token? pos = some ⟨kind, String.ofList characters, pos⟩ := by
        simp [token?]
      rw [ht'] at ht
      cases ht
      intro hassign
      obtain rfl : kind = .equal := hassign.resolve_right hk
      rw [hequal rfl]
      rfl

theorem spelled_lineEnd? {due : Bool} {pos : Position} : ∀ t ∈ lineEnd? due pos, t.Spelled := by
  intro t ht
  cases due with
  | false => cases ht
  | true =>
    obtain rfl := List.mem_singleton.mp ht
    exact Token.spelled_of_kind nofun nofun

theorem spelled_tokensFrom : ∀ {ls : List Lexeme} (due : Bool) (pos : Position), Lexeme.AllCut ls →
    ∀ t ∈ tokensFrom due pos ls, t.Spelled
  | [], due, pos, _ => by
    intro t ht
    obtain ht | ht := List.mem_append.mp ht
    · exact spelled_lineEnd? t ht
    · obtain rfl := List.mem_singleton.mp ht
      exact Token.spelled_of_kind nofun nofun
  | l :: ls, due, pos, ⟨hcut, hls⟩ => by
    intro t ht
    obtain ⟨-, he⟩ | ⟨t', ht', he⟩ | ⟨-, he⟩ := tokensFrom_cases due pos l ls
    · rw [he] at ht
      obtain ht | ht := List.mem_append.mp ht
      · exact spelled_lineEnd? t ht
      · exact spelled_tokensFrom false _ hls t ht
    · rw [he] at ht
      obtain rfl | ht := List.mem_cons.mp ht
      · exact Lexeme.spelled_token hcut ht'
      · exact spelled_tokensFrom _ _ hls t ht
    · rw [he] at ht
      exact spelled_tokensFrom due _ hls t ht

theorem Scan.spelled_tokens (source : String) : ∀ t ∈ (Scan.ofText source).tokens, t.Spelled :=
  spelled_tokensFrom false .start (cut_lexemes source.toList)

/-! ### Programs -/

/-- **Nothing is dropped silently.** A source that is read without a fault is, token by token and up
to its end of file, a phrase of the program it is read as. -/
theorem faultless_program_is_derived (source : String)
    (h : (Program.ofTokens (Scan.ofText source).tokens).2 = []) :
    ∃ body eof, (Scan.ofText source).tokens = body ++ [eof] ∧ eof.kind = .endOfFile ∧
      Phrase.OfProgram body (Program.ofTokens (Scan.ofText source).tokens).1 := by
  obtain ⟨ds, eof, faults, hfile, -, hrun⟩ := Parser.declarations_end (Scan.ended_tokens source)
  have hall := hrun _ _ (Nat.le_refl _) (Nat.le_refl _)
  rw [Program.ofTokens_of_ok hall] at h ⊢
  have hnone : faults.toList = [] := h
  have hclean : faults.size = (#[] : Parser.Faults).size := by
    rw [← Array.length_toList, hnone]
    rfl
  have hderives := Parser.declarations_derive (Scan.ofText source).tokens.length
    (Scan.ofText source).tokens.length (Scan.ofText source).tokens #[] (Scan.spelled_tokens source) trivial
  rw [hall] at hderives
  obtain ⟨body, hbody, hderived⟩ := hderives.2.2 hclean
  exact ⟨body, eof, hbody, hfile, hderived⟩

/-- A source with a trailing comma, an `else` on the next line, operators of several levels and a
statement without separator. -/
def busySource : String :=
  "var n int32 = 1 + 2 * 3 - n\n\nfunc main() \x7b\n  for i := 0; i < n; i++ \x7b f(i,) \x7d\n" ++
  "  if a || b && n == 7 \x7b n -= 1 \x7d\n  else \x7b return \x7d\n\x7d\n"

theorem busySource_is_derived :
    (Program.ofTokens (Scan.ofText busySource).tokens).2 = [] ∧
    ∃ body eof, (Scan.ofText busySource).tokens = body ++ [eof] ∧ eof.kind = .endOfFile ∧
      Phrase.OfProgram body (Program.ofTokens (Scan.ofText busySource).tokens).1 :=
  have hclean : (Program.ofTokens (Scan.ofText busySource).tokens).2 = [] := by decide +kernel
  ⟨hclean, faultless_program_is_derived busySource hclean⟩

end Treewalk
