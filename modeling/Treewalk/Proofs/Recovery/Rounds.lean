/-
# The rounds of a list of statements

A list of statements is read in rounds: separators are passed, and then a
statement is read, or a fault is recorded and its statement skipped. `Comes`
says that some rounds lead from one place in the tokens to another, with the
statements and the faults they give. Where the rounds lead, the list goes on
(`Comes.list`); and rounds before a fork are the same on both of its ways
(`Comes.alike`).

Rounds without faults come further. The last token of a statement that others
follow is its separator or a closing brace, so that it is sealed: such rounds
are the same before any way to go on, but for an `else` behind an `if`
(`Comes.sealed`).

Key definitions: `Parser.Comes`, `Parser.LeavesElse`.
Key theorems: `Parser.Comes.list`, `Parser.Comes.alike`,
`Parser.Comes.goesOn`, `Parser.statement_sealed`, `Parser.Comes.sealed`.
-/
import Treewalk.Proofs.Recovery.Seal

namespace Treewalk

/-- Whether a statement is an `if`. -/
def Stmt.isIf : Stmt → Bool
  | .ifElse .. => true
  | _ => false

/-! ### The last token of a statement with a block -/

namespace Phrase

theorem OfBlock.closed {us : List Token} {body : List Stmt} (h : OfBlock us body) :
    ∃ vs c, us = vs ++ [c] ∧ c.kind = .closeBrace := by
  cases h with
  | @braces o us _ c _ _ hc => exact ⟨o :: us, c, rfl, hc⟩

theorem OfElse.closed : ∀ {us : List Token} {bs : List (Branch Stmt)} {o : Option (List Stmt)},
    OfElse us bs o → us = [] ∨ ∃ vs c, us = vs ++ [c] ∧ c.kind = .closeBrace
  | _, _, _, .none => .inl rfl
  | _, _, _, .last _ hblock => by
    obtain ⟨vs, c, rfl, hc⟩ := hblock.closed
    exact .inr ⟨_, c, (List.append_assoc _ vs [c]).symm, hc⟩
  | _, _, _, .more _ _ _ hblock htail => by
    obtain rfl | ⟨xs, c, rfl, hc⟩ := OfElse.closed htail
    · obtain ⟨vs, c, rfl, hc⟩ := hblock.closed
      exact .inr ⟨_, c, by rw [List.append_nil, ← List.append_assoc], hc⟩
    · exact .inr ⟨_, c, (List.append_assoc _ xs [c]).symm, hc⟩
termination_by _ bs _ _ => bs.length

/-- A statement with a block ends with a closing brace. -/
theorem OfBraced.closed {us : List Token} {s : Stmt} (h : OfBraced us s) :
    ∃ vs c, us = vs ++ [c] ∧ c.kind = .closeBrace := by
  cases h with
  | @block o us _ c _ _ hc => exact ⟨o :: us, c, rfl, hc⟩
  | ifElse _ _ hblock helse =>
    obtain rfl | ⟨vs, c, rfl, hc⟩ := helse.closed
    · obtain ⟨vs, c, rfl, hc⟩ := hblock.closed
      exact ⟨_, c, by rw [List.append_nil, ← List.append_assoc], hc⟩
    · exact ⟨_, c, (List.append_assoc _ vs [c]).symm, hc⟩
  | loop _ _ hblock =>
    obtain ⟨vs, c, rfl, hc⟩ := hblock.closed
    exact ⟨_, c, (List.append_assoc _ vs [c]).symm, hc⟩
  | switch _ _ _ _ hc => exact ⟨_, _, rfl, hc⟩

end Phrase

/-- A statement that ends with a block and begins with `if` is an `if`. -/
theorem Phrase.OfBraced.isIf {us rest : List Token} {s : Stmt} (h : Phrase.OfBraced us s)
    (hk : (Parser.first (us ++ rest)).kind = .kwIf) : s.isIf = true := by
  cases h with
  | block ho => cases ho.symm.trans hk
  | ifElse => rfl
  | loop hfor => cases hfor.symm.trans hk
  | switch hswitch => cases hswitch.symm.trans hk

namespace Parser

/-- Rounds of a list of statements lead from some tokens to what is left of them. They give
statements and faults. -/
inductive Comes (closing : List Token.Kind) (p : Parser Stmt) :
    List Token → List Stmt → Faults → List Token → Prop where
  | here {ts} : Comes closing p ts [] #[] ts
  | skip {t ts ss g rest} : t.kind = .semicolon → Comes closing p ts ss g rest →
      Comes closing p (t :: ts) ss g rest
  | round {ts o mid g ss h rest} : (first ts).kind ∉ .semicolon :: .endOfFile :: closing →
      recovering closing p ⟨ts, #[]⟩ = .ok o ⟨mid, g⟩ → Comes closing p mid ss h rest →
      Comes closing p ts (o.toList ++ ss) (g ++ h) rest

variable {α : Type} {R : Fork} {At : Token → Prop} {E : α → Prop} {k n : Nat}
  {closing : List Token.Kind} {p p' : Parser Stmt} {ts rest : List Token} {ss : List Stmt} {g : Faults}

/-! ### Runs without recorded faults -/

/-- How a rule ends is told by a run with no fault recorded before. -/
theorem Moves.ends_of {q q' : Parser α} {e : Ending α} (h : Moves R At k E q q') (hended : Ended ts)
    (hlen : ts.length ≤ k) (hfirst : At (first ts)) (hrun : q ⟨ts, #[]⟩ = e.outcome #[]) :
    Ends q ts e ∧ ∀ u v, ts = u ++ R.left → e.rest = v ++ R.left →
      Ends q' (u ++ R.right) (e.leaving (v ++ R.right)) := by
  obtain ⟨e', hends, -, -, -, halike⟩ := h ts hended hlen hfirst
  obtain rfl : e' = e := Ending.outcome_inj ((hends #[]).symm.trans hrun)
  exact ⟨hends, halike⟩

theorem Moves.ends {q q' : Parser α} {a : α} (h : Moves R At k E q q') (hended : Ended ts)
    (hlen : ts.length ≤ k) (hfirst : At (first ts)) (hrun : q ⟨ts, #[]⟩ = .ok a ⟨rest, g⟩) :
    Ends q ts (.gives a rest g) := by
  refine (h.ends_of hended hlen hfirst ?_).1
  rw [hrun, Ending.outcome, Array.empty_append]

theorem Ends.run {q : Parser α} {a : α} (h : Ends q ts (.gives a rest g)) :
    q ⟨ts, #[]⟩ = .ok a ⟨rest, g⟩ := by
  rw [h, Ending.outcome, Array.empty_append]

/-! ### Rounds -/

theorem Comes.trans {mid : List Token} {ss' : List Stmt} {g' : Faults} (h : Comes closing p ts ss g mid)
    (h' : Comes closing p mid ss' g' rest) : Comes closing p ts (ss ++ ss') (g ++ g') rest := by
  induction h with
  | here =>
    rw [Array.empty_append]
    exact h'
  | skip ht _ ih => exact .skip ht (ih h')
  | round hfirst hrun _ ih =>
    rw [List.append_assoc, Array.append_assoc]
    exact .round hfirst hrun (ih h')

/-- One round by itself, before a token that is no separator and does not close the list. -/
theorem Moves.round {o : Option Stmt} {mid : List Token} (hp : Moves R Anywhere k Never p p')
    (hended : Ended ts) (hlen : ts.length ≤ k) (hfirst : (first ts).kind ∉ .semicolon :: .endOfFile :: closing)
    (hrun : recovering closing p ⟨ts, #[]⟩ = .ok o ⟨mid, g⟩) :
    Ends (recovering closing p) ts (.gives o mid g) ∧ mid <:+ ts ∧ mid.length < ts.length ∧ Ended mid ∧
      ∀ u v, ts = u ++ R.left → mid = v ++ R.left →
        Ends (recovering closing p') (u ++ R.right) (.gives o (v ++ R.right) g) := by
  have hround : Moves R (·.kind ≠ .endOfFile) k Never (recovering closing p) (recovering closing p') :=
    moves_recovering (fun _ ht => ht) hp.anywhere
  have hfile : (first ts).kind ≠ .endOfFile := fun he => hfirst (by simp [he])
  have hends := hround.ends hended hlen hfile hrun
  obtain ⟨e, hends', hsuffix, hmid, hempty, halike⟩ := hround ts hended hlen hfile
  obtain rfl := hends'.unique hends
  refine ⟨hends, hsuffix, ?_, hmid, halike⟩
  exact Nat.lt_of_le_of_ne hsuffix.length_le fun he => hempty o rfl (hsuffix.eq_of_length he)

/-- What is left is an end of the tokens. -/
theorem Comes.suffix (h : Comes closing p ts ss g rest) (hp : Moves R Anywhere k Never p p')
    (hended : Ended ts) (hlen : ts.length ≤ k) : rest <:+ ts ∧ Ended rest := by
  induction h with
  | here => exact ⟨List.suffix_rfl, hended⟩
  | @skip t ts _ _ _ ht _ ih =>
    have hne : t.kind ≠ .endOfFile := ht ▸ nofun
    have htail := ih ((ended_cons hne).mp hended) (Nat.le_of_succ_le hlen)
    exact ⟨htail.1.trans (List.suffix_cons t ts), htail.2⟩
  | round hfirst hrun _ ih =>
    obtain ⟨-, hsuffix, hshort, hmid, -⟩ := hp.round hended hlen hfirst hrun
    have htail := ih hmid (by omega)
    exact ⟨htail.1.trans hsuffix, htail.2⟩

/-- **Rounds before a fork are the same on both of its ways.** -/
theorem Comes.alike {u v : List Token} (h : Comes closing p ts ss g rest)
    (hp : Moves R Anywhere k Never p p') (hended : Ended ts) (hlen : ts.length ≤ k)
    (hu : ts = u ++ R.left) (hv : rest = v ++ R.left) :
    Comes closing p' (u ++ R.right) ss g (v ++ R.right) := by
  induction h generalizing u with
  | here =>
    rw [List.append_cancel_right (hu.symm.trans hv)]
    exact .here
  | @skip t ts _ _ _ ht hrest ih =>
    have htail : Ended ts := (ended_cons (ht ▸ nofun)).mp hended
    have hshort : ts.length ≤ k := Nat.le_of_succ_le hlen
    obtain ⟨w, hw⟩ := exists_append_left (hrest.suffix hp htail hshort).1 hv
    obtain rfl : u = t :: w := List.append_cancel_right (by rw [← hu, hw, List.cons_append])
    exact .skip ht (ih htail hshort hw hv)
  | round hfirst hrun hrest ih =>
    obtain ⟨-, -, hshort, hmid, halike⟩ := hp.round hended hlen hfirst hrun
    obtain ⟨w, hw⟩ := exists_append_left (hrest.suffix hp hmid (by omega)).1 hv
    rw [hu, R.first_append] at hfirst
    exact .round hfirst (halike u w hu hw).run (ih hmid (by omega) hw hv)

/-! ### Where the rounds lead -/

theorem skipSemicolons_run (hfirst : (first ts).kind ≠ .semicolon) (g : Faults) :
    skipSemicolons ⟨ts, g⟩ = .ok () ⟨ts, g⟩ := by
  have hsame : ts.dropWhile (·.kind == .semicolon) = ts := by
    cases ts with
    | nil => rfl
    | cons t ts => exact List.dropWhile_cons_of_neg (by simpa [first] using hfirst)
  change EStateM.Result.ok () (Cursor.mk (ts.dropWhile (·.kind == .semicolon)) g) = _
  rw [hsame]

/-- A list is done before a token that closes it. -/
theorem statementList_closed (hsemi : (first ts).kind ≠ .semicolon)
    (hfirst : (first ts).kind = .endOfFile ∨ (first ts).kind ∈ closing) :
    Ends (statementList p closing (n + 1)) ts (.gives [] ts #[]) := by
  intro g
  have hkind : kind ⟨ts, g⟩ = .ok (first ts).kind ⟨ts, g⟩ := rfl
  unfold statementList
  rw [bind_of_ok (skipSemicolons_run hsemi g), bind_of_ok hkind, if_pos hfirst]
  simp only [Ending.outcome, Array.append_empty]
  rfl

/-- A separator before a list is passed. -/
theorem statementList_skip {t : Token} {e : Ending (List Stmt)} (ht : t.kind = .semicolon)
    (h : Ends (statementList p closing n) ts e) : Ends (statementList p closing n) (t :: ts) e := by
  intro g
  rw [← h g]
  cases n with
  | zero =>
    have hnone : EStateM.Result.error Halt.exhausted _ = e.outcome #[] := h #[]
    cases e <;> cases hnone
  | succ n =>
    have hrun : ∀ ts, skipSemicolons ⟨ts, g⟩ = .ok () ⟨ts.dropWhile (·.kind == .semicolon), g⟩ :=
      fun _ => rfl
    have hdrop : (t :: ts).dropWhile (·.kind == .semicolon) = ts.dropWhile (·.kind == .semicolon) :=
      List.dropWhile_cons_of_pos (by simp [ht])
    unfold statementList
    rw [bind_of_ok (hrun (t :: ts)), bind_of_ok (hrun ts), hdrop]

/-- A round before the others. -/
theorem statementList_round {o : Option Stmt} {mid : List Token} {h : Faults}
    (hfirst : (first ts).kind ∉ .semicolon :: .endOfFile :: closing)
    (hround : Ends (recovering closing p) ts (.gives o mid g))
    (htail : Ends (statementList p closing n) mid (.gives ss rest h)) :
    Ends (statementList p closing (n + 1)) ts (.gives (o.toList ++ ss) rest (g ++ h)) := by
  have hsemi : (first ts).kind ≠ .semicolon := fun he => hfirst (by simp [he])
  have hopen : ¬ ((first ts).kind = .endOfFile ∨ (first ts).kind ∈ closing) := by
    rintro (he | hmem)
    · exact hfirst (by simp [he])
    · exact hfirst (by simp [hmem])
  intro before
  have hkind : kind ⟨ts, before⟩ = .ok (first ts).kind ⟨ts, before⟩ := rfl
  unfold statementList
  rw [bind_of_ok (skipSemicolons_run hsemi before), bind_of_ok hkind, if_neg hopen,
    bind_of_ok (hround before)]
  cases o with
  | none =>
    simp only [Option.toList_none, List.nil_append]
    rw [htail, Ending.outcome, Ending.outcome, Array.append_assoc]
  | some s =>
    simp only [Option.toList_some, List.cons_append, List.nil_append]
    rw [bind_of_ok (htail (before ++ g)), Ending.outcome, Array.append_assoc]
    rfl

/-- **Where rounds have led, the list goes on.** -/
theorem Comes.list {ss' : List Stmt} {rest' : List Token} {g' : Faults} (h : Comes closing p ts ss g rest)
    (hp : Moves R Anywhere k Never p p') (hended : Ended ts) (hlen : ts.length ≤ k)
    (hrest : ∀ n, rest.length ≤ n → Ends (statementList p closing n) rest (.gives ss' rest' g'))
    (hn : ts.length ≤ n) :
    Ends (statementList p closing n) ts (.gives (ss ++ ss') rest' (g ++ g')) := by
  induction h generalizing n with
  | here =>
    rw [Array.empty_append]
    exact hrest n hn
  | skip ht _ ih =>
    have htail := ih ((ended_cons (ht ▸ nofun)).mp hended) (Nat.le_of_succ_le hlen) hrest
      (Nat.le_of_succ_le hn)
    exact statementList_skip ht htail
  | round hfirst hrun _ ih =>
    obtain ⟨hround, -, hshort, hmid, -⟩ := hp.round hended hlen hfirst hrun
    cases n with
    | zero => omega
    | succ n =>
      have htail := ih hmid (by omega) hrest (show _ ≤ n by omega)
      rw [List.append_assoc, Array.append_assoc]
      exact statementList_round hfirst hround htail

/-! ### Rounds without faults -/

theorem recovering_clean {q : Parser α} {c : Cursor} {o : Option α}
    (h : recovering closing q c = .ok o ⟨rest, #[]⟩) : ∃ a, o = some a ∧ q c = .ok a ⟨rest, #[]⟩ := by
  unfold recovering at h
  split at h
  · next a c' hrun =>
    cases h
    exact ⟨a, rfl, hrun⟩
  · simp [Cursor.record] at h
  · cases h

/-- Where a statement is still to come, neither the end of the list nor an `else` lies ahead. -/
theorem Comes.goesOn (h : Comes closing (statement n) ts ss g rest) (hg : g = #[]) (hss : ss ≠ []) :
    GoesOn ts := by
  induction h with
  | here => exact absurd rfl hss
  | @skip t ts _ _ _ ht _ ih =>
    have htail := ih hg hss
    have hfirst : (first (t :: ts)).kind = .semicolon := ht
    refine ⟨?_, elseRest_ne_else.mpr ⟨?_, ?_⟩⟩
    · rw [hfirst]
      decide
    · rw [hfirst]
      nofun
    · exact fun hline => first_ne_else htail.noElse hline.2.2
  | @round ts _ _ _ _ _ _ hfirst hrun _ _ =>
    obtain ⟨rfl, -⟩ := Array.append_eq_empty_iff.mp hg
    obtain ⟨s, -, hrun⟩ := recovering_clean hrun
    have hstart : (first ts).kind ∉ .kwElse :: closers := by
      intro hmem
      obtain ⟨e, he⟩ := statement_stopsAt n ts #[] hmem
      rw [he] at hrun
      cases hrun
    rw [List.mem_cons, not_or] at hstart
    refine ⟨hstart.2, elseRest_ne_else.mpr ⟨hstart.1, ?_⟩⟩
    exact fun hline => hfirst (by simp [hline.1])

/-- **The last token of a statement** that another follows is its separator or, behind a block, a
closing brace. A statement that begins with `if` is one. -/
theorem statement_last {s : Stmt} (hrun : statement n ⟨ts, #[]⟩ = .ok s ⟨rest, #[]⟩)
    (hspelled : ∀ t ∈ ts, t.Spelled) (hopen : (first rest).kind ∉ closers) :
    ∃ v mark, ts = v ++ mark :: rest ∧ (mark.kind = .semicolon ∨ mark.kind = .closeBrace) ∧
      ((first ts).kind ∈ blockStarters → mark.kind = .closeBrace) ∧
      ((first ts).kind = .kwIf → s.isIf = true) := by
  by_cases hblock : (first ts).kind ∈ blockStarters
  · have hread := statement_derives_braced n ts #[] hspelled hblock
    rw [hrun] at hread
    obtain ⟨us, hus, hbraced⟩ := hread.2.2 rfl
    have hif : (first ts).kind = .kwIf → s.isIf = true := by
      intro hk
      rw [hus] at hk
      exact hbraced.isIf hk
    obtain ⟨vs, t, rfl, ht⟩ := hbraced.closed
    exact ⟨vs, t, by simpa using hus, .inr ht, fun _ => ht, hif⟩
  · have hread := statement_derives n ts #[] hspelled trivial
    rw [hrun] at hread
    have hnot : (first ts).kind ≠ .kwIf := fun hk => hblock (by rw [hk]; decide)
    obtain ⟨us, hus, hlisted, -⟩ := hread.2.2 rfl
    obtain (⟨vs, t, rfl, ht, -⟩ | ⟨-, hclosed⟩) | hbraced := hlisted
    · exact ⟨vs, t, by simpa using hus, .inl ht, fun hk => absurd hk hblock, fun hk => absurd hk hnot⟩
    · exact absurd hclosed hopen
    · obtain ⟨vs, t, rfl, ht⟩ := hbraced.closed
      exact ⟨vs, t, by simpa using hus, .inr ht, fun _ => ht, fun hk => absurd hk hnot⟩

/-- A statement that others follow is read alike before other tokens, but for an `else` behind an
`if`. -/
theorem statement_sealed {n' : Nat} {s : Stmt} {rest' : List Token}
    (hrun : statement n ⟨ts, #[]⟩ = .ok s ⟨rest, #[]⟩) (hended : Ended ts)
    (hspelled : ∀ t ∈ ts, t.Spelled) (hn : ts.length ≤ n) (hn' : ts.length ≤ n') (hrest : Ended rest)
    (hgoesOn : GoesOn rest) (hif : s.isIf = true → (first (elseRest rest')).kind ≠ .kwElse) :
    ∃ v mark, ts = v ++ mark :: rest ∧
      Ends (statement n') (v ++ mark :: rest') (.gives s rest' #[]) := by
  obtain ⟨v, mark, hts, hmark, hbrace, hisIf⟩ := statement_last hrun hspelled hgoesOn.notClosed
  let S : Seal := ⟨mark, rest, rest', hmark, hrest, hgoesOn⟩
  have hseals : Seals S (· = first ts) ts.length (statement n) (statement n') := by
    refine seals_statement hn hn' ?_ ?_
    · rintro _ rfl hstarts
      exact S.sameElse_of_brace (hbrace hstarts)
    · rintro _ rfl hk
      exact hif (hisIf hk)
  subst hts
  have hends : Ends (statement n) (v ++ mark :: rest) (.gives s rest #[]) :=
    hseals.moves.ends hended (Nat.le_refl _) rfl hrun
  exact ⟨v, mark, rfl, hseals.crosses v s #[] hended (Nat.le_refl _) rfl hends⟩

/-- Rounds that come back to where they began give nothing. -/
theorem Comes.eq_nil (h : Comes closing p ts ss g ts) (hp : Moves R Anywhere k Never p p')
    (hended : Ended ts) (hlen : ts.length ≤ k) : ss = [] := by
  cases h with
  | here => rfl
  | skip ht hrest =>
    have hsuffix := (hrest.suffix hp ((ended_cons (ht ▸ nofun)).mp hended) (Nat.le_of_succ_le hlen)).1
    exact absurd hsuffix.length_le (by simp)
  | round hfirst hrun hrest =>
    obtain ⟨-, -, hshort, hmid, -⟩ := hp.round hended hlen hfirst hrun
    have hsuffix := (hrest.suffix hp hmid (by omega)).1
    exact absurd hsuffix.length_le (by omega)

/-- Rounds that give a statement read more than a separator. -/
theorem Comes.reads {v : List Token} (h : Comes closing p (v ++ rest) ss g rest) (hss : ss ≠ [])
    (hp : Moves R Anywhere k Never p p') (hended : Ended (v ++ rest)) (hlen : (v ++ rest).length ≤ k) :
    v ≠ [] ∧ ∀ t, v = [t] → t.kind ≠ .semicolon := by
  constructor
  · rintro rfl
    exact hss (h.eq_nil hp hended hlen)
  · rintro t rfl ht
    obtain ⟨us, hus⟩ : ∃ us, [t] ++ rest = us := ⟨_, rfl⟩
    rw [hus] at h
    cases h with
    | here => exact hss rfl
    | skip _ hrest =>
      obtain ⟨-, rfl⟩ := List.cons.inj hus
      have hrestEnded : Ended rest := (ended_cons (ht ▸ nofun)).mp hended
      exact hss (hrest.eq_nil hp hrestEnded (Nat.le_of_succ_le hlen))
    | round hfirst =>
      rw [← hus] at hfirst
      exact hfirst (by simp [first, ht])

/-- What may come where statements go on: not a separator, and an `else` only behind more than one
separator. -/
theorem GoesOn.noElse_append {v l l' : List Token} (h : GoesOn (v ++ l))
    (hsemi : (first l').kind ≠ .semicolon)
    (helse : (first l').kind = .kwElse → v ≠ [] ∧ ∀ t, v = [t] → t.kind ≠ .semicolon) :
    (first (elseRest (v ++ l'))).kind ≠ .kwElse := by
  obtain ⟨hfirst, hline⟩ := elseRest_ne_else.mp h.noElse
  refine elseRest_ne_else.mpr ?_
  match v, hfirst, hline, helse with
  | [], _, _, helse => exact ⟨fun hk => (helse hk).1 rfl, fun hline => hsemi hline.1⟩
  | [t], hfirst, _, helse => exact ⟨hfirst, fun hline => (helse hline.2.2).2 t rfl hline.1⟩
  | t :: t' :: v, hfirst, hline, _ => exact ⟨hfirst, hline⟩

/-- If the tokens begin with `else`, the last of the statements is no `if`, which would take it. -/
def LeavesElse (ss : List Stmt) (l : List Token) : Prop :=
  (first l).kind = .kwElse → ∀ s, ss.getLast? = some s → s.isIf = false

/-- **Rounds without faults are the same before any other way to go on,** but for an `else` behind an
`if`, as long as they are not the last of their list. -/
theorem Comes.sealed {n' : Nat} {u l l' : List Token} {later : List Stmt}
    (h : Comes [.closeBrace] (statement n) ts ss g l) (hg : g = #[])
    (hlater : Comes [.closeBrace] (statement n) l later #[] rest) (hne : later ≠ [])
    (hended : Ended ts) (hspelled : ∀ t ∈ ts, t.Spelled) (hn : ts.length ≤ n) (hn' : ts.length ≤ n')
    (hsemi : (first l').kind ≠ .semicolon) (helse : LeavesElse ss l') (hu : ts = u ++ l) :
    Comes [.closeBrace] (statement n') (u ++ l') ss g l' := by
  have hp : Moves (Fork.same []) Anywhere n Never (statement n) (statement n) :=
    statement_moves (Fork.sameElse_same []) (Nat.le_refl n) (Nat.le_refl n)
  induction h generalizing u with
  | here =>
    obtain rfl : u = [] := List.append_cancel_right (by rw [← hu, List.nil_append])
    exact .here
  | @skip t ts _ _ _ ht hrest ih =>
    have htail : Ended ts := (ended_cons (ht ▸ nofun)).mp hended
    have hshort : ts.length ≤ n := Nat.le_of_succ_le hn
    obtain ⟨w, hw⟩ := (hrest.suffix hp htail hshort).1
    obtain rfl : u = t :: w := List.append_cancel_right (by rw [← hu, ← hw, List.cons_append])
    refine .skip ht (ih hg hlater htail ?_ hshort (Nat.le_of_succ_le hn') helse hw.symm)
    exact fun x hx => hspelled x (List.mem_cons_of_mem t hx)
  | @round ts o mid g ss h l hfirst hrun hrest ih =>
    obtain ⟨rfl, rfl⟩ := Array.append_eq_empty_iff.mp hg
    obtain ⟨-, hsuffix, hshort, hmid, -⟩ := hp.round hended hn hfirst hrun
    obtain ⟨s, rfl, hstatement⟩ := recovering_clean hrun
    obtain ⟨w, rfl⟩ := (hrest.suffix hp hmid (by omega)).1
    have hgoesOn : GoesOn (w ++ l) := (hrest.trans hlater).goesOn rfl (by simp [hne])
    -- an `if` that is not the last is followed by more than a separator
    have hnoElse : s.isIf = true → (first (elseRest (w ++ l'))).kind ≠ .kwElse := by
      intro hisIf
      refine hgoesOn.noElse_append hsemi fun hl' => ?_
      refine hrest.reads (fun hnil => ?_) hp hmid (by omega)
      have hlast : s.isIf = false := helse hl' s (by simp [hnil])
      rw [hisIf] at hlast
      cases hlast
    obtain ⟨v, mark, rfl, hother⟩ :=
      statement_sealed hstatement hended hspelled hn hn' hmid hgoesOn hnoElse
    obtain rfl : u = v ++ mark :: w := List.append_cancel_right (by rw [← hu]; simp)
    have hsame : first (v ++ mark :: (w ++ l)) = first (v ++ mark :: (w ++ l')) := by
      cases v with
      | nil => rfl
      | cons t v => rfl
    rw [hsame] at hfirst
    have hleaves : LeavesElse ss l' := by
      intro hl' x hx
      refine helse hl' x ?_
      rw [Option.toList_some, List.getLast?_append, hx]
      rfl
    have htail := ih rfl hlater hmid (fun x hx => hspelled x (hsuffix.subset hx)) (by omega) (by omega)
      hleaves rfl
    have hall : Comes [.closeBrace] (statement n') (v ++ mark :: (w ++ l')) ([s] ++ ss) (#[] ++ #[]) l' :=
      .round hfirst hother.recovering.run htail
    simpa using hall

end Parser
end Treewalk
