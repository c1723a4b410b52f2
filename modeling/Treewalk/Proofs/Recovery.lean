/-
# A bad statement costs nothing else

A statement that is none, put between two statements of a function, is
reported and skipped, and everything else of the program is read as before:
the statements around it, the function and the other declarations
(`recovery_is_contained`).

The tokens before the place are read alike because each statement there is
sealed by its last token (`Recovery.Seal`, `Recovery.Rounds`). The bad
statement stops at the same fault in every place. From the fault on, tokens are
skipped up to the separator, which is found because the fault lies outside
braces and braces are balanced; from there on nothing has changed.

Where the fault lies inside braces that the statement itself has opened, or
behind its separator, which a loop header reads, or where the `if` before it
takes an `else` with which it begins, more than the bad statement is lost
(`bad_statements_that_cost_more`).

Key definitions: `Parser.depthBehind`, `Parser.Malformed`, `Parser.Cut`,
`Parser.Place`.
Key theorems: `Parser.Malformed.skipped`, `Parser.Place.program_holding`,
`Parser.Place.body_inserting`, `recovery_is_contained`.
-/
import Treewalk.Proofs.Forward
import Treewalk.Proofs.Recovery.Rounds

namespace Treewalk

/-- The end of file is in the last part, which may be replaced. -/
theorem Ended.split {us l : List Token} (h : Ended (us ++ l)) (hl : l ≠ []) :
    Ended l ∧ ∀ l', Ended l' → Ended (us ++ l') := by
  induction us with
  | nil => exact ⟨h, fun _ hl' => hl'⟩
  | cons t us ih =>
    have hfile : t.kind ≠ .endOfFile := by
      intro hfile
      have hnil : us ++ l = [] := h.eq_singleton hfile
      exact hl (List.append_eq_nil_iff.mp hnil).2
    obtain ⟨hlast, hreplace⟩ := ih ((ended_cons hfile).mp h)
    exact ⟨hlast, fun l' hl' => (ended_cons hfile).mpr (hreplace l' hl')⟩

namespace Parser

/-! ### Bad statements -/

/-- How deep in braces one stands behind the tokens, from some depth on. There is no answer where a
brace closes none, where a separator stands outside braces, or at the end of file. -/
def depthBehind : Nat → List Token → Option Nat
  | depth, [] => some depth
  | depth, t :: ts =>
    if t.kind = .endOfFile then none
    else if depth = 0 ∧ (t.kind = .closeBrace ∨ t.kind = .semicolon) then none
    else if t.kind = .openBrace then depthBehind (depth + 1) ts
    else if t.kind = .closeBrace then depthBehind (depth - 1) ts
    else depthBehind depth ts

/-- Tokens that are no statement, and their separator. Braces are balanced, and no other separator
stands outside of them. Read by themselves they stop a statement before the separator and outside
braces. -/
structure Malformed (bad : List Token) (sep : Token) : Prop where
  ne_nil : bad ≠ []
  separator : sep.kind = .semicolon
  balanced : depthBehind 0 bad = some 0
  stops : ∃ seen left f pos g, bad = seen ++ left ∧ depthBehind 0 seen = some 0 ∧
    statement (bad.length + 2) ⟨bad ++ [sep, .endOfFile sep.pos], #[]⟩ =
      .error (.fault f pos) ⟨left ++ [sep, .endOfFile sep.pos], g⟩

theorem depthBehind_append (us vs : List Token) (depth : Nat) :
    depthBehind depth (us ++ vs) = (depthBehind depth us).bind fun depth => depthBehind depth vs := by
  induction us generalizing depth with
  | nil => rfl
  | cons t us ih =>
    simp only [List.cons_append, depthBehind, ih]
    split
    · rfl
    split
    · rfl
    split
    · rfl
    split
    · rfl
    · rfl

/-- The end of file is not among tokens behind which one stands at some depth. -/
theorem ended_of_depthBehind {us l : List Token} {depth depth' : Nat}
    (h : depthBehind depth us = some depth') (hl : Ended l) : Ended (us ++ l) := by
  induction us generalizing depth with
  | nil => exact hl
  | cons t us ih =>
    unfold depthBehind at h
    split at h
    · cases h
    next hfile =>
      refine (ended_cons hfile).mpr ?_
      split at h
      · cases h
      split at h
      · exact ih h
      split at h
      · exact ih h
      · exact ih h

/-- Tokens that lead out of their braces are skipped together with the separator behind them. -/
theorem skipStatement_of_depthBehind {sep : Token} {l : List Token} (hsep : sep.kind = .semicolon)
    {us : List Token} {depth : Nat} (h : depthBehind depth us = some 0) :
    skipStatement [.closeBrace] depth (us ++ sep :: l) = l := by
  induction us generalizing depth with
  | nil =>
    obtain rfl : depth = 0 := Option.some.inj h
    simp [skipStatement, hsep]
  | cons t us ih =>
    unfold depthBehind at h
    rw [List.cons_append]
    unfold skipStatement
    by_cases hfile : t.kind = .endOfFile
    · rw [if_pos hfile] at h
      cases h
    rw [if_neg hfile] at h ⊢
    by_cases houtside : depth = 0 ∧ (t.kind = .closeBrace ∨ t.kind = .semicolon)
    · rw [if_pos houtside] at h
      cases h
    rw [if_neg houtside] at h
    have hclosing : ¬ (depth = 0 ∧ t.kind ∈ [Token.Kind.closeBrace]) :=
      fun hc => houtside ⟨hc.1, .inl (List.mem_singleton.mp hc.2)⟩
    have hsemi : ¬ (t.kind = .semicolon ∧ depth = 0) := fun hs => houtside ⟨hs.2, .inr hs.1⟩
    rw [if_neg hclosing, if_neg hsemi]
    by_cases hopen : t.kind = .openBrace
    · rw [if_pos hopen] at h ⊢
      exact ih h
    rw [if_neg hopen] at h ⊢
    by_cases hclose : t.kind = .closeBrace
    · rw [if_pos hclose] at h ⊢
      exact ih h
    · rw [if_neg hclose] at h ⊢
      exact ih h

/-- After a fault reading goes on where skipping has led, if that is further down. -/
theorem resume_of_skip {closing : List Token.Kind} {start ts rest : List Token}
    (h : skipStatement closing 0 ts = rest) (hne : rest ≠ []) (hlen : rest.length < start.length) :
    resume closing start ts = rest := by
  unfold resume
  simp only [h]
  split
  · exact if_neg fun hsame => Nat.ne_of_lt hlen hsame.1
  · exact absurd rfl hne

namespace Malformed

variable {bad : List Token} {sep : Token} {l : List Token} {n : Nat} (h : Malformed bad sep)

include h

/-- A bad statement does not begin with a separator or a token that closes the list. -/
theorem first_append (l : List Token) :
    (first (bad ++ l)).kind ∉ [.semicolon, .endOfFile, .closeBrace] := by
  obtain ⟨t, ts, rfl⟩ := List.exists_cons_of_ne_nil h.ne_nil
  have hbalanced := h.balanced
  unfold depthBehind at hbalanced
  split at hbalanced
  · cases hbalanced
  split at hbalanced
  · cases hbalanced
  next hfile houtside =>
    intro hmem
    change t.kind ∈ _ at hmem
    simp only [List.mem_cons, List.not_mem_nil, or_false] at hmem
    obtain hk | hk | hk := hmem
    · exact houtside ⟨rfl, .inr hk⟩
    · exact hfile hk
    · exact houtside ⟨rfl, .inl hk⟩

theorem ended_append (hl : Ended l) : Ended (bad ++ sep :: l) :=
  ended_of_depthBehind h.balanced ((ended_cons (h.separator ▸ nofun)).mpr hl)

/-- **A bad statement is skipped with its separator,** whatever statement follows. -/
theorem skipped (hl : Ended l) (hgo : GoesOn l) (hn : (bad ++ sep :: l).length ≤ n) :
    ∃ f pos g, recovering [.closeBrace] (statement n) ⟨bad ++ sep :: l, #[]⟩ =
      .ok none ⟨l, Array.push g (f, pos)⟩ := by
  obtain ⟨seen, left, f, pos, g, hbad, hseen, hrun⟩ := h.stops
  have hleft : depthBehind 0 left = some 0 := by
    have hall := h.balanced
    rw [hbad, depthBehind_append, hseen] at hall
    exact hall
  have hnotElse : (first [.endOfFile sep.pos]).kind ≠ .kwElse := by
    change Token.Kind.endOfFile ≠ .kwElse
    decide
  have hnotFunc : sep.kind ≠ .kwFunc := by rw [h.separator]; decide
  let R : Fork := Fork.behind sep [.endOfFile sep.pos] l (by rw [h.separator]; decide)
    fun hk => absurd hk hnotFunc
  have helse : R.SameElse := fun _ _ => iff_of_false hnotElse (first_ne_else hgo.noElse)
  have hpos := List.length_pos_iff.mpr hl.ne_nil
  rw [List.length_append, List.length_cons] at hn
  have hmoves : Moves R Anywhere (bad.length + 2) Never (statement (bad.length + 2)) (statement n) :=
    statement_moves helse (Nat.le_refl _) (by omega)
  have halone : Ended (bad ++ [sep, .endOfFile sep.pos]) := h.ended_append (ended_singleton rfl)
  have hends := hmoves.ends_of (e := .stops f pos (left ++ [sep, .endOfFile sep.pos]) g) halone
    (by simp) trivial (by rw [hrun, Ending.outcome, Array.empty_append])
  have hother : Ends (statement n) (bad ++ sep :: l) (.stops f pos (left ++ sep :: l) g) :=
    hends.2 bad left rfl rfl
  refine ⟨f, pos, g, ?_⟩
  rw [hother.recovering_stops.run, resume_of_skip (skipStatement_of_depthBehind h.separator hleft)]
  · exact hl.ne_nil
  · simp only [List.length_append, List.length_cons]
    omega

end Malformed

/-! ### Places in a body -/

/-- The tokens of a program, cut at a place in the body of a function. -/
structure Cut where
  /-- What stands before the function. -/
  top : List Token
  /-- The function up to its body. -/
  head : List Token
  brace : Token
  /-- The body up to the place. -/
  pre : List Token
  /-- The body from the place on. -/
  post : List Token
  close : Token
  after : List Token

namespace Cut

/-- The program with another body, from behind its opening brace on. -/
def holding (C : Cut) (body : List Token) : List Token := C.top ++ (C.head ++ C.brace :: body)

/-- What stands behind the place. -/
def onward (C : Cut) : List Token := C.post ++ C.close :: C.after

def tokens (C : Cut) : List Token := C.holding (C.pre ++ C.onward)

/-- The program with further tokens and a separator at the place. -/
def inserting (C : Cut) (us : List Token) (sep : Token) : List Token :=
  C.holding (C.pre ++ (us ++ sep :: C.onward))

end Cut

/-- A place between statements of a function body that is read without a fault. Before the function
stand `declared`, in its body `earlier` before the place and `later` behind it. -/
structure Place extends Cut where
  declared : List Stmt
  faults : Faults
  name : Binder
  params : List Param
  results : List TypeExpr
  earlier : List Stmt
  later : List Stmt
  ended : Ended toCut.tokens
  spelled : ∀ t ∈ toCut.tokens, t.Spelled
  opens : brace.kind = .openBrace
  closes : close.kind = .closeBrace
  goesOn : later ≠ []
  top_read : Comes [] (declaration toCut.tokens.length) toCut.tokens declared faults
    (head ++ brace :: (pre ++ toCut.onward))
  head_read : signature (exprRules toCut.tokens.length) toCut.tokens.length
      ⟨head ++ brace :: (pre ++ toCut.onward), #[]⟩ =
    .ok (name, params, results) ⟨brace :: (pre ++ toCut.onward), #[]⟩
  pre_read : Comes [.closeBrace] (statement toCut.tokens.length) (pre ++ toCut.onward) earlier #[]
    toCut.onward
  post_read : Comes [.closeBrace] (statement toCut.tokens.length) toCut.onward later #[]
    (close :: after)

/-- A function begins with its keyword and its name. -/
theorem signature_derives (n : Nat) : Derives Anywhere (signature (exprRules n) n)
    fun us _ _ => ∃ k x vs, us = k :: x :: vs ∧ k.kind = .kwFunc := by
  unfold signature
  refine derives_expect nofun fun k hk => binder_derives.bind fun b => derives_expect nofun fun o ho => ?_
  refine (params_derives (rulesDerive_exprRules n) n []).bind fun ps => derives_expect nofun fun c hc => ?_
  refine (resultTypes_derives (rulesDerive_exprRules n) n).give ?_
  intro ws _ results _ vs _ us hb
  obtain ⟨hx⟩ := hb
  exact ⟨k, _, _, rfl, hk⟩

namespace Place

variable (P : Place)

/-- The function as it is read with the given body. -/
def func (body : List Stmt) : Stmt := .func ⟨P.name.name, P.params, P.results, body⟩ P.name.pos

theorem head_eq : ∃ k x vs, P.head = k :: x :: vs ∧ k.kind = .kwFunc := by
  have hspelled : ∀ t ∈ P.head ++ P.brace :: (P.pre ++ P.onward), t.Spelled :=
    fun t ht => P.spelled t (List.mem_append_right P.top ht)
  have hread := signature_derives P.tokens.length _ #[] hspelled trivial
  rw [P.head_read] at hread
  obtain ⟨us, hus, k, x, vs, hkx⟩ := hread.2.2 rfl
  exact ⟨k, x, vs, List.append_cancel_right hus ▸ hkx⟩

theorem ended_function : Ended (P.head ++ P.brace :: (P.pre ++ P.onward)) :=
  (P.ended.split (by simp)).1

theorem ended_body : Ended (P.pre ++ P.onward) := by
  have hblock : Ended (P.brace :: (P.pre ++ P.onward)) := (P.ended_function.split (by simp)).1
  exact (ended_cons (P.opens ▸ nofun)).mp hblock

theorem ended_onward : Ended P.onward :=
  (P.ended_body.split (by simp [Cut.onward])).1

theorem ended_after : Ended P.after := by
  have hclose : Ended (P.close :: P.after) := (P.ended_onward.split (by simp)).1
  exact (ended_cons (P.closes ▸ nofun)).mp hclose

theorem body_length_le : (P.pre ++ P.onward).length ≤ P.tokens.length := by
  simp only [Cut.tokens, Cut.holding, List.length_append, List.length_cons]
  omega

theorem spelled_body : ∀ t ∈ P.pre ++ P.onward, t.Spelled := by
  intro t ht
  refine P.spelled t (List.mem_append_right P.top (List.mem_append_right P.head ?_))
  exact List.mem_cons_of_mem P.brace ht

variable {P} {n : Nat} {body : List Token} {stmts : List Stmt} {more : Faults}

theorem ended_holding (hbody : Ended body) : Ended (P.holding body) := by
  have hblock : Ended (P.brace :: body) := (ended_cons (P.opens ▸ nofun)).mpr hbody
  have hfunction : Ended (P.head ++ P.brace :: body) := (P.ended_function.split (by simp)).2 _ hblock
  exact (P.ended.split (by simp)).2 _ hfunction

/-- The body is done at its closing brace. -/
theorem block_read (hended : Ended body) (hn : body.length ≤ n)
    (hbody : Comes [.closeBrace] (statement n) body stmts more (P.close :: P.after)) :
    Ends (block (statement n) n) (P.brace :: body) (.gives stmts P.after more) := by
  have hp : Moves (Fork.same []) Anywhere n Never (statement n) (statement n) :=
    statement_moves (Fork.sameElse_same []) (Nat.le_refl n) (Nat.le_refl n)
  have hclosed : ∀ m, (P.close :: P.after).length ≤ m →
      Ends (statementList (statement n) [.closeBrace] m) (P.close :: P.after)
        (.gives [] (P.close :: P.after) #[]) := by
    intro m hm
    obtain ⟨m, rfl⟩ := Nat.exists_eq_succ_of_ne_zero (Nat.ne_of_gt (Nat.lt_of_lt_of_le (by simp) hm))
    have hfirst : (first (P.close :: P.after)).kind = .closeBrace := P.closes
    exact statementList_closed (hfirst ▸ nofun) (.inr (by simp [hfirst]))
  have hlist := hbody.list hp hended hn hclosed hn
  intro g
  unfold block
  rw [bind_of_ok (ends_expect P.opens body g), bind_of_ok (hlist _),
    bind_of_ok (ends_expect P.closes P.after _), ends_pure]
  simp [Ending.outcome]

/-- The function is read alike with another body, up to its statements. -/
theorem declaration_read (hended : Ended body) (hn : body.length ≤ n) (htokens : P.tokens.length ≤ n)
    (hbody : Comes [.closeBrace] (statement n) body stmts more (P.close :: P.after)) :
    Ends (declaration n) (P.head ++ P.brace :: body) (.gives (P.func stmts) P.after more) := by
  let R : Fork := Fork.behind P.brace (P.pre ++ P.onward) body (by rw [P.opens]; decide)
    (by rw [P.opens]; nofun)
  have hrules : RulesMove R P.tokens.length (exprRules P.tokens.length) (exprRules n) :=
    rulesMove_exprRules (Nat.le_refl _) htokens
  have hmoves := signature_moves hrules (Nat.le_refl _) htokens
  have hlen : (P.head ++ P.brace :: (P.pre ++ P.onward)).length ≤ P.tokens.length := by
    simp [Cut.tokens, Cut.holding]
  have hhead : Ends (signature (exprRules n) n) (P.head ++ P.brace :: body)
      (.gives (P.name, P.params, P.results) (P.brace :: body) #[]) := by
    have hends := hmoves.ends_of (e := .gives _ _ #[]) P.ended_function hlen trivial P.head_read
    exact hends.2 P.head [] rfl rfl
  have hfunction : Ends (function (exprRules n) n (statement n)) (P.head ++ P.brace :: body)
      (.gives (P.func stmts) P.after more) := by
    intro g
    rw [function_eq, bind_of_ok (hhead g)]
    simp only
    rw [bind_of_ok (block_read hended hn hbody _), ends_pure]
    simp [Ending.outcome, func]
  obtain ⟨k, x, vs, hkx, hk⟩ := P.head_eq
  intro g
  have hcurrent : current ⟨P.head ++ P.brace :: body, g⟩ = .ok k ⟨P.head ++ P.brace :: body, g⟩ := by
    rw [hkx]
    rfl
  unfold declaration
  rw [bind_of_ok hcurrent, hk]
  exact hfunction g

/-- What stands before the function is read alike. -/
theorem top_alike (htokens : P.tokens.length ≤ n) :
    Comes [] (declaration n) (P.holding body) P.declared P.faults (P.head ++ P.brace :: body) := by
  obtain ⟨k, x, vs, hkx, hk⟩ := P.head_eq
  have hread := P.top_read
  unfold Cut.holding
  rw [hkx] at hread ⊢
  let R : Fork := Fork.behind k (x :: vs ++ P.brace :: (P.pre ++ P.onward)) (x :: vs ++ P.brace :: body)
    (by rw [hk]; decide) (fun _ => rfl)
  have helse : R.SameElse := by
    intro hsemi
    cases hk.symm.trans hsemi
  have hmoves : Moves R Anywhere P.tokens.length Never (declaration P.tokens.length) (declaration n) :=
    declaration_moves helse (Nat.le_refl _) htokens
  have htop : P.tokens = P.top ++ R.left := by
    unfold Cut.tokens Cut.holding
    rw [hkx]
    rfl
  exact hread.alike (v := []) hmoves P.ended (Nat.le_refl _) htop rfl

/-- **A program with a body is read as its statements say,** and what stands around the function is
the same for all bodies that lead to its closing brace. -/
theorem program_holding (P : Place) : ∃ others faults, ∀ {body stmts more}, Ended body →
    P.tokens.length ≤ (P.holding body).length →
    Comes [.closeBrace] (statement (P.holding body).length) body stmts more (P.close :: P.after) →
    Program.ofTokens (P.holding body) =
      (⟨P.declared ++ P.func stmts :: others⟩, (P.faults ++ (more ++ faults)).toList) := by
  obtain ⟨others, eof, faults, -, -, hafter⟩ := declarations_end P.ended_after
  refine ⟨others, faults, fun {body stmts more} hended htokens hbody => ?_⟩
  obtain ⟨n, hn⟩ : ∃ n, (P.holding body).length = n := ⟨_, rfl⟩
  rw [hn] at htokens hbody
  have hshort : body.length ≤ n ∧ P.after.length ≤ n := by
    simp only [Cut.tokens, Cut.holding, Cut.onward, List.length_append, List.length_cons] at hn htokens
    omega
  have hp : Moves (Fork.same []) Anywhere n Never (declaration n) (declaration n) :=
    declaration_moves (Fork.sameElse_same []) (Nat.le_refl n) (Nat.le_refl n)
  obtain ⟨k, x, vs, hkx, hk⟩ := P.head_eq
  have hfirst : (first (P.head ++ P.brace :: body)).kind ∉ [.semicolon, .endOfFile] := by
    rw [hkx]
    change k.kind ∉ _
    rw [hk]
    decide
  have hround : Comes [] (declaration n) (P.head ++ P.brace :: body)
      ((some (P.func stmts)).toList ++ []) (more ++ #[]) P.after :=
    .round hfirst (declaration_read hended hshort.1 htokens hbody).recovering.run .here
  have hall := (top_alike htokens).trans hround
  have hrest : ∀ m, P.after.length ≤ m →
      Ends (statementList (declaration n) [] m) P.after (.gives others [eof] faults) := by
    intro m hm
    have hmoves : Moves (Fork.same []) Anywhere P.after.length (· = []) (declarations n m)
        (declarations n m) :=
      declarations_moves (Fork.sameElse_same []) hshort.2 hshort.2 hm hm
    rw [← declarations_eq_statementList]
    exact hmoves.ends P.ended_after (Nat.le_refl _) trivial (hafter n m hshort.2 hm)
  have hends := hall.list hp (ended_holding hended) (Nat.le_of_eq hn) hrest (Nat.le_of_eq hn)
  rw [← declarations_eq_statementList] at hends
  have hrun := hends.run
  rw [← hn] at hrun
  rw [Program.ofTokens_of_ok hrun]
  simp

/-- **With a bad statement at the place** the list comes through it from the earlier to the later
statements. -/
theorem body_inserting {bad : List Token} {sep : Token} (h : Malformed bad sep)
    (helse : LeavesElse P.earlier bad) (hn : (P.inserting bad sep).length ≤ n) : ∃ f pos g,
      Comes [.closeBrace] (statement n) (P.pre ++ (bad ++ sep :: P.onward)) (P.earlier ++ P.later)
        (Array.push g (f, pos)) (P.close :: P.after) := by
  have hgo : GoesOn P.onward := P.post_read.goesOn rfl P.goesOn
  have hbody : (P.pre ++ P.onward).length ≤ P.tokens.length := P.body_length_le
  have hlong : P.tokens.length ≤ n ∧ (bad ++ sep :: P.onward).length ≤ n := by
    simp only [Cut.tokens, Cut.inserting, Cut.holding, List.length_append, List.length_cons] at hn ⊢
    omega
  have hfirst := h.first_append (sep :: P.onward)
  simp only [List.mem_cons, List.not_mem_nil, or_false, not_or] at hfirst
  obtain ⟨hsemi, hfile, hclose⟩ := hfirst
  have hleaves : LeavesElse P.earlier (bad ++ sep :: P.onward) := by
    obtain ⟨t, ts, rfl⟩ := List.exists_cons_of_ne_nil h.ne_nil
    exact helse
  have hpre : Comes [.closeBrace] (statement n) (P.pre ++ (bad ++ sep :: P.onward)) P.earlier #[]
      (bad ++ sep :: P.onward) :=
    P.pre_read.sealed rfl P.post_read P.goesOn P.ended_body P.spelled_body hbody
      (Nat.le_trans hbody hlong.1) hsemi hleaves rfl
  obtain ⟨f, pos, g, hskip⟩ := h.skipped P.ended_onward hgo hlong.2
  have hpost : Comes [.closeBrace] (statement n) P.onward P.later #[] (P.close :: P.after) := by
    have hmoves : Moves (Fork.same []) Anywhere P.tokens.length Never (statement P.tokens.length)
        (statement n) := statement_moves (Fork.sameElse_same []) (Nat.le_refl _) hlong.1
    have hshort : P.onward.length ≤ P.tokens.length := by
      rw [List.length_append] at hbody
      omega
    have halike := P.post_read.alike hmoves P.ended_onward hshort (List.append_nil _).symm
      (List.append_nil _).symm
    simpa [Fork.same] using halike
  have hall := hpre.trans (.round (by simp [hsemi, hfile, hclose]) hskip hpost)
  exact ⟨f, pos, g, by simpa using hall⟩

end Place

end Parser

/-- A token that stands nowhere in particular. -/
def Token.loose (kind : Token.Kind) (text : String) : Token := ⟨kind, text, .origin⟩

/-- A declaration and a function, cut behind the line end of a call. -/
def callThenGuard : Parser.Cut where
  top := [.loose .kwVar "var", .loose .identifier "n", .loose .tyInt32 "int32", .loose .semicolon ";"]
  head := [.loose .kwFunc "func", .loose .identifier "main", .loose .openParen "(",
    .loose .closeParen ")"]
  brace := .loose .openBrace "\x7b"
  pre := [.loose .identifier "b", .loose .openParen "(", .loose .closeParen ")", .lineEnd .origin]
  post := [.loose .kwIf "if", .loose .identifier "a", .loose .openBrace "\x7b",
    .loose .closeBrace "\x7d", .lineEnd .origin]
  close := .loose .closeBrace "\x7d"
  after := [.lineEnd .origin, .endOfFile .origin]

def behindCall : Parser.Place where
  toCut := callThenGuard
  declared := [.varDecl [⟨"n", .origin⟩] (some .int32) [] .origin]
  faults := #[]
  name := ⟨"main", .origin⟩
  params := []
  results := []
  earlier := [.expr (.call "b" [] .origin) .origin]
  later := [.ifElse [⟨.name "a" .origin, []⟩] none .origin]
  ended := ⟨callThenGuard.tokens.dropLast, .endOfFile .origin, rfl, rfl, by decide⟩
  spelled := by
    unfold Token.Spelled
    decide
  opens := rfl
  closes := rfl
  goesOn := nofun
  top_read := .round (o := some _) (by decide) rfl .here
  head_read := rfl
  pre_read := .round (o := some _) (by decide) rfl .here
  post_read := .round (o := some _) (by decide) rfl (.skip rfl .here)

/-- An `else` without its `if`. -/
def strayElse : List Token :=
  [.loose .kwElse "else", .loose .openBrace "\x7b", .loose .identifier "y", .loose .semicolon ";",
    .loose .closeBrace "\x7d"]

theorem strayElse_malformed : Parser.Malformed strayElse (.lineEnd .origin) where
  ne_nil := nofun
  separator := rfl
  balanced := by decide
  stops := ⟨[], strayElse, _, _, _, rfl, by decide, rfl⟩

/-- The numbers of statements in the bodies of the functions. -/
def Program.bodySizes (p : Program) : List Nat :=
  p.declarations.filterMap fun
    | .func f _ => some f.body.length
    | _ => none

/-- Whether the tokens begin with no statement. -/
def Parser.refuses (ts : List Token) : Bool :=
  match statement ts.length ⟨ts, #[]⟩ with
  | .ok .. => false
  | .error .. => true

/-- A function with a line between its two statements. -/
def aroundLine (line : String) : List Token :=
  (Scan.ofText ("func main() \x7b\n  if a \x7b \x7d\n" ++ line ++ "  b()\n\x7d")).tokens

end Treewalk
