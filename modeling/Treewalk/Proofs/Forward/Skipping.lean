/-
# Statement ends, looks ahead and what is skipped

The steps of a rule that look at more than the token at hand, or leave out
more than one: statement ends are dropped, `else` may stand on the next line,
names and `:=` may lie any number of tokens ahead, and after a fault the rest
of a statement is skipped. None of them goes past the end of file or tells
the ways of a fork apart.

A round of a list of statements reads one at least: a fault that was met
before the first token is followed by a step over that token
(`resume_shorter`).

Key definitions: `Parser.elseRest`.
Key theorems: `Parser.moves_skipSemicolons`, `Parser.moves_elseAhead`,
`Parser.moves_ifShort`, `Parser.resume_shorter`, `Parser.moves_recovering`.
-/
import Treewalk.Proofs.Forward.Motion

namespace Treewalk
namespace Parser

variable {α β : Type} {R : Fork} {At : Token → Prop} {k : Nat} {E : α → Prop} {F : β → Prop}

/-! ### Statement ends -/

theorem ended_dropWhile {ts : List Token} (h : Ended ts) :
    Ended (ts.dropWhile (·.kind == .semicolon)) := by
  induction ts with
  | nil => exact absurd rfl h.ne_nil
  | cons t ts ih =>
    by_cases ht : t.kind = .semicolon
    · rw [List.dropWhile_cons_of_pos (by simp [ht])]
      exact ih ((ended_cons (by simp [ht])).mp h)
    · rw [List.dropWhile_cons_of_neg (by simp [ht])]
      exact h

/-- Dropping tokens stops before a fork on both ways or on none. -/
theorem Fork.dropWhile_append (R : Fork) (p : Token → Bool) {u w : List Token}
    (h : (u ++ R.left).dropWhile p = w ++ R.left) :
    (u ++ R.right).dropWhile p = w ++ R.right := by
  induction u with
  | nil =>
    have hle := (List.dropWhile_suffix p (l := R.left)).length_le
    rw [List.nil_append] at h ⊢
    rw [h, List.length_append] at hle
    obtain rfl : w = [] := List.eq_nil_of_length_eq_zero (by omega)
    have hhead := R.head_eq
    rw [List.nil_append] at h ⊢
    cases hr : R.right with
    | nil => rfl
    | cons t ts =>
      rw [hr, List.head?_cons] at hhead
      obtain ⟨ls, hl⟩ := List.head?_eq_some_iff.mp hhead
      by_cases ht : p t = true
      · have hle := (List.dropWhile_suffix p (l := ls)).length_le
        rw [hl, List.dropWhile_cons_of_pos ht] at h
        rw [h, List.length_cons] at hle
        omega
      · rw [List.dropWhile_cons_of_neg ht]
  | cons t u ih =>
    rw [List.cons_append] at h ⊢
    by_cases ht : p t = true
    · rw [List.dropWhile_cons_of_pos ht] at h ⊢
      exact ih h
    · rw [List.dropWhile_cons_of_neg ht] at h ⊢
      rw [← List.cons_append] at h ⊢
      rw [List.append_cancel_right h]

/-- Behind the separators stands none. -/
theorem first_dropWhile (ts : List Token) :
    (first (ts.dropWhile (·.kind == .semicolon))).kind ≠ .semicolon := by
  have hhead := List.head?_dropWhile_not (fun t : Token => t.kind == .semicolon) ts
  unfold first
  rw [List.headD_eq_head?_getD]
  cases hd : (ts.dropWhile fun t => t.kind == .semicolon).head? with
  | none => exact nofun
  | some t =>
    rw [hd] at hhead
    simpa using hhead

theorem moves_skipSemicolons {f f' : Unit → Parser β}
    (h : Moves R (fun t => t.kind ≠ .semicolon) k F (f ()) (f' ())) :
    Moves R At k F (skipSemicolons >>= f) (skipSemicolons >>= f') := by
  refine moves_pass (o := fun _ => ()) (m := List.dropWhile (·.kind == .semicolon)) (fun _ _ => rfl)
    (fun _ => List.dropWhile_suffix _) (fun _ => ended_dropWhile) ?_ ?_
  · exact fun u w hw => ⟨rfl, R.dropWhile_append _ hw⟩
  · intro ts _
    refine h.mono ?_ (Nat.le_refl k) fun _ hb => hb
    rintro _ rfl
    exact first_dropWhile ts

theorem moves_statementEnd : Moves R At k Anything statementEnd statementEnd := by
  refine moves_kind fun κ => ?_
  split
  · exact moves_takeKind nofun fun _ => moves_pure trivial
  · exact moves_pure trivial
  · exact moves_pure trivial
  · exact moves_pure trivial
  · exact moves_pure trivial
  · exact moves_current fun _ _ => moves_fail

/-! ### Looks further ahead -/

/-- The tokens at which `else` is looked for: behind a line end that `else` follows. -/
def elseRest (ts : List Token) : List Token :=
  if (first ts).kind = .semicolon ∧ (first ts).text = "\n" ∧ (second ts).kind = .kwElse then ts.tail
  else ts

theorem elseAhead_run (ts : List Token) (g : Faults) :
    elseAhead ⟨ts, g⟩ = .ok (decide ((first (elseRest ts)).kind = .kwElse)) ⟨elseRest ts, g⟩ := by
  have hsecond : (Cursor.mk ts g).ahead 1 = second ts := by
    unfold Cursor.ahead second first
    rw [List.drop_one]
  have hcurrent : current ⟨ts, g⟩ = .ok (first ts) ⟨ts, g⟩ := rfl
  have hget : (get : Parser Cursor) ⟨ts, g⟩ = .ok ⟨ts, g⟩ ⟨ts, g⟩ := rfl
  unfold elseAhead elseRest
  rw [bind_of_ok hcurrent, bind_of_ok hget, hsecond]
  by_cases hline : (first ts).kind = .semicolon ∧ (first ts).text = "\n" ∧ (second ts).kind = .kwElse
  · rw [if_pos hline, if_pos hline]
    rfl
  · rw [if_neg hline, if_neg hline]
    rfl

theorem elseRest_suffix (ts : List Token) : elseRest ts <:+ ts := by
  unfold elseRest
  split
  · exact List.tail_suffix ts
  · exact List.suffix_rfl

theorem ended_elseRest {ts : List Token} (h : Ended ts) : Ended (elseRest ts) := by
  unfold elseRest
  split
  · next hline =>
    obtain ⟨hfile, -⟩ | ⟨rest, hts, -, hrest⟩ := Ended.cases h
    · rw [hline.1] at hfile
      cases hfile
    · rw [hts]
      exact hrest
  · exact h

theorem Fork.SameElse.elseRest_append {u w : List Token} (helse : R.SameElse)
    (h : elseRest (u ++ R.left) = w ++ R.left) : elseRest (u ++ R.right) = w ++ R.right := by
  unfold elseRest at h ⊢
  cases u with
  | nil =>
    rw [List.nil_append] at h ⊢
    split at h
    · next hline =>
      -- the line end itself would belong to the fork
      have hne : R.left ≠ [] := by
        intro hnil
        rw [hnil] at hline
        cases hline.1
      have hlen := congrArg List.length h
      have hpos := List.length_pos_iff.mpr hne
      rw [List.length_tail, List.length_append] at hlen
      omega
    · next hline =>
      have hw : [] = w := List.append_cancel_right (by rwa [List.nil_append])
      rw [← hw, List.nil_append, ← R.first_eq]
      refine if_neg fun hright => hline ⟨hright.1, hright.2.1, ?_⟩
      exact (helse hright.1 hright.2.1).mpr hright.2.2
  | cons t u =>
    have hfirst : first (t :: u ++ R.right) = first (t :: u ++ R.left) := rfl
    have hsecond : second (t :: u ++ R.right) = second (t :: u ++ R.left) := (R.first_append u).symm
    rw [hfirst, hsecond]
    split at h
    · next hline =>
      rw [if_pos hline]
      have hu : u = w := List.append_cancel_right (show u ++ R.left = w ++ R.left from h)
      rw [← hu]
      rfl
    · next hline =>
      rw [if_neg hline]
      rw [List.append_cancel_right h]

/-- Whether `else` lies ahead, on this line or the next. -/
theorem moves_elseAhead {f f' : Bool → Parser β} (helse : R.SameElse)
    (htrue : Moves R (·.kind = .kwElse) k F (f true) (f' true))
    (hfalse : Moves R Anywhere k F (f false) (f' false)) :
    Moves R At k F (elseAhead >>= f) (elseAhead >>= f') := by
  refine moves_pass elseAhead_run elseRest_suffix (fun _ => ended_elseRest) ?_ ?_
  · intro u w hw
    rw [helse.elseRest_append hw, hw, R.first_append]
    exact ⟨rfl, rfl⟩
  · intro ts _
    by_cases hfound : (first (elseRest ts)).kind = .kwElse
    · rw [decide_eq_true hfound]
      refine htrue.mono ?_ (Nat.le_refl k) fun _ hb => hb
      rintro _ rfl
      exact hfound
    · rw [decide_eq_false hfound]
      exact hfalse.anywhere

theorem first_of_startsShort {ts : List Token} (h : startsShort ts = true) :
    (first ts).kind = .identifier := by
  match ts, h with
  | a :: b :: rest, h =>
    rw [startsShort, Bool.and_eq_true, beq_iff_eq] at h
    exact h.1

/-- A choice by whether names and `:=` lie ahead. -/
theorem moves_ifShort {p q p' q' : Parser β}
    (hp : Moves R (fun t => At t ∧ t.kind = .identifier) k F p p') (hq : Moves R At k F q q') :
    Moves R At k F (get >>= fun c => if startsShort c.tokens then p else q)
      (get >>= fun c => if startsShort c.tokens then p' else q') := by
  intro ts hended hlen hfirst
  have hget : ∀ (x y : Parser β) (us : List Token) (e : Ending β),
      Ends (if startsShort us then x else y) us e →
      Ends (get >>= fun c => if startsShort c.tokens then x else y) us e := fun _ _ _ _ h => h
  by_cases hs : startsShort ts = true
  · obtain ⟨e, hends, hsuffix, hrest, hempty, halike⟩ :=
      hp ts hended hlen ⟨hfirst, first_of_startsShort hs⟩
    refine ⟨e, hget _ _ _ _ (by rwa [if_pos hs]), hsuffix, hrest, hempty, fun u v hu hv => ?_⟩
    have hs' : startsShort (u ++ R.right) = true := by rw [← R.short_eq, ← hu]; exact hs
    exact hget _ _ _ _ (by rw [if_pos hs']; exact halike u v hu hv)
  · obtain ⟨e, hends, hsuffix, hrest, hempty, halike⟩ := hq ts hended hlen hfirst
    refine ⟨e, hget _ _ _ _ (by rwa [if_neg hs]), hsuffix, hrest, hempty, fun u v hu hv => ?_⟩
    have hs' : ¬ startsShort (u ++ R.right) = true := by rw [← R.short_eq, ← hu]; exact hs
    exact hget _ _ _ _ (by rw [if_neg hs']; exact halike u v hu hv)

/-- A function inside a function is a fault that names it. -/
theorem moves_nestedFunction : Moves R (·.kind = .kwFunc) k E
    (do fail (.nestedFunction ((← get).ahead 1).text) : Parser α)
    (do fail (.nestedFunction ((← get).ahead 1).text)) := by
  have hrun : ∀ ts, Ends (do fail (.nestedFunction ((← get).ahead 1).text) : Parser α) ts
      (.stops (.nestedFunction (second ts).text) (first ts).pos ts #[]) := by
    intro ts g
    have hsecond : (Cursor.mk ts g).ahead 1 = second ts := by
      unfold Cursor.ahead second first
      rw [List.drop_one]
    simp only [Ending.outcome, Array.append_empty, ← hsecond]
    rfl
  intro ts hended _ hfunc
  refine ⟨_, hrun ts, List.suffix_rfl, hended, fun _ ha => absurd ha (by simp [Ending.result?]),
    fun u v hu hv => ?_⟩
  have hsecond : (second ts).text = (second (u ++ R.right)).text := by
    rw [hu]
    cases u with
    | nil => exact R.name_eq (by rwa [hu] at hfunc)
    | cons t u => exact congrArg Token.text (R.first_append u)
  have hfirst : first ts = first (u ++ R.right) := by rw [hu, R.first_append]
  rw [← List.append_cancel_right (hu.symm.trans hv), hsecond, hfirst]
  exact hrun _

/-! ### Faults that are recorded -/

theorem moves_record {f : GrammarFault} {pos : Position} :
    Moves R At k Anything (modify (·.record f pos) : Parser Unit) (modify (·.record f pos)) := by
  have hrun : ∀ ts, Ends (modify (·.record f pos) : Parser Unit) ts (.gives () ts #[(f, pos)]) := by
    intro ts g
    simp only [Ending.outcome, Array.append_singleton]
    rfl
  intro ts hended _ _
  refine ⟨_, hrun ts, List.suffix_rfl, hended, fun _ _ _ => trivial, fun u v hu hv => ?_⟩
  rw [← List.append_cancel_right (hu.symm.trans hv)]
  exact hrun _

theorem skipStatement_suffix (closing : List Token.Kind) (depth : Nat) (ts : List Token) :
    skipStatement closing depth ts <:+ ts := by
  fun_induction skipStatement closing depth ts with
  | case1 => exact List.suffix_rfl
  | case2 => exact List.suffix_rfl
  | case3 => exact List.suffix_rfl
  | case4 depth t rest _ _ _ ih => exact ih.trans (List.suffix_cons t rest)
  | case5 depth t rest _ _ _ _ ih => exact ih.trans (List.suffix_cons t rest)
  | case6 depth t rest => exact List.suffix_cons t rest
  | case7 depth t rest _ _ _ _ _ ih => exact ih.trans (List.suffix_cons t rest)

theorem ended_skipStatement {closing : List Token.Kind} {depth : Nat} {ts : List Token}
    (h : Ended ts) : Ended (skipStatement closing depth ts) := by
  fun_induction skipStatement closing depth ts with
  | case1 => exact h
  | case2 => exact h
  | case3 => exact h
  | case4 depth t rest hfile _ _ ih => exact ih ((ended_cons hfile).mp h)
  | case5 depth t rest hfile _ _ _ ih => exact ih ((ended_cons hfile).mp h)
  | case6 depth t rest hfile => exact (ended_cons hfile).mp h
  | case7 depth t rest hfile _ _ _ _ ih => exact ih ((ended_cons hfile).mp h)

/-- Where skipping stops at once, the token at hand is why. -/
theorem skipStatement_eq_self {closing : List Token.Kind} {depth : Nat} {t : Token} {ts us : List Token}
    (h : skipStatement closing depth (t :: ts) = t :: ts) :
    skipStatement closing depth (t :: us) = t :: us := by
  have hshorter : ∀ depth', skipStatement closing depth' ts ≠ t :: ts := by
    intro depth' he
    have hle := (skipStatement_suffix closing depth' ts).length_le
    rw [he, List.length_cons] at hle
    omega
  unfold skipStatement at h ⊢
  by_cases hfile : t.kind = .endOfFile
  · rw [if_pos hfile]
  rw [if_neg hfile] at h ⊢
  by_cases hclosing : depth = 0 ∧ t.kind ∈ closing
  · rw [if_pos hclosing]
  rw [if_neg hclosing] at h
  split at h
  · exact absurd h (hshorter _)
  split at h
  · exact absurd h (hshorter _)
  split at h
  · exact absurd h (List.ne_cons_self)
  · exact absurd h (hshorter _)

theorem Fork.skipStatement_append (R : Fork) {closing : List Token.Kind} {depth : Nat}
    {u w : List Token} (h : skipStatement closing depth (u ++ R.left) = w ++ R.left) :
    skipStatement closing depth (u ++ R.right) = w ++ R.right := by
  induction u generalizing depth with
  | nil =>
    have hle := (skipStatement_suffix closing depth R.left).length_le
    rw [List.nil_append] at h ⊢
    rw [h, List.length_append] at hle
    obtain rfl : w = [] := List.eq_nil_of_length_eq_zero (by omega)
    rw [List.nil_append] at h ⊢
    have hhead := R.head_eq
    cases hr : R.right with
    | nil => rfl
    | cons t ts =>
      rw [hr, List.head?_cons] at hhead
      obtain ⟨ls, hl⟩ := List.head?_eq_some_iff.mp hhead
      rw [hl] at h
      exact skipStatement_eq_self h
  | cons t u ih =>
    rw [List.cons_append] at h ⊢
    unfold skipStatement at h ⊢
    have hstay : t :: (u ++ R.left) = w ++ R.left → t :: (u ++ R.right) = w ++ R.right := by
      intro he
      rw [← List.cons_append] at he ⊢
      rw [List.append_cancel_right he]
    by_cases hfile : t.kind = .endOfFile
    · rw [if_pos hfile] at h ⊢
      exact hstay h
    rw [if_neg hfile] at h ⊢
    by_cases hclosing : depth = 0 ∧ t.kind ∈ closing
    · rw [if_pos hclosing] at h ⊢
      exact hstay h
    rw [if_neg hclosing] at h ⊢
    by_cases hopen : t.kind = .openBrace
    · rw [if_pos hopen] at h ⊢
      exact ih h
    rw [if_neg hopen] at h ⊢
    by_cases hclose : t.kind = .closeBrace
    · rw [if_pos hclose] at h ⊢
      exact ih h
    rw [if_neg hclose] at h ⊢
    by_cases hsemi : t.kind = .semicolon ∧ depth = 0
    · rw [if_pos hsemi] at h ⊢
      rw [List.append_cancel_right h]
    rw [if_neg hsemi] at h ⊢
    exact ih h

theorem resume_suffix (closing : List Token.Kind) (start ts : List Token) :
    resume closing start ts <:+ skipStatement closing 0 ts := by
  unfold resume
  simp only
  split
  · next t after hrest =>
    rw [hrest]
    split
    · exact List.suffix_cons t after
    · exact List.suffix_rfl
  · exact List.nil_suffix

theorem ended_resume {closing : List Token.Kind} {start ts : List Token} (h : Ended ts) :
    Ended (resume closing start ts) := by
  have hskip : Ended (skipStatement closing 0 ts) := ended_skipStatement h
  unfold resume
  simp only
  split
  · next t after hrest =>
    rw [hrest] at hskip ⊢
    split
    · next hsame => exact (ended_cons hsame.2).mp hskip
    · exact hskip
  · next hrest => exact absurd hrest hskip.ne_nil

/-- **After a fault reading goes on further down,** unless the file is at its end. -/
theorem resume_shorter {closing : List Token.Kind} {start ts : List Token} (hsuffix : ts <:+ start)
    (hfile : (first start).kind ≠ .endOfFile) (hne : start ≠ []) :
    (resume closing start ts).length < start.length := by
  have hskip : skipStatement closing 0 ts <:+ start :=
    (skipStatement_suffix closing 0 ts).trans hsuffix
  have hpos := List.length_pos_iff.mpr hne
  unfold resume
  simp only
  split
  · next t after hrest =>
    rw [hrest] at hskip ⊢
    by_cases hsame : (t :: after).length = start.length
    · have hstart : t :: after = start := hskip.eq_of_length hsame
      have ht : t.kind ≠ .endOfFile := by
        rw [← hstart] at hfile
        exact hfile
      rw [if_pos ⟨hsame, ht⟩, ← hstart]
      exact Nat.lt_succ_self _
    · rw [if_neg fun h => hsame h.1]
      exact Nat.lt_of_le_of_ne hskip.length_le hsame
  · exact hpos

theorem Fork.resume_append (R : Fork) {closing : List Token.Kind} {u v w : List Token}
    (h : resume closing (u ++ R.left) (v ++ R.left) = w ++ R.left) :
    resume closing (u ++ R.right) (v ++ R.right) = w ++ R.right := by
  obtain ⟨x, hx⟩ := exists_append_left (resume_suffix closing (u ++ R.left) (v ++ R.left)) h
  have hx' := R.skipStatement_append hx
  unfold resume at h ⊢
  simp only [hx, hx'] at h ⊢
  cases x with
  | cons t x =>
    simp only [List.cons_append, List.length_cons, List.length_append] at h ⊢
    by_cases hsame : x.length + 1 = u.length ∧ t.kind ≠ .endOfFile
    · rw [if_pos ⟨by omega, hsame.2⟩] at h ⊢
      rw [List.append_cancel_right h]
    · rw [if_neg fun he => hsame ⟨by omega, he.2⟩] at h ⊢
      rw [← List.cons_append] at h ⊢
      rw [List.append_cancel_right h]
  | nil =>
    have hhead := R.head_eq
    rw [List.nil_append] at h ⊢
    cases hr : R.right with
    | nil =>
      rw [hr] at hhead
      rw [List.head?_eq_none_iff.mp hhead] at h
      exact h
    | cons t ts =>
      rw [hr] at hhead
      obtain ⟨ls, hl⟩ := List.head?_eq_some_iff.mp hhead
      rw [hl] at h
      simp only [List.length_cons, List.length_append] at h ⊢
      by_cases hsame : u.length = 0 ∧ t.kind ≠ .endOfFile
      · rw [if_pos ⟨by omega, hsame.2⟩] at h
        have hlen := congrArg List.length h
        rw [List.length_append, List.length_cons] at hlen
        omega
      · rw [if_neg fun he => hsame ⟨by omega, he.2⟩] at h ⊢
        have hw : [] = w :=
          List.append_cancel_right (show [] ++ t :: ls = w ++ t :: ls from h)
        rw [← hw]
        rfl

theorem Ends.recovering {p : Parser α} {ts rest : List Token} {a : α} {g : Faults}
    {closing : List Token.Kind} (h : Ends p ts (.gives a rest g)) :
    Ends (recovering closing p) ts (.gives (some a) rest g) := by
  intro before
  rw [Parser.recovering, h]
  rfl

theorem Ends.recovering_stops {p : Parser α} {ts rest : List Token} {f : GrammarFault}
    {pos : Position} {g : Faults} {closing : List Token.Kind} (h : Ends p ts (.stops f pos rest g)) :
    Ends (Parser.recovering closing p) ts (.gives none (resume closing ts rest) (g.push (f, pos))) := by
  intro before
  rw [Parser.recovering, h]
  simp only [Ending.outcome, Cursor.record, Array.push_append]

/-- **One round of a list always reads a token:** a statement, or what is skipped for a fault. -/
theorem moves_recovering {closing : List Token.Kind} {p p' : Parser α}
    (hAt : ∀ t, At t → t.kind ≠ .endOfFile) (hp : Moves R At k Never p p') :
    Moves R At k Never (recovering closing p) (recovering closing p') := by
  intro ts hended hlen hfirst
  obtain ⟨e, hends, hsuffix, hrest, hempty, halike⟩ := hp ts hended hlen hfirst
  cases e with
  | gives a rest g =>
    refine ⟨_, hends.recovering, hsuffix, hrest, fun b _ he => hempty a rfl he, ?_⟩
    exact fun u v hu hv => (halike u v hu hv).recovering
  | stops f pos rest g =>
    refine ⟨_, hends.recovering_stops, ?_, ended_resume hrest, ?_, ?_⟩
    · exact (resume_suffix closing ts rest).trans ((skipStatement_suffix closing 0 rest).trans hsuffix)
    · intro b _ he
      have hshorter : (resume closing ts rest).length < ts.length :=
        resume_shorter hsuffix (hAt _ hfirst) hended.ne_nil
      rw [show resume closing ts rest = ts from he] at hshorter
      exact Nat.lt_irrefl _ hshorter
    · intro u v hu hv
      have hmid : resume closing ts rest <:+ rest :=
        (resume_suffix closing ts rest).trans (skipStatement_suffix closing 0 rest)
      obtain ⟨w, hw⟩ := exists_append_left hmid hv
      have hright : Ends (recovering closing p') _ _ := (halike u w hu hw).recovering_stops
      have hresume : resume closing (u ++ R.left) (w ++ R.left) = v ++ R.left := by
        rw [← hu, ← hw]
        exact hv
      rw [R.resume_append hresume] at hright
      exact hright

end Parser
end Treewalk
