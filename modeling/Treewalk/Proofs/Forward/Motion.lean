/-
# How rules move along the tokens

A rule of the grammar ends with a result or at a fault, and leaves a part of
the tokens to the next one. `Moves` says what every rule does on tokens that
end with their only end of file: it ends within its bound; what it leaves is
the end of what it had, the end of file included; and a result for which no
token was read is one that the rule may give for nothing.

It also says on what a rule depends. The same rule with another bound does
the same; and it does the same where the tokens it leaves go on in another
way, as long as the two ways cannot be told apart from where the rule stands
(`Fork`). Both are said of two rules at once, so that the two facts and the
motion itself are proved in one pass: a rule is taken apart by `bind`, and a
step lemma stands for each way to look at tokens or to read them.

Key definitions: `Parser.Ending`, `Parser.Ends`, `Parser.Fork`,
`Parser.Moves`.
Key theorems: `Parser.Moves.bind`, `Parser.Moves.step`,
`Parser.moves_pass`, `Parser.moves_advance`.
-/
import Treewalk.Grammar.Statement
import Treewalk.Proofs.Pieces

namespace Treewalk
namespace Parser

variable {α β : Type}

/-! ### Endings -/

abbrev Faults := Array (GrammarFault × Position)

/-- How a rule ends: with a result or at a fault, leaving tokens and having recorded faults. -/
inductive Ending (α : Type) where
  | gives (a : α) (rest : List Token) (faults : Faults)
  | stops (f : GrammarFault) (pos : Position) (rest : List Token) (faults : Faults)

namespace Ending

def result? : Ending α → Option α
  | gives a _ _ => some a
  | stops .. => none

/-- The tokens that are left. -/
def rest : Ending α → List Token
  | gives _ ts _ | stops _ _ ts _ => ts

/-- The same ending with other tokens left. -/
def leaving (ts : List Token) : Ending α → Ending α
  | gives a _ g => gives a ts g
  | stops f pos _ g => stops f pos ts g

/-- The same ending behind faults recorded before. -/
def behind (g : Faults) : Ending α → Ending α
  | gives a ts h => gives a ts (g ++ h)
  | stops f pos ts h => stops f pos ts (g ++ h)

/-- What a rule that ends so makes of the faults recorded before it. -/
def outcome (g : Faults) : Ending α → EStateM.Result Halt Cursor α
  | gives a ts h => .ok a ⟨ts, g ++ h⟩
  | stops f pos ts h => .error (.fault f pos) ⟨ts, g ++ h⟩

@[simp] theorem rest_behind (e : Ending α) (g : Faults) : (e.behind g).rest = e.rest := by
  cases e <;> rfl

@[simp] theorem result?_behind (e : Ending α) (g : Faults) : (e.behind g).result? = e.result? := by
  cases e <;> rfl

theorem leaving_behind (e : Ending α) (g : Faults) (ts : List Token) :
    (e.behind g).leaving ts = (e.leaving ts).behind g := by
  cases e <;> rfl

theorem outcome_behind (e : Ending α) (g h : Faults) :
    (e.behind h).outcome g = e.outcome (g ++ h) := by
  cases e <;> simp [behind, outcome, Array.append_assoc]

theorem outcome_inj {e e' : Ending α} (h : e.outcome #[] = e'.outcome #[]) : e = e' := by
  cases e <;> cases e' <;> simp_all [outcome]

end Ending

/-- From the tokens `ts` the rule ends so, whatever has been recorded before. -/
def Ends (p : Parser α) (ts : List Token) (e : Ending α) : Prop :=
  ∀ g, p ⟨ts, g⟩ = e.outcome g

theorem Ends.unique {p : Parser α} {ts : List Token} {e e' : Ending α} (h : Ends p ts e)
    (h' : Ends p ts e') : e = e' :=
  Ending.outcome_inj ((h #[]).symm.trans (h' #[]))

theorem bind_of_ok {p : Parser α} {f : α → Parser β} {c c' : Cursor} {a : α}
    (h : p c = .ok a c') : (p >>= f) c = f a c' := by
  change EStateM.bind p f c = _
  rw [EStateM.bind, h]

theorem bind_of_error {p : Parser α} {f : α → Parser β} {c c' : Cursor} {e : Halt}
    (h : p c = .error e c') : (p >>= f) c = .error e c' := by
  change EStateM.bind p f c = _
  rw [EStateM.bind, h]

theorem Ends.bind {p : Parser α} {f : α → Parser β} {ts rest : List Token} {a : α} {g : Faults}
    {e : Ending β} (hp : Ends p ts (.gives a rest g)) (hf : Ends (f a) rest e) :
    Ends (p >>= f) ts (e.behind g) := by
  intro before
  rw [bind_of_ok (hp before), hf, Ending.outcome_behind]

theorem Ends.bind_stops {p : Parser α} {f : α → Parser β} {ts rest : List Token}
    {fault : GrammarFault} {pos : Position} {g : Faults} (hp : Ends p ts (.stops fault pos rest g)) :
    Ends (p >>= f) ts (.stops fault pos rest g) :=
  fun before => bind_of_error (hp before)

/-! ### Tokens that cannot be told apart -/

/-- The token at hand. -/
def first (ts : List Token) : Token := ts.headD (.endOfFile .origin)

/-- The token behind the one at hand. -/
def second (ts : List Token) : Token := first ts.tail

/-- Two ways in which the tokens may go on. A rule that stands before them sees the same token; and
where it would look further, for names and `:=` or for the name of a function, it finds the same. -/
structure Fork where
  left : List Token
  right : List Token
  head_eq : left.head? = right.head?
  short_eq : ∀ u, startsShort (u ++ left) = startsShort (u ++ right)
  name_eq : (first left).kind = .kwFunc → (second left).text = (second right).text

namespace Fork

/-- No fork at all. -/
def same (ts : List Token) : Fork := ⟨ts, ts, rfl, fun _ => rfl, fun _ => rfl⟩

variable (R : Fork)

/-- A look for an `else` on the next line finds the same on both ways. -/
def SameElse : Prop :=
  (first R.left).kind = .semicolon → (first R.left).text = "\n" →
    ((second R.left).kind = .kwElse ↔ (second R.right).kind = .kwElse)

theorem sameElse_same (ts : List Token) : (Fork.same ts).SameElse := fun _ _ => Iff.rfl

theorem first_eq : first R.left = first R.right := by
  unfold first
  rw [List.headD_eq_head?_getD, List.headD_eq_head?_getD, R.head_eq]

theorem first_append (u : List Token) : first (u ++ R.left) = first (u ++ R.right) := by
  cases u with
  | nil => exact R.first_eq
  | cons t u => rfl

end Fork

/-! ### Motion -/

/-- Both rules move alike from tokens of which the first satisfies `At`, as far as `R` lies behind
them. There are `k` tokens at most, and a result for which none is read satisfies `E`. -/
def Moves (R : Fork) (At : Token → Prop) (k : Nat) (E : α → Prop) (p p' : Parser α) : Prop :=
  ∀ ts, Ended ts → ts.length ≤ k → At (first ts) →
    ∃ e, Ends p ts e ∧ e.rest <:+ ts ∧ Ended e.rest ∧
      (∀ a, e.result? = some a → e.rest = ts → E a) ∧
      ∀ u v, ts = u ++ R.left → e.rest = v ++ R.left →
        Ends p' (u ++ R.right) (e.leaving (v ++ R.right))

/-- At any token. -/
def Anywhere (_ : Token) : Prop := True

/-- For nothing, no result is given. -/
def Never (_ : α) : Prop := False

/-- For nothing, any result is given. -/
def Anything (_ : α) : Prop := True

variable {R : Fork} {At : Token → Prop} {k : Nat} {E : α → Prop} {F : β → Prop}

theorem Moves.mono {p p' : Parser α} {At' : Token → Prop} {j : Nat} {E' : α → Prop}
    (h : Moves R At k E p p') (hAt : ∀ t, At' t → At t) (hk : j ≤ k) (hE : ∀ a, E a → E' a) :
    Moves R At' j E' p p' := by
  intro ts hended hlen hfirst
  obtain ⟨e, hends, hsuffix, hrest, hempty, halike⟩ :=
    h ts hended (Nat.le_trans hlen hk) (hAt _ hfirst)
  exact ⟨e, hends, hsuffix, hrest, fun a ha he => hE a (hempty a ha he), halike⟩

/-- Inside a larger bound. -/
theorem Moves.within {p p' : Parser α} {j : Nat} (h : Moves R At k E p p') (hj : j ≤ k) :
    Moves R At j E p p' :=
  h.mono (fun _ ht => ht) hj fun _ ha => ha

theorem Moves.any {p p' : Parser α} (h : Moves R At k E p p') : Moves R At k Anything p p' :=
  h.mono (fun _ ht => ht) (Nat.le_refl k) fun _ _ => trivial

theorem Moves.anywhere {p p' : Parser α} (h : Moves R Anywhere k E p p') : Moves R At k E p p' :=
  h.mono (fun _ _ => trivial) (Nat.le_refl k) fun _ ha => ha

theorem Moves.imp {p p' : Parser α} {E' : α → Prop} (h : Moves R At k E p p') (hE : ∀ a, E a → E' a) :
    Moves R At k E' p p' :=
  h.mono (fun _ ht => ht) (Nat.le_refl k) hE

/-- A rule that reads a token gives nothing for nothing. -/
theorem Moves.ofNever {p p' : Parser α} (h : Moves R At k Never p p') : Moves R At k E p p' :=
  h.imp fun _ ha => ha.elim

/-- What was left in between lies before the fork as well. -/
theorem exists_append_left {ts mid rest v : List Token} (hmid : rest <:+ mid) (hv : rest = v ++ ts) :
    ∃ w, mid = w ++ ts := by
  obtain ⟨u, rfl⟩ := hmid
  exact ⟨u ++ v, by rw [hv, List.append_assoc]⟩

/-- One rule behind another, by whether the first has read a token. -/
theorem Moves.bind_of {p p' : Parser α} {f f' : α → Parser β} (hp : Moves R At k E p p')
    (hstill : ∀ a, E a → Moves R Anywhere k F (f a) (f' a))
    (hread : ∀ a, Moves R Anywhere (k - 1) Anything (f a) (f' a)) :
    Moves R At k F (p >>= f) (p' >>= f') := by
  intro ts hended hlen hfirst
  obtain ⟨e, hends, hsuffix, hrest, hempty, halike⟩ := hp ts hended hlen hfirst
  cases e with
  | stops fault pos rest g =>
    refine ⟨.stops fault pos rest g, hends.bind_stops, hsuffix, hrest, nofun, ?_⟩
    intro u v hu hv
    exact (halike u v hu hv).bind_stops
  | gives a rest g =>
    have hnext : ∃ e, Ends (f a) rest e ∧ e.rest <:+ rest ∧ Ended e.rest ∧
        (∀ b, e.result? = some b → e.rest = ts → F b) ∧
        ∀ u v, rest = u ++ R.left → e.rest = v ++ R.left →
          Ends (f' a) (u ++ R.right) (e.leaving (v ++ R.right)) := by
      by_cases hsame : rest = ts
      · exact hsame ▸ hstill a (hempty a rfl hsame) ts hended hlen trivial
      · have hshort : rest.length < ts.length :=
          Nat.lt_of_le_of_ne hsuffix.length_le fun he => hsame (hsuffix.eq_of_length he)
        obtain ⟨e, hends', hsuffix', hrest', -, halike'⟩ := hread a rest hrest (by omega) trivial
        refine ⟨e, hends', hsuffix', hrest', fun b _ he => ?_, halike'⟩
        have hle : e.rest.length ≤ rest.length := hsuffix'.length_le
        rw [he] at hle
        omega
    obtain ⟨e, hends', hsuffix', hrest', hempty', halike'⟩ := hnext
    refine ⟨e.behind g, hends.bind hends', ?_, ?_, ?_, ?_⟩
    · rw [Ending.rest_behind]
      exact hsuffix'.trans hsuffix
    · rw [Ending.rest_behind]
      exact hrest'
    · intro b hb he
      rw [Ending.result?_behind] at hb
      rw [Ending.rest_behind] at he
      exact hempty' b hb he
    · intro u v hu hv
      rw [Ending.rest_behind] at hv
      obtain ⟨w, hw⟩ := exists_append_left hsuffix' hv
      rw [Ending.leaving_behind]
      exact Ends.bind (halike u w hu hw) (halike' w v hw hv)

/-- One rule behind another, with the same bound. -/
theorem Moves.bind {p p' : Parser α} {f f' : α → Parser β} (hp : Moves R At k E p p')
    (hf : ∀ a, Moves R Anywhere k F (f a) (f' a)) : Moves R At k F (p >>= f) (p' >>= f') :=
  hp.bind_of (fun a _ => hf a) fun a => ((hf a).within (Nat.sub_le k 1)).imp fun _ _ => trivial

/-- Behind a rule that reads a token, one token less is left. -/
theorem Moves.step {p p' : Parser α} {f f' : α → Parser β} (hp : Moves R At k Never p p')
    (hf : ∀ a, Moves R Anywhere (k - 1) Anything (f a) (f' a)) :
    Moves R At k F (p >>= f) (p' >>= f') :=
  hp.bind_of (fun _ ha => ha.elim) hf

/-! ### Steps -/

theorem moves_pure {a : α} (h : E a) : Moves R At k E (pure a) (pure a) := by
  intro ts hended _ _
  refine ⟨.gives a ts #[], fun g => ?_, List.suffix_rfl, hended, ?_, ?_⟩
  · simp only [Ending.outcome, Array.append_empty]
    rfl
  · rintro b ⟨⟩ -
    exact h
  · intro u v hu hv g
    rw [List.append_cancel_right (hu.symm.trans hv)]
    simp only [Ending.outcome, Ending.leaving, Array.append_empty]
    rfl

theorem Moves.map {p p' : Parser α} {f : α → β} (hp : Moves R At k E p p') :
    Moves R At k Anything (f <$> p) (f <$> p') := by
  have hbind : Moves R At k Anything (p >>= fun a => pure (f a)) (p' >>= fun a => pure (f a)) :=
    hp.bind fun _ => moves_pure trivial
  exact hbind

/-- Behind a fault nothing is read. -/
theorem moves_failAt_bind {f : GrammarFault} {pos : Position} {p p' : α → Parser β} :
    Moves R At k F (failAt f pos >>= p) (failAt f pos >>= p') := by
  have hstops : ∀ (q : α → Parser β) ts, Ends (failAt f pos >>= q) ts (.stops f pos ts #[]) := by
    intro q ts g
    simp only [Ending.outcome, Array.append_empty]
    rfl
  intro ts hended _ _
  refine ⟨.stops f pos ts #[], hstops p ts, List.suffix_rfl, hended, nofun, fun u v hu hv => ?_⟩
  rw [← List.append_cancel_right (hu.symm.trans hv)]
  exact hstops p' _

theorem moves_failAt {f : GrammarFault} {pos : Position} :
    Moves R At k E (failAt f pos : Parser α) (failAt f pos) := by
  have hbind : Moves R At k E ((failAt f pos : Parser α) >>= pure) (failAt f pos >>= pure) :=
    moves_failAt_bind
  exact hbind

/-- A step that finds no fault: from `ts` it gives `o ts` and goes on at `m ts`, and neither tells
the ways of a fork apart. -/
theorem moves_pass {p : Parser α} {o : List Token → α} {m : List Token → List Token}
    {f f' : α → Parser β} (hrun : ∀ ts g, p ⟨ts, g⟩ = .ok (o ts) ⟨m ts, g⟩)
    (hsuffix : ∀ ts, m ts <:+ ts) (hended : ∀ ts, Ended ts → Ended (m ts))
    (halike : ∀ u w, m (u ++ R.left) = w ++ R.left →
      o (u ++ R.right) = o (u ++ R.left) ∧ m (u ++ R.right) = w ++ R.right)
    (h : ∀ ts, At (first ts) → Moves R (· = first (m ts)) k F (f (o ts)) (f' (o ts))) :
    Moves R At k F (p >>= f) (p >>= f') := by
  intro ts hts hlen hfirst
  have hlen' : (m ts).length ≤ k := Nat.le_trans (hsuffix ts).length_le hlen
  obtain ⟨e, hends, hsuffix', hrest, hempty, hright⟩ := h ts hfirst (m ts) (hended ts hts) hlen' rfl
  refine ⟨e, fun g => ?_, hsuffix'.trans (hsuffix ts), hrest, ?_, ?_⟩
  · rw [bind_of_ok (hrun ts g), hends]
  · intro b hb he
    have hmid : m ts = ts := (hsuffix ts).eq_of_length_le (he ▸ hsuffix'.length_le)
    exact hempty b hb (he.trans hmid.symm)
  · intro u v hu hv g
    obtain ⟨w, hw⟩ := exists_append_left hsuffix' hv
    rw [hu] at hw hright
    obtain ⟨ho, hm⟩ := halike u w hw
    rw [bind_of_ok (hrun _ g), ho, hm]
    exact hright w v hw hv g

/-- A step that only looks at the tokens. -/
theorem moves_look {p : Parser α} {o : List Token → α} {f f' : α → Parser β}
    (hrun : ∀ ts g, p ⟨ts, g⟩ = .ok (o ts) ⟨ts, g⟩)
    (halike : ∀ u, o (u ++ R.right) = o (u ++ R.left))
    (h : ∀ ts, At (first ts) → Moves R (· = first ts) k F (f (o ts)) (f' (o ts))) :
    Moves R At k F (p >>= f) (p >>= f') := by
  refine moves_pass (m := id) hrun (fun _ => List.suffix_rfl) (fun _ h => h) ?_ h
  intro u w hw
  exact ⟨halike u, by rw [List.append_cancel_right hw]; rfl⟩

/-- A look at the token at hand. -/
theorem moves_current {f f' : Token → Parser β}
    (h : ∀ t, At t → Moves R (· = t) k F (f t) (f' t)) :
    Moves R At k F (current >>= f) (current >>= f') :=
  moves_look (o := first) (fun _ _ => rfl) (fun u => (R.first_append u).symm) fun _ hts => h _ hts

/-- A look at the kind of the token at hand. -/
theorem moves_kind {f f' : Token.Kind → Parser β}
    (h : ∀ κ, Moves R (fun t => At t ∧ t.kind = κ) k F (f κ) (f' κ)) :
    Moves R At k F (kind >>= f) (kind >>= f') := by
  refine moves_look (o := fun ts => (first ts).kind) (fun _ _ => rfl) ?_ fun ts hts => ?_
  · intro u
    rw [R.first_append u]
  · refine (h (first ts).kind).mono ?_ (Nat.le_refl k) fun _ hb => hb
    rintro _ rfl
    exact ⟨hts, rfl⟩

theorem moves_fail {f : GrammarFault} : Moves R At k E (fail f : Parser α) (fail f) :=
  moves_current fun _ _ => moves_failAt

theorem moves_fail_bind {f : GrammarFault} {p p' : α → Parser β} :
    Moves R At k F (fail f >>= p) (fail f >>= p') := by
  have hstop : ∀ t : Token,
      Moves R (· = t) k F (failAt f t.pos >>= p) (failAt f t.pos >>= p') := fun _ =>
    moves_failAt_bind
  exact moves_current fun t _ => hstop t

theorem Ended.cases {ts : List Token} (h : Ended ts) :
    ((first ts).kind = .endOfFile ∧ ts = [first ts]) ∨
      ∃ rest, ts = first ts :: rest ∧ (first ts).kind ≠ .endOfFile ∧ Ended rest := by
  cases ts with
  | nil => exact absurd rfl h.ne_nil
  | cons t ts =>
    by_cases ht : t.kind = .endOfFile
    · exact .inl ⟨ht, by rw [h.eq_singleton ht]; rfl⟩
    · exact .inr ⟨ts, rfl, ht, (ended_cons ht).mp h⟩

/-- A fork behind a token that is read lies behind the tokens left. -/
theorem exists_cons_append {t : Token} {ts rest u v left : List Token} (hsuffix : rest <:+ ts)
    (hu : t :: ts = u ++ left) (hv : rest = v ++ left) : ∃ w, u = t :: w ∧ ts = w ++ left := by
  cases u with
  | nil =>
    -- the fork would begin with a token that has been read
    have hle := hsuffix.length_le
    rw [hv, List.length_append] at hle
    have htotal := congrArg List.length hu
    rw [List.nil_append, List.length_cons] at htotal
    omega
  | cons x w =>
    obtain ⟨rfl, hw⟩ := List.cons.inj hu
    exact ⟨w, rfl, hw⟩

/-- Reading the token at hand, which is not the end of file. -/
theorem moves_advance {f f' : Token → Parser β} (hAt : ∀ t, At t → t.kind ≠ .endOfFile)
    (h : ∀ t, At t → Moves R Anywhere (k - 1) Anything (f t) (f' t)) :
    Moves R At k F (advance >>= f) (advance >>= f') := by
  intro ts hended hlen hfirst
  obtain ⟨hfile, -⟩ | ⟨rest, hts, -, hrest⟩ := Ended.cases hended
  · exact absurd hfile (hAt _ hfirst)
  obtain ⟨t, ht⟩ : ∃ t, first ts = t := ⟨_, rfl⟩
  rw [ht] at hts hfirst
  subst hts
  rw [List.length_cons] at hlen
  obtain ⟨e, hends, hsuffix, hended', -, halike⟩ := h t hfirst rest hrest (by omega) trivial
  refine ⟨e, hends, hsuffix.trans (List.suffix_cons t rest), hended', ?_, ?_⟩
  · intro b _ he
    have hle := hsuffix.length_le
    rw [he, List.length_cons] at hle
    omega
  · intro u v hu hv
    obtain ⟨w, rfl, hw⟩ := exists_cons_append hsuffix hu hv
    exact halike w v hw hv

/-- Reading a token of a given kind. -/
theorem moves_expect {κ : Token.Kind} {f f' : Token → Parser β} (hκ : κ ≠ .endOfFile)
    (h : ∀ t, Moves R Anywhere (k - 1) Anything (f t) (f' t)) :
    Moves R At k F (expect κ >>= f) (expect κ >>= f') := by
  refine Moves.step ?_ h
  refine moves_kind fun κ' => ?_
  by_cases hk : κ' = κ
  · rw [if_pos hk]
    have hread : Moves R (fun t => At t ∧ t.kind = κ') k Never (advance >>= pure) (advance >>= pure) :=
      moves_advance (fun t ht => ht.2 ▸ hk ▸ hκ) fun t _ => moves_pure trivial
    exact hread
  · rw [if_neg hk]
    exact moves_current fun t _ => moves_fail

/-- Reading a token that has been looked at. -/
theorem moves_take {t : Token} {f f' : Token → Parser β} (ht : t.kind ≠ .endOfFile)
    (h : Moves R Anywhere (k - 1) Anything (f t) (f' t)) :
    Moves R (· = t) k F (advance >>= f) (advance >>= f') := by
  refine moves_advance ?_ ?_
  · rintro _ rfl
    exact ht
  · rintro _ rfl
    exact h

/-- Reading a token of which the kind has been looked at. -/
theorem moves_takeKind {κ : Token.Kind} {f f' : Token → Parser β} (hκ : κ ≠ .endOfFile)
    (h : ∀ t, Moves R Anywhere (k - 1) Anything (f t) (f' t)) :
    Moves R (fun t => At t ∧ t.kind = κ) k F (advance >>= f) (advance >>= f') :=
  moves_advance (fun _ ht => ht.2 ▸ hκ) fun t _ => h t

theorem moves_ite {c : Prop} [Decidable c] {p p' q q' : Parser α} (hp : c → Moves R At k E p p')
    (hq : ¬ c → Moves R At k E q q') :
    Moves R At k E (if c then p else q) (if c then p' else q') := by
  by_cases hc : c
  · rw [if_pos hc, if_pos hc]
    exact hp hc
  · rw [if_neg hc, if_neg hc]
    exact hq hc

/-- Without tokens there is nothing to say. -/
theorem moves_zero {p p' : Parser α} : Moves R At 0 E p p' := by
  intro ts hended hlen
  exact absurd (List.eq_nil_of_length_eq_zero (Nat.le_zero.mp hlen)) hended.ne_nil

/-- Two bounds of a rule that are not less than the number of tokens, taken down together: a round
behind at least one token has fewer tokens and is left the bounds less one. -/
theorem bounds_induction {motive : Nat → Nat → Nat → Prop} (zero : ∀ n n', motive 0 n n')
    (succ : ∀ k n n', k ≤ n → k ≤ n' → (∀ j, j ≤ k → motive j n n') →
      motive (k + 1) (n + 1) (n' + 1))
    {k n n' : Nat} (hn : k ≤ n) (hn' : k ≤ n') : motive k n n' := by
  induction n generalizing k n' with
  | zero =>
    obtain rfl := Nat.le_zero.mp hn
    exact zero 0 n'
  | succ n ih =>
    cases k with
    | zero => exact zero (n + 1) n'
    | succ k =>
      obtain ⟨n', rfl⟩ := Nat.exists_eq_add_one_of_ne_zero (show n' ≠ 0 by omega)
      exact succ k n n' (by omega) (by omega) fun j hj => ih (by omega) (by omega)

end Parser
end Treewalk
