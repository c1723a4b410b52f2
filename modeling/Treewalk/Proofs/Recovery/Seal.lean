/-
# Statements that are sealed

A statement whose last token is its separator or a closing brace is done with
it: what follows does not matter, except for an `else` behind an `if`. So
such a statement is read alike before any two ways to go on, however different
they are, if an `if` finds no `else` on either (`Parser.Seals`).

Up to the last token this is what rules do before a fork (`Forward.Motion`);
here the last token is crossed. The end of a statement and the closing brace
of a block are the steps that can cross it. Every rule for a statement has one
of them as its last step, or looks for `else` behind it.

Key definitions: `Parser.GoesOn`, `Parser.Seal`, `Parser.Seal.NoElse`,
`Parser.Seals`, `Parser.Passes`.
Key theorems: `Parser.Seals.bind_of`, `Parser.Seals.andThen`,
`Parser.seals_statement`.
-/
import Treewalk.Proofs.Derivation.Statement

namespace Treewalk
namespace Parser

/-! ### Forks behind a common token -/

/-- A token that is no part of a list of names before `:=` ends the look for one. -/
theorem startsShort_append {t : Token} (ht : t.kind ∉ [.identifier, .comma, .colonEqual]) :
    ∀ u l l' : List Token, startsShort (u ++ t :: l) = startsShort (u ++ t :: l')
  | [], l, l' => by
    have hfalse : ∀ l, startsShort (t :: l) = false := by
      intro l
      refine Bool.eq_false_iff.mpr fun hs => ht ?_
      have hname : t.kind = .identifier := first_of_startsShort hs
      simp [hname]
    rw [List.nil_append, List.nil_append, hfalse, hfalse]
  | [a], l, l' => by
    have hcomma : (t.kind == .comma) = false := by
      refine beq_eq_false_iff_ne.mpr fun hk => ht ?_
      simp [hk]
    have hmark : (t.kind == .colonEqual) = false := by
      refine beq_eq_false_iff_ne.mpr fun hk => ht ?_
      simp [hk]
    simp [startsShort, hcomma, hmark]
  | a :: b :: u, l, l' => by
    simp only [List.cons_append, startsShort]
    rw [startsShort_append ht u l l']

/-- Two ways to go on behind the same token. -/
def Fork.behind (t : Token) (l l' : List Token) (ht : t.kind ∉ [.identifier, .comma, .colonEqual])
    (hname : t.kind = .kwFunc → (first l).text = (first l').text) : Fork :=
  ⟨t :: l, t :: l', rfl, fun u => startsShort_append ht u l l', hname⟩

/-- Neither the end of a list nor an `else` lies ahead. -/
structure GoesOn (ts : List Token) : Prop where
  notClosed : (first ts).kind ∉ closers
  noElse : (first (elseRest ts)).kind ≠ .kwElse

/-- No `else` lies ahead, neither here nor behind a line end. -/
theorem elseRest_ne_else {ts : List Token} : (first (elseRest ts)).kind ≠ .kwElse ↔
    (first ts).kind ≠ .kwElse ∧
      ¬ ((first ts).kind = .semicolon ∧ (first ts).text = "\n" ∧ (second ts).kind = .kwElse) := by
  unfold elseRest
  split
  · next hline => exact ⟨fun hne => absurd hline.2.2 hne, fun hne => absurd hline hne.2⟩
  · next hline => exact ⟨fun hne => ⟨hne, hline⟩, fun hne => hne.1⟩

theorem first_ne_else {ts : List Token} (h : (first (elseRest ts)).kind ≠ .kwElse) :
    (first ts).kind ≠ .kwElse :=
  (elseRest_ne_else.mp h).1

/-- The last token of a statement and two ways to go on behind it: `left`, with another statement or
a separator, and `right`. -/
structure Seal where
  mark : Token
  left : List Token
  right : List Token
  mark_kind : mark.kind = .semicolon ∨ mark.kind = .closeBrace
  ended : Ended left
  goesOn : GoesOn left

namespace Seal

variable (S : Seal)

/-- The two ways from the last token on. -/
def fork : Fork :=
  Fork.behind S.mark S.left S.right
    (by obtain hk | hk := S.mark_kind <;> rw [hk] <;> decide)
    (by obtain hk | hk := S.mark_kind <;> rw [hk] <;> nofun)

/-- No `else` comes on the other way. -/
def NoElse : Prop := (first (elseRest S.right)).kind ≠ .kwElse

variable {S} in
theorem NoElse.sameElse (h : S.NoElse) : S.fork.SameElse :=
  fun _ _ => iff_of_false (first_ne_else S.goesOn.noElse) (first_ne_else h)

/-- An `else` is not looked for behind a brace as behind a line end. -/
theorem sameElse_of_brace (h : S.mark.kind = .closeBrace) : S.fork.SameElse := by
  intro hsemi
  change S.mark.kind = .semicolon at hsemi
  rw [h] at hsemi
  cases hsemi

/-- Tokens between what is behind the mark and what is before it. -/
theorem eq_or_before {u mid : List Token} (hmid : mid <:+ u ++ S.mark :: S.left)
    (hleft : S.left <:+ mid) : mid = S.left ∨ ∃ v, mid = v ++ S.fork.left := by
  have hmark : S.mark :: S.left <:+ u ++ S.mark :: S.left := List.suffix_append u _
  obtain hshort | ⟨v, hv⟩ := List.suffix_or_suffix_of_suffix hmid hmark
  · obtain hall | hshort := List.suffix_cons_iff.mp hshort
    · exact .inr ⟨[], hall⟩
    · exact .inl (hshort.eq_of_length_le hleft.length_le)
  · exact .inr ⟨v, hv.symm⟩

theorem length_pos : 0 < S.left.length := List.length_pos_iff.mpr S.ended.ne_nil

end Seal

/-! ### Crossing the last token -/

variable {α β : Type} {S : Seal} {At : Token → Prop} {j k n n' : Nat} {E : α → Prop}

/-- A result of two rules comes from one of each. The second has `j` tokens at most: as many as the
first, or one less where the first has read a token. -/
theorem Ends.of_bind {R : Fork} {p p' : Parser α} {f f' : α → Parser β} {ts rest : List Token} {b : β}
    {g : Faults} (hp : Moves R At k E p p') (hf : ∀ a, Moves R Anywhere j Anything (f a) (f' a))
    (hj : k ≤ j ∨ k ≤ j + 1 ∧ ∀ a, ¬ E a) (hended : Ended ts) (hlen : ts.length ≤ k)
    (hfirst : At (first ts)) (h : Ends (p >>= f) ts (.gives b rest g)) :
    ∃ a mid g₁ g₂, Ends p ts (.gives a mid g₁) ∧ Ends (f a) mid (.gives b rest g₂) ∧ g = g₁ ++ g₂ ∧
      rest <:+ mid ∧ mid <:+ ts ∧ Ended mid ∧ mid.length ≤ j ∧
      ∀ u v, ts = u ++ R.left → mid = v ++ R.left →
        Ends p' (u ++ R.right) (.gives a (v ++ R.right) g₁) := by
  obtain ⟨e, hends, hsuffix, hmid, hempty, halike⟩ := hp ts hended hlen hfirst
  cases e with
  | stops fault pos mid g₁ => exact absurd (h.unique hends.bind_stops) nofun
  | gives a mid g₁ =>
    have hshort : mid.length ≤ j := by
      have hle : mid.length ≤ ts.length := hsuffix.length_le
      obtain hj | ⟨hj, hnever⟩ := hj
      · omega
      · have hne : mid.length ≠ ts.length := fun he =>
          hnever a (hempty a rfl (hsuffix.eq_of_length he))
        omega
    obtain ⟨e, hends', hsuffix', -, -, -⟩ := hf a mid hmid hshort trivial
    have he := h.unique (hends.bind hends')
    cases e with
    | stops => cases he
    | gives b' rest' g₂ =>
      cases he
      exact ⟨a, mid, g₁, g₂, hends, hends', rfl, hsuffix', hsuffix, hmid, hshort, halike⟩

/-- The rule moves alike up to the mark; a result with which it stands behind the mark is the same
on both ways. -/
structure Crosses (S : Seal) (At : Token → Prop) (k : Nat) (p p' : Parser α) : Prop where
  moves : Moves S.fork At k Anything p p'
  crosses : ∀ u a g, Ended (u ++ S.mark :: S.left) → (u ++ S.mark :: S.left).length ≤ k →
    At (first (u ++ S.mark :: S.left)) → Ends p (u ++ S.mark :: S.left) (.gives a S.left g) →
    Ends p' (u ++ S.mark :: S.right) (.gives a S.right g)

/-- A rule that crosses the mark and gives nothing without a token behind it. -/
structure Seals (S : Seal) (At : Token → Prop) (k : Nat) (p p' : Parser α) : Prop
    extends Crosses S At k p p' where
  leaves : S.left.length ≤ k → At (first S.left) → ∀ a g, ¬ Ends p S.left (.gives a S.left g)

/-- A rule that crosses the mark and gives the same on both ways where it reads nothing. -/
structure Passes (S : Seal) (k : Nat) (p p' : Parser α) : Prop extends Crosses S Anywhere k p p' where
  stays : S.left.length ≤ k → ∀ a g, Ends p S.left (.gives a S.left g) →
    Ends p' S.right (.gives a S.right g)

/-- Behind any rule one that seals. The first has not gone past the mark, or the second would give
its result for nothing. -/
theorem Seals.bind_of {p p' : Parser α} {f f' : α → Parser β} (hp : Moves S.fork At k E p p')
    (hj : k ≤ j ∨ k ≤ j + 1 ∧ ∀ a, ¬ E a) (hf : ∀ a, Seals S Anywhere j (f a) (f' a)) :
    Seals S At k (p >>= f) (p' >>= f') := by
  have hmoves : ∀ a, Moves S.fork Anywhere j Anything (f a) (f' a) := fun a => (hf a).moves
  refine { moves := ?_, crosses := ?_, leaves := ?_ }
  · obtain hj | ⟨hj, hnever⟩ := hj
    · exact hp.bind fun a => (hmoves a).within hj
    · have hreads : Moves S.fork At k Never p p' := hp.imp fun a ha => hnever a ha
      exact hreads.step fun a => (hmoves a).within (by omega)
  · intro u b g hended hlen hfirst h
    obtain ⟨a, mid, g₁, g₂, hfirst', hsecond, rfl, hsuffix, hsuffix', hmid, hshort, halike⟩ :=
      Ends.of_bind hp hmoves hj hended hlen hfirst h
    obtain rfl | ⟨v, rfl⟩ := S.eq_or_before hsuffix' hsuffix
    · exact absurd hsecond ((hf a).leaves hshort trivial b g₂)
    · have hcross := (hf a).crosses v b g₂ hmid hshort trivial hsecond
      exact (halike u v rfl rfl).bind hcross
  · intro hlen hfirst b g h
    obtain ⟨a, mid, g₁, g₂, -, hsecond, rfl, hsuffix, hsuffix', hmid, hshort, -⟩ :=
      Ends.of_bind hp hmoves hj S.ended hlen hfirst h
    obtain rfl : mid = S.left := hsuffix'.eq_of_length_le hsuffix.length_le
    exact (hf a).leaves hshort trivial b g₂ hsecond

theorem Seals.bind {p p' : Parser α} {f f' : α → Parser β} (hp : Moves S.fork At k E p p')
    (hf : ∀ a, Seals S Anywhere k (f a) (f' a)) : Seals S At k (p >>= f) (p' >>= f') :=
  Seals.bind_of hp (.inl (Nat.le_refl k)) hf

theorem Seals.step {p p' : Parser α} {f f' : α → Parser β} (hp : Moves S.fork At k Never p p')
    (hf : ∀ a, Seals S Anywhere (k - 1) (f a) (f' a)) : Seals S At k (p >>= f) (p' >>= f') :=
  Seals.bind_of hp (.inr ⟨by omega, fun _ ha => ha⟩) hf

/-- Behind a rule that crosses the mark one that may read nothing. -/
theorem Crosses.andThen {p p' : Parser α} {f f' : α → Parser β} (hp : Crosses S At k p p')
    (hf : ∀ a, Passes S k (f a) (f' a)) : Crosses S At k (p >>= f) (p' >>= f') := by
  have hmoves : ∀ a, Moves S.fork Anywhere k Anything (f a) (f' a) := fun a => (hf a).moves
  refine { moves := hp.moves.bind hmoves, crosses := ?_ }
  intro u b g hended hlen hfirst h
  obtain ⟨a, mid, g₁, g₂, hfirst', hsecond, rfl, hsuffix, hsuffix', hmid, hshort, halike⟩ :=
    Ends.of_bind hp.moves hmoves (.inl (Nat.le_refl k)) hended hlen hfirst h
  obtain rfl | ⟨v, rfl⟩ := S.eq_or_before hsuffix' hsuffix
  · have hcross := hp.crosses u a g₁ hended hlen hfirst hfirst'
    exact hcross.bind ((hf a).stays hshort b g₂ hsecond)
  · have hcross := (hf a).crosses v b g₂ hmid hshort trivial hsecond
    exact (halike u v rfl rfl).bind hcross

/-- Two rules that together read nothing behind the mark read nothing each. -/
theorem Ends.of_bind_left {p p' : Parser α} {f f' : α → Parser β} {b : β} {g : Faults}
    (hp : Moves S.fork At k Anything p p') (hf : ∀ a, Moves S.fork Anywhere k Anything (f a) (f' a))
    (hlen : S.left.length ≤ k) (hfirst : At (first S.left))
    (h : Ends (p >>= f) S.left (.gives b S.left g)) :
    ∃ a g₁ g₂, Ends p S.left (.gives a S.left g₁) ∧ Ends (f a) S.left (.gives b S.left g₂) ∧
      g = g₁ ++ g₂ := by
  obtain ⟨a, mid, g₁, g₂, hfirst', hsecond, hg, hsuffix, hsuffix', -, -, -⟩ :=
    Ends.of_bind hp hf (.inl (Nat.le_refl k)) S.ended hlen hfirst h
  obtain rfl : mid = S.left := hsuffix'.eq_of_length_le hsuffix.length_le
  exact ⟨a, g₁, g₂, hfirst', hsecond, hg⟩

theorem Seals.andThen {p p' : Parser α} {f f' : α → Parser β} (hp : Seals S At k p p')
    (hf : ∀ a, Passes S k (f a) (f' a)) : Seals S At k (p >>= f) (p' >>= f') where
  toCrosses := hp.toCrosses.andThen hf
  leaves hlen hfirst b g h := by
    obtain ⟨a, g₁, -, hfirst', -, -⟩ :=
      Ends.of_bind_left hp.moves (fun a => (hf a).moves) hlen hfirst h
    exact hp.leaves hlen hfirst a g₁ hfirst'

theorem Passes.andThen {p p' : Parser α} {f f' : α → Parser β} (hp : Passes S k p p')
    (hf : ∀ a, Passes S k (f a) (f' a)) : Passes S k (p >>= f) (p' >>= f') where
  toCrosses := hp.toCrosses.andThen hf
  stays hlen b g h := by
    obtain ⟨a, g₁, g₂, hfirst', hsecond, rfl⟩ :=
      Ends.of_bind_left hp.moves (fun a => (hf a).moves) hlen trivial h
    exact (hp.stays hlen a g₁ hfirst').bind ((hf a).stays hlen b g₂ hsecond)

theorem Seals.mono {p p' : Parser α} {At' : Token → Prop} (h : Seals S At k p p')
    (hAt : ∀ t, At' t → At t) : Seals S At' k p p' where
  moves := h.moves.mono hAt (Nat.le_refl k) fun _ ha => ha
  crosses u a g hended hlen hfirst := h.crosses u a g hended hlen (hAt _ hfirst)
  leaves hlen hfirst := h.leaves hlen (hAt _ hfirst)

theorem Seals.anywhere {p p' : Parser α} (h : Seals S Anywhere k p p') : Seals S At k p p' :=
  h.mono fun _ _ => trivial

/-! ### Steps -/

/-- What stands before the mark is not what stands behind it. -/
theorem Seal.ne_left (S : Seal) (u : List Token) : u ++ S.mark :: S.left ≠ S.left := by
  intro he
  have hlen := congrArg List.length he
  rw [List.length_append, List.length_cons] at hlen
  omega

theorem Ends.rest_unique {p : Parser α} {ts rest rest' : List Token} {a a' : α} {g g' : Faults}
    (h : Ends p ts (.gives a rest g)) (h' : Ends p ts (.gives a' rest' g')) : rest = rest' := by
  cases h.unique h'
  rfl

theorem ends_pure (a : α) (ts : List Token) : Ends (pure a) ts (.gives a ts #[]) := by
  intro g
  simp only [Ending.outcome, Array.append_empty]
  rfl

theorem passes_pure (a : α) : Passes S k (pure a) (pure a) where
  moves := moves_pure trivial
  crosses u _ _ _ _ _ h := absurd ((ends_pure a _).rest_unique h) (S.ne_left u)
  stays _ b g h := by
    cases h.unique (ends_pure a _)
    exact ends_pure a _

/-- A result made of what a rule gives. -/
theorem Passes.give {p p' : Parser α} {f : α → β} (hp : Passes S k p p') :
    Passes S k (p >>= fun a => pure (f a)) (p' >>= fun a => pure (f a)) :=
  hp.andThen fun a => passes_pure (f a)

theorem Seals.give {p p' : Parser α} {f : α → β} (hp : Seals S At k p p') :
    Seals S At k (p >>= fun a => pure (f a)) (p' >>= fun a => pure (f a)) :=
  hp.andThen fun a => passes_pure (f a)

/-- Without tokens there is nothing to cross. -/
theorem crosses_zero {p p' : Parser α} : Crosses S At 0 p p' := by
  refine ⟨moves_zero, fun u a g _ hlen => ?_⟩
  rw [List.length_append, List.length_cons] at hlen
  omega

/-- A look at the token at hand. -/
theorem seals_current {f f' : Token → Parser β} (h : ∀ t, At t → Seals S (· = t) k (f t) (f' t)) :
    Seals S At k (current >>= f) (current >>= f') where
  moves := moves_current fun t ht => (h t ht).moves
  crosses u b g hended hlen hfirst hends := by
    have hright := (h _ hfirst).crosses u b g hended hlen rfl hends
    have hsame : first (u ++ S.mark :: S.left) = first (u ++ S.mark :: S.right) :=
      S.fork.first_append u
    rw [hsame] at hright
    exact hright
  leaves hlen hfirst b g hends := (h _ hfirst).leaves hlen rfl b g hends

/-- A look at the kind of the token at hand. -/
theorem seals_kind {f f' : Token.Kind → Parser β}
    (h : ∀ κ, Seals S (fun t => At t ∧ t.kind = κ) k (f κ) (f' κ)) :
    Seals S At k (kind >>= f) (kind >>= f') := by
  have hcurrent : Seals S At k (current >>= fun t => f t.kind) (current >>= fun t => f' t.kind) := by
    refine seals_current fun t ht => (h t.kind).mono ?_
    rintro _ rfl
    exact ⟨ht, rfl⟩
  exact hcurrent

theorem seals_ite {c : Prop} [Decidable c] {p p' q q' : Parser α} (hp : c → Seals S At k p p')
    (hq : ¬ c → Seals S At k q q') : Seals S At k (if c then p else q) (if c then p' else q') := by
  by_cases hc : c
  · rw [if_pos hc, if_pos hc]
    exact hp hc
  · rw [if_neg hc, if_neg hc]
    exact hq hc

/-- A fault gives no result. -/
theorem seals_stops {p p' : Parser α} (hp : Moves S.fork At k Anything p p')
    (h : ∀ c, ∃ e, p c = .error e c) : Seals S At k p p' := by
  have hnone : ∀ ts a rest g, ¬ Ends p ts (.gives a rest g) := by
    intro ts a rest g hends
    obtain ⟨e, he⟩ := h ⟨ts, #[]⟩
    have hrun := hends #[]
    rw [he] at hrun
    cases hrun
  exact
    { moves := hp
      crosses := fun u a g _ _ _ hends => absurd hends (hnone _ a _ g)
      leaves := fun _ _ a g => hnone _ a _ g }

/-- Reading the token at hand, and then what seals. -/
theorem seals_expect {κ : Token.Kind} {f f' : Token → Parser β} (hκ : κ ≠ .endOfFile)
    (h : ∀ t, Seals S Anywhere (k - 1) (f t) (f' t)) :
    Seals S At k (expect κ >>= f) (expect κ >>= f') := by
  have hexpect : Moves S.fork At k Never (expect κ >>= pure) (expect κ >>= pure) :=
    moves_expect hκ fun t => moves_pure trivial
  have hbind : Seals S At k ((expect κ >>= pure) >>= f) ((expect κ >>= pure) >>= f') :=
    Seals.step hexpect h
  rwa [bind_pure] at hbind

theorem seals_advance {f f' : Token → Parser β} (hAt : ∀ t, At t → t.kind ≠ .endOfFile)
    (h : ∀ t, Seals S Anywhere (k - 1) (f t) (f' t)) :
    Seals S At k (advance >>= f) (advance >>= f') := by
  have hadvance : Moves S.fork At k Never (advance >>= pure) (advance >>= pure) :=
    moves_advance hAt fun t _ => moves_pure trivial
  have hbind : Seals S At k ((advance >>= pure) >>= f) ((advance >>= pure) >>= f') :=
    Seals.step hadvance h
  rwa [bind_pure] at hbind

theorem seals_take {t : Token} {f f' : Token → Parser β} (ht : t.kind ≠ .endOfFile)
    (h : ∀ t, Seals S Anywhere (k - 1) (f t) (f' t)) :
    Seals S (· = t) k (advance >>= f) (advance >>= f') :=
  seals_advance (fun _ ha => ha ▸ ht) h

/-- Reading a token of which the kind has been looked at. -/
theorem seals_takeKind {κ : Token.Kind} {f f' : Token → Parser β} (hκ : κ ≠ .endOfFile)
    (h : ∀ t, Seals S Anywhere (k - 1) (f t) (f' t)) :
    Seals S (fun t => At t ∧ t.kind = κ) k (advance >>= f) (advance >>= f') :=
  seals_advance (fun _ ha => ha.2 ▸ hκ) h

/-! ### The last step -/

/-- A separator ends a statement. -/
theorem ends_statementEnd {t : Token} (ht : t.kind = .semicolon) (ts : List Token) :
    Ends statementEnd (t :: ts) (.gives () ts #[]) := by
  intro g
  have hkind : kind ⟨t :: ts, g⟩ = .ok .semicolon ⟨t :: ts, g⟩ := ht ▸ rfl
  unfold statementEnd
  rw [bind_of_ok hkind]
  simp only [Ending.outcome, Array.append_empty]
  rfl

/-- What ends a statement: its separator, which is read, or a token that ends the list. -/
theorem statementEnd_cases (ts : List Token) :
    (∃ t rest, ts = t :: rest ∧ t.kind = .semicolon) ∨
      (first ts).kind ∈ closers ∧ Ends statementEnd ts (.gives () ts #[]) ∨
      ∃ f, Ends statementEnd ts (.stops f (first ts).pos ts #[]) := by
  obtain ⟨κ, hκ⟩ : ∃ κ, (first ts).kind = κ := ⟨_, rfl⟩
  by_cases hsemi : κ = .semicolon
  · cases ts with
    | nil => cases hκ.trans hsemi
    | cons t rest => exact .inl ⟨t, rest, rfl, hκ.trans hsemi⟩
  have hkind : ∀ g, kind ⟨ts, g⟩ = .ok κ ⟨ts, g⟩ := fun g => hκ ▸ rfl
  by_cases hclosed : κ ∈ closers
  · refine .inr (.inl ⟨hκ ▸ hclosed, fun g => ?_⟩)
    unfold statementEnd
    rw [bind_of_ok (hkind g)]
    simp only [Ending.outcome, Array.append_empty]
    simp only [closers, List.mem_cons, List.not_mem_nil, or_false] at hclosed
    obtain rfl | rfl | rfl | rfl := hclosed <;> rfl
  refine .inr (.inr ⟨.statementEnd (first ts).describe, fun g => ?_⟩)
  unfold statementEnd
  rw [bind_of_ok (hkind g)]
  simp only [Ending.outcome, Array.append_empty]
  split
  · exact absurd rfl hsemi
  · exact absurd (by decide) hclosed
  · exact absurd (by decide) hclosed
  · exact absurd (by decide) hclosed
  · exact absurd (by decide) hclosed
  · rfl

/-- A token that is read, with which the rule stands behind the mark, is the mark. -/
theorem Seal.eq_mark (S : Seal) {u : List Token} {t : Token} (h : u ++ S.mark :: S.left = t :: S.left) :
    u = [] ∧ S.mark = t := by
  cases u with
  | nil => exact ⟨rfl, (List.cons.inj h).1⟩
  | cons x u => exact absurd (List.cons.inj h).2 (S.ne_left u)

theorem ends_expect {t : Token} {κ : Token.Kind} (ht : t.kind = κ) (ts : List Token) :
    Ends (expect κ) (t :: ts) (.gives t ts #[]) := by
  intro g
  have hkind : kind ⟨t :: ts, g⟩ = .ok κ ⟨t :: ts, g⟩ := ht ▸ rfl
  unfold expect
  rw [bind_of_ok hkind, if_pos rfl]
  simp only [Ending.outcome, Array.append_empty]
  rfl

theorem expect_cases {κ : Token.Kind} (hκ : κ ≠ .endOfFile) (ts : List Token) :
    (∃ t rest, ts = t :: rest ∧ t.kind = κ) ∨
      ∃ f, Ends (expect κ) ts (.stops f (first ts).pos ts #[]) := by
  by_cases hk : (first ts).kind = κ
  · cases ts with
    | nil => exact absurd hk.symm hκ
    | cons t rest => exact .inl ⟨t, rest, rfl, hk⟩
  · refine .inr ⟨.expected κ.label (first ts).describe, fun g => ?_⟩
    have hkind : kind ⟨ts, g⟩ = .ok (first ts).kind ⟨ts, g⟩ := rfl
    unfold expect
    rw [bind_of_ok hkind, if_neg hk]
    simp only [Ending.outcome, Array.append_empty]
    rfl

/-- A rule that reads one token of a kind, or stops, or does nothing before the end of a list: with
the mark it reads nothing else. -/
theorem seals_of_token {p : Parser α} {κ : Token.Kind} {a : Token → α}
    (hmoves : Moves S.fork At k Anything p p)
    (hread : ∀ t, t.kind = κ → ∀ ts, Ends p (t :: ts) (.gives (a t) ts #[]))
    (hcases : ∀ ts, (∃ t rest, ts = t :: rest ∧ t.kind = κ) ∨
      ((first ts).kind ∈ closers ∧ ∃ b, Ends p ts (.gives b ts #[])) ∨
      ∃ f pos, Ends p ts (.stops f pos ts #[])) : Seals S At k p p where
  moves := hmoves
  crosses u b g _ _ _ hends := by
    obtain ⟨t, rest, hts, ht⟩ | ⟨-, b', hsame⟩ | ⟨f, pos, hstop⟩ := hcases (u ++ S.mark :: S.left)
    · rw [hts] at hends
      have hmark := hread t ht rest
      obtain rfl := hmark.rest_unique hends
      obtain ⟨rfl, rfl⟩ := S.eq_mark hts
      cases hends.unique hmark
      exact hread _ ht S.right
    · exact absurd (hsame.rest_unique hends) (S.ne_left u)
    · exact absurd (hstop.unique hends) nofun
  leaves _ _ b g hends := by
    obtain ⟨t, rest, hts, ht⟩ | ⟨hclosed, -⟩ | ⟨f, pos, hstop⟩ := hcases S.left
    · have hmark := hread t ht rest
      rw [← hts] at hmark
      have hrest : rest = S.left := hmark.rest_unique hends
      exact absurd (hrest.trans hts) List.ne_cons_self
    · exact absurd hclosed S.goesOn.notClosed
    · exact absurd (hstop.unique hends) nofun

/-- The end of a statement is its separator, if the list goes on. -/
theorem seals_statementEnd : Seals S At k statementEnd statementEnd := by
  refine seals_of_token moves_statementEnd (fun t ht => ends_statementEnd ht) fun ts => ?_
  obtain hsemi | ⟨hclosed, hsame⟩ | ⟨f, hstop⟩ := statementEnd_cases ts
  · exact .inl hsemi
  · exact .inr (.inl ⟨hclosed, (), hsame⟩)
  · exact .inr (.inr ⟨f, _, hstop⟩)

/-- The brace that closes a block. -/
theorem seals_close : Seals S At k (expect .closeBrace) (expect .closeBrace) := by
  have hmoves : Moves S.fork At k Anything (expect .closeBrace >>= pure) (expect .closeBrace >>= pure) :=
    moves_expect nofun fun t => moves_pure trivial
  rw [bind_pure] at hmoves
  have hκ : Token.Kind.closeBrace ≠ .endOfFile := nofun
  refine seals_of_token hmoves (fun t ht => ends_expect ht) fun ts => ?_
  obtain hclose | ⟨f, hstop⟩ := expect_cases hκ ts
  · exact .inl hclose
  · exact .inr (.inr ⟨f, _, hstop⟩)

/-! ### Statements -/

variable {m m' : Nat} {rules rules' : ExprRules} {inner inner' : Parser Stmt}

theorem seals_done {s : Stmt} : Seals S At k (do statementEnd; pure s) (do statementEnd; pure s) :=
  seals_statementEnd.give

theorem seals_varDecl (h : RulesMove S.fork k rules rules') (hn : k ≤ n) (hn' : k ≤ n') :
    Seals S At k (varDecl rules n) (varDecl rules' n') := by
  unfold varDecl
  refine seals_expect nofun fun start => ?_
  refine Seals.bind (commaList1_moves binder_moves (by omega) (by omega)) fun names => ?_
  refine Seals.bind (type?_moves (h.within (Nat.sub_le k 1))) fun ty => ?_
  refine seals_kind fun κ => seals_ite (fun hequal => ?_) fun _ => ?_
  · subst hequal
    refine seals_takeKind nofun fun _ => ?_
    refine Seals.bind (commaList1_moves (h.expr.within ?_) ?_ ?_) fun values => ?_
    · omega
    · omega
    · omega
    · exact seals_ite (fun _ => seals_stops moves_fail_bind fun _ => ⟨_, rfl⟩) fun _ => seals_done
  · exact seals_ite (fun _ => seals_stops moves_fail_bind fun _ => ⟨_, rfl⟩) fun _ => seals_done

theorem seals_constDecl (h : RulesMove S.fork k rules rules') :
    Seals S At k (constDecl rules) (constDecl rules') := by
  unfold constDecl
  refine seals_expect nofun fun _ => Seals.bind binder_moves fun b => ?_
  refine Seals.bind (type?_moves (h.within (Nat.sub_le k 1))) fun ty => seals_expect nofun fun _ => ?_
  exact Seals.bind (h.expr.within (by omega)) fun value => seals_done

theorem seals_returnStmt (h : RulesMove S.fork k rules rules') (hn : k ≤ n) (hn' : k ≤ n') :
    Seals S At k (returnStmt rules n) (returnStmt rules' n') := by
  unfold returnStmt
  refine seals_expect nofun fun start => seals_kind fun κ => ?_
  split
  case h_6 =>
    refine Seals.bind (commaList1_moves (h.expr.within ?_) ?_ ?_).anywhere fun _ => seals_done
    all_goals omega
  all_goals exact seals_done

theorem seals_plainStatement (h : RulesMove S.fork k rules rules') (hn : k ≤ n) (hn' : k ≤ n') :
    Seals S At k (plainStatement rules n) (plainStatement rules' n') := by
  unfold plainStatement
  refine Seals.bind (simpleStatement_moves h hn hn').anywhere fun s => ?_
  split
  · exact seals_done
  · exact seals_stops moves_failAt_bind fun _ => ⟨_, rfl⟩
  · exact seals_done

theorem seals_block (hs : Moves S.fork Anywhere (k - 1) Never inner inner') (hn : k - 1 ≤ n)
    (hn' : k - 1 ≤ n') : Seals S At k (block inner n) (block inner' n') := by
  unfold block
  refine seals_expect nofun fun _ => ?_
  exact Seals.bind (statementList_moves hs hn hn') fun body => seals_close.give

theorem seals_branch (h : RulesMove S.fork k rules rules')
    (hs : Moves S.fork Anywhere (k - 1) Never inner inner') (hn : k - 1 ≤ n) (hn' : k - 1 ≤ n') :
    Seals S At k (branch rules inner n) (branch rules' inner' n') := by
  unfold branch
  refine Seals.step h.expr.anywhere fun condition => ?_
  refine (seals_block (hs.within ?_) ?_ ?_).give
  all_goals omega

theorem seals_loop (h : RulesMove S.fork k rules rules')
    (hs : Moves S.fork Anywhere (k - 1) Never inner inner') (hn : k ≤ n) (hn' : k ≤ n') :
    Seals S At k (loop rules inner n) (loop rules' inner' n') := by
  unfold loop
  refine seals_expect nofun fun start => ?_
  refine Seals.bind (header_moves (h.within (Nat.sub_le k 1)) (by omega) (by omega)) fun header => ?_
  refine (seals_block (hs.within ?_) ?_ ?_).give
  all_goals omega

theorem seals_switch (h : RulesMove S.fork k rules rules')
    (hs : Moves S.fork Anywhere (k - 1) Never inner inner') (hn : k ≤ n) (hn' : k ≤ n') :
    Seals S At k (switch rules inner n) (switch rules' inner' n') := by
  unfold switch
  refine seals_expect nofun fun start => ?_
  refine Seals.bind (h.expr.within (Nat.sub_le k 1)) fun subject => seals_expect nofun fun _ => ?_
  have hclauses : Moves S.fork Anywhere (k - 1 - 1) (· = ([], none))
      (switchClauses rules inner n n none) (switchClauses rules' inner' n' n' none) := by
    apply switchClauses_moves (h.within (by omega)) (hs.within (by omega))
    all_goals omega
  exact Seals.bind hclauses fun _ => seals_close.give

/-- Where no `else` lies ahead, the look for it drops nothing. -/
theorem elseRest_eq_self {ts : List Token} (h : (first (elseRest ts)).kind ≠ .kwElse) :
    elseRest ts = ts :=
  if_neg (elseRest_ne_else.mp h).2

/-- A look for `else`. Behind the mark none is found, on either way. -/
theorem passes_elseAhead {b : β} {p p' : Parser β} (hno : S.NoElse)
    (h : Seals S (·.kind = .kwElse) k p p') :
    Passes S k (elseAhead >>= fun found => if found then p else pure b)
      (elseAhead >>= fun found => if found then p' else pure b) := by
  have hrun : ∀ (q : Parser β) (ts : List Token) (e : Ending β),
      Ends (elseAhead >>= fun found => if found then q else pure b) ts e ↔
        Ends (if (first (elseRest ts)).kind = .kwElse then q else pure b) (elseRest ts) e := by
    intro q ts e
    refine forall_congr' fun g => ?_
    rw [bind_of_ok (elseAhead_run ts g)]
    simp only [decide_eq_true_eq]
  refine { moves := moves_elseAhead hno.sameElse h.moves (moves_pure trivial), crosses := ?_, stays := ?_ }
  · intro u a g hended hlen _ hends
    rw [hrun] at hends ⊢
    by_cases helse : (first (elseRest (u ++ S.mark :: S.left))).kind = .kwElse
    · rw [if_pos helse] at hends
      have hrest : Ended (elseRest (u ++ S.mark :: S.left)) := ended_elseRest hended
      have hsuffix := elseRest_suffix (u ++ S.mark :: S.left)
      have hshort := Nat.le_trans hsuffix.length_le hlen
      obtain ⟨e, hends', hleft, -⟩ := h.moves _ hrest hshort helse
      obtain rfl := hends'.unique hends
      obtain hbehind | ⟨v, hv⟩ := S.eq_or_before hsuffix hleft
      · rw [hbehind] at helse
        exact absurd helse (first_ne_else S.goesOn.noElse)
      · have hright : elseRest (u ++ S.mark :: S.right) = v ++ S.mark :: S.right :=
          hno.sameElse.elseRest_append hv
        have hsame : first (v ++ S.mark :: S.left) = first (v ++ S.mark :: S.right) :=
          S.fork.first_append v
        change elseRest (u ++ S.mark :: S.left) = v ++ S.mark :: S.left at hv
        rw [hv] at hrest hshort helse hends
        rw [hright, if_pos (hsame ▸ helse)]
        exact h.crosses v a g hrest hshort helse hends
    · rw [if_neg helse, elseRest_eq_self helse] at hends
      exact absurd ((ends_pure b _).rest_unique hends) (S.ne_left u)
  · intro _ a g hends
    rw [hrun] at hends ⊢
    rw [if_neg S.goesOn.noElse, elseRest_eq_self S.goesOn.noElse] at hends
    rw [if_neg hno, elseRest_eq_self hno]
    cases hends.unique (ends_pure b _)
    exact ends_pure b _

theorem passes_elseParts (hno : S.NoElse) (h : RulesMove S.fork k rules rules')
    (hs : Moves S.fork Anywhere (k - 1) Never inner inner') (hn : k - 1 ≤ n) (hn' : k - 1 ≤ n')
    (hm : k ≤ m) (hm' : k ≤ m') :
    Passes S k (elseParts rules inner n m) (elseParts rules' inner' n' m') := by
  refine bounds_induction (motive := fun j m m' => j ≤ k →
    Passes S j (elseParts rules inner n m) (elseParts rules' inner' n' m')) ?_ ?_ hm hm' (Nat.le_refl k)
  · intro m m' _
    exact ⟨crosses_zero, fun hlen => absurd hlen (Nat.not_le.mpr S.length_pos)⟩
  · intro j m m' _ _ ih hj
    have hblock : Seals S Anywhere j (block inner n) (block inner' n') :=
      seals_block (hs.within (by omega)) (by omega) (by omega)
    have hbranch : Seals S Anywhere (j - 1) (branch rules inner n) (branch rules' inner' n') :=
      seals_branch (h.within (by omega)) (hs.within (by omega)) (by omega) (by omega)
    unfold elseParts
    refine passes_elseAhead hno (seals_advance (fun t ht => by rw [ht]; decide) fun _ => ?_)
    refine seals_kind fun κ => ?_
    refine seals_ite (fun hif => ?_) fun _ => hblock.anywhere.give
    subst hif
    refine seals_takeKind (by decide) fun _ => hbranch.andThen fun b => ?_
    exact (ih (j - 1) (by omega) (by omega)).give

theorem seals_ifElse (hno : S.NoElse) (h : RulesMove S.fork k rules rules')
    (hs : Moves S.fork Anywhere (k - 1) Never inner inner') (hn : k ≤ n) (hn' : k ≤ n') :
    Seals S At k (ifElse rules inner n) (ifElse rules' inner' n') := by
  have hinner : Moves S.fork Anywhere (k - 1 - 1) Never inner inner' := hs.within (Nat.sub_le _ 1)
  have hrules : RulesMove S.fork (k - 1) rules rules' := h.within (Nat.sub_le k 1)
  unfold ifElse
  refine seals_expect nofun fun start => ?_
  refine (seals_branch hrules hinner (by omega) (by omega)).andThen fun b => ?_
  refine (passes_elseParts hno hrules hinner ?_ ?_ ?_ ?_).give
  all_goals omega

/-- A statement that ends with a block may look for `else` on the way, and an `if` does so behind
it. -/
theorem seals_statementWith (h : RulesMove S.fork k rules rules')
    (hs : S.fork.SameElse → Moves S.fork Anywhere (k - 1) Never inner inner') (hn : k ≤ n) (hn' : k ≤ n')
    (hblock : ∀ t, At t → t.kind ∈ blockStarters → S.fork.SameElse)
    (hif : ∀ t, At t → t.kind = .kwIf → S.NoElse) :
    Seals S At k (statementWith rules n inner) (statementWith rules' n' inner') := by
  unfold statementWith
  refine seals_current fun t ht => ?_
  have hinner : t.kind ∈ blockStarters → Moves S.fork Anywhere (k - 1) Never inner inner' :=
    fun hstarts => hs (hblock t ht hstarts)
  split
  case h_1 => exact seals_varDecl h hn hn'
  case h_2 => exact seals_constDecl h
  case h_3 hk => exact seals_ifElse (hif t ht hk) h (hinner (by rw [hk]; decide)) hn hn'
  case h_4 hk => exact seals_loop h (hinner (by rw [hk]; decide)) hn hn'
  case h_5 hk => exact seals_switch h (hinner (by rw [hk]; decide)) hn hn'
  case h_6 hk => exact (seals_block (hinner (by rw [hk]; decide)) (by omega) (by omega)).give
  case h_7 hk =>
    refine seals_stops (moves_nestedFunction.mono ?_ (Nat.le_refl k) fun _ ha => ha) fun _ => ⟨_, rfl⟩
    rintro _ rfl
    exact hk
  case h_8 hk | h_9 hk => exact seals_take (hk ▸ nofun) fun _ => seals_done
  case h_10 => exact seals_returnStmt h hn hn'
  case h_11 => exact seals_plainStatement h hn hn'

/-- **A statement that has read its last token is the same whatever follows,** but for an `else`
behind an `if`. -/
theorem seals_statement (hn : k ≤ n) (hn' : k ≤ n')
    (hblock : ∀ t, At t → t.kind ∈ blockStarters → S.fork.SameElse)
    (hif : ∀ t, At t → t.kind = .kwIf → S.NoElse) :
    Seals S At k (statement n) (statement n') := by
  match k, n, n', hn, hn' with
  | 0, _, _, _, _ => exact ⟨crosses_zero, fun hlen => absurd hlen (Nat.not_le.mpr S.length_pos)⟩
  | k + 1, n + 1, n' + 1, hn, hn' =>
    have hinner : S.fork.SameElse → Moves S.fork Anywhere k Never (statement n) (statement n') :=
      fun helse => statement_moves helse (Nat.le_of_succ_le_succ hn) (Nat.le_of_succ_le_succ hn')
    exact seals_statementWith (rulesMove_exprRules hn hn') hinner hn hn' hblock hif

end Parser
end Treewalk
