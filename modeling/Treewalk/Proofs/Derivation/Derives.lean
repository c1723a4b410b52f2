/-
# What a rule has read

A rule that gives a result and records no fault has read tokens that are a
phrase of its result. `Derives` says so of one rule: the tokens before the
rule are those it has read, for which `D` holds, and those it leaves, which
`D` may look at too. Whatever happens, a rule leaves a part of the tokens it
had and takes no recorded fault back; so a run that ends without faults had
none in between, and what its parts have read can be put together (`bind`).

The tokens are as the scanner makes them: the mark of an assignment is that
of the operator it is read as (`Token.Spelled`).

Key definitions: `Token.Spelled`, `Parser.Derives`.
Key theorems: `Parser.Derives.bind`, `Parser.derives_advance`,
`Parser.derives_skipSemicolons`, `Parser.derives_recovering`.
-/
import Treewalk.Proofs.Derivation.Phrase
import Treewalk.Proofs.Forward.Skipping

namespace Treewalk

/-- The mark of an assignment is the word of what it is read as. -/
def Token.Spelled (t : Token) : Prop :=
  t.kind = .equal ∨ t.kind = .compoundAssign → t.word = (Parser.assignOp t.text).word

namespace Parser

open Phrase

variable {α β : Type} {At : Token → Prop} {D : List Token → List Token → α → Prop}
  {G : List Token → List Token → β → Prop}

/-- From the tokens `ts` and faults before, the outcome leaves a part of the tokens and keeps the
faults; if no fault has come, what has been read and what is left satisfy `D`. -/
def Reaches (ts : List Token) (g : Faults) (D : List Token → List Token → α → Prop) :
    EStateM.Result Halt Cursor α → Prop
  | .ok a c => c.tokens <:+ ts ∧ g.size ≤ c.faults.size ∧
      (c.faults.size = g.size → ∃ us, ts = us ++ c.tokens ∧ D us c.tokens a)
  | .error _ c => c.tokens <:+ ts ∧ g.size ≤ c.faults.size

/-- Tokens that have been read before come first. -/
theorem Reaches.behind (us : List Token) {ts : List Token} {g : Faults}
    {r : EStateM.Result Halt Cursor β}
    (h : Reaches ts g (fun vs rest b => G (us ++ vs) rest b) r) : Reaches (us ++ ts) g G r := by
  have hsuffix : ts <:+ us ++ ts := List.suffix_append us ts
  cases r with
  | error e c => exact ⟨h.1.trans hsuffix, h.2⟩
  | ok b c =>
    refine ⟨h.1.trans hsuffix, h.2.1, fun hclean => ?_⟩
    obtain ⟨vs, hvs, hg⟩ := h.2.2 hclean
    exact ⟨us ++ vs, by rw [hvs, List.append_assoc], hg⟩

/-- Where the token at hand satisfies `At`, a result without a fault comes with `D` of the tokens
read and left. -/
def Derives (At : Token → Prop) (p : Parser α) (D : List Token → List Token → α → Prop) : Prop :=
  ∀ ts g, (∀ t ∈ ts, t.Spelled) → At (first ts) → Reaches ts g D (p ⟨ts, g⟩)

/-- What has been read and what is left make up the tokens. -/
theorem Reaches.of_split {ts : List Token} {g : Faults} {D' : List Token → List Token → α → Prop}
    {r : EStateM.Result Halt Cursor α} (h : Reaches ts g D r)
    (hD : ∀ us rest a, ts = us ++ rest → D us rest a → D' us rest a) : Reaches ts g D' r := by
  cases r with
  | error e c => exact h
  | ok a c =>
    refine ⟨h.1, h.2.1, fun hclean => ?_⟩
    obtain ⟨us, hus, hd⟩ := h.2.2 hclean
    exact ⟨us, hus, hD us _ a hus hd⟩

theorem Reaches.imp {ts : List Token} {g : Faults} {D' : List Token → List Token → α → Prop}
    {r : EStateM.Result Halt Cursor α} (h : Reaches ts g D r)
    (hD : ∀ us rest a, D us rest a → D' us rest a) : Reaches ts g D' r :=
  h.of_split fun us rest a _ => hD us rest a

theorem Derives.mono {p : Parser α} {At' : Token → Prop} {D' : List Token → List Token → α → Prop}
    (h : Derives At p D) (hAt : ∀ t, At' t → At t) (hD : ∀ us rest a, D us rest a → D' us rest a) :
    Derives At' p D' :=
  fun ts g hspelled hfirst => (h ts g hspelled (hAt _ hfirst)).imp hD

theorem Derives.imp {p : Parser α} {D' : List Token → List Token → α → Prop} (h : Derives At p D)
    (hD : ∀ us rest a, D us rest a → D' us rest a) : Derives At p D' :=
  h.mono (fun _ ht => ht) hD

theorem Derives.anywhere {p : Parser α} (h : Derives Anywhere p D) : Derives At p D :=
  h.mono (fun _ _ => trivial) fun _ _ _ hd => hd

/-- Where the rule began is where what it has read begins. -/
theorem Derives.start {p : Parser α} (h : Derives At p D) :
    Derives At p fun us rest a => At (first (us ++ rest)) ∧ D us rest a :=
  fun ts g hspelled hfirst =>
    (h ts g hspelled hfirst).of_split fun _ _ _ he hd => ⟨he ▸ hfirst, hd⟩

/-- A rule that gives nothing at certain tokens has not begun at one. -/
theorem Derives.except {p : Parser α} {Bad : Token → Prop} (h : Derives At p D)
    (hbad : Derives Bad p fun _ _ _ => False) :
    Derives At p fun us rest a => D us rest a ∧ ¬ Bad (first (us ++ rest)) := by
  intro ts g hspelled hfirst
  by_cases hts : Bad (first ts)
  · exact (hbad ts g hspelled hts).imp fun _ _ _ hfalse => hfalse.elim
  · exact (h ts g hspelled hfirst).of_split fun _ _ _ he hd => ⟨hd, he ▸ hts⟩

/-- One rule behind another. What the first has read comes before what the second has read. -/
theorem Derives.bind {p : Parser α} {f : α → Parser β} (hp : Derives At p D)
    (hf : ∀ a, Derives Anywhere (f a) fun vs rest b => ∀ us, D us (vs ++ rest) a → G (us ++ vs) rest b) :
    Derives At (p >>= f) G := by
  intro ts g hspelled hfirst
  have hhead := hp ts g hspelled hfirst
  cases hrun : p ⟨ts, g⟩ with
  | error e c =>
    rw [bind_of_error hrun]
    rwa [hrun] at hhead
  | ok a c =>
    rw [bind_of_ok hrun]
    rw [hrun] at hhead
    obtain ⟨hsuffix, hgrows, hread⟩ := hhead
    have htail := hf a c.tokens c.faults (fun t ht => hspelled t (hsuffix.subset ht)) trivial
    cases hrest : f a c with
    | error e c' =>
      rw [hrest] at htail
      exact ⟨htail.1.trans hsuffix, Nat.le_trans hgrows htail.2⟩
    | ok b c' =>
      rw [hrest] at htail
      obtain ⟨hsuffix', hgrows', hread'⟩ := htail
      refine ⟨hsuffix'.trans hsuffix, Nat.le_trans hgrows hgrows', fun hclean => ?_⟩
      obtain ⟨us, hus, hd⟩ := hread (by omega)
      obtain ⟨vs, hvs, hg⟩ := hread' (by omega)
      exact ⟨us ++ vs, by rw [hus, hvs, List.append_assoc], hg us (hvs ▸ hd)⟩

/-! ### Steps -/

theorem derives_pure {a : α} (h : ∀ rest, At (first rest) → D [] rest a) :
    Derives At (pure a) D :=
  fun ts _ _ hfirst => ⟨List.suffix_rfl, Nat.le_refl _, fun _ => ⟨[], rfl, h ts hfirst⟩⟩

/-- A rule that stops where it stands. -/
theorem derives_stops {p : Parser α} (h : ∀ c, ∃ e, p c = .error e c) : Derives At p D := by
  intro ts g _ _
  obtain ⟨e, he⟩ := h ⟨ts, g⟩
  rw [he]
  exact ⟨List.suffix_rfl, Nat.le_refl _⟩

/-- A result made of what a rule gives. -/
theorem Derives.give {p : Parser α} {f : α → β} (hp : Derives At p D)
    (hG : ∀ us rest a, D us rest a → G us rest (f a)) : Derives At (p >>= fun a => pure (f a)) G := by
  refine hp.bind fun a => derives_pure fun rest _ us hd => ?_
  rw [List.append_nil]
  exact hG us rest a hd

/-- A look at the token at hand. -/
theorem derives_current {f : Token → Parser β} (h : ∀ t, At t → Derives (· = t) (f t) G) :
    Derives At (current >>= f) G :=
  fun ts g hspelled hfirst => h (first ts) hfirst ts g hspelled rfl

/-- A look at the kind of the token at hand. -/
theorem derives_kind {f : Token.Kind → Parser β}
    (h : ∀ κ, Derives (fun t => At t ∧ t.kind = κ) (f κ) G) : Derives At (kind >>= f) G :=
  fun ts g hspelled hfirst => h (first ts).kind ts g hspelled ⟨hfirst, rfl⟩

theorem derives_ite {c : Prop} [Decidable c] {p q : Parser α} (hp : c → Derives At p D)
    (hq : ¬ c → Derives At q D) : Derives At (if c then p else q) D := by
  by_cases hc : c
  · rw [if_pos hc]
    exact hp hc
  · rw [if_neg hc]
    exact hq hc

/-- A choice by whether names and `:=` lie ahead. -/
theorem derives_ifShort {p q : Parser β}
    (hp : Derives (fun t => At t ∧ t.kind = .identifier) p
      fun us rest b => startsShort (us ++ rest) = true → G us rest b)
    (hq : Derives At q fun us rest b => startsShort (us ++ rest) = false → G us rest b) :
    Derives At (get >>= fun c => if startsShort c.tokens then p else q) G := by
  intro ts g hspelled hfirst
  have hget : (get : Parser Cursor) ⟨ts, g⟩ = .ok ⟨ts, g⟩ ⟨ts, g⟩ := rfl
  rw [bind_of_ok hget]
  by_cases hs : startsShort ts = true
  · rw [if_pos hs]
    exact (hp ts g hspelled ⟨hfirst, first_of_startsShort hs⟩).of_split fun us rest b he hg =>
      hg (he ▸ hs)
  · rw [if_neg hs]
    exact (hq ts g hspelled hfirst).of_split fun us rest b he hg => hg (he ▸ Bool.eq_false_iff.mpr hs)

/-- Reading the token at hand, which is not the end of file. -/
theorem derives_advance {f : Token → Parser β} (hAt : ∀ t, At t → t.kind ≠ .endOfFile)
    (h : ∀ t, At t → t.Spelled → Derives Anywhere (f t) fun vs rest b => G (t :: vs) rest b) :
    Derives At (advance >>= f) G := by
  intro ts g hspelled hfirst
  cases ts with
  | nil => exact absurd rfl (hAt _ hfirst)
  | cons t ts =>
    have hread : advance ⟨t :: ts, g⟩ = .ok t ⟨ts, g⟩ := rfl
    rw [bind_of_ok hread]
    have htail := h t hfirst (hspelled t List.mem_cons_self) ts g
      (fun t' ht' => hspelled t' (List.mem_cons_of_mem _ ht')) trivial
    exact Reaches.behind [t] htail

/-- Reading a token that has been looked at. -/
theorem derives_take {t : Token} {f : Token → Parser β} (ht : t.kind ≠ .endOfFile)
    (h : t.Spelled → Derives Anywhere (f t) fun vs rest b => G (t :: vs) rest b) :
    Derives (· = t) (advance >>= f) G := by
  refine derives_advance ?_ ?_
  · rintro _ rfl
    exact ht
  · rintro _ rfl
    exact h

/-- Reading a token of which the kind has been looked at. -/
theorem derives_takeKind {κ : Token.Kind} {f : Token → Parser β} (hκ : κ ≠ .endOfFile)
    (h : ∀ t, t.kind = κ → t.Spelled → Derives Anywhere (f t) fun vs rest b => G (t :: vs) rest b) :
    Derives (fun t => At t ∧ t.kind = κ) (advance >>= f) G :=
  derives_advance (fun _ ht => ht.2 ▸ hκ) fun t ht => h t ht.2

/-- Reading a token of a given kind. -/
theorem derives_expect {κ : Token.Kind} {f : Token → Parser β} (hκ : κ ≠ .endOfFile)
    (h : ∀ t, t.kind = κ → Derives Anywhere (f t) fun vs rest b => G (t :: vs) rest b) :
    Derives At (expect κ >>= f) G := by
  intro ts g hspelled _
  have hkind : kind ⟨ts, g⟩ = .ok (first ts).kind ⟨ts, g⟩ := rfl
  by_cases hk : (first ts).kind = κ
  · have hread : (expect κ >>= f) ⟨ts, g⟩ = (advance >>= f) ⟨ts, g⟩ := by
      change EStateM.bind (expect κ) f ⟨ts, g⟩ = EStateM.bind advance f ⟨ts, g⟩
      unfold EStateM.bind expect
      rw [bind_of_ok hkind, if_pos hk]
    rw [hread]
    have hadvance : Derives (·.kind = κ) (advance >>= f) G :=
      derives_advance (fun _ ht => ht ▸ hκ) fun t ht _ => h t ht
    exact hadvance ts g hspelled hk
  · have hstop : ∃ e, expect κ ⟨ts, g⟩ = .error e ⟨ts, g⟩ := by
      unfold expect
      rw [bind_of_ok hkind, if_neg hk]
      exact ⟨_, rfl⟩
    obtain ⟨e, he⟩ := hstop
    rw [bind_of_error he]
    exact ⟨List.suffix_rfl, Nat.le_refl _⟩

/-! ### Statement ends and what is skipped -/

/-- Separators are read as far as they go. -/
theorem derives_skipSemicolons {f : Unit → Parser β}
    (h : Derives (fun t => t.kind ≠ .semicolon) (f ())
      fun vs rest b => ∀ ss, Separators ss → G (ss ++ vs) rest b) :
    Derives At (skipSemicolons >>= f) G := by
  intro ts g hspelled _
  have hskip : skipSemicolons ⟨ts, g⟩ = .ok () ⟨ts.dropWhile (·.kind == .semicolon), g⟩ := rfl
  have hsuffix : ts.dropWhile (·.kind == .semicolon) <:+ ts := List.dropWhile_suffix _
  have hskipped : Separators (ts.takeWhile (·.kind == .semicolon)) := fun t ht =>
    beq_iff_eq.mp (List.all_eq_true.mp List.all_takeWhile t ht)
  have htail := (h.imp fun _ _ _ hg => hg _ hskipped) _ g
    (fun t ht => hspelled t (hsuffix.subset ht)) (first_dropWhile ts)
  rw [bind_of_ok hskip]
  have hall := htail.behind (ts.takeWhile (·.kind == .semicolon))
  rwa [List.takeWhile_append_dropWhile] at hall

/-- What ends a statement: a separator, which is read, or a token that ends its list. -/
theorem derives_statementEnd :
    Derives At statementEnd fun us rest _ => (∃ t, us = [t] ∧ t.kind = .semicolon) ∨
      us = [] ∧ (first rest).kind ∈ [.closeBrace, .kwCase, .kwDefault, .endOfFile] := by
  refine derives_kind fun κ => ?_
  split
  · exact derives_takeKind nofun fun t ht _ => derives_pure fun _ _ => .inl ⟨t, rfl, ht⟩
  · exact derives_pure fun rest ht => .inr ⟨rfl, by rw [ht.2]; decide⟩
  · exact derives_pure fun rest ht => .inr ⟨rfl, by rw [ht.2]; decide⟩
  · exact derives_pure fun rest ht => .inr ⟨rfl, by rw [ht.2]; decide⟩
  · exact derives_pure fun rest ht => .inr ⟨rfl, by rw [ht.2]; decide⟩
  · exact derives_stops fun _ => ⟨_, rfl⟩

/-- Whether `else` lies ahead, on this line or the next. -/
theorem derives_elseAhead {f : Bool → Parser β}
    (htrue : Derives (·.kind = .kwElse) (f true) fun vs rest b =>
      ∀ us, us = [] ∨ (∃ t, us = [t] ∧ t.word = .lineEnd) → G (us ++ vs) rest b)
    (hfalse : Derives Anywhere (f false) G) : Derives At (elseAhead >>= f) G := by
  intro ts g hspelled hfirst
  rw [bind_of_ok (elseAhead_run ts g)]
  unfold elseRest
  by_cases hline : (first ts).kind = .semicolon ∧ (first ts).text = "\n" ∧ (second ts).kind = .kwElse
  · rw [if_pos hline]
    cases ts with
    | nil => cases hline.1
    | cons t ts =>
      obtain ⟨hkind, htext, helse⟩ := hline
      have helse' : (first ts).kind = .kwElse := helse
      have hword : t.word = .lineEnd := congr (congrArg Word.mk hkind) htext
      have htail := htrue ts g (fun t' ht' => hspelled t' (List.mem_cons_of_mem _ ht')) helse'
      rw [List.tail_cons, decide_eq_true helse']
      refine Reaches.behind [t] (htail.imp fun _ _ _ hg => ?_)
      exact hg [t] (.inr ⟨t, rfl, hword⟩)
  · rw [if_neg hline]
    by_cases helse : (first ts).kind = .kwElse
    · rw [decide_eq_true helse]
      exact (htrue ts g hspelled helse).imp fun _ _ _ hg => hg [] (.inl rfl)
    · rw [decide_eq_false helse]
      exact hfalse ts g hspelled trivial

/-- A fault that is recorded stays. -/
theorem derives_record {f : GrammarFault} {pos : Position} {q : Unit → Parser β}
    {G' : List Token → List Token → β → Prop} (h : Derives Anywhere (q ()) G') :
    Derives At (modify (·.record f pos) >>= q) G := by
  intro ts g hspelled _
  have hrun : (modify (·.record f pos) : Parser Unit) ⟨ts, g⟩ = .ok () ⟨ts, g.push (f, pos)⟩ := rfl
  rw [bind_of_ok hrun]
  have htail := h ts (g.push (f, pos)) hspelled trivial
  cases hrest : q () ⟨ts, g.push (f, pos)⟩ with
  | error e c =>
    rw [hrest] at htail
    have hgrows := htail.2
    rw [Array.size_push] at hgrows
    exact ⟨htail.1, by omega⟩
  | ok b c =>
    rw [hrest] at htail
    have hgrows := htail.2.1
    rw [Array.size_push] at hgrows
    exact ⟨htail.1, by omega, fun hclean => absurd hclean (by omega)⟩

/-- A rule with recovery gives nothing only with a fault. -/
theorem derives_recovering {closing : List Token.Kind} {p : Parser α} (hp : Derives At p D) :
    Derives At (recovering closing p) fun us rest o => ∃ a, o = some a ∧ D us rest a := by
  intro ts g hspelled hfirst
  have hrule := hp ts g hspelled hfirst
  unfold recovering
  cases hrun : p ⟨ts, g⟩ with
  | ok a c =>
    rw [hrun] at hrule
    refine ⟨hrule.1, hrule.2.1, fun hclean => ?_⟩
    obtain ⟨us, hus, hd⟩ := hrule.2.2 hclean
    exact ⟨us, hus, a, rfl, hd⟩
  | error e c =>
    rw [hrun] at hrule
    cases e with
    | exhausted => exact hrule
    | fault f pos =>
      have hresume : resume closing ts c.tokens <:+ c.tokens :=
        (resume_suffix closing ts c.tokens).trans (skipStatement_suffix closing 0 c.tokens)
      have hsize : (c.record f pos).faults.size = c.faults.size + 1 := Array.size_push _
      refine ⟨hresume.trans hrule.1, ?_, fun hclean => ?_⟩
      · exact Nat.le_trans hrule.2 (hsize ▸ Nat.le_succ _)
      · have hgrows := hrule.2
        have hfaults : (c.record f pos).faults.size = g.size := hclean
        omega

end Parser
end Treewalk
