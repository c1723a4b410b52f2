/-
# Expressions and types are phrases

What a rule for an expression or a type has read without a fault is a phrase
of what it gives. The levels of the table of marks are the levels of the
grammar: a chain of operands of one level is joined from the left, so that
the expression read so far is always the left operand of the next mark.

Key definitions: `Connective.kind`, `Connective.tightness`,
`Parser.RulesDerive`.
Key theorems: `Parser.chain_derives`, `Parser.level_derives`,
`Parser.primary_derives`, `Parser.rulesDerive_exprRules`.
-/
import Treewalk.Proofs.Derivation.Derives

namespace Treewalk

/-! ### Levels -/

def Connective.kind : Connective → Token.Kind
  | .binary op => op.kind
  | .logical op => op.word.kind

def Connective.tightness : Connective → Nat
  | .binary op => op.tightness
  | .logical op => op.tightness

namespace Phrase

/-- A phrase of one level is one of every looser level. -/
theorem OfExpr.looser {l l' : Nat} {us : List Token} {e : Expr} (h : OfExpr l us e) (hl : l' ≤ l) :
    OfExpr l' us e := by
  cases h with
  | int ht => exact .int ht
  | float ht => exact .float ht
  | str ht => exact .str ht
  | rune ht => exact .rune ht
  | bool ht => exact .bool ht
  | nil ht => exact .nil ht
  | name hx => exact .name hx
  | group ho he hc => exact .group ho he hc
  | binary hop ha ht hb => exact .binary (Nat.le_trans hl hop) ha ht hb
  | logical hop ha ht hb => exact .logical (Nat.le_trans hl hop) ha ht hb
  | unary ht ha => exact .unary ht ha
  | deref ht ha => exact .deref ht ha
  | addressOf ht hx => exact .addressOf ht hx
  | call hx ho ha hc => exact .call hx ho ha hc
  | qualifiedCall hx hd hm ho ha hc => exact .qualifiedCall hx hd hm ho ha hc
  | index hx hi => exact .index hx hi
  | array ho hs hc ht he => exact .array ho hs hc ht he

/-- Two operands joined by a mark. -/
theorem OfExpr.join {c : Connective} {us vs : List Token} {t : Token} {a b : Expr}
    (ha : OfExpr c.tightness us a) (ht : t.kind = c.kind) (hb : OfExpr (c.tightness + 1) vs b) :
    OfExpr c.tightness (us ++ t :: vs) (c.join a b) := by
  cases c with
  | binary op => exact .binary (Nat.le_refl _) ha ht hb
  | logical op => exact .logical (Nat.le_refl _) ha ht hb

theorem Separators.append {us vs : List Token} (hu : Separators us) (hv : Separators vs) :
    Separators (us ++ vs) := by
  intro t ht
  exact (List.mem_append.mp ht).elim (hu t) (hv t)

/-- Separators are free behind the elements too. -/
theorem Items.separated {α : Type} {P : List Token → α → Prop} {us ss : List Token} {as : List α}
    (h : Items P us as) (hss : Separators ss) : Items P (us ++ ss) as := by
  induction h with
  | none hss' => exact .none (hss'.append hss)
  | one hbefore ha hbehind =>
    have hone := Items.one hbefore ha (hbehind.append hss)
    simpa using hone
  | more hbefore ha hbehind hc _ ih =>
    have hmore := Items.more hbefore ha hbehind hc ih
    simpa using hmore

end Phrase

namespace Parser

open Phrase

variable {α : Type} {At : Token → Prop} {n : Nat} {rules : ExprRules}

/-- The marks of a level of the grammar. -/
abbrev MarksOf (l : Nat) (marks : List (Token.Kind × Connective)) : Prop :=
  ∀ m ∈ marks, m.2.kind = m.1 ∧ m.2.tightness = l

theorem MarksOf.lookup {l : Nat} {marks : List (Token.Kind × Connective)} (h : MarksOf l marks)
    {κ : Token.Kind} {c : Connective} (hlookup : marks.lookup κ = some c) :
    c.kind = κ ∧ c.tightness = l := by
  obtain ⟨before, after, hmarks, -⟩ := List.lookup_eq_some_iff.mp hlookup
  exact h (κ, c) (by simp [hmarks])

/-- Further operands of one level: what has been read is the left operand of what comes. -/
theorem chain_derives {marks : List (Token.Kind × Connective)} {operand : Parser Expr} {l : Nat}
    (hmarks : MarksOf l marks) (ho : Derives Anywhere operand fun us _ e => OfExpr (l + 1) us e)
    (n : Nat) (left : Expr) :
    Derives Anywhere (chain marks operand n left)
      fun vs _ e => ∀ us, OfExpr l us left → OfExpr l (us ++ vs) e := by
  induction n generalizing left with
  | zero => exact derives_stops fun _ => ⟨_, rfl⟩
  | succ n ih =>
    unfold chain
    refine derives_kind fun κ => ?_
    cases hlookup : marks.lookup κ with
    | none =>
      refine derives_pure fun _ _ us hleft => ?_
      rw [List.append_nil]
      exact hleft
    | some c =>
      obtain ⟨hkind, rfl⟩ := hmarks.lookup hlookup
      refine derives_takeKind ?_ fun t ht _ => ?_
      · rw [← hkind]
        cases c <;> rename_i op <;> cases op <;> nofun
      · refine ho.bind fun right => (ih _).imp fun ws _ e hchain vs hright us hleft => ?_
        have hjoin := hchain _ (hleft.join (ht.trans hkind.symm) hright)
        simpa using hjoin

/-- Levels of marks from a level of the grammar on. -/
def LevelsFrom : Nat → List (List (Token.Kind × Connective)) → Prop
  | l, [] => l = 7
  | l, marks :: tighter => MarksOf l marks ∧ LevelsFrom (l + 1) tighter

theorem levelsFrom_precedence : LevelsFrom 1 precedence :=
  ⟨by decide, by decide, by decide, by decide, by decide, by decide, rfl⟩

theorem level_derives {unary : Parser Expr} {levels : List (List (Token.Kind × Connective))} {l : Nat}
    (hlevels : LevelsFrom l levels) (hu : Derives Anywhere unary fun us _ e => OfExpr 7 us e) :
    Derives Anywhere (level n unary levels) fun us _ e => OfExpr l us e := by
  induction levels generalizing l with
  | nil =>
    obtain rfl := hlevels
    exact hu
  | cons marks tighter ih =>
    have htighter := ih hlevels.2
    refine htighter.bind fun left => ?_
    refine (chain_derives hlevels.1 htighter n left).imp fun vs _ e hchain us hleft => ?_
    exact hchain us (hleft.looser (Nat.le_succ l))

/-! ### Lists -/

section Lists

variable {P : List Token → α → Prop} {item : Parser α}
  (hi : Derives Anywhere item fun us _ a => P us a)
include hi

theorem commaList_derives {close : Token.Kind} (n : Nat) :
    Derives At (commaList close item n) fun us _ as => Commas P us as := by
  induction n generalizing At with
  | zero => exact derives_stops fun _ => ⟨_, rfl⟩
  | succ n ih =>
    unfold commaList
    refine derives_kind fun κ => derives_ite (fun _ => derives_pure fun _ _ => .none) fun _ => ?_
    refine hi.anywhere.bind fun a => derives_kind fun κ => derives_ite (fun _ => ?_) fun hcomma => ?_
    · exact derives_pure fun _ _ us ha => by simpa using Commas.one ha
    · rw [Classical.not_not.mp hcomma]
      refine derives_takeKind nofun fun c hc _ => ?_
      exact ih.give fun vs _ as has us ha => .more ha hc has

theorem commaList1_derives (n : Nat) :
    Derives At (commaList1 item n) fun us _ as => Commas1 P us as := by
  induction n generalizing At with
  | zero => exact derives_stops fun _ => ⟨_, rfl⟩
  | succ n ih =>
    unfold commaList1
    refine hi.anywhere.bind fun a => derives_kind fun κ => derives_ite (fun _ => ?_) fun hcomma => ?_
    · exact derives_pure fun _ _ us ha => by simpa using Commas1.one ha
    · rw [Classical.not_not.mp hcomma]
      refine derives_takeKind nofun fun c hc _ => ?_
      exact ih.give fun vs _ as has us ha => .more ha hc has

end Lists

theorem elementItems_derives {item : Parser Expr} (hi : Derives Anywhere item fun us _ e => OfElement us e)
    (n : Nat) : Derives At (elementItems item n) fun us _ es => Items OfElement us es := by
  induction n generalizing At with
  | zero => exact derives_stops fun _ => ⟨_, rfl⟩
  | succ n ih =>
    unfold elementItems
    refine derives_skipSemicolons (derives_kind fun κ => derives_ite (fun _ => ?_) fun _ => ?_)
    · exact derives_pure fun _ _ ss hss => by simpa using Items.none hss
    refine hi.anywhere.bind fun e => derives_skipSemicolons (derives_kind fun κ => ?_)
    refine derives_ite (fun _ => ?_) fun hcomma => ?_
    · refine derives_pure fun _ _ ss' hss' us he ss hss => ?_
      simpa using Items.one hss he hss'
    · rw [Classical.not_not.mp hcomma]
      refine derives_takeKind nofun fun c hc _ => ih.give fun vs _ es hes ss' hss' us he ss hss => ?_
      simpa using Items.more hss he hss' hc hes

/-! ### Names -/

section Names

variable {expr : Parser Expr} (he : Derives Anywhere expr fun us _ e => OfExpr 1 us e)
include he

/-- Indices; before a bracket there is one at least. -/
theorem indices_derives (n : Nat) : Derives At (indices expr n)
    fun us rest is => OfIndices us is ∧ (us = [] → (first rest).kind ≠ .openBracket) := by
  induction n generalizing At with
  | zero => exact derives_stops fun _ => ⟨_, rfl⟩
  | succ n ih =>
    unfold indices
    refine derives_kind fun κ => derives_ite (fun hopen => ?_) fun hopen => ?_
    · exact derives_pure fun rest hrest => ⟨.none, fun _ => hrest.2 ▸ hopen⟩
    · rw [Classical.not_not.mp hopen]
      refine derives_takeKind nofun fun o ho _ => he.bind fun i => derives_expect nofun fun c hc => ?_
      exact ih.give fun vs _ is his us hi => ⟨.more ho hi hc his.1, nofun⟩

theorem arguments_derives (n : Nat) : Derives At (arguments expr n) fun us _ args =>
    ∃ o vs c, us = o :: vs ++ [c] ∧ o.kind = .openParen ∧ Commas (OfExpr 1) vs args ∧
      c.kind = .closeParen := by
  unfold arguments
  refine derives_expect nofun fun o ho => (commaList_derives he n).bind fun args => ?_
  refine derives_expect nofun fun c hc => derives_pure fun _ _ vs hargs => ?_
  exact ⟨o, vs, c, rfl, ho, hargs, hc⟩

theorem nameExpr_derives (n l : Nat) :
    Derives (·.kind = .identifier) (nameExpr expr n) fun us _ e => OfExpr l us e := by
  unfold nameExpr
  refine derives_advance (fun t ht => ht ▸ nofun) fun x hx _ => derives_kind fun κ => ?_
  refine derives_ite (fun hdot => ?_) fun _ => derives_kind fun κ => ?_
  · subst hdot
    refine derives_takeKind nofun fun d hd _ => derives_expect nofun fun m hm => derives_kind fun κ => ?_
    refine derives_ite (fun _ => ?_) fun _ => derives_stops fun _ => ⟨_, rfl⟩
    refine (arguments_derives he n).give fun us _ args hargs => ?_
    obtain ⟨o, vs, c, rfl, ho, hcommas, hc⟩ := hargs
    exact .qualifiedCall hx hd hm ho hcommas hc
  · split
    · refine (arguments_derives he n).give fun us _ args hargs => ?_
      obtain ⟨o, vs, c, rfl, ho, hcommas, hc⟩ := hargs
      exact .call hx ho hcommas hc
    · refine (indices_derives he n).start.give fun us rest is his => ?_
      obtain ⟨⟨-, hbracket⟩, hindices, hnone⟩ := his
      cases hindices with
      | none => exact absurd hbracket (hnone rfl)
      | more ho hi hc his => exact .index hx (.more ho hi hc his)
    · exact derives_pure fun _ _ => .name hx

end Names

/-! ### Types, operands and whole expressions -/

/-- What the rules that nest have read is a phrase. -/
structure RulesDerive (rules : ExprRules) : Prop where
  expr : Derives Anywhere rules.expr fun us _ e => OfExpr 1 us e
  unary : Derives Anywhere rules.unary fun us _ e => OfExpr 7 us e
  type : Derives Anywhere rules.type fun us _ ty => OfType us ty
  elements : Derives Anywhere rules.elements fun us _ es => OfElements us es

theorem type_derives (h : RulesDerive rules) :
    Derives At (type rules) fun us _ ty => OfType us ty := by
  unfold type
  refine derives_current fun t _ => ?_
  split
  case h_1 ht => exact derives_take (ht ▸ nofun) fun _ => derives_pure fun _ _ => .int32 ht
  case h_2 ht => exact derives_take (ht ▸ nofun) fun _ => derives_pure fun _ _ => .float32 ht
  case h_3 ht => exact derives_take (ht ▸ nofun) fun _ => derives_pure fun _ _ => .bool ht
  case h_4 ht => exact derives_take (ht ▸ nofun) fun _ => derives_pure fun _ _ => .string ht
  case h_5 ht => exact derives_take (ht ▸ nofun) fun _ => derives_pure fun _ _ => .rune ht
  case h_6 ht =>
    refine derives_take (ht ▸ nofun) fun _ => h.expr.bind fun size => ?_
    refine derives_expect nofun fun c hc => h.type.give fun vs _ elem helem us hsize => ?_
    exact .array ht hsize hc helem
  case h_7 ht =>
    refine derives_take (ht ▸ nofun) fun _ => ?_
    exact h.type.give fun us _ ty hty => .pointer ht hty
  case h_8 => exact derives_stops fun _ => ⟨_, rfl⟩

theorem element_derives (h : RulesDerive rules) :
    Derives At (element rules) fun us _ e => OfElement us e := by
  unfold element
  refine derives_current fun t _ => derives_ite (fun _ => ?_) fun _ => ?_
  · refine (h.elements.anywhere.start).give fun us rest es hes => ?_
    obtain ⟨hfirst, hlist⟩ := hes
    cases hlist with
    | list ho hitems hc =>
      cases hfirst
      exact .list ho hitems hc
  · exact h.expr.anywhere.imp fun us _ e he => .expr he

theorem elements_derives (h : RulesDerive rules) (n : Nat) :
    Derives At (elements rules n) fun us _ es => OfElements us es := by
  unfold elements
  refine derives_expect nofun fun o ho => ?_
  refine (elementItems_derives (element_derives h) n).bind fun es => derives_skipSemicolons ?_
  refine derives_expect nofun fun c hc => derives_pure fun _ _ ss hss us hitems => ?_
  simpa using OfElements.list ho (hitems.separated hss) hc

theorem primary_derives (h : RulesDerive rules) (n l : Nat) :
    Derives At (primary rules n) fun us _ e => OfExpr l us e := by
  unfold primary
  refine derives_current fun t _ => ?_
  split
  case h_1 ht => exact derives_take (ht ▸ nofun) fun _ => derives_pure fun _ _ => .int ht
  case h_2 ht => exact derives_take (ht ▸ nofun) fun _ => derives_pure fun _ _ => .float ht
  case h_3 ht => exact derives_take (ht ▸ nofun) fun _ => derives_pure fun _ _ => .str ht
  case h_4 ht => exact derives_take (ht ▸ nofun) fun _ => derives_pure fun _ _ => .rune ht
  case h_5 ht => exact derives_take (ht ▸ nofun) fun _ => derives_pure fun _ _ => .bool ht
  case h_6 ht => exact derives_take (ht ▸ nofun) fun _ => derives_pure fun _ _ => .bool ht
  case h_7 ht => exact derives_take (ht ▸ nofun) fun _ => derives_pure fun _ _ => .nil ht
  case h_8 ht =>
    refine derives_take (ht ▸ nofun) fun _ => h.expr.bind fun e => ?_
    exact derives_expect nofun fun c hc => derives_pure fun _ _ us he => .group ht he hc
  case h_9 ht =>
    refine (type_derives h).start.bind fun ty => (elements_derives h n).give fun ws _ es hes us hty => ?_
    obtain ⟨hfirst, htype⟩ := hty
    cases htype with
    | array ho hsize hc helem =>
      cases hfirst
      exact .array ho hsize hc helem hes
    | int32 hk | float32 hk | bool hk | string hk | rune hk | pointer hk =>
      cases hfirst
      exact absurd (ht.symm.trans hk) nofun
  case h_10 ht =>
    refine (nameExpr_derives h.expr n l).mono ?_ fun _ _ _ he => he
    rintro _ rfl
    exact ht
  case h_11 => exact derives_stops fun _ => ⟨_, rfl⟩

theorem unary_derives (h : RulesDerive rules) (n l : Nat) :
    Derives At (unary rules n) fun us _ e => OfExpr l us e := by
  unfold unary
  refine derives_current fun t _ => ?_
  split
  case h_1 ht =>
    have hneg : t.kind = (UnaryOp.word .neg).kind := ht
    exact derives_take (ht ▸ nofun) fun _ => h.unary.give fun us _ e he => .unary hneg he
  case h_2 ht =>
    have hnot : t.kind = (UnaryOp.word .not).kind := ht
    exact derives_take (ht ▸ nofun) fun _ => h.unary.give fun us _ e he => .unary hnot he
  case h_3 ht => exact derives_take (ht ▸ nofun) fun _ => h.unary.give fun us _ e he => .deref ht he
  case h_4 ht =>
    refine derives_take (ht ▸ nofun) fun _ => derives_kind fun κ => ?_
    refine derives_ite (fun _ => derives_stops fun _ => ⟨_, rfl⟩) fun hname => ?_
    rw [Classical.not_not.mp hname]
    exact derives_takeKind nofun fun x hx _ => derives_pure fun _ _ => .addressOf ht hx
  case h_5 => exact primary_derives h n l

/-- **What an expression is read from is a phrase of it.** -/
theorem rulesDerive_exprRules (n : Nat) : RulesDerive (exprRules n) := by
  induction n with
  | zero =>
    exact ⟨derives_stops fun _ => ⟨_, rfl⟩, derives_stops fun _ => ⟨_, rfl⟩,
      derives_stops fun _ => ⟨_, rfl⟩, derives_stops fun _ => ⟨_, rfl⟩⟩
  | succ n ih =>
    exact ⟨level_derives levelsFrom_precedence (unary_derives ih n 7), unary_derives ih n 7,
      type_derives ih, elements_derives ih n⟩

end Parser
end Treewalk
