/-
# Statements and declarations are phrases

What a rule for a statement has read without a fault is a phrase of the
statement, with its separator or before a token that ends its list
(`Parser.Finished`). No statement begins with such a token; so a list goes on
behind a statement without separator only with a fault, and in a list without
faults that statement is the last.

Key definitions: `Parser.closers`, `Parser.Finished`, `Parser.Waiting`.
Key theorems: `Parser.simpleStatement_derives`,
`Parser.statementList_derives`, `Parser.statement_derives`,
`Parser.declarations_derive`.
-/
import Treewalk.Proofs.Derivation.Expression
import Treewalk.Proofs.Forward.Statement

namespace Treewalk

namespace Phrase

theorem OfExpr.ne_nil {l : Nat} {us : List Token} {e : Expr} (h : OfExpr l us e) : us ≠ [] := by
  cases h <;> simp

theorem Commas1.ne_nil {us : List Token} {bs : List Binder} (h : Commas1 OfBinder us bs) :
    us ≠ [] := by
  cases h with
  | one hb =>
    cases hb
    exact nofun
  | more => simp

end Phrase

namespace Parser

open Phrase

variable {At : Token → Prop} {n : Nat} {rules : ExprRules} {inner : Parser Stmt}

/-! ### The ends of statements -/

/-- The tokens that end a statement without belonging to it. -/
def closers : List Token.Kind := [.closeBrace, .kwCase, .kwDefault, .endOfFile]

/-- A statement with its separator, or before a token that ends it. -/
def Finished (P : List Token → Stmt → Prop) (us rest : List Token) (s : Stmt) : Prop :=
  (∃ vs t, us = vs ++ [t] ∧ t.kind = .semicolon ∧ P vs s) ∨
    P us s ∧ (first rest).kind ∈ closers

theorem Finished.imp {P Q : List Token → Stmt → Prop} {us rest : List Token} {s : Stmt}
    (h : Finished P us rest s) (hPQ : ∀ us, P us s → Q us s) : Finished Q us rest s := by
  obtain ⟨vs, t, hus, ht, hp⟩ | ⟨hp, hrest⟩ := h
  · exact .inl ⟨vs, t, hus, ht, hPQ vs hp⟩
  · exact .inr ⟨hPQ us hp, hrest⟩

/-- The end of a statement, behind which it is done. -/
theorem derives_done (P : List Token → Stmt → Prop) {s : Stmt} : Derives At (do statementEnd; pure s)
    fun vs rest s' => ∀ us, P us s → Finished P (us ++ vs) rest s' := by
  refine derives_statementEnd.give fun vs rest _ hend us hp => ?_
  obtain ⟨t, rfl, ht⟩ | ⟨rfl, hrest⟩ := hend
  · exact .inl ⟨us, t, rfl, ht, hp⟩
  · rw [List.append_nil]
    exact .inr ⟨hp, hrest⟩

/-! ### Declarations and simple statements -/

theorem binder_derives : Derives At binder fun us _ b => OfBinder us b :=
  derives_expect nofun fun _ hx => derives_pure fun _ _ => .name hx

theorem type?_derives (h : RulesDerive rules) :
    Derives At (type? rules) fun us _ ty => Optional OfType us ty := by
  unfold type?
  refine derives_kind fun κ => derives_ite (fun _ => ?_) fun _ => derives_pure fun _ _ => .none
  exact h.type.anywhere.give fun us _ ty hty => .some hty

theorem varDecl_derives (h : RulesDerive rules) (n : Nat) :
    Derives At (varDecl rules n) fun us rest s => Finished OfDecl us rest s := by
  unfold varDecl
  refine derives_expect nofun fun k hk => (commaList1_derives binder_derives n).bind fun names => ?_
  refine (type?_derives h).bind fun ty => ?_
  have hvalues : ∀ values {At : Token → Prop}, Derives At
      (do
        if ty.isNone ∧ List.isEmpty values then
          fail (.untypedVariable (names.head?.elim "" Binder.name))
        statementEnd
        return Stmt.varDecl names ty values k.pos)
      fun us rest s => ∀ xs, OfValues xs values → ∀ ws, Optional OfType ws ty →
        ∀ vs, Commas1 OfBinder vs names → Finished OfDecl (k :: (vs ++ (ws ++ (xs ++ us)))) rest s := by
    intro values At
    refine derives_ite (fun _ => derives_stops fun _ => ⟨_, rfl⟩) fun htyped => ?_
    refine (derives_done OfDecl).imp fun us rest s hdone xs hxs ws hty vs hnames => ?_
    have hneeded : ty ≠ none ∨ values ≠ [] := by
      cases ty with
      | some ty => exact .inl nofun
      | none => exact .inr fun hnil => htyped ⟨rfl, by rw [hnil]; rfl⟩
    have hdecl := hdone _ (OfDecl.varDecl hk hnames hty hxs hneeded)
    simpa using hdecl
  refine derives_kind fun κ => derives_ite (fun hequal => ?_) fun _ => ?_
  · subst hequal
    refine derives_takeKind nofun fun t ht _ => (commaList1_derives h.expr n).bind fun values => ?_
    refine (hvalues values).imp fun us rest s hall xs hxs ws hty vs hnames => ?_
    have hdecl := hall _ (.some ht hxs) ws hty vs hnames
    simpa using hdecl
  · refine (hvalues []).imp fun us rest s hall ws hty vs hnames => ?_
    have hdecl := hall _ .none ws hty vs hnames
    simpa using hdecl

theorem constDecl_derives (h : RulesDerive rules) :
    Derives At (constDecl rules) fun us rest s => Finished OfDecl us rest s := by
  unfold constDecl
  refine derives_expect nofun fun k hk => binder_derives.bind fun b => ?_
  refine (type?_derives h).bind fun ty => derives_expect nofun fun t ht => h.expr.bind fun value => ?_
  refine (derives_done OfDecl).imp fun us rest s hdone ws hvalue vs hty xs hb => ?_
  obtain ⟨hx⟩ := hb
  have hdecl := hdone _ (OfDecl.constDecl hk hx hty ht hvalue)
  simpa using hdecl

/-- What has been read begins where the rule began. -/
theorem exists_cons {us rest : List Token} {t : Token} (hne : us ≠ []) (ht : first (us ++ rest) = t) :
    ∃ vs, us = t :: vs := by
  cases us with
  | nil => exact absurd rfl hne
  | cons x vs => exact ⟨vs, by rw [← ht]; rfl⟩

theorem denotes_of_target? {e : Expr} {t : Target} (h : target? e = some t) : Denotes e t := by
  unfold target? at h
  split at h
  · cases h
    exact .name
  · cases h
    exact .index
  · cases h
    exact .deref
  · cases h

theorem derives_target {β : Type} {G : List Token → List Token → β → Prop} {e : Expr}
    {f : Target → Parser β} (h : ∀ t, Denotes e t → Derives At (f t) G) :
    Derives At (target e >>= f) G := by
  unfold target
  split
  · next t ht => exact h t (denotes_of_target? ht)
  · exact derives_stops fun _ => ⟨_, rfl⟩

/-- A simple statement; with names and `:=` ahead it is a short declaration. -/
theorem simpleStatement_derives (h : RulesDerive rules) (n : Nat) :
    Derives At (simpleStatement rules n) fun us rest s => OfSimple us s ∧
      (startsShort (us ++ rest) = true → ∃ names values pos, s = .shortDecl names values pos) := by
  unfold simpleStatement
  refine derives_current fun t _ => derives_ifShort ?_ ?_
  · refine (commaList1_derives binder_derives n).start.bind fun names => ?_
    refine derives_expect nofun fun m hm => (commaList1_derives h.expr n).give ?_
    intro vs rest values hvalues us hus _
    obtain ⟨⟨hfirst, -⟩, hnames⟩ := hus
    obtain ⟨us, rfl⟩ := exists_cons hnames.ne_nil hfirst
    exact ⟨.shortDecl hnames hm hvalues, fun _ => ⟨_, _, _, rfl⟩⟩
  · refine h.expr.anywhere.start.bind fun left => derives_kind fun κ => ?_
    split
    case h_1 | h_2 =>
      refine derives_target fun target htarget => derives_takeKind nofun fun m hm hspelled => ?_
      refine h.expr.give fun vs rest value hvalue us hus hshort => ?_
      obtain ⟨hfirst, hleft⟩ := hus
      obtain ⟨us, rfl⟩ := exists_cons hleft.ne_nil hfirst
      have hword : m.word = (assignOp m.text).word := hspelled (by simp [hm])
      exact ⟨.assign hleft htarget hword hvalue, fun hs => absurd (hs.symm.trans hshort) nofun⟩
    case h_3 =>
      refine derives_target fun target htarget => derives_takeKind nofun fun m hm _ => ?_
      refine derives_pure fun rest _ us hus hshort => ?_
      obtain ⟨hfirst, hleft⟩ := hus
      obtain ⟨us, rfl⟩ := exists_cons hleft.ne_nil hfirst
      have hmark : m.kind = (StepOp.word .increment).kind := hm
      exact ⟨.step hleft htarget hmark, fun hs => absurd (hs.symm.trans hshort) nofun⟩
    case h_4 =>
      refine derives_target fun target htarget => derives_takeKind nofun fun m hm _ => ?_
      refine derives_pure fun rest _ us hus hshort => ?_
      obtain ⟨hfirst, hleft⟩ := hus
      obtain ⟨us, rfl⟩ := exists_cons hleft.ne_nil hfirst
      have hmark : m.kind = (StepOp.word .decrement).kind := hm
      exact ⟨.step hleft htarget hmark, fun hs => absurd (hs.symm.trans hshort) nofun⟩
    case h_5 =>
      refine derives_pure fun rest _ us hus hshort => ?_
      obtain ⟨hfirst, hleft⟩ := hus
      obtain ⟨us, rfl⟩ := exists_cons hleft.ne_nil hfirst
      rw [List.append_nil] at hshort ⊢
      exact ⟨.expr hleft, fun hs => absurd (hs.symm.trans hshort) nofun⟩

theorem returnStmt_derives (h : RulesDerive rules) (n : Nat) :
    Derives At (returnStmt rules n) fun us rest s => Finished OfPlain us rest s := by
  unfold returnStmt
  refine derives_expect nofun fun k hk => derives_kind fun κ => ?_
  have hnone : ∀ {At : Token → Prop}, Derives At (do statementEnd; pure (Stmt.returnStmt [] k.pos))
      fun us rest s => Finished OfPlain (k :: us) rest s :=
    (derives_done OfPlain).imp fun us rest s hdone => hdone [k] (.returnNone hk)
  split
  case h_6 =>
    refine (commaList1_derives h.expr n).bind fun values => ?_
    refine (derives_done OfPlain).imp fun us rest s hdone vs hvalues => ?_
    exact hdone (k :: vs) (.returnSome hk hvalues)
  all_goals exact hnone

theorem plainStatement_derives (h : RulesDerive rules) (n : Nat) :
    Derives At (plainStatement rules n) fun us rest s => Finished OfPlain us rest s := by
  unfold plainStatement
  refine (simpleStatement_derives h n).bind fun s => ?_
  have hdone : HasEffect s → Derives Anywhere (do statementEnd; pure s) fun vs rest s' =>
      ∀ us, (OfSimple us s ∧ (startsShort (us ++ (vs ++ rest)) = true →
        ∃ names values pos, s = .shortDecl names values pos)) → Finished OfPlain (us ++ vs) rest s' :=
    fun heffect => (derives_done OfPlain).imp fun vs rest s' hdone us hsimple =>
      hdone us (.simple hsimple.1 heffect)
  split
  · exact hdone trivial
  · exact derives_stops fun _ => ⟨_, rfl⟩
  · next hcall hexpr =>
    refine hdone ?_
    cases s with
    | expr e pos => exact absurd rfl (hexpr e pos)
    | _ => trivial

/-! ### Loop headers -/

/-- A part of a header that is left out before a given token. -/
theorem derives_optional {α β : Type} {P : List Token → α → Prop} {G : List Token → List Token → β → Prop}
    {p : Parser α} {κ : Token.Kind} {f : Option α → Parser β}
    (hp : Derives Anywhere p fun us _ a => P us a)
    (hf : ∀ o, Derives Anywhere (f o) fun vs rest b => ∀ us, Optional P us o → G (us ++ vs) rest b) :
    Derives At (kind >>= fun κ' => if κ' = κ then pure none >>= f else some <$> p >>= f) G := by
  refine derives_kind fun κ' => derives_ite (fun _ => ?_) fun _ => ?_
  · exact (hf none).anywhere.imp fun _ _ _ hall => hall [] .none
  · have hsome : Derives Anywhere (p >>= fun a => pure (some a)) fun us _ o => Optional P us o :=
      hp.give fun us _ a ha => .some ha
    exact Derives.bind (p := some <$> p) hsome.anywhere hf

/-- The condition and the post statement, from the separator before them on. -/
theorem clauses_derives (h : RulesDerive rules) (n : Nat) (init : Option Stmt) :
    Derives At (clauses rules n init) fun us _ header => ∀ vs, Optional OfSimple vs init →
      OfHeader (vs ++ us) header.init header.condition header.post := by
  have hsimple : Derives Anywhere (simpleStatement rules n) fun us _ s => OfSimple us s :=
    (simpleStatement_derives h n).imp fun _ _ _ hs => hs.1
  unfold clauses
  refine derives_expect nofun fun t ht => derives_optional h.expr fun condition => ?_
  refine derives_expect nofun fun t' ht' => derives_optional hsimple fun post => ?_
  refine derives_pure fun _ _ ws hpost vs hcondition us hinit => ?_
  have hclauses := OfHeader.clauses hinit ht hcondition ht' hpost
  simpa using hclauses

/-- The header of a loop. -/
theorem header_derives (h : RulesDerive rules) (n : Nat) : Derives At (header rules n)
    fun us _ header => OfHeader us header.init header.condition header.post := by
  unfold header
  refine derives_kind fun κ => ?_
  split
  · exact derives_pure fun _ _ => .forever
  · exact (clauses_derives h n none).imp fun us _ header hclauses => hclauses [] .none
  · refine (simpleStatement_derives h n).bind fun first => derives_kind fun κ => ?_
    refine derives_ite (fun _ => ?_) fun _ => ?_
    · refine (clauses_derives h n (some first)).imp fun us _ header hclauses vs hfirst => ?_
      exact hclauses vs (.some hfirst.1)
    · split
      · refine derives_pure fun _ _ us hfirst => ?_
        rw [List.append_nil]
        obtain ⟨hsimple, -⟩ := hfirst
        cases hsimple with
        | expr hcondition => exact .condition hcondition
      · exact derives_stops fun _ => ⟨_, rfl⟩

/-! ### Blocks -/

/-- What a statement of a list has read: a phrase that does not begin with a token that ends a
statement. -/
def Listed (P B : List Token → Stmt → Prop) (us rest : List Token) (s : Stmt) : Prop :=
  (Finished P us rest s ∨ B us s) ∧ (first (us ++ rest)).kind ∉ closers

/-- Behind separators, tokens that begin with a closer have no separators before them. -/
theorem Separators.eq_nil {ss ts : List Token} (hss : Separators ss)
    (h : (first (ss ++ ts)).kind ∈ closers) : ss = [] := by
  cases ss with
  | nil => rfl
  | cons t ss =>
    have ht : t.kind ∈ closers := h
    rw [hss t List.mem_cons_self] at ht
    exact absurd ht (by decide)

/-- One statement before a list. Without a separator it is the last. -/
theorem Listed.cons {P B : List Token → Stmt → Prop} {ss us vs rest : List Token} {s : Stmt}
    {stmts : List Stmt} (hss : Separators ss) (h : Listed P B us (vs ++ rest) s)
    (htail : Sequence P B vs stmts) (hclosed : (first (vs ++ rest)).kind ∈ closers → vs = [] ∧ stmts = []) :
    Sequence P B (ss ++ (us ++ vs)) (s :: stmts) := by
  obtain ⟨(⟨us, t, rfl, ht, hp⟩ | ⟨hp, hrest⟩) | hb, -⟩ := h
  · simpa using Sequence.separated hss hp ht htail
  · obtain ⟨rfl, rfl⟩ := hclosed hrest
    simpa using Sequence.last hss hp
  · simpa using Sequence.braced hss hb htail

/-- A list without faults is a sequence of its statements, and nothing is read before a closer. -/
theorem statementList_derives {P B : List Token → Stmt → Prop} {closing : List Token.Kind}
    (hs : Derives Anywhere inner fun us rest s => Listed P B us rest s) (n : Nat) :
    Derives At (statementList inner closing n) fun us rest stmts =>
      Sequence P B us stmts ∧ ((first (us ++ rest)).kind ∈ closers → us = [] ∧ stmts = []) := by
  induction n generalizing At with
  | zero => exact derives_stops fun _ => ⟨_, rfl⟩
  | succ n ih =>
    unfold statementList
    refine derives_skipSemicolons (derives_kind fun κ => derives_ite (fun _ => ?_) fun _ => ?_)
    · refine derives_pure fun rest _ ss hss => ?_
      rw [List.append_nil]
      exact ⟨.none hss, fun hrest => ⟨Separators.eq_nil hss hrest, rfl⟩⟩
    refine (derives_recovering hs).anywhere.bind fun o => ?_
    cases o with
    | none =>
      -- nothing is given only with a fault
      refine ih.imp fun vs rest stmts _ us hnone => ?_
      obtain ⟨s, hs, -⟩ := hnone
      cases hs
    | some s =>
      refine ih.give fun vs rest stmts htail us hsome ss hss => ?_
      obtain ⟨s, ⟨⟩, hlisted⟩ := hsome
      refine ⟨Listed.cons hss hlisted htail.1 htail.2, fun hfirst => ?_⟩
      rw [List.append_assoc] at hfirst
      obtain rfl := Separators.eq_nil hss hfirst
      rw [List.nil_append, List.append_assoc] at hfirst
      exact absurd hfirst hlisted.2

/-- What the clauses of a `switch` have been read from. A default that is known already leaves no
room for another. -/
def Completes (otherwise : Option (List Stmt)) (us : List Token)
    (r : List (Clause Stmt) × Option (List Stmt)) : Prop :=
  match otherwise with
  | none => OfClauses us r.1 r.2
  | some body => OfClauses us r.1 none ∧ r.2 = some body

section Nested

variable (h : RulesDerive rules)
  (hs : Derives Anywhere inner fun us rest s => Listed OfPlain OfBraced us rest s)

include hs in
/-- Statements between braces. -/
theorem block_derives (n : Nat) : Derives At (block inner n) fun us _ body => OfBlock us body := by
  unfold block
  refine derives_expect nofun fun o ho => (statementList_derives hs n).bind fun body => ?_
  exact derives_expect nofun fun c hc => derives_pure fun _ _ us hbody => .braces ho hbody.1 hc

include hs in
/-- A block that stands by itself. -/
theorem blockStmt_derives {t : Token} (n : Nat) :
    Derives (· = t) (do return Stmt.block (← block inner n) t.pos) fun us _ s => OfBraced us s := by
  refine (block_derives hs n).start.give fun us rest body hbody => ?_
  obtain ⟨hfirst, hblock⟩ := hbody
  cases hblock with
  | braces ho hstmts hc =>
    cases hfirst
    exact .block ho hstmts hc

include h hs

theorem branch_derives (n : Nat) : Derives At (branch rules inner n) fun us _ b =>
    ∃ vs ws, us = vs ++ ws ∧ OfExpr 1 vs b.condition ∧ OfBlock ws b.body := by
  unfold branch
  refine h.expr.anywhere.bind fun condition => (block_derives hs n).give ?_
  exact fun ws _ body hbody vs hcondition => ⟨vs, ws, rfl, hcondition, hbody⟩

/-- The further arms of an `if`, behind an `else` that may stand on the next line. -/
theorem elseParts_derives (n m : Nat) :
    Derives At (elseParts rules inner n m) fun us _ r => OfElse us r.1 r.2 := by
  induction m generalizing At with
  | zero => exact derives_stops fun _ => ⟨_, rfl⟩
  | succ m ih =>
    unfold elseParts
    refine derives_elseAhead ?_ (derives_pure fun _ _ => .none)
    refine derives_advance (fun t ht => by rw [ht]; decide) fun t ht _ => derives_kind fun κ => ?_
    have hmark : ∀ ls, ls = [] ∨ (∃ t', ls = [t'] ∧ t'.word = .lineEnd) → ElseMark (ls ++ [t]) := by
      rintro _ (rfl | ⟨t', rfl, ht'⟩)
      · exact .here ht
      · exact .nextLine ht' ht
    refine derives_ite (fun hif => ?_) fun _ => ?_
    · subst hif
      refine derives_takeKind (by decide) fun k hk _ => (branch_derives h hs n).bind fun b => ?_
      refine ih.give fun xs _ r hr us hb ls hls => ?_
      obtain ⟨vs, ws, rfl, hcondition, hbody⟩ := hb
      have hmore := OfElse.more (hmark ls hls) hk hcondition hbody hr
      simpa using hmore
    · refine (block_derives hs n).give fun vs _ body hbody ls hls => ?_
      have hlast := OfElse.last (hmark ls hls) hbody
      simpa using hlast

theorem ifElse_derives (n : Nat) :
    Derives At (ifElse rules inner n) fun us _ s => OfBraced us s := by
  unfold ifElse
  refine derives_expect nofun fun k hk => (branch_derives h hs n).bind fun b => ?_
  refine (elseParts_derives h hs n n).give fun xs _ r hr us hb => ?_
  obtain ⟨vs, ws, rfl, hcondition, hbody⟩ := hb
  have hif := OfBraced.ifElse hk hcondition hbody hr
  simpa using hif

theorem loop_derives (n : Nat) : Derives At (loop rules inner n) fun us _ s => OfBraced us s := by
  unfold loop
  refine derives_expect nofun fun k hk => (header_derives h n).bind fun header => ?_
  exact (block_derives hs n).give fun vs _ body hbody us hheader => .loop hk hheader hbody

/-- The clauses of a `switch`. -/
theorem switchClauses_derives (n m : Nat) (otherwise : Option (List Stmt)) :
    Derives At (switchClauses rules inner n m otherwise) fun us _ r => Completes otherwise us r := by
  induction m generalizing At otherwise with
  | zero => exact derives_stops fun _ => ⟨_, rfl⟩
  | succ m ih =>
    unfold switchClauses
    refine derives_skipSemicolons (derives_current fun k _ => ?_)
    split
    case h_1 hk =>
      refine derives_take (hk ▸ nofun) fun _ => (commaList1_derives h.expr n).bind fun values => ?_
      refine derives_expect nofun fun c hc => (statementList_derives hs n).bind fun body => ?_
      refine (ih otherwise).give fun ws _ r hr vs hbody us hvalues ss hss => ?_
      have hcase : ∀ {o}, OfClauses ws r.1 o →
          OfClauses (ss ++ k :: (us ++ c :: (vs ++ ws))) (⟨values, body, k.pos⟩ :: r.1) o := by
        intro o htail
        simpa using OfClauses.case hss hk hvalues hc hbody.1 htail
      cases otherwise with
      | none => exact hcase hr
      | some known => exact ⟨hcase hr.1, hr.2⟩
    case h_2 hk =>
      refine derives_take (hk ▸ nofun) fun _ => derives_expect nofun fun c hc => ?_
      refine (statementList_derives hs n).bind fun body => derives_ite (fun _ => ?_) fun hnone => ?_
      · exact derives_record (ih otherwise)
      · refine (ih (some body)).imp fun vs _ r hr us hbody ss hss => ?_
        obtain ⟨hclauses, hr⟩ := hr
        have hdefault := OfClauses.default hss hk hc hbody.1 hclauses
        cases otherwise with
        | none =>
          change OfClauses _ r.1 r.2
          rw [hr]
          simpa using hdefault
        | some known => exact absurd rfl hnone
    case h_3 =>
      refine derives_pure fun _ _ ss hss => ?_
      rw [List.append_nil]
      cases otherwise with
      | none => exact OfClauses.none hss
      | some known => exact ⟨.none hss, rfl⟩
    case h_4 => exact derives_stops fun _ => ⟨_, rfl⟩

theorem switch_derives (n : Nat) : Derives At (switch rules inner n) fun us _ s => OfBraced us s := by
  unfold switch
  refine derives_expect nofun fun k hk => h.expr.bind fun subject => derives_expect nofun fun o ho => ?_
  refine (switchClauses_derives h hs n n none).bind fun r => derives_expect nofun fun c hc => ?_
  refine derives_pure fun _ _ vs hclauses us hsubject => ?_
  have hswitch := OfBraced.switch hk hsubject ho hclauses hc
  simpa using hswitch

/-! ### Statements -/

/-- The tokens with which a statement begins that ends with a block. -/
def blockStarters : List Token.Kind := [.kwIf, .kwFor, .kwSwitch, .openBrace]

/-- A statement that begins so ends with a block. -/
theorem statementWith_derives_braced (n : Nat) :
    Derives (·.kind ∈ blockStarters) (statementWith rules n inner) fun us _ s => OfBraced us s := by
  unfold statementWith
  refine derives_current fun t ht => ?_
  split
  case h_3 => exact ifElse_derives h hs n
  case h_4 => exact loop_derives h hs n
  case h_5 => exact switch_derives h hs n
  case h_6 => exact blockStmt_derives hs n
  case h_1 hk | h_2 hk | h_7 hk | h_8 hk | h_9 hk | h_10 hk =>
    rw [hk] at ht
    exact absurd ht (by decide)
  case h_11 _ _ hif hfor hswitch hopen _ _ _ _ =>
    simp only [blockStarters, List.mem_cons, List.not_mem_nil, or_false] at ht
    obtain hk | hk | hk | hk := ht
    · exact absurd hk hif
    · exact absurd hk hfor
    · exact absurd hk hswitch
    · exact absurd hk hopen

theorem statementWith_derives (n : Nat) : Derives At (statementWith rules n inner)
    fun us rest s => Finished OfPlain us rest s ∨ OfBraced us s := by
  unfold statementWith
  refine derives_current fun t _ => ?_
  split
  case h_1 => exact (varDecl_derives h n).imp fun _ _ _ hd => .inl (hd.imp fun _ => .decl)
  case h_2 => exact (constDecl_derives h).imp fun _ _ _ hd => .inl (hd.imp fun _ => .decl)
  case h_3 => exact (ifElse_derives h hs n).imp fun _ _ _ hb => .inr hb
  case h_4 => exact (loop_derives h hs n).imp fun _ _ _ hb => .inr hb
  case h_5 => exact (switch_derives h hs n).imp fun _ _ _ hb => .inr hb
  case h_6 => exact (blockStmt_derives hs n).imp fun _ _ _ hb => .inr hb
  case h_7 => exact derives_stops fun _ => ⟨_, rfl⟩
  case h_8 ht =>
    refine derives_take (ht ▸ nofun) fun _ => (derives_done OfPlain).imp fun us rest s hdone => ?_
    exact .inl (hdone [t] (.breakStmt ht))
  case h_9 ht =>
    refine derives_take (ht ▸ nofun) fun _ => (derives_done OfPlain).imp fun us rest s hdone => ?_
    exact .inl (hdone [t] (.continueStmt ht))
  case h_10 => exact (returnStmt_derives h n).imp fun _ _ _ hp => .inl hp
  case h_11 => exact (plainStatement_derives h n).imp fun _ _ _ hp => .inl hp

end Nested

/-- At a token of these kinds the rule stops where it stands. -/
def StopsAt {α : Type} (kinds : List Token.Kind) (p : Parser α) : Prop :=
  ∀ ts g, (first ts).kind ∈ kinds → ∃ e, p ⟨ts, g⟩ = .error e ⟨ts, g⟩

theorem StopsAt.bind {α β : Type} {kinds : List Token.Kind} {p : Parser α} {f : α → Parser β}
    (h : StopsAt kinds p) : StopsAt kinds (p >>= f) := by
  intro ts g hfirst
  obtain ⟨e, he⟩ := h ts g hfirst
  exact ⟨e, bind_of_error he⟩

theorem StopsAt.tail {α : Type} {κ : Token.Kind} {kinds : List Token.Kind} {p : Parser α}
    (h : StopsAt (κ :: kinds) p) : StopsAt kinds p :=
  fun ts g hfirst => h ts g (List.mem_cons_of_mem κ hfirst)

theorem StopsAt.derives {α : Type} {kinds : List Token.Kind} {p : Parser α} (h : StopsAt kinds p) :
    Derives (·.kind ∈ kinds) p fun _ _ _ => False := by
  intro ts g _ hfirst
  obtain ⟨e, he⟩ := h ts g hfirst
  rw [he]
  exact ⟨List.suffix_rfl, Nat.le_refl _⟩

theorem unary_stopsAt (rules : ExprRules) (n : Nat) : StopsAt (.kwElse :: closers) (unary rules n) := by
  intro ts g hfirst
  have hcurrent : current ⟨ts, g⟩ = .ok (first ts) ⟨ts, g⟩ := rfl
  unfold unary
  rw [bind_of_ok hcurrent]
  have hprimary : ∃ e, primary rules n ⟨ts, g⟩ = .error e ⟨ts, g⟩ := by
    unfold primary
    rw [bind_of_ok hcurrent]
    simp only [closers, List.mem_cons, List.not_mem_nil, or_false] at hfirst
    obtain hk | hk | hk | hk | hk := hfirst <;> rw [hk] <;> exact ⟨_, rfl⟩
  simp only [closers, List.mem_cons, List.not_mem_nil, or_false] at hfirst
  obtain hk | hk | hk | hk | hk := hfirst <;> rw [hk] <;> exact hprimary

theorem level_stopsAt {kinds : List Token.Kind} {unary : Parser Expr} (h : StopsAt kinds unary) (n : Nat)
    (levels : List (List (Token.Kind × Connective))) : StopsAt kinds (level n unary levels) := by
  induction levels with
  | nil => exact h
  | cons marks tighter ih => exact ih.bind

theorem expr_stopsAt (n : Nat) : StopsAt (.kwElse :: closers) (exprRules n).expr := by
  cases n with
  | zero => exact fun _ _ _ => ⟨_, rfl⟩
  | succ n => exact level_stopsAt (unary_stopsAt (exprRules n) n) n precedence

/-- No names and `:=` lie ahead of a token that is no name. -/
theorem startsShort_eq_false {ts : List Token} (h : (first ts).kind ∈ .kwElse :: closers) :
    startsShort ts = false := by
  refine Bool.eq_false_iff.mpr fun hs => ?_
  rw [first_of_startsShort hs] at h
  exact absurd h (by decide)

theorem simpleStatement_stopsAt (n m : Nat) : StopsAt (.kwElse :: closers) (simpleStatement (exprRules n) m) := by
  intro ts g hfirst
  have hcurrent : current ⟨ts, g⟩ = .ok (first ts) ⟨ts, g⟩ := rfl
  have hget : (get : Parser Cursor) ⟨ts, g⟩ = .ok ⟨ts, g⟩ ⟨ts, g⟩ := rfl
  have hshort : ¬ startsShort ts = true := by simp [startsShort_eq_false hfirst]
  unfold simpleStatement
  rw [bind_of_ok hcurrent, bind_of_ok hget, if_neg hshort]
  exact (expr_stopsAt n).bind ts g hfirst

/-- No statement begins with a token that ends one, or with `else`. -/
theorem statement_stopsAt (n : Nat) : StopsAt (.kwElse :: closers) (statement n) := by
  cases n with
  | zero => exact fun _ _ _ => ⟨_, rfl⟩
  | succ n =>
    intro ts g hfirst
    have hcurrent : current ⟨ts, g⟩ = .ok (first ts) ⟨ts, g⟩ := rfl
    have hplain : StopsAt (.kwElse :: closers) (plainStatement (exprRules (n + 1)) (n + 1)) :=
      (simpleStatement_stopsAt (n + 1) (n + 1)).bind
    have hstop := hplain ts g hfirst
    change ∃ e, statementWith _ _ _ _ = _
    unfold statementWith
    rw [bind_of_ok hcurrent]
    simp only [closers, List.mem_cons, List.not_mem_nil, or_false] at hfirst
    obtain hk | hk | hk | hk | hk := hfirst <;> rw [hk] <;> exact hstop

/-- **What a statement is read from is a phrase of it.** -/
theorem statement_derives (n : Nat) : Derives Anywhere (statement n)
    fun us rest s => Listed OfPlain OfBraced us rest s := by
  refine Derives.except ?_ (statement_stopsAt n).tail.derives
  induction n with
  | zero => exact derives_stops fun _ => ⟨_, rfl⟩
  | succ n ih =>
    have hinner : Derives Anywhere (statement n) fun us rest s => Listed OfPlain OfBraced us rest s :=
      ih.except (statement_stopsAt n).tail.derives
    exact statementWith_derives (rulesDerive_exprRules (n + 1)) hinner (n + 1)

theorem statement_derives_braced (n : Nat) :
    Derives (·.kind ∈ blockStarters) (statement n) fun us _ s => OfBraced us s := by
  cases n with
  | zero => exact derives_stops fun _ => ⟨_, rfl⟩
  | succ n =>
    exact statementWith_derives_braced (rulesDerive_exprRules (n + 1)) (statement_derives n) (n + 1)

/-! ### Functions and top level -/

/-- Names that wait for their type, a comma behind each. -/
inductive Waiting : List Token → List Binder → Prop where
  | none : Waiting [] []
  | more {us bs vs b c} : Waiting us bs → OfBinder vs b → c.kind = .comma →
      Waiting (us ++ (vs ++ [c])) (bs ++ [b])

theorem Waiting.eq_nil {us : List Token} {bs : List Binder} (h : Waiting us bs) (hbs : bs = []) :
    us = [] := by
  cases h with
  | none => rfl
  | more => simp at hbs

/-- The names that wait and those that follow are one list. -/
theorem Waiting.commas {us vs : List Token} {bs cs : List Binder} (h : Waiting us bs)
    (hcs : Commas1 OfBinder vs cs) : Commas1 OfBinder (us ++ vs) (bs ++ cs) := by
  induction h generalizing vs cs with
  | none => exact hcs
  | more _ hb hc ih =>
    have hall := ih (.more hb hc hcs)
    simpa using hall

theorem params_derives (h : RulesDerive rules) (n : Nat) (waiting : List Binder) :
    Derives At (params rules n waiting) fun vs _ ps =>
      ∀ us, Waiting us waiting → OfParams (us ++ vs) ps := by
  induction n generalizing At waiting with
  | zero => exact derives_stops fun _ => ⟨_, rfl⟩
  | succ n ih =>
    unfold params
    refine derives_kind fun κ => derives_ite (fun _ => ?_) fun _ => ?_
    · cases waiting with
      | nil =>
        refine derives_pure fun _ _ us hwaiting => ?_
        rw [hwaiting.eq_nil rfl]
        exact .none
      | cons b waiting => exact derives_stops fun _ => ⟨_, rfl⟩
    refine binder_derives.bind fun b => derives_kind fun κ => ?_
    split
    · refine derives_takeKind nofun fun c hc _ => (ih _).imp fun vs _ ps hps ws hb us hwaiting => ?_
      have hall := hps _ (.more hwaiting hb hc)
      simpa using hall
    · exact derives_stops fun _ => ⟨_, rfl⟩
    · refine h.type.anywhere.bind fun ty => derives_kind fun κ => ?_
      have hgroup : ∀ us vs ws, Waiting us waiting → OfBinder vs b → OfType ws ty →
          OfGroup (us ++ (vs ++ ws)) ((waiting ++ [b]).map fun b => ⟨b.name, ty, b.pos⟩) := by
        intro us vs ws hwaiting hb hty
        have htyped := OfGroup.typed (hwaiting.commas (.one hb)) hty
        simpa using htyped
      refine derives_ite (fun _ => ?_) fun hcomma => ?_
      · refine derives_pure fun _ _ ws hty vs hb us hwaiting => ?_
        rw [List.append_nil]
        exact .one (hgroup us vs ws hwaiting hb hty)
      · rw [Classical.not_not.mp hcomma]
        refine derives_takeKind nofun fun c hc _ => (ih []).give ?_
        intro xs _ ps hps ws hty vs hb us hwaiting
        have hmore := OfParams.more (hgroup us vs ws hwaiting hb hty) hc (hps [] .none)
        simpa using hmore

theorem resultTypes_derives (h : RulesDerive rules) (n : Nat) :
    Derives At (resultTypes rules n) fun us _ types => OfResults us types := by
  unfold resultTypes
  refine derives_kind fun κ => derives_ite (fun hopen => ?_) fun _ => derives_ite (fun _ => ?_) fun _ => ?_
  · subst hopen
    refine derives_takeKind nofun fun o ho _ => (commaList_derives h.type n).bind fun types => ?_
    exact derives_expect nofun fun c hc => derives_pure fun _ _ us htypes => .list ho htypes hc
  · exact h.type.anywhere.give fun us _ ty hty => .one hty
  · exact derives_pure fun _ _ => .none

theorem function_derives (h : RulesDerive rules)
    (hs : Derives Anywhere inner fun us rest s => Listed OfPlain OfBraced us rest s) (n : Nat) :
    Derives At (function rules n inner) fun us _ s => OfFunc us s := by
  unfold function
  refine derives_expect nofun fun k hk => binder_derives.bind fun b => derives_expect nofun fun o ho => ?_
  refine (params_derives h n []).bind fun ps => derives_expect nofun fun c hc => ?_
  refine (resultTypes_derives h n).bind fun results => (block_derives hs n).give ?_
  intro ws _ body hbody vs hresults us hparams xs hb
  obtain ⟨hx⟩ := hb
  have hfunc := OfFunc.func hk hx ho (hparams [] .none) hc hresults hbody
  simpa using hfunc

theorem declaration_stopsAt (n : Nat) : StopsAt closers (declaration n) := by
  intro ts g hfirst
  have hcurrent : current ⟨ts, g⟩ = .ok (first ts) ⟨ts, g⟩ := rfl
  have hget : (get : Parser Cursor) ⟨ts, g⟩ = .ok ⟨ts, g⟩ ⟨ts, g⟩ := rfl
  have hshort : ¬ startsShort ts = true := by
    simp [startsShort_eq_false (List.mem_cons_of_mem .kwElse hfirst)]
  have hglobal : ∀ t : Token, ∃ e, (do
      if startsShort (← get).tokens then
        let s ← simpleStatement (exprRules n) n
        statementEnd
        return s
      else fail (.notADeclaration t.describe) : Parser Stmt) ⟨ts, g⟩ = .error e ⟨ts, g⟩ := by
    intro t
    rw [bind_of_ok hget, if_neg hshort]
    exact ⟨_, rfl⟩
  unfold declaration
  rw [bind_of_ok hcurrent]
  simp only [closers, List.mem_cons, List.not_mem_nil, or_false] at hfirst
  obtain hk | hk | hk | hk := hfirst <;> rw [hk] <;> exact hglobal (first ts)

theorem declaration_derives (n : Nat) : Derives Anywhere (declaration n)
    fun us rest s => Listed OfGlobal OfFunc us rest s := by
  refine Derives.except ?_ (declaration_stopsAt n).derives
  have hrules : RulesDerive (exprRules n) := rulesDerive_exprRules n
  unfold declaration
  refine derives_current fun t _ => ?_
  split
  · exact (function_derives hrules (statement_derives n) n).imp fun _ _ _ hf => .inr hf
  · exact (varDecl_derives hrules n).imp fun _ _ _ hd => .inl (hd.imp fun _ => .decl)
  · exact (constDecl_derives hrules).imp fun _ _ _ hd => .inl (hd.imp fun _ => .decl)
  · refine derives_ifShort ?_ (derives_stops fun _ => ⟨_, rfl⟩)
    refine (simpleStatement_derives hrules n).bind fun s => ?_
    refine (derives_done OfGlobal).imp fun vs rest s' hdone us hs hshort => ?_
    obtain ⟨hsimple, hform⟩ := hs
    rw [List.append_assoc] at hshort
    obtain ⟨names, values, pos, rfl⟩ := hform hshort
    exact .inl (hdone us (.short hsimple))

/-- **What top level is read from is a phrase of the program.** -/
theorem declarations_derive (depth n : Nat) : Derives Anywhere (declarations depth n)
    fun us _ ds => OfProgram us ⟨ds⟩ := by
  rw [declarations_eq_statementList]
  exact (statementList_derives (declaration_derives depth) n).imp fun us _ ds hds => hds.1

end Parser
end Treewalk
