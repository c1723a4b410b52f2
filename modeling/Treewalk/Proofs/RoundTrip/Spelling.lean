/-
# How trees are spelled

What can be said of the words of a tree without reading them. Every word is
sound, so that it is scanned back. The first word tells what is to come. The
last word of an expression or a type may end a statement, so that a line that
ends with one gets its statement end.

Key definitions: `Token.Kind.startsExpr`, `Expr.isItem`.
Key theorems: `Expr.sound_words`, `Expr.startsExpr_words`, `Expr.ends_words`,
`Program.sound_lines`.
-/
import Treewalk.Proofs.RoundTrip.Written

namespace Treewalk

/-! ### Lists of trees

What is defined by recursion over lists inside the trees is an ordinary map or test. -/

theorem Expr.listWords_eq : ∀ es : List Expr,
    Expr.listWords es = separated (es.map Expr.operandWords)
  | [] => rfl
  | [_] => rfl
  | e :: e' :: es => by
    rw [Expr.listWords, Expr.listWords_eq (e' :: es)]
    rfl

theorem Expr.indexWords_cons (e : Expr) (es : List Expr) : Expr.indexWords (e :: es) =
    .openBracket :: e.operandWords ++ .closeBracket :: Expr.indexWords es :=
  rfl

theorem Expr.allUnplaced_eq : ∀ es : List Expr, Expr.allUnplaced es = es.map Expr.unplaced
  | [] => rfl
  | e :: es => congrArg (e.unplaced :: ·) (Expr.allUnplaced_eq es)

theorem Expr.allWritten_eq : ∀ es : List Expr, Expr.allWritten es = es.all Expr.isWritten
  | [] => rfl
  | e :: es => congrArg (e.isWritten && ·) (Expr.allWritten_eq es)

/-- An element of an array literal. -/
def Expr.isItem : Expr → Bool
  | .elements items _ => Expr.itemsWritten items
  | e => e.isWritten

theorem Expr.itemsWritten_eq : ∀ es : List Expr, Expr.itemsWritten es = es.all Expr.isItem
  | [] => rfl
  | e :: es => by
    have htail := Expr.itemsWritten_eq es
    cases e <;> simp [Expr.itemsWritten, Expr.isItem, htail]

theorem Stmt.allLines_eq : ∀ ss : List Stmt, Stmt.allLines ss = ss.flatMap Stmt.lines
  | [] => rfl
  | s :: ss => congrArg (s.lines ++ ·) (Stmt.allLines_eq ss)

theorem Stmt.allWritten_eq : ∀ ss : List Stmt, Stmt.allWritten ss = ss.all Stmt.isWritten
  | [] => rfl
  | s :: ss => congrArg (s.isWritten && ·) (Stmt.allWritten_eq ss)

theorem Stmt.allUnplaced_eq : ∀ ss : List Stmt, Stmt.allUnplaced ss = ss.map Stmt.unplaced
  | [] => rfl
  | s :: ss => congrArg (s.unplaced :: ·) (Stmt.allUnplaced_eq ss)

theorem Stmt.optionUnplaced_eq (s : Option Stmt) : Stmt.optionUnplaced s = s.map Stmt.unplaced := by
  cases s <;> rfl

/-! ### Soundness -/

@[simp] theorem Word.sound_marks : Word.openParen.sound = true ∧ Word.closeParen.sound = true ∧
    Word.openBracket.sound = true ∧ Word.closeBracket.sound = true ∧
    Word.openBrace.sound = true ∧ Word.closeBrace.sound = true ∧ Word.comma.sound = true ∧
    Word.colon.sound = true ∧ Word.dot.sound = true ∧ Word.semicolon.sound = true ∧
    Word.star.sound = true ∧ Word.ampersand.sound = true ∧ Word.equal.sound = true ∧
    Word.colonEqual.sound = true := by
  decide

@[simp] theorem Word.sound_keywords : Word.kwVar.sound = true ∧ Word.kwConst.sound = true ∧
    Word.kwFunc.sound = true ∧ Word.kwIf.sound = true ∧ Word.kwElse.sound = true ∧
    Word.kwFor.sound = true ∧ Word.kwSwitch.sound = true ∧ Word.kwCase.sound = true ∧
    Word.kwDefault.sound = true ∧ Word.kwBreak.sound = true ∧ Word.kwContinue.sound = true ∧
    Word.kwReturn.sound = true ∧ Word.nil.sound = true := by
  decide

@[simp] theorem Word.sound_bool (b : Bool) : (Word.bool b).sound = true := by
  cases b <;> decide

@[simp] theorem BinaryOp.sound_word (op : BinaryOp) : op.word.sound = true := by
  cases op <;> decide

@[simp] theorem LogicalOp.sound_word (op : LogicalOp) : op.word.sound = true := by
  cases op <;> decide

@[simp] theorem UnaryOp.sound_word (op : UnaryOp) : op.word.sound = true := by
  cases op <;> decide

@[simp] theorem StepOp.sound_word (op : StepOp) : op.word.sound = true := by
  cases op <;> decide

@[simp] theorem all_sound_grouped (b : Bool) (ws : List Word) :
    (grouped b ws).all Word.sound = ws.all Word.sound := by
  cases b <;> simp [grouped]

theorem Expr.isItem_of_isWritten {e : Expr} (h : e.isWritten = true) : e.isItem = true := by
  cases e
  case elements => cases h
  all_goals exact h

theorem Expr.itemsWritten_of_allWritten {es : List Expr} (h : Expr.allWritten es = true) :
    Expr.itemsWritten es = true := by
  rw [Expr.allWritten_eq, List.all_eq_true] at h
  rw [Expr.itemsWritten_eq, List.all_eq_true]
  exact fun e he => Expr.isItem_of_isWritten (h e he)

mutual

/-- The words of an expression are sound, if the parser can build it. -/
theorem Expr.sound_words : ∀ {e : Expr}, e.isItem = true → e.words.all Word.sound = true
  | .int .., h | .float .., h | .str .., h | .rune .., h | .name .., h | .addressOf .., h => by
    simpa [Expr.words, Expr.isItem, Expr.isWritten] using h
  | .bool .., _ | .nil _, _ => by simp [Expr.words]
  | .binary op lhs rhs _, h | .logical op lhs rhs _, h => by
    obtain ⟨hl, hr⟩ := Bool.and_eq_true_iff.mp h
    have hlhs := Expr.sound_words (Expr.isItem_of_isWritten hl)
    have hrhs := Expr.sound_words (Expr.isItem_of_isWritten hr)
    simp [Expr.words, hlhs, hrhs]
  | .unary op operand _, h | .deref operand _, h => by
    have hoperand := Expr.sound_words (e := operand) (Expr.isItem_of_isWritten h)
    simp [Expr.words, hoperand]
  | .call callee args _, h => by
    obtain ⟨hcallee, hargs⟩ := Bool.and_eq_true_iff.mp h
    have hlist := Expr.sound_listWords (Expr.itemsWritten_of_allWritten hargs)
    simp [Expr.words, hcallee, hlist]
  | .index x indices _, h => by
    obtain ⟨hx, hindices⟩ := Bool.and_eq_true_iff.mp h
    have hlist := Expr.sound_indexWords (Expr.itemsWritten_of_allWritten hindices)
    simp [Expr.words, hlist, (Bool.and_eq_true_iff.mp hx).1]
  | .array (.array size elem) elements _, h => by
    obtain ⟨htype, helements⟩ := Bool.and_eq_true_iff.mp h
    have ht := TypeExpr.sound_words (t := .array size elem) htype
    have hlist := Expr.sound_listWords helements
    simp [Expr.words, ht, hlist]
  | .elements items _, h => by
    have hlist := Expr.sound_listWords (show Expr.itemsWritten items = true from h)
    simp [Expr.words, hlist]

theorem Expr.sound_listWords : ∀ {es : List Expr}, Expr.itemsWritten es = true →
    (Expr.listWords es).all Word.sound = true
  | [], _ => rfl
  | [e], h => by
    rw [Expr.itemsWritten_eq] at h
    have he := Expr.sound_words (e := e) (by simpa using h)
    simpa [Expr.listWords] using he
  | e :: e' :: es, h => by
    rw [Expr.itemsWritten_eq, List.all_cons, Bool.and_eq_true] at h
    have he := Expr.sound_words h.1
    rw [← Expr.itemsWritten_eq] at h
    have htail := Expr.sound_listWords h.2
    simp [Expr.listWords, he, htail]

theorem Expr.sound_indexWords : ∀ {es : List Expr}, Expr.itemsWritten es = true →
    (Expr.indexWords es).all Word.sound = true
  | [], _ => rfl
  | e :: es, h => by
    rw [Expr.itemsWritten_eq, List.all_cons, Bool.and_eq_true] at h
    have he := Expr.sound_words h.1
    rw [← Expr.itemsWritten_eq] at h
    have htail := Expr.sound_indexWords h.2
    simp [Expr.indexWords, he, htail]

theorem TypeExpr.sound_words : ∀ {t : TypeExpr}, t.isWritten = true →
    t.words.all Word.sound = true
  | .int32, _ | .float32, _ | .bool, _ | .string, _ | .rune, _ => by decide
  | .array size elem, h => by
    obtain ⟨hsize, helem⟩ := Bool.and_eq_true_iff.mp h
    have hs := Expr.sound_words (Expr.isItem_of_isWritten hsize)
    have he := TypeExpr.sound_words helem
    simp [TypeExpr.words, hs, he]
  | .pointer target, h => by
    have ht := TypeExpr.sound_words (t := target) h
    simp [TypeExpr.words, ht]

end

theorem all_sound_separated : ∀ wss : List (List Word),
    (separated wss).all Word.sound = wss.all (·.all Word.sound)
  | [] => rfl
  | [ws] => by simp [separated]
  | ws :: ws' :: rest => by
    rw [separated, List.all_append, List.all_cons, all_sound_separated (ws' :: rest)]
    simp

theorem sound_exprsWords {es : List Expr} (h : Expr.allWritten es = true) :
    (exprsWords es).all Word.sound = true := by
  rw [Expr.allWritten_eq, List.all_eq_true] at h
  rw [exprsWords, all_sound_separated, List.all_map, List.all_eq_true]
  exact fun e he => Expr.sound_words (Expr.isItem_of_isWritten (h e he))

theorem sound_valueWords {es : List Expr} (h : Expr.allWritten es = true) :
    (valueWords es).all Word.sound = true := by
  unfold valueWords
  split
  · rfl
  · simp [sound_exprsWords h]

theorem sound_namesWords {xs : List Binder} (h : namesWritten xs = true) :
    (namesWords xs).all Word.sound = true := by
  have hall := (Bool.and_eq_true_iff.mp h).2
  rw [List.all_eq_true] at hall
  rw [namesWords, all_sound_separated, List.all_map, List.all_eq_true]
  exact fun x hx => by simpa using hall x hx

theorem sound_typeWords {t : Option TypeExpr} (h : t.all TypeExpr.isWritten = true) :
    (typeWords t).all Word.sound = true := by
  cases t with
  | none => rfl
  | some t => exact TypeExpr.sound_words h

theorem Target.sound_words {t : Target} (h : t.isWritten = true) :
    t.words.all Word.sound = true := by
  cases t with
  | name x | deref x => simpa [Target.words, Target.isWritten] using h
  | index x indices =>
    obtain ⟨hx, hindices⟩ := Bool.and_eq_true_iff.mp h
    have hlist := Expr.sound_indexWords (Expr.itemsWritten_of_allWritten hindices)
    simp [Target.words, hlist, (Bool.and_eq_true_iff.mp hx).1]

theorem Stmt.sound_simpleWords {s : Stmt} (h : s.isHeader = true) :
    s.simpleWords.all Word.sound = true := by
  cases s with
  | shortDecl names es pos =>
    obtain ⟨hnames, hes⟩ := Bool.and_eq_true_iff.mp h
    have hn := sound_namesWords (Bool.and_eq_true_iff.mp hnames).1
    simp [Stmt.simpleWords, hn, sound_exprsWords hes]
  | assign target op e pos =>
    obtain ⟨hleft, he⟩ := Bool.and_eq_true_iff.mp h
    obtain ⟨htarget, hop⟩ := Bool.and_eq_true_iff.mp hleft
    have hvalue := Expr.sound_words (Expr.isItem_of_isWritten he)
    simp [Stmt.simpleWords, Target.sound_words htarget, hop, hvalue]
  | step target op pos => simp [Stmt.simpleWords, Target.sound_words (t := target) h]
  | expr e pos => exact Expr.sound_words (Expr.isItem_of_isWritten h)
  | _ => cases h

theorem sound_headerWords {init post : Option Stmt} {condition : Option Expr}
    (hinit : init.all Stmt.isHeader = true) (hcondition : condition.all Expr.isWritten = true)
    (hpost : post.all Stmt.isHeader = true) :
    (headerWords init condition post).all Word.sound = true := by
  have hsimple : ∀ {s : Option Stmt}, s.all Stmt.isHeader = true →
      (s.elim [] Stmt.simpleWords).all Word.sound = true := by
    intro s hs
    cases s with
    | none => rfl
    | some s => exact Stmt.sound_simpleWords hs
  have hexpr : (condition.elim [] Expr.words).all Word.sound = true := by
    cases condition with
    | none => rfl
    | some e => exact Expr.sound_words (Expr.isItem_of_isWritten hcondition)
  unfold headerWords
  split
  · rfl
  · exact hexpr
  · simp [hsimple hinit, hexpr, hsimple hpost]

theorem sound_params {ps : List Param}
    (h : ps.all (fun p => (Word.name p.name).sound && p.type.isWritten) = true) :
    (separated (ps.map paramWords)).all Word.sound = true := by
  rw [List.all_eq_true] at h
  rw [all_sound_separated, List.all_map, List.all_eq_true]
  intro p hp
  obtain ⟨hname, htype⟩ := Bool.and_eq_true_iff.mp (h p hp)
  simp [paramWords, hname, TypeExpr.sound_words htype]

theorem sound_resultWords {ts : List TypeExpr} (h : ts.all TypeExpr.isWritten = true) :
    (resultWords ts).all Word.sound = true := by
  rw [List.all_eq_true] at h
  have hall : (separated (ts.map TypeExpr.words)).all Word.sound = true := by
    rw [all_sound_separated, List.all_map, List.all_eq_true]
    exact fun t ht => TypeExpr.sound_words (h t ht)
  match ts, hall with
  | [], _ => rfl
  | [t], hall => exact hall
  | t :: t' :: ts, hall => simpa [resultWords] using hall

/-- Whether all words of the lines are sound. -/
def soundLines (ls : List Line) : Bool := ls.all (·.all Word.sound)

@[simp] theorem soundLines_nil : soundLines [] = true := rfl

@[simp] theorem soundLines_cons (l : Line) (ls : List Line) :
    soundLines (l :: ls) = (l.all Word.sound && soundLines ls) := rfl

@[simp] theorem soundLines_append (ls ms : List Line) :
    soundLines (ls ++ ms) = (soundLines ls && soundLines ms) := by
  simp [soundLines]

mutual

/-- The words of a statement are sound, if the parser can build it. -/
theorem Stmt.sound_lines : ∀ {s : Stmt}, s.isWritten = true → soundLines s.lines = true
  | .varDecl names type es _, h => by
    obtain ⟨hleft, -⟩ := Bool.and_eq_true_iff.mp h
    obtain ⟨hleft, hes⟩ := Bool.and_eq_true_iff.mp hleft
    obtain ⟨hnames, htype⟩ := Bool.and_eq_true_iff.mp hleft
    simp [Stmt.lines, sound_namesWords hnames, sound_typeWords htype, sound_valueWords hes]
  | .constDecl x type e _, h => by
    obtain ⟨hleft, he⟩ := Bool.and_eq_true_iff.mp h
    obtain ⟨hx, htype⟩ := Bool.and_eq_true_iff.mp hleft
    have hvalue := Expr.sound_words (Expr.isItem_of_isWritten he)
    simp [Stmt.lines, hx, sound_typeWords htype, hvalue]
  | .shortDecl .., h | .assign .., h | .step .., h => by
    simp only [Stmt.lines, soundLines_cons, soundLines_nil, Bool.and_true]
    exact Stmt.sound_simpleWords h
  | .expr (.call callee args pos) pos', h => by
    simp only [Stmt.lines, soundLines_cons, soundLines_nil, Bool.and_true]
    exact Expr.sound_words h
  | .block body _, h => by
    simp [Stmt.lines, Stmt.sound_allLines (show Stmt.allWritten body = true from h)]
  | .ifElse branches otherwise _, h => by
    obtain ⟨hleft, hotherwise⟩ := Bool.and_eq_true_iff.mp h
    have hbranches := Stmt.sound_branchLines [.kwIf] (by simp) (Bool.and_eq_true_iff.mp hleft).2
    simp [Stmt.lines, hbranches, Stmt.sound_elseLines hotherwise]
  | .loop init condition post body _, h => by
    obtain ⟨hleft, hbody⟩ := Bool.and_eq_true_iff.mp h
    obtain ⟨hleft, hpost⟩ := Bool.and_eq_true_iff.mp hleft
    obtain ⟨hinit, hcondition⟩ := Bool.and_eq_true_iff.mp hleft
    simp [Stmt.lines, sound_headerWords hinit hcondition hpost, Stmt.sound_allLines hbody]
  | .switch subject clauses otherwise _, h => by
    obtain ⟨hleft, hotherwise⟩ := Bool.and_eq_true_iff.mp h
    obtain ⟨hsubject, hclauses⟩ := Bool.and_eq_true_iff.mp hleft
    have hs := Expr.sound_words (Expr.isItem_of_isWritten hsubject)
    simp [Stmt.lines, hs, Stmt.sound_clauseLines hclauses, Stmt.sound_defaultLines hotherwise]
  | .breakStmt _, _ | .continueStmt _, _ => by simp [Stmt.lines]
  | .returnStmt es _, h => by
    have hes := sound_exprsWords (show Expr.allWritten es = true from h)
    simp [Stmt.lines, hes]

theorem Stmt.sound_allLines : ∀ {ss : List Stmt}, Stmt.allWritten ss = true →
    soundLines (Stmt.allLines ss) = true
  | [], _ => rfl
  | s :: ss, h => by
    obtain ⟨hs, hss⟩ := Bool.and_eq_true_iff.mp h
    simp [Stmt.allLines, Stmt.sound_lines hs, Stmt.sound_allLines hss]

theorem Stmt.sound_branchLines : ∀ (lead : List Word) {branches : List (Branch Stmt)},
    lead.all Word.sound = true → Stmt.branchesWritten branches = true →
    soundLines (Stmt.branchLines lead branches) = true
  | _, [], _, _ => rfl
  | lead, ⟨condition, body⟩ :: rest, hlead, h => by
    obtain ⟨hleft, hrest⟩ := Bool.and_eq_true_iff.mp h
    obtain ⟨hcondition, hbody⟩ := Bool.and_eq_true_iff.mp hleft
    have hc := Expr.sound_words (Expr.isItem_of_isWritten hcondition)
    have htail := Stmt.sound_branchLines [.closeBrace, .kwElse, .kwIf] (by simp) hrest
    simp [Stmt.branchLines, hlead, hc, Stmt.sound_allLines hbody, htail]

theorem Stmt.sound_elseLines : ∀ {otherwise : Option (List Stmt)},
    Stmt.otherwiseWritten otherwise = true → soundLines (Stmt.elseLines otherwise) = true
  | none, _ => by simp [Stmt.elseLines]
  | some body, h => by
    have hbody := Stmt.sound_allLines (show Stmt.allWritten body = true from h)
    simp [Stmt.elseLines, hbody]

theorem Stmt.sound_clauseLines : ∀ {clauses : List (Clause Stmt)},
    Stmt.clausesWritten clauses = true → soundLines (Stmt.clauseLines clauses) = true
  | [], _ => rfl
  | ⟨values, body, _⟩ :: rest, h => by
    obtain ⟨hleft, hrest⟩ := Bool.and_eq_true_iff.mp h
    obtain ⟨hleft, hbody⟩ := Bool.and_eq_true_iff.mp hleft
    have hvalues := sound_exprsWords (Bool.and_eq_true_iff.mp hleft).2
    simp [Stmt.clauseLines, hvalues, Stmt.sound_allLines hbody, Stmt.sound_clauseLines hrest]

theorem Stmt.sound_defaultLines : ∀ {otherwise : Option (List Stmt)},
    Stmt.otherwiseWritten otherwise = true → soundLines (Stmt.defaultLines otherwise) = true
  | none, _ => rfl
  | some body, h => by
    have hbody := Stmt.sound_allLines (show Stmt.allWritten body = true from h)
    simp [Stmt.defaultLines, hbody]

end

theorem Stmt.sound_declaration {s : Stmt} (h : s.isDeclaration = true) :
    soundLines s.lines = true := by
  cases s with
  | func f pos =>
    obtain ⟨hleft, hbody⟩ := Bool.and_eq_true_iff.mp h
    obtain ⟨hleft, hresults⟩ := Bool.and_eq_true_iff.mp hleft
    obtain ⟨hname, hparams⟩ := Bool.and_eq_true_iff.mp hleft
    simp [Stmt.lines, hname, sound_params hparams, sound_resultWords hresults,
      Stmt.sound_allLines hbody]
  | varDecl names type es pos => exact Stmt.sound_lines h
  | constDecl x type e pos => exact Stmt.sound_lines h
  | shortDecl names es pos => exact Stmt.sound_lines h
  | _ => cases h

/-- **The words of a program are sound,** if the parser can build it. -/
theorem Program.sound_lines {p : Program} (h : p.isWritten = true) :
    ∀ l ∈ p.lines, ∀ w ∈ l, w.sound = true := by
  rw [Program.isWritten, List.all_eq_true] at h
  rw [Program.lines, Stmt.allLines_eq]
  intro l hl w hw
  obtain ⟨s, hs, hl⟩ := List.mem_flatMap.mp hl
  have hsound := Stmt.sound_declaration (h s hs)
  rw [soundLines, List.all_eq_true] at hsound
  exact List.all_eq_true.mp (hsound l hl) w hw

/-! ### First words -/

/-- The kinds an expression can begin with. -/
def Token.Kind.startsExpr : Token.Kind → Bool
  | .int | .float | .str | .rune | .kwTrue | .kwFalse | .kwNil | .openParen | .openBracket
  | .identifier | .minus | .bang | .star | .ampersand => true
  | _ => false

/-- Kinds that a test tells apart. -/
theorem Token.Kind.ne_of_test {test : Token.Kind → Bool} {k k' : Token.Kind} (h : test k = true)
    (h' : test k' = false) : k ≠ k' := by
  rintro rfl
  rw [h] at h'
  cases h'

theorem firstKind_calleeWords (callee : String) (r : List Word) :
    firstKind (calleeWords callee ++ r) = .identifier := by
  unfold calleeWords
  split <;> rfl

/-- What an expression begins with that needs no parentheses. -/
theorem Expr.startsExpr_of_not_compound {e : Expr} (h : e.isWritten = true)
    (hc : e.isCompound = false) (r : List Word) :
    (firstKind (e.words ++ r)).startsExpr = true := by
  match e, h with
  | .int .., _ | .float .., _ | .str .., _ | .rune .., _ | .nil _, _ | .name .., _
  | .index .., _ => rfl
  | .bool b _, _ => cases b <;> rfl
  | .call callee args _, _ =>
    rw [Expr.words, List.append_assoc, List.append_assoc, firstKind_calleeWords]
    rfl
  | .array (.array ..) .., _ => rfl
  | .binary .., _ | .logical .., _ | .unary .., _ | .addressOf .., _ | .deref .., _ => cases hc

theorem Expr.startsExpr_operandWords {e : Expr} (h : e.isWritten = true) (r : List Word) :
    (firstKind (e.operandWords ++ r)).startsExpr = true := by
  unfold Expr.operandWords
  cases hc : e.isCompound with
  | false => exact Expr.startsExpr_of_not_compound h hc r
  | true => rfl

theorem Expr.startsExpr_words {e : Expr} (h : e.isWritten = true) (r : List Word) :
    (firstKind (e.words ++ r)).startsExpr = true := by
  cases hc : e.isCompound with
  | false => exact Expr.startsExpr_of_not_compound h hc r
  | true =>
    match e, hc with
    | .binary _ lhs rhs _, _ | .logical _ lhs rhs _, _ =>
      rw [Expr.words, List.append_assoc]
      exact Expr.startsExpr_operandWords (Bool.and_eq_true_iff.mp h).1 _
    | .unary op _ _, _ => cases op <;> rfl
    | .addressOf .., _ | .deref .., _ => rfl

theorem startsExpr_exprsWords {es : List Expr} (hne : es ≠ []) (h : Expr.allWritten es = true)
    (r : List Word) : (firstKind (exprsWords es ++ r)).startsExpr = true := by
  match es, hne with
  | [e], _ => exact Expr.startsExpr_words (Bool.and_eq_true_iff.mp h).1 r
  | e :: e' :: es, _ =>
    rw [exprsWords, List.map_cons, List.map_cons, separated, List.append_assoc]
    exact Expr.startsExpr_words (Bool.and_eq_true_iff.mp h).1 _

theorem Target.startsExpr_words (t : Target) (r : List Word) :
    (firstKind (t.words ++ r)).startsExpr = true := by
  cases t <;> rfl

theorem firstKind_namesWords {xs : List Binder} (h : xs ≠ []) (r : List Word) :
    firstKind (namesWords xs ++ r) = .identifier := by
  match xs, h with
  | [x], _ => rfl
  | x :: y :: xs, _ => rfl

theorem Stmt.startsExpr_simpleWords {s : Stmt} (h : s.isHeader = true) (r : List Word) :
    (firstKind (s.simpleWords ++ r)).startsExpr = true := by
  cases s with
  | shortDecl names es pos =>
    obtain ⟨h, -⟩ := Bool.and_eq_true_iff.mp h
    have hne : names ≠ [] := by
      simpa using (Bool.and_eq_true_iff.mp (Bool.and_eq_true_iff.mp h).1).1
    rw [Stmt.simpleWords, List.append_assoc, firstKind_namesWords hne]
    rfl
  | assign target op e pos =>
    rw [Stmt.simpleWords, List.append_assoc]
    exact target.startsExpr_words _
  | step target op pos =>
    rw [Stmt.simpleWords, List.append_assoc]
    exact target.startsExpr_words _
  | expr e pos => exact Expr.startsExpr_words h r
  | _ => cases h

theorem Expr.starts_item {e : Expr} (h : e.isItem = true) (r : List Word) :
    (firstKind (e.operandWords ++ r)).startsExpr = true ∨
      firstKind (e.operandWords ++ r) = .openBrace := by
  match e, h with
  | .elements items _, _ => exact .inr rfl
  | .int .., h | .float .., h | .str .., h | .rune .., h | .bool .., h | .nil _, h | .name .., h
  | .binary .., h | .logical .., h | .unary .., h | .addressOf .., h | .deref .., h
  | .call .., h | .index .., h | .array .., h => exact .inl (Expr.startsExpr_operandWords h r)

theorem TypeExpr.startsType_words (t : TypeExpr) (r : List Word) :
    (firstKind (t.words ++ r)).startsType = true := by
  cases t <;> rfl

/-- The kinds a statement can begin with. -/
def Token.Kind.beginsStatement : Token.Kind → Bool
  | .kwVar | .kwConst | .kwFunc | .kwIf | .kwFor | .kwSwitch | .openBrace | .kwBreak
  | .kwContinue | .kwReturn => true
  | k => k.startsExpr

theorem Token.Kind.beginsStatement_of_startsExpr {k : Token.Kind} (h : k.startsExpr = true) :
    k.beginsStatement = true := by
  cases k <;> first | rfl | cases h

theorem firstKind_words {l : Line} (h : l ≠ []) (ls : List Line) (r : List Word) :
    firstKind (wordsOf (l :: ls) ++ r) = firstKind l := by
  match l, h with
  | w :: l, _ => rfl

theorem Stmt.begins_simple {s : Stmt} (h : s.isHeader = true) (r : List Word) :
    (firstKind (wordsOf [s.simpleWords] ++ r)).beginsStatement = true := by
  have hstart := Stmt.startsExpr_simpleWords h []
  rw [List.append_nil] at hstart
  have hne : s.simpleWords ≠ [] := by
    intro hnil
    rw [hnil] at hstart
    cases hstart
  rw [firstKind_words hne]
  exact Token.Kind.beginsStatement_of_startsExpr hstart

theorem Stmt.begins_lines {s : Stmt} (h : s.isWritten = true ∨ s.isDeclaration = true)
    (r : List Word) : (firstKind (wordsOf s.lines ++ r)).beginsStatement = true := by
  cases s with
  | varDecl | constDecl | block | loop | switch | breakStmt | continueStmt | returnStmt | func =>
    rfl
  | shortDecl | assign | step =>
    refine Stmt.begins_simple ?_ r
    rcases h with h | h
    · exact h
    · first | exact h | cases h
  | expr e pos =>
    refine Stmt.begins_simple (s := .expr e pos) ?_ r
    rcases h with h | h
    · cases e with
      | call => exact h
      | _ => cases h
    · cases h
  | ifElse branches otherwise pos =>
    cases branches with
    | nil => simp [Stmt.isWritten, Stmt.isDeclaration] at h
    | cons b bs => rfl

/-! ### Last words -/

theorem Expr.ends_indexWords : ∀ {l : Line} (es : List Expr), l.ends = true →
    Line.ends (l ++ Expr.indexWords es) = true
  | l, [], h => by simpa [Expr.indexWords] using h
  | l, e :: es, _ => by
    have htail := Expr.ends_indexWords es
      (Line.ends_concat (l ++ .openBracket :: grouped e.isCompound e.words) .closeBracket)
    simpa [Expr.indexWords] using htail

/-- What an expression ends with that needs no parentheses. -/
theorem Expr.ends_of_not_compound {e : Expr} (hc : e.isCompound = false) :
    Line.ends e.words = true := by
  match e with
  | .int .. | .float .. | .str .. | .rune .. | .nil _ | .name .. => rfl
  | .bool b _ => cases b <;> rfl
  | .call callee args _ => exact Line.ends_concat _ _
  | .index x indices _ => exact Expr.ends_indexWords indices (Line.ends_concat [] (.name x))
  | .array type items _ => exact Line.ends_concat _ _
  | .elements items _ => exact Line.ends_concat _ _

theorem Expr.ends_operandWords (e : Expr) : Line.ends e.operandWords = true := by
  unfold Expr.operandWords
  cases hc : e.isCompound with
  | false => exact Expr.ends_of_not_compound hc
  | true => exact Line.ends_concat _ _

theorem Expr.ends_words (e : Expr) : Line.ends e.words = true := by
  cases hc : e.isCompound with
  | false => exact Expr.ends_of_not_compound hc
  | true =>
    match e with
    | .binary _ lhs rhs _ | .logical _ lhs rhs _ =>
      exact Line.ends_append (Line.ends_cons (Expr.ends_operandWords rhs))
    | .unary _ operand _ | .deref operand _ => exact Line.ends_cons (Expr.ends_operandWords operand)
    | .addressOf .. => rfl

theorem TypeExpr.ends_words : ∀ t : TypeExpr, Line.ends t.words = true
  | .int32 | .float32 | .bool | .string | .rune => rfl
  | .array _ elem => Line.ends_append (Line.ends_cons (TypeExpr.ends_words elem))
  | .pointer target => Line.ends_cons (TypeExpr.ends_words target)

/-- A list with commas ends as its last item does. -/
theorem ends_separated : ∀ {wss : List (List Word)}, wss ≠ [] →
    (∀ ws ∈ wss, Line.ends ws = true) → Line.ends (separated wss) = true
  | [ws], _, h => h ws (by simp)
  | ws :: ws' :: rest, _, h =>
    Line.ends_append (Line.ends_cons (ends_separated (by simp) fun v hv =>
      h v (List.mem_cons_of_mem _ hv)))

theorem ends_exprsWords {es : List Expr} (h : es ≠ []) : Line.ends (exprsWords es) = true := by
  refine ends_separated (by simpa using h) fun ws hws => ?_
  obtain ⟨e, -, rfl⟩ := List.mem_map.mp hws
  exact e.ends_words

/-- A declaration ends with its values, or with its type if it has none. -/
theorem ends_declaration {l : Line} {t : Option TypeExpr} {es : List Expr}
    (h : (t.isSome || !es.isEmpty) = true) :
    Line.ends (l ++ typeWords t ++ valueWords es) = true := by
  cases es with
  | nil =>
    obtain ⟨t, rfl⟩ := Option.isSome_iff_exists.mp (by simpa using h)
    simpa [valueWords, typeWords] using Line.ends_append t.ends_words
  | cons e es => exact Line.ends_append (Line.ends_cons (ends_exprsWords (by simp)))

theorem Stmt.ends_simpleWords {s : Stmt} (h : s.isHeader = true) :
    Line.ends s.simpleWords = true := by
  cases s with
  | shortDecl names es pos =>
    obtain ⟨hleft, -⟩ := Bool.and_eq_true_iff.mp h
    have hne : es ≠ [] := by simpa using (Bool.and_eq_true_iff.mp hleft).2
    exact Line.ends_append (Line.ends_cons (ends_exprsWords hne))
  | assign target op e pos => exact Line.ends_append (Line.ends_cons e.ends_words)
  | step target op pos =>
    refine Line.ends_append ?_
    cases op <;> rfl
  | expr e pos => exact e.ends_words
  | _ => cases h

/-! ### Lengths -/

theorem length_le_separated {α : Type} {words : α → List Word} (h : ∀ x, words x ≠ []) :
    ∀ xs : List α, xs.length ≤ (separated (xs.map words)).length
  | [] => Nat.le_refl 0
  | [x] => List.length_pos_iff.mpr (h x)
  | x :: y :: xs => by
    have htail := length_le_separated h (y :: xs)
    simp only [List.map_cons, separated, List.length_append, List.length_cons] at htail ⊢
    omega

theorem length_mem_separated {α : Type} {words : α → List Word} {x : α} :
    ∀ {xs : List α}, x ∈ xs → (words x).length ≤ (separated (xs.map words)).length
  | [y], h => by
    rw [List.mem_singleton.mp h]
    exact Nat.le_refl _
  | y :: z :: xs, h => by
    rw [List.map_cons, List.map_cons, separated, List.length_append, List.length_cons]
    rcases List.mem_cons.mp h with rfl | h
    · omega
    · have htail : (words x).length ≤ (separated ((z :: xs).map words)).length :=
        length_mem_separated h
      rw [List.map_cons] at htail
      omega

theorem Expr.words_ne_nil (e : Expr) : e.words ≠ [] := Line.ne_nil_of_ends e.ends_words

theorem Expr.operandWords_ne_nil (e : Expr) : e.operandWords ≠ [] :=
  Line.ne_nil_of_ends e.ends_operandWords

theorem TypeExpr.words_ne_nil (t : TypeExpr) : t.words ≠ [] := Line.ne_nil_of_ends t.ends_words

theorem paramWords_ne_nil (p : Param) : paramWords p ≠ [] := List.cons_ne_nil _ _

theorem Expr.length_le_listWords (es : List Expr) : es.length ≤ (Expr.listWords es).length := by
  rw [Expr.listWords_eq]
  exact length_le_separated Expr.operandWords_ne_nil es

theorem Expr.length_mem_listWords {e : Expr} {es : List Expr} (h : e ∈ es) :
    e.operandWords.length ≤ (Expr.listWords es).length := by
  rw [Expr.listWords_eq]
  exact length_mem_separated h

theorem Expr.length_le_indexWords : ∀ es : List Expr, es.length ≤ (Expr.indexWords es).length
  | [] => Nat.le_refl 0
  | e :: es => by
    have htail := Expr.length_le_indexWords es
    simp only [Expr.indexWords, List.length_append, List.length_cons]
    omega

theorem Expr.length_mem_indexWords {e : Expr} : ∀ {es : List Expr}, e ∈ es →
    e.operandWords.length ≤ (Expr.indexWords es).length
  | e' :: es, h => by
    rw [Expr.indexWords_cons, List.length_append, List.length_cons, List.length_cons]
    rcases List.mem_cons.mp h with rfl | h
    · omega
    · have htail := Expr.length_mem_indexWords h
      omega

end Treewalk
