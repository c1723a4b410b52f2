/-
# Functions may stand anywhere

Functions are made known before anything else is executed. So their places
among the declarations of a program matter to nothing but the order of the
symbol table: if their names differ, putting the functions elsewhere changes
neither what is printed nor what is reported, and the entries are the same up
to their order.

From the machine before anything has run, hoisting only adds functions and
their entries (`Eval.run_hoistAll`). In another order it gives a machine that
is tied to the first by the numbers of the entries (`exists_tied_knowingAll`),
and what the programs do from there on is coupled.

Key definitions: `Machine.knowing`, `Declared.entry`.
Key theorems: `exists_numbering_of_perm`, `Eval.run_hoistAll`,
`exists_tied_knowingAll`, `Bond.Matches.perm`, `functions_may_stand_anywhere`.
-/
import Mathlib.Data.List.Nodup
import Mathlib.Logic.Equiv.Basic
import Treewalk.Proofs.Bond.Tree

namespace Treewalk

/-! ### Lists in another order -/

section Lists

variable {α β : Type}

/-- What stands under a key is the same in another order, if keys differ. -/
theorem find?_key_of_perm [BEq β] [LawfulBEq β] {l l' : List α} {key : α → β} (h : l'.Perm l)
    (hkeys : (l.map key).Nodup) (x : β) : l'.find? (key · == x) = l.find? (key · == x) := by
  cases hl : l.find? (key · == x) with
  | none =>
    rw [List.find?_eq_none] at hl ⊢
    exact fun a ha => hl a (h.mem_iff.mp ha)
  | some b =>
    have hb : key b = x := by simpa using List.find?_some hl
    cases hl' : l'.find? (key · == x) with
    | none =>
      have hmem := h.mem_iff.mpr (List.mem_of_find?_eq_some hl)
      exact absurd hb (by simpa using List.find?_eq_none.mp hl' b hmem)
    | some a =>
      have ha : key a = x := by simpa using List.find?_some hl'
      have hmem := h.mem_iff.mp (List.mem_of_find?_eq_some hl')
      have hsame : a = b := List.inj_on_of_nodup_map hkeys hmem (List.mem_of_find?_eq_some hl)
        (ha.trans hb.symm)
      rw [hsame]

/-- The same numbering behind a first element, which stays. -/
def behindFirst (σ : Equiv.Perm Nat) : Equiv.Perm Nat where
  toFun i := if i = 0 then 0 else σ (i - 1) + 1
  invFun i := if i = 0 then 0 else σ.symm (i - 1) + 1
  left_inv i := by cases i <;> simp
  right_inv i := by cases i <;> simp

/-- The elements of a list in another order are the same under other numbers. -/
theorem exists_numbering_of_perm {l l' : List α} (h : l.Perm l') :
    ∃ σ : Equiv.Perm Nat, (∀ i, l.length ≤ i → σ i = i) ∧ ∀ i : Nat, l'[σ i]? = l[i]? := by
  induction h with
  | nil => exact ⟨Equiv.refl Nat, fun _ _ => rfl, fun _ => rfl⟩
  | @cons a l l' _ ih =>
    obtain ⟨σ, hfixed, hsame⟩ := ih
    have hsucc : ∀ i, behindFirst σ (i + 1) = σ i + 1 := fun i => by simp [behindFirst]
    refine ⟨behindFirst σ, fun i hi => ?_, fun i => ?_⟩
    · cases i with
      | zero => rfl
      | succ i => rw [hsucc, hfixed i (Nat.le_of_succ_le_succ hi)]
    · cases i with
      | zero => rfl
      | succ i => rw [hsucc, List.getElem?_cons_succ, List.getElem?_cons_succ, hsame]
  | swap a b l =>
    have hfixed : ∀ i, 2 ≤ i → Equiv.swap 0 1 i = i := fun i hi =>
      Equiv.swap_apply_of_ne_of_ne (by omega) (by omega)
    refine ⟨Equiv.swap 0 1, fun i hi => hfixed i ?_, fun i => ?_⟩
    · exact Nat.le_trans (by simp) hi
    · rcases i with _ | _ | i
      · rfl
      · rfl
      · rw [hfixed _ (by omega)]
        rfl
  | @trans l₁ l₂ l₃ h₁ _ ih₁ ih₂ =>
    obtain ⟨σ, hfixed, hsame⟩ := ih₁
    obtain ⟨τ, hfixed', hsame'⟩ := ih₂
    refine ⟨σ.trans τ, fun i hi => ?_, fun i => ?_⟩
    · rw [Equiv.trans_apply, hfixed i hi, hfixed' i (h₁.length_eq ▸ hi)]
    · rw [Equiv.trans_apply, hsame', hsame]

end Lists

/-! ### Hoisting -/

/-- The name by which a function is known. -/
abbrev Declared.name (d : Declared) : String := d.func.name

/-- The entry of a function, wherever it stands. -/
def Declared.entry (d : Declared) : Symbol :=
  ⟨d.name, "function", Scope.label .global, "nil", d.pos, 0⟩

theorem Table.put_of_lookup_none {α : Type} {name : String} (a : α) : ∀ {t : Names α},
    List.lookup name t = none → t.put name a = t ++ [(name, a)]
  | [], _ => rfl
  | (k, b) :: t, h => by
    rw [List.lookup_cons] at h
    cases hk : name == k with
    | true =>
      rw [hk] at h
      cases h
    | false =>
      rw [hk] at h
      have hne : ¬ (k == name) = true := by
        rw [beq_iff_eq]
        exact fun heq => by simp [heq] at hk
      rw [Table.put, if_neg hne, Table.put_of_lookup_none a h]
      rfl

namespace Machine

variable {m : Machine} {d : Declared} {name : String}

/-- The machine that knows one more function. -/
def knowing (m : Machine) (d : Declared) : Machine :=
  { m with
    functions := m.functions ++ [(d.name, d.func)]
    symbols := (m.symbols.declare d.name "function" "nil" d.pos).2 }

/-- The machine neither knows a function of the name nor has an entry with it. -/
structure Lacks (m : Machine) (name : String) : Prop where
  unknown : m.functions.lookup name = none
  unlisted : ∀ e ∈ m.symbols.symbols, e.name ≠ name

/-- A declaration under a name that is lacking is new. -/
theorem Lacks.find?_eq_none (h : m.Lacks name) (scope : String) (pos : Position) :
    m.symbols.find? (name, scope, pos) = none := by
  refine Option.eq_none_iff_forall_ne_some.mpr fun i hi => ?_
  obtain ⟨e, he, hkey⟩ := m.symbols.wf.find?_iff.mp hi
  exact h.unlisted e (Array.mem_of_getElem? he) (congrArg Prod.fst hkey)

/-- The entry of a function is the last. -/
theorem symbols_knowing (h : m.Lacks d.name) (hs : m.symbols.scopes = [.global]) :
    (m.knowing d).symbols.symbols =
      m.symbols.symbols.push { d.entry with order := m.symbols.symbols.size } := by
  have hglobal : m.symbols.current.label = Scope.label .global := by
    rw [SymbolTable.Raw.current, hs]
    rfl
  have hnew := (SymbolTable.symbols_declare_of_none (h.find?_eq_none _ d.pos) "function" "nil").2
  rw [hglobal] at hnew
  exact hnew

theorem scopes_knowing (m : Machine) (d : Declared) :
    (m.knowing d).symbols.scopes = m.symbols.scopes :=
  SymbolTable.scopes_declare ..

theorem Lacks.knowing (h : m.Lacks name) (hd : m.Lacks d.name) (hs : m.symbols.scopes = [.global])
    (hne : name ≠ d.name) : (m.knowing d).Lacks name := by
  constructor
  · have hname : (name == d.name) = false := beq_false_of_ne hne
    have hsingle : List.lookup name [(d.name, d.func)] = none := by
      rw [List.lookup_cons, hname]
      rfl
    rw [Machine.knowing, List.lookup_append, h.unknown, hsingle]
    rfl
  · intro e he
    rw [symbols_knowing hd hs] at he
    rcases Array.mem_push.mp he with he | rfl
    · exact h.unlisted e he
    · exact Ne.symm hne

/-- All functions, one after the other. -/
def knowingAll (m : Machine) (ds : List Declared) : Machine := ds.foldl knowing m

theorem functions_knowingAll : ∀ (ds : List Declared) (m : Machine),
    (m.knowingAll ds).functions = m.functions ++ ds.map fun d => (d.name, d.func)
  | [], m => by simp [knowingAll]
  | d :: ds, m => by
    have ih := functions_knowingAll ds (m.knowing d)
    rw [knowingAll, List.foldl_cons, ← knowingAll, ih, List.map_cons]
    simp [knowing]

/-- Functions of different names can be made known one after the other. -/
structure Awaits (m : Machine) (ds : List Declared) : Prop where
  scopes : m.symbols.scopes = [.global]
  names : (ds.map Declared.name).Nodup
  lacks : ∀ d ∈ ds, m.Lacks d.name

theorem Awaits.knowing {ds : List Declared} (h : m.Awaits (d :: ds)) : (m.knowing d).Awaits ds := by
  have hnames := h.names
  rw [List.map_cons, List.nodup_cons] at hnames
  refine ⟨(m.scopes_knowing d).trans h.scopes, hnames.2, fun d' hd' => ?_⟩
  refine (h.lacks d' (by simp [hd'])).knowing (h.lacks d (by simp)) h.scopes fun heq => hnames.1 ?_
  exact heq ▸ List.mem_map_of_mem hd'

theorem entries_knowingAll : ∀ (ds : List Declared) (m : Machine), m.Awaits ds →
    (m.knowingAll ds).symbols.symbols.toList.map Symbol.unordered =
      m.symbols.symbols.toList.map Symbol.unordered ++ ds.map Declared.entry
  | [], m, _ => by simp [knowingAll]
  | d :: ds, m, h => by
    have ih := entries_knowingAll ds (m.knowing d) h.knowing
    rw [knowingAll, List.foldl_cons, ← knowingAll, ih, List.map_cons,
      symbols_knowing (h.lacks d (by simp)) h.scopes]
    simp [Symbol.unordered, Declared.entry]

/-- Nothing else changes. -/
theorem knowingAll_eq : ∀ (ds : List Declared) (m : Machine),
    m.knowingAll ds = { m with
      functions := (m.knowingAll ds).functions
      symbols := (m.knowingAll ds).symbols }
  | [], _ => rfl
  | d :: ds, m => knowingAll_eq ds (m.knowing d)

theorem scopes_knowingAll : ∀ (ds : List Declared) (m : Machine),
    (m.knowingAll ds).symbols.scopes = m.symbols.scopes
  | [], _ => rfl
  | d :: ds, m => (scopes_knowingAll ds (m.knowing d)).trans (m.scopes_knowing d)

end Machine

namespace Eval

variable {m : Machine} {d : Declared}

theorem run_hoist (h : m.functions.lookup d.name = none) :
    (hoist d).run m = .ok () (m.knowing d) := by
  have hrun : (declareFunction d).run m = .ok () { m with symbols := (m.knowing d).symbols } := rfl
  have hget : (get : Eval Machine).run m = .ok m m := rfl
  rw [hoist, run_bind_of_ok hget, h, if_neg (by decide), run_bind_of_ok hrun]
  have hput := Table.put_of_lookup_none d.func h
  exact congrArg (fun functions => EStateM.Result.ok () { m.knowing d with functions }) hput

theorem run_hoistAll : ∀ (ds : List Declared) (seen : Bool) (m : Machine), m.Awaits ds →
    (seen = true → "main" ∉ ds.map Declared.name) →
    (hoistAll ds seen).run m = .ok () (m.knowingAll (ds.filter (·.name ≠ "main")))
  | [], _, _, _, _ => rfl
  | d :: ds, seen, m, h, hseen => by
    have hnames := h.names
    rw [List.map_cons, List.nodup_cons] at hnames
    unfold hoistAll
    by_cases hmain : d.name = "main"
    · have hnot : seen = false := by
        cases seen with
        | false => rfl
        | true => exact absurd (by simp [hmain]) (hseen rfl)
      have hrest : "main" ∉ ds.map Declared.name := hmain ▸ hnames.1
      have hawaits : m.Awaits ds := ⟨h.scopes, hnames.2, fun d' hd' => h.lacks d' (by simp [hd'])⟩
      rw [if_pos hmain, hnot, List.filter_cons_of_neg (by simp [hmain])]
      exact run_hoistAll ds true m hawaits fun _ => hrest
    · rw [if_neg hmain, List.filter_cons_of_pos (by simp [hmain]),
        run_bind_of_ok (run_hoist (h.lacks d (by simp)).unknown)]
      refine run_hoistAll ds seen (m.knowing d) h.knowing fun h => ?_
      exact fun hmem => hseen h (List.mem_cons_of_mem _ hmem)

end Eval

/-! ### Two orders -/

/-- No two entries agree in all but their order. -/
theorem SymbolTable.nodup_unordered (t : SymbolTable) :
    (t.symbols.toList.map Symbol.unordered).Nodup :=
  List.pairwise_map.mpr ((List.pairwise_map.mp t.wf.nodup_keys).imp fun hne hsame =>
    hne (Bond.Matches.key_of_unordered hsame))

namespace Bond.Matches

variable {B : Bond} {t t' : SymbolTable}

/-- Tables that match have the same entries up to their order. -/
theorem perm (h : B.Matches t t') :
    (t'.symbols.toList.map Symbol.unordered).Perm (t.symbols.toList.map Symbol.unordered) := by
  refine (List.perm_ext_iff_of_nodup t'.nodup_unordered t.nodup_unordered).mpr fun e => ?_
  simp only [List.mem_map, Array.mem_toList_iff]
  constructor
  · rintro ⟨e', hmem, rfl⟩
    obtain ⟨j, hj⟩ := Array.getElem?_of_mem hmem
    obtain ⟨i, e, -, he, heq⟩ := h.entry_left hj
    exact ⟨e, Array.mem_of_getElem? he, heq.symm⟩
  · rintro ⟨e, hmem, rfl⟩
    obtain ⟨i, hi⟩ := Array.getElem?_of_mem hmem
    obtain ⟨e', he', heq⟩ := h.entry_right hi
    exact ⟨e', Array.mem_of_getElem? he', heq⟩

end Bond.Matches

/-- Functions made known under different names are found by them. -/
theorem lookup_functions (x : String) : ∀ ds : List Declared,
    List.lookup x (ds.map fun d => (d.name, d.func)) = (ds.find? (·.name == x)).map Declared.func
  | [] => rfl
  | d :: ds => by
    rw [List.map_cons, List.lookup_cons, List.find?_cons, Bool.beq_comm]
    cases d.name == x with
    | true => rfl
    | false => exact lookup_functions x ds

section Orders

variable {p : Program} {ds ds' : List Declared} {errors : ErrorLog}

theorem awaits_starting (hnames : (ds.map Declared.name).Nodup) :
    (Machine.starting errors).Awaits ds :=
  ⟨rfl, hnames, fun _ _ => ⟨rfl, fun e he => by
    simp [Machine.starting, Machine.initial, SymbolTable.empty, SymbolTable.Raw.empty] at he⟩⟩

/-- From the beginning, the entries are those of the functions. -/
theorem entries_starting (errors : ErrorLog) (hnames : (ds.map Declared.name).Nodup) :
    ((Machine.starting errors).knowingAll ds).symbols.symbols.toList.map Symbol.unordered =
      ds.map Declared.entry := by
  rw [Machine.entries_knowingAll ds _ (awaits_starting hnames)]
  rfl

theorem entry_knowingAll (hnames : (ds.map Declared.name).Nodup) (i : Nat) :
    (((Machine.starting errors).knowingAll ds).symbols.symbols[i]?).map Symbol.unordered =
      (ds[i]?).map Declared.entry := by
  simpa using congrArg (·[i]?) (entries_starting errors hnames)

theorem size_knowingAll (hnames : (ds.map Declared.name).Nodup) :
    ((Machine.starting errors).knowingAll ds).symbols.symbols.size = ds.length := by
  simpa using congrArg List.length (entries_starting errors hnames)

/-- **In another order hoisting gives a machine that differs in the numbers of entries only.** -/
theorem exists_tied_knowingAll (h : ds'.Perm ds) (hnames : (ds.map Declared.name).Nodup)
    (hkept : ((Machine.starting errors).knowingAll ds).symbols.Kept fun _ => True) :
    ∃ σ : Equiv.Perm Nat, Bond.Tied ⟨fun _ => True, σ⟩ []
      ((Machine.starting errors).knowingAll ds) ((Machine.starting errors).knowingAll ds') := by
  have hnames' : (ds'.map Declared.name).Nodup := (h.map _).nodup_iff.mpr hnames
  obtain ⟨σ, hfixed, hsame⟩ := exists_numbering_of_perm h.symm
  have hrest := fun ds => Machine.knowingAll_eq ds (.starting errors)
  have hscopes := fun ds => Machine.scopes_knowingAll ds (.starting errors)
  refine ⟨σ, ⟨hkept, ?_, ?_, fun i hi => ?_, fun i => ?_⟩, hscopes ds, ?_, ?_, fun x => ?_,
    fun _ _ _ => trivial, ?_, ?_, ?_, ?_, ?_⟩
  · rw [hscopes, hscopes]
  · rw [size_knowingAll hnames, size_knowingAll hnames', h.length_eq]
  · rw [size_knowingAll hnames] at hi
    exact hfixed i hi
  · rw [entry_knowingAll hnames, entry_knowingAll hnames']
    exact congrArg (Option.map Declared.entry) (hsame i)
  · rw [hrest ds, hrest ds']
    exact (Frames.renumber_initial σ).symm
  · rw [hrest ds]
    exact .initial
  · rw [Machine.functions_knowingAll, Machine.functions_knowingAll, List.lookup_append,
      List.lookup_append, lookup_functions, lookup_functions, find?_key_of_perm h hnames x]
  all_goals rw [hrest ds, hrest ds']

/-- The functions of a program that are known by their names: all but `main`. -/
def Program.named (p : Program) : List Declared := p.functions.filter (·.name ≠ "main")

theorem run_hoistAll_starting (hnames : (p.functions.map Declared.name).Nodup) :
    (Eval.hoistAll p.functions false).run (.starting errors) =
      .ok () ((Machine.starting errors).knowingAll p.named) :=
  Eval.run_hoistAll p.functions false _ (awaits_starting hnames) (by simp)

/-- Hoisting keeps the table, as it does for whatever is tied. -/
theorem kept_hoistAll (errors : ErrorLog) (hnames : (p.functions.map Declared.name).Nodup) :
    ((Machine.starting errors).knowingAll p.named).symbols.Kept fun _ => True := by
  have hkeeps : (Bond.same fun _ => True).Keeps [] (Eval.hoistAll p.functions false) :=
    Bond.keeps_hoistAll _ _ fun _ _ _ _ => trivial
  have hends := hkeeps.ends (Bond.tied_starting _ errors)
  rw [run_hoistAll_starting hnames] at hends
  cases hends with
  | ok h => exact h.table.kept

end Orders

/-! ### Programs -/

/-- **Functions may stand anywhere.** Two programs with the same top-level declarations, in orders
that differ in the places of functions only, print and report the same from the beginning, under the
same configuration, and leave the same entries up to their order, if no two functions have the same
name. -/
theorem functions_may_stand_anywhere (config : Config) (errors : ErrorLog) {p p' : Program}
    (hperm : p'.declarations.Perm p.declarations) (hglobals : p'.globals = p.globals)
    (hnames : (p.functions.map fun d => d.func.name).Nodup) :
    let m := (Machine.starting errors).execute config p
    let m' := (Machine.starting errors).execute config p'
    m'.output = m.output ∧ m'.errors = m.errors ∧
      (m'.symbols.symbols.toList.map Symbol.unordered).Perm
        (m.symbols.symbols.toList.map Symbol.unordered) := by
  intro m m'
  have hfunctions : p'.functions.Perm p.functions := hperm.filterMap _
  have hnames' : (p'.functions.map Declared.name).Nodup := ((hfunctions.map _).nodup_iff).mpr hnames
  have hmain : p'.main? = p.main? := find?_key_of_perm hfunctions hnames "main"
  have hnamed : (p.named.map Declared.name).Nodup := hnames.sublist (List.filter_sublist.map _)
  have hkept := kept_hoistAll errors hnames
  obtain ⟨σ, htied⟩ := exists_tied_knowingAll (hfunctions.filter _) hnamed hkept
  have hcalls : Bond.Calls ⟨fun _ => True, σ⟩ config.context := Bond.calls_ofLevels _ config _ _
  obtain ⟨after, after', hprogram, hprogram', hafter⟩ :=
    Bond.exists_afterHoisting hcalls hglobals hmain fun _ _ => trivial
  have hends : Bond.Ends ⟨fun _ => True, σ⟩ []
      ((Eval.program config.context p).run (.starting errors))
      ((Eval.program config.context p').run (.starting errors)) := by
    rw [hprogram, hprogram', Eval.run_bind_of_ok (run_hoistAll_starting hnames),
      Eval.run_bind_of_ok (run_hoistAll_starting hnames')]
    exact hafter.ends htied
  have hresult := hends.execute
  exact ⟨hresult.output, hresult.errors, hresult.table.perm⟩

/-- Functions on both sides of a variable that one of them sets and another one starts. -/
def scattered : Program :=
  let o := Position.origin
  ⟨[.func ⟨"f", [], [.int32], [.returnStmt [.int "1" o] o]⟩ ⟨1, 6⟩,
    .varDecl [⟨"x", ⟨2, 5⟩⟩] none [.call "f" [] o] o,
    .func ⟨"g", [], [], [.assign (.name "x") (.compound .add) (.call "f" [] o) o]⟩ ⟨3, 6⟩,
    .func ⟨"main", [], [], [.expr (.call "g" [] o) o,
      .expr (.call "fmt.Println" [.name "x" o] o) o]⟩ ⟨4, 6⟩]⟩

/-- The same with everything in the other order. -/
def scatteredBack : Program := ⟨scattered.declarations.reverse⟩

theorem scattered_stands_anywhere :
    let config : Config := ⟨⟨3, none⟩, ""⟩
    let m := (Machine.starting .empty).execute config scattered
    let m' := (Machine.starting .empty).execute config scatteredBack
    (m.output = #["2"] ∧ m.symbols.symbols.map Symbol.name = #["f", "g", "x", "main"] ∧
      m'.symbols.symbols.map Symbol.name = #["g", "f", "x", "main"]) ∧
    m'.output = m.output ∧ m'.errors = m.errors ∧
      (m'.symbols.symbols.toList.map Symbol.unordered).Perm
        (m.symbols.symbols.toList.map Symbol.unordered) := by
  have hglobals : scatteredBack.globals = scattered.globals := rfl
  have hnames : (scattered.functions.map fun d => d.func.name).Nodup := by decide
  refine ⟨?_, functions_may_stand_anywhere _ _ (List.reverse_perm _) hglobals hnames⟩
  decide +kernel

end Treewalk
