/-
# The symbol table

Every declaration that a run reaches leaves one entry, however often it is
reached: entries are told apart by name, scope and position, a declaration
met again renews the type and the value of its entry, and later writes to the
variable renew the value. The table also keeps the scopes that are open, from
which the language decides where `break`, `continue` and `return` may stand.

A raw table has its entries beside an index of them, in which alone a
declaration is looked up, and a stack of scopes, of which the last is not left.
That these belong together is not part of it, but every operation keeps it up
(`SymbolTable.Raw.WF`), and a symbol table is a raw table together with that.

Key definitions: `Scope`, `Symbol`, `Symbol.key`, `SymbolTable.Raw`,
`SymbolTable.Raw.declare`, `SymbolTable.Raw.pop`, `SymbolTable.Raw.canBreak`,
`SymbolTable.Raw.WF`, `SymbolTable`.
Key theorems: `SymbolTable.Raw.WF.declare`, `SymbolTable.Raw.WF.pop`,
`SymbolTable.scopes_pop`.
-/
import Treewalk.Position
import Treewalk.Table

namespace Treewalk

/-- The region a scope stands for. -/
inductive Scope where
  | global
  | function (name : String)
  | loop
  | switch
  | ifBlock
  | elseBlock
  | block
  deriving DecidableEq, Repr, Inhabited

def Scope.label : Scope → String
  | global => "global"
  | function name => "function:" ++ name
  | loop => "for"
  | switch => "switch"
  | ifBlock => "if-block"
  | elseBlock => "else-block"
  | block => "block"

def Scope.isFunction : Scope → Bool
  | function _ => true
  | _ => false

/-- An entry of the table. Its order is its place. -/
structure Symbol where
  name : String
  type : String
  scope : String
  value : String
  pos : Position
  order : Nat
  deriving DecidableEq, Repr, Inhabited

/-- What declarations are told apart by: a name, a scope label and a place. -/
abbrev SymbolKey := String × String × Position

def Symbol.key (e : Symbol) : SymbolKey := (e.name, e.scope, e.pos)

/-- A table as it is stored. -/
structure SymbolTable.Raw where
  symbols : Array Symbol
  /-- The numbers of the entries by their keys. -/
  index : Table SymbolKey Nat
  /-- The open scopes, innermost first. -/
  scopes : List Scope

namespace SymbolTable.Raw

def empty : Raw := ⟨#[], [], [.global]⟩

def push (t : Raw) (s : Scope) : Raw := { t with scopes := s :: t.scopes }

/-- Leaves the innermost scope, unless it is the last. -/
def pop (t : Raw) : Raw :=
  { t with scopes := if 1 < t.scopes.length then t.scopes.tail else t.scopes }

def current (t : Raw) : Scope := t.scopes.headD .global

/-- The entry of a declaration, as the index has it. -/
def find? (t : Raw) (key : SymbolKey) : Option Nat := t.index.lookup key

/-- Records a declaration in the current scope, and gives its entry. -/
def declare (t : Raw) (name type value : String) (pos : Position) : Nat × Raw :=
  let scope := t.current.label
  match t.find? (name, scope, pos) with
  | some id => (id, { t with symbols := t.symbols.modify id ({ · with type, value }) })
  | none =>
    let id := t.symbols.size
    (id, { t with
      symbols := t.symbols.push ⟨name, type, scope, value, pos, id⟩
      index := t.index.put (name, scope, pos) id })

/-- Renews the value of an entry, if there is one. -/
def update (t : Raw) (id : Nat) (value : String) : Raw :=
  { t with symbols := t.symbols.modify id ({ · with value }) }

/-- Whether a scope is met, going outward up to and including the nearest function. -/
def encloses (accept : Scope → Bool) : List Scope → Bool
  | [] => false
  | s :: rest => accept s || (!s.isFunction && encloses accept rest)

def canBreak (t : Raw) : Bool := encloses (fun s => s == .loop || s == .switch) t.scopes

def canContinue (t : Raw) : Bool := encloses (· == .loop) t.scopes

def canReturn (t : Raw) : Bool := encloses Scope.isFunction t.scopes

def atGlobal (t : Raw) : Bool := t.current == .global

/-! ### What every operation keeps up -/

variable {t : Raw} {key : SymbolKey} {i : Nat}

/-- The entries, the index and the scopes belong together: the order of an entry is its number, the
index has each entry under its key and nothing else, and the global scope is below all others. -/
structure WF (t : Raw) : Prop where
  order : ∀ {i : Nat} {e : Symbol}, t.symbols[i]? = some e → e.order = i
  find?_iff : ∀ {key : SymbolKey} {i : Nat},
    t.find? key = some i ↔ ∃ e, t.symbols[i]? = some e ∧ e.key = key
  bottom : t.scopes.getLast? = some .global

theorem declare_of_some {name : String} {pos : Position}
    (h : t.find? (name, t.current.label, pos) = some i) (type value : String) :
    t.declare name type value pos =
      (i, { t with symbols := t.symbols.modify i ({ · with type, value }) }) := by
  simp only [declare, h]

theorem declare_of_none {name : String} {pos : Position}
    (h : t.find? (name, t.current.label, pos) = none) (type value : String) :
    t.declare name type value pos = (t.symbols.size, { t with
      symbols := t.symbols.push ⟨name, type, t.current.label, value, pos, t.symbols.size⟩
      index := t.index.put (name, t.current.label, pos) t.symbols.size }) := by
  simp only [declare, h]

@[simp] theorem scopes_declare (t : Raw) (name type value : String) (pos : Position) :
    (t.declare name type value pos).2.scopes = t.scopes := by
  cases h : t.find? (name, t.current.label, pos) with
  | some i => rw [declare_of_some h]
  | none => rw [declare_of_none h]

namespace WF

/-- No two entries have one key. -/
theorem eq_of_key_eq (h : t.WF) {j : Nat} {e e' : Symbol} (he : t.symbols[i]? = some e)
    (he' : t.symbols[j]? = some e') (hkey : e.key = e'.key) : i = j :=
  Option.some.inj ((h.find?_iff.mpr ⟨e, he, rfl⟩).symm.trans
    (h.find?_iff.mpr ⟨e', he', hkey.symm⟩))

theorem nodup_keys (h : t.WF) : (t.symbols.toList.map Symbol.key).Nodup := by
  refine List.pairwise_map.mpr (List.pairwise_iff_getElem.mpr ?_)
  intro i j hi hj hlt hsame
  have hindex := h.eq_of_key_eq (Array.getElem?_eq_getElem hi) (Array.getElem?_eq_getElem hj) hsame
  omega

theorem empty : Raw.empty.WF where
  order h := by simp [Raw.empty] at h
  find?_iff := by simp [Raw.empty, find?]
  bottom := rfl

theorem push (h : t.WF) (s : Scope) : (t.push s).WF where
  order := h.order
  find?_iff := h.find?_iff
  bottom := by
    rw [Raw.push, List.getLast?_cons, h.bottom]
    rfl

/-- The global scope is not left: there is another above it, or it is the last. -/
theorem pop (h : t.WF) : t.pop.WF := by
  refine ⟨h.order, h.find?_iff, ?_⟩
  have hbottom := h.bottom
  unfold Raw.pop
  match t.scopes, hbottom with
  | [_], hbottom => exact hbottom
  | _ :: s :: rest, hbottom => simpa using hbottom

/-- Entries may be renewed in all but their keys and their order. -/
theorem modify (h : t.WF) (i : Nat) {f : Symbol → Symbol} (hkey : ∀ e, (f e).key = e.key)
    (horder : ∀ e, (f e).order = e.order) :
    WF { t with symbols := t.symbols.modify i f } := by
  have hold : ∀ (j : Nat) (e : Symbol), (t.symbols.modify i f)[j]? = some e →
      ∃ e₀, t.symbols[j]? = some e₀ ∧ e.key = e₀.key ∧ e.order = e₀.order := by
    intro j e he
    rw [Array.getElem?_modify] at he
    split at he
    · obtain ⟨e₀, he₀, rfl⟩ := Option.map_eq_some_iff.mp he
      exact ⟨e₀, he₀, hkey e₀, horder e₀⟩
    · exact ⟨e, he, rfl, rfl⟩
  refine ⟨fun he => ?_, fun {key j} => h.find?_iff.trans ⟨?_, ?_⟩, h.bottom⟩
  · obtain ⟨e₀, he₀, -, ho⟩ := hold _ _ he
    rw [ho, h.order he₀]
  · rintro ⟨e, he, hk⟩
    by_cases hj : i = j
    · exact ⟨f e, by rw [Array.getElem?_modify, if_pos hj, he]; rfl, (hkey e).trans hk⟩
    · exact ⟨e, by rw [Array.getElem?_modify, if_neg hj, he], hk⟩
  · rintro ⟨e, he, hk⟩
    obtain ⟨e₀, he₀, hk₀, -⟩ := hold _ _ he
    exact ⟨e₀, he₀, hk₀.symm.trans hk⟩

/-- A new entry has the next number, in the table and in the index. -/
theorem insert (h : t.WF) {e : Symbol} (hnew : t.find? e.key = none)
    (horder : e.order = t.symbols.size) :
    WF { t with symbols := t.symbols.push e, index := t.index.put e.key t.symbols.size } := by
  have hentry : ∀ (j : Nat) (e' : Symbol), (t.symbols.push e)[j]? = some e' ↔
      t.symbols[j]? = some e' ∨ j = t.symbols.size ∧ e' = e := by
    intro j e'
    rw [Array.getElem?_push]
    split
    · rename_i hj
      simp [hj, eq_comm]
    · rename_i hj
      simp [hj]
  refine ⟨fun he => ?_, fun {key j} => ?_, h.bottom⟩
  · rcases (hentry _ _).mp he with he | ⟨hj, rfl⟩
    · exact h.order he
    · rw [horder, hj]
  · by_cases hk : key = e.key
    · -- the key is that of the new entry alone
      subst hk
      have hnone : ∀ e', t.symbols[j]? = some e' → e'.key ≠ e.key := fun e' he' hk' => by
        rw [h.find?_iff.mpr ⟨e', he', hk'⟩] at hnew
        cases hnew
      rw [find?, Table.lookup_put_self]
      constructor
      · rintro ⟨⟩
        exact ⟨e, (hentry _ _).mpr (.inr ⟨rfl, rfl⟩), rfl⟩
      · rintro ⟨e', he', hk'⟩
        rcases (hentry _ _).mp he' with he' | ⟨hj, -⟩
        · exact absurd hk' (hnone e' he')
        · rw [hj]
    · rw [find?, Table.lookup_put_of_ne _ _ hk, ← find?, h.find?_iff]
      constructor
      · rintro ⟨e', he', hk'⟩
        exact ⟨e', (hentry _ _).mpr (.inl he'), hk'⟩
      · rintro ⟨e', he', hk'⟩
        rcases (hentry _ _).mp he' with he' | ⟨-, rfl⟩
        · exact ⟨e', he', hk'⟩
        · exact absurd hk'.symm hk

theorem declare (h : t.WF) (name type value : String) (pos : Position) :
    (t.declare name type value pos).2.WF := by
  cases hfind : t.find? (name, t.current.label, pos) with
  | some i =>
    rw [declare_of_some hfind]
    exact h.modify i (fun _ => rfl) fun _ => rfl
  | none =>
    rw [declare_of_none hfind]
    exact h.insert (e := ⟨name, type, t.current.label, value, pos, t.symbols.size⟩) hfind rfl

theorem update (h : t.WF) (id : Nat) (value : String) : (t.update id value).WF :=
  h.modify id (fun _ => rfl) fun _ => rfl

end WF

end SymbolTable.Raw

/-- A table whose entries, index and scopes belong together. -/
structure SymbolTable extends SymbolTable.Raw where
  wf : toRaw.WF

namespace SymbolTable

def empty : SymbolTable := ⟨.empty, .empty⟩

instance : Inhabited SymbolTable := ⟨empty⟩

def push (t : SymbolTable) (s : Scope) : SymbolTable := ⟨t.toRaw.push s, t.wf.push s⟩

def pop (t : SymbolTable) : SymbolTable := ⟨t.toRaw.pop, t.wf.pop⟩

def declare (t : SymbolTable) (name type value : String) (pos : Position) : Nat × SymbolTable :=
  let made := t.toRaw.declare name type value pos
  (made.1, ⟨made.2, t.wf.declare name type value pos⟩)

def update (t : SymbolTable) (id : Nat) (value : String) : SymbolTable :=
  ⟨t.toRaw.update id value, t.wf.update id value⟩

@[simp] theorem scopes_declare (t : SymbolTable) (name type value : String) (pos : Position) :
    (t.declare name type value pos).2.scopes = t.scopes :=
  Raw.scopes_declare ..

/-- Leaving a scope leads back to those it was entered from, of which there is always one. -/
theorem scopes_pop {t u : SymbolTable} {s : Scope} (h : u.scopes = s :: t.scopes) :
    u.pop.scopes = t.scopes := by
  have hbottom := t.wf.bottom
  have hlt : 1 < u.scopes.length := by
    rw [h]
    cases hs : t.scopes with
    | nil => simp [hs] at hbottom
    | cons s rest => simp
  have hpop : u.pop.scopes = u.scopes.tail := if_pos hlt
  rw [hpop, h, List.tail_cons]

end SymbolTable

end Treewalk
