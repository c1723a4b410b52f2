/-
# How a symbol table is kept

A table is kept for some sites if every entry belongs to one of them. Declaring
at one of the sites and renewing an entry keep it so.

Two tables match if the one has the entries of the other under other numbers.
New entries get the same number in both, and so declaring a name or renewing
an entry in both keeps them matched.

Key definitions: `SymbolTable.Kept`, `Bond`, `Bond.Matches`.
Key theorems: `SymbolTable.symbols_declare_of_some`,
`SymbolTable.symbols_declare_of_none`, `SymbolTable.Kept.declare`, `Bond.Matches.find?`,
`Bond.Matches.declare`, `Bond.Matches.update`.
-/
import Mathlib.Logic.Equiv.Defs
import Treewalk.Proofs.Sites

namespace Treewalk

def Site.key (s : Site) : SymbolKey := (s.name, s.scope.label, s.pos)

/-- An entry wherever it stands in its table. -/
def Symbol.unordered (e : Symbol) : Symbol := { e with order := 0 }

namespace SymbolTable

variable {t t' : SymbolTable} {S : Site → Prop} {key : SymbolKey} {name type value : String}
  {pos : Position} {i : Nat} {f : Symbol → Symbol}

/-- The table has entries for the sites only. -/
def Kept (S : Site → Prop) (t : SymbolTable) : Prop :=
  ∀ (i : Nat) (e : Symbol), t.symbols[i]? = some e → ∃ s, S s ∧ e.key = s.key

theorem kept_empty : empty.Kept S := by
  intro i e he
  simp [empty, Raw.empty] at he

/-- What a declaration does to the entries of a table that has one for it. -/
theorem symbols_declare_of_some (h : t.find? (name, t.current.label, pos) = some i)
    (type value : String) :
    (t.declare name type value pos).1 = i ∧
      (t.declare name type value pos).2.symbols =
        t.symbols.modify i fun e => { e with type, value } := by
  simp only [declare, Raw.declare_of_some h, and_self]

/-- And what it does otherwise. -/
theorem symbols_declare_of_none (h : t.find? (name, t.current.label, pos) = none)
    (type value : String) :
    (t.declare name type value pos).1 = t.symbols.size ∧
      (t.declare name type value pos).2.symbols =
        t.symbols.push ⟨name, type, t.current.label, value, pos, t.symbols.size⟩ := by
  simp only [declare, Raw.declare_of_none h, and_self]

/-- Entries may be renewed in all but what they are told apart by. -/
theorem Kept.modify (h : t.Kept S) (ht : t'.symbols = t.symbols.modify i f)
    (hkey : ∀ e, (f e).key = e.key) : t'.Kept S := by
  intro j e he
  rw [ht, Array.getElem?_modify] at he
  split at he
  · obtain ⟨e₀, he₀, rfl⟩ := Option.map_eq_some_iff.mp he
    rw [hkey]
    exact h j e₀ he₀
  · exact h j e he

/-- **A declaration at one of the sites keeps the table.** -/
theorem Kept.declare (h : t.Kept S) (hs : S ⟨name, pos, t.current⟩) :
    Kept S (t.declare name type value pos).2 := by
  cases hfind : t.find? (name, t.current.label, pos) with
  | some i => exact h.modify (symbols_declare_of_some hfind ..).2 fun _ => rfl
  | none =>
    intro j e he
    rw [(symbols_declare_of_none hfind ..).2, Array.getElem?_push] at he
    split at he
    · cases he
      exact ⟨_, hs, rfl⟩
    · exact h j e he

/-- The entry of a declaration is there, and none is lost. -/
theorem declare_lt (t : SymbolTable) (name type value : String) (pos : Position) :
    t.symbols.size ≤ (t.declare name type value pos).2.symbols.size ∧
      (t.declare name type value pos).1 < (t.declare name type value pos).2.symbols.size := by
  cases hfind : t.find? (name, t.current.label, pos) with
  | some i =>
    obtain ⟨e, he, -⟩ := t.wf.find?_iff.mp hfind
    obtain ⟨hnumber, hsymbols⟩ := symbols_declare_of_some hfind type value
    rw [hnumber, hsymbols, Array.size_modify]
    exact ⟨Nat.le_refl _, (Array.getElem?_eq_some_iff.mp he).1⟩
  | none =>
    obtain ⟨hnumber, hsymbols⟩ := symbols_declare_of_none hfind type value
    rw [hnumber, hsymbols, Array.size_push]
    omega

end SymbolTable

/-- How two runs are compared: by the sites at which they may declare, and by the number an entry of
the first has in the second. -/
structure Bond where
  Site : Site → Prop
  number : Equiv.Perm Nat

namespace Bond

variable {B : Bond} {t t' : SymbolTable} {name : String} {pos : Position}

/-- The second table has the entries of the first, under other numbers. -/
structure Matches (B : Bond) (t t' : SymbolTable) : Prop where
  kept : t.Kept B.Site
  scopes : t'.scopes = t.scopes
  size : t'.symbols.size = t.symbols.size
  fresh : ∀ i, t.symbols.size ≤ i → B.number i = i
  entries : ∀ i : Nat, (t'.symbols[B.number i]?).map Symbol.unordered =
    (t.symbols[i]?).map Symbol.unordered

namespace Matches

theorem current (h : B.Matches t t') : t'.current = t.current := by
  rw [SymbolTable.Raw.current, h.scopes, SymbolTable.Raw.current]

theorem push (h : B.Matches t t') (s : Scope) : B.Matches (t.push s) (t'.push s) :=
  { h with scopes := congrArg (List.cons s) h.scopes }

theorem pop (h : B.Matches t t') : B.Matches t.pop t'.pop :=
  { h with
    scopes := congrArg (fun ss => if 1 < List.length ss then List.tail ss else ss) h.scopes }

/-- An entry of the first table under its number in the second. -/
theorem entry_right (h : B.Matches t t') {i : Nat} {e : Symbol} (he : t.symbols[i]? = some e) :
    ∃ e', t'.symbols[B.number i]? = some e' ∧ e'.unordered = e.unordered := by
  have hentry := h.entries i
  rw [he] at hentry
  exact Option.map_eq_some_iff.mp hentry

theorem entry_left (h : B.Matches t t') {j : Nat} {e' : Symbol} (he : t'.symbols[j]? = some e') :
    ∃ i e, B.number i = j ∧ t.symbols[i]? = some e ∧ e'.unordered = e.unordered := by
  have hentry := h.entries (B.number.symm j)
  rw [Equiv.apply_symm_apply, he] at hentry
  obtain ⟨e, he₀, heq⟩ := Option.map_eq_some_iff.mp hentry.symm
  exact ⟨_, e, B.number.apply_symm_apply j, he₀, heq.symm⟩

theorem key_of_unordered {e e' : Symbol} (h : e'.unordered = e.unordered) : e'.key = e.key :=
  show e'.unordered.key = e.unordered.key from congrArg Symbol.key h

/-- A declaration is found in both tables or in none. -/
theorem find? (h : B.Matches t t') (key : SymbolKey) :
    t'.find? key = (t.find? key).map B.number := by
  refine Option.ext fun j => ?_
  rw [t'.wf.find?_iff, Option.map_eq_some_iff]
  constructor
  · rintro ⟨e', he', hkey⟩
    obtain ⟨i, e, hi, he, hsame⟩ := h.entry_left he'
    exact ⟨i, t.wf.find?_iff.mpr ⟨e, he, (key_of_unordered hsame).symm.trans hkey⟩, hi⟩
  · rintro ⟨i, hi, rfl⟩
    obtain ⟨e, he, hkey⟩ := t.wf.find?_iff.mp hi
    obtain ⟨e', he', hsame⟩ := h.entry_right he
    exact ⟨e', he', (key_of_unordered hsame).trans hkey⟩

/-- The same entry is renewed in both tables. -/
theorem modify (h : B.Matches t t') (i : Nat) {f : Symbol → Symbol} {u u' : SymbolTable}
    (hu : u.symbols = t.symbols.modify i f) (hu' : u'.symbols = t'.symbols.modify (B.number i) f)
    (hs : u.scopes = t.scopes) (hs' : u'.scopes = t'.scopes) (hkey : ∀ e, (f e).key = e.key)
    (hf : ∀ e, (f e).unordered = f e.unordered) : B.Matches u u' := by
  refine ⟨h.kept.modify hu hkey, by rw [hs, hs', h.scopes], ?_, fun j hj => ?_, fun j => ?_⟩
  · rw [hu, hu', Array.size_modify, Array.size_modify, h.size]
  · rw [hu, Array.size_modify] at hj
    exact h.fresh j hj
  · have hboth : ∀ o o' : Option Symbol, o'.map Symbol.unordered = o.map Symbol.unordered →
        (o'.map f).map Symbol.unordered = (o.map f).map Symbol.unordered := by
      intro o o' heq
      have hmap := congrArg (Option.map f) heq
      simpa only [Option.map_map, Function.comp_def, ← hf] using hmap
    rw [hu, hu', Array.getElem?_modify, Array.getElem?_modify]
    by_cases hj : i = j
    · rw [if_pos hj, if_pos (congrArg B.number hj)]
      exact hboth _ _ (h.entries j)
    · rw [if_neg hj, if_neg fun heq => hj (B.number.injective heq)]
      exact h.entries j

theorem update (h : B.Matches t t') (i : Nat) (value : String) :
    B.Matches (t.update i value) (t'.update (B.number i) value) :=
  h.modify i (f := fun e => { e with value }) rfl rfl rfl rfl (fun _ => rfl) fun _ => rfl

/-- **A declaration keeps tables matched,** and its entries in them correspond. -/
theorem declare (h : B.Matches t t') (type value : String) (hs : B.Site ⟨name, pos, t.current⟩) :
    (t'.declare name type value pos).1 = B.number (t.declare name type value pos).1 ∧
      B.Matches (t.declare name type value pos).2 (t'.declare name type value pos).2 := by
  have hfind' : t'.find? (name, t'.current.label, pos) =
      (t.find? (name, t.current.label, pos)).map B.number := by rw [h.current, h.find?]
  cases hfind : t.find? (name, t.current.label, pos) with
  | some i =>
    rw [hfind, Option.map_some] at hfind'
    obtain ⟨hnumber, hsymbols⟩ := SymbolTable.symbols_declare_of_some hfind type value
    obtain ⟨hnumber', hsymbols'⟩ := SymbolTable.symbols_declare_of_some hfind' type value
    refine ⟨by rw [hnumber, hnumber'],
      h.modify i hsymbols hsymbols' ?_ ?_ (fun _ => rfl) fun _ => rfl⟩
    · exact SymbolTable.scopes_declare ..
    · exact SymbolTable.scopes_declare ..
  | none =>
    rw [hfind, Option.map_none] at hfind'
    obtain ⟨hnumber, hsymbols⟩ := SymbolTable.symbols_declare_of_none hfind type value
    obtain ⟨hnumber', hsymbols'⟩ := SymbolTable.symbols_declare_of_none hfind' type value
    have hfixed : B.number t.symbols.size = t.symbols.size := h.fresh _ (Nat.le_refl _)
    refine ⟨by rw [hnumber, hnumber', h.size, hfixed], h.kept.declare hs, ?_, ?_, fun i hi => ?_,
      fun i => ?_⟩
    · rw [SymbolTable.scopes_declare, SymbolTable.scopes_declare, h.scopes]
    · rw [hsymbols, hsymbols', Array.size_push, Array.size_push, h.size]
    · rw [hsymbols, Array.size_push] at hi
      exact h.fresh i (by omega)
    · rw [hsymbols, hsymbols', Array.getElem?_push, Array.getElem?_push, h.size, h.current]
      by_cases hi : i = t.symbols.size
      · rw [hi, hfixed, if_pos rfl, if_pos rfl]
      · have hne : B.number i ≠ t.symbols.size := by
          rw [← hfixed]
          exact fun heq => hi (B.number.injective heq)
        rw [if_neg hi, if_neg hne]
        exact h.entries i

end Matches
end Bond
end Treewalk
