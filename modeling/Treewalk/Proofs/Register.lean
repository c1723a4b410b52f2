/-
# The symbol table as a register

A table is stored as its entries, an index of their numbers by key, and a
stack of scopes, whose innermost one says under which key the next declaration
goes. A declaration is looked up in the index alone, an entry is renewed by its
number alone, and a scope is left if it is not the last one. So nothing but
what the operations do keeps these three together. After any operations in any
order they are (`SymbolTable.Raw.wf_after`): the index has each entry under its
key and nothing else, the entries are the declarations that were made, each
once and in the order in which they were made first, and below all scopes that
were entered and not left there is the global one.

Declarations that are made again and values that are renewed leave no trace
but in the type and the value of an entry, which keeps all that it is told
apart by.

Key definitions: `SymbolTable.Raw.Step`, `SymbolTable.Raw.after`,
`SymbolTable.Raw.entered`, `SymbolTable.Raw.Declared`,
`SymbolTable.Raw.Enters`.
Key theorems: `SymbolTable.Raw.WF.apply`, `SymbolTable.Raw.wf_after`,
`SymbolTable.Raw.isSome_find?_iff`, `SymbolTable.Raw.exists_kept_foldl`,
`SymbolTable.Raw.scopes_foldl`, `symbol_table_is_a_register`.
-/
import Mathlib.Data.List.Induction
import Treewalk.Symbol

namespace Treewalk
namespace SymbolTable.Raw

variable {t : Raw} {key : SymbolKey} {i : Nat} {e : Symbol}

/-! ### Operations -/

/-- An operation on a table. -/
inductive Step where
  | push (s : Scope)
  | pop
  | declare (name type value : String) (pos : Position)
  | update (id : Nat) (value : String)

namespace Step

def apply (t : Raw) : Step → Raw
  | push s => t.push s
  | pop => t.pop
  | declare name type value pos => (t.declare name type value pos).2
  | update id value => t.update id value

/-- What an operation does to the scopes that are open besides the global one. -/
def enter (scopes : List Scope) : Step → List Scope
  | push s => s :: scopes
  | pop => scopes.tail
  | declare .. | update .. => scopes

end Step

/-- The table after operations, one after the other. -/
def after (steps : List Step) : Raw := steps.foldl Step.apply .empty

/-- The scopes that were entered and not left. -/
def entered (steps : List Step) : List Scope := steps.foldl Step.enter []

/-- One of the operations declares what is told apart by the key, in the scope that is innermost at
that point. -/
def Declared (steps : List Step) (key : SymbolKey) : Prop :=
  ∃ before name type value pos rest, steps = before ++ .declare name type value pos :: rest ∧
    key = (name, (after before).current.label, pos)

theorem after_append (steps more : List Step) :
    after (steps ++ more) = more.foldl Step.apply (after steps) :=
  List.foldl_append

theorem declared_concat {steps : List Step} {s : Step} :
    Declared (steps ++ [s]) key ↔ Declared steps key ∨ ∃ name type value pos,
      s = .declare name type value pos ∧ key = (name, (after steps).current.label, pos) := by
  constructor
  · rintro ⟨before, name, type, value, pos, rest, hsplit, hkey⟩
    rcases List.eq_nil_or_concat rest with rfl | ⟨rest, s', rfl⟩
    · obtain ⟨rfl, hs⟩ := List.append_inj' hsplit rfl
      exact .inr ⟨name, type, value, pos, List.singleton_inj.mp hs, hkey⟩
    · rw [List.concat_eq_append, ← List.cons_append, ← List.append_assoc] at hsplit
      exact .inl ⟨before, name, type, value, pos, rest, (List.append_inj' hsplit rfl).1, hkey⟩
  · rintro (⟨before, name, type, value, pos, rest, rfl, hkey⟩ | ⟨name, type, value, pos, rfl, hkey⟩)
    · exact ⟨before, name, type, value, pos, rest ++ [s], by simp, hkey⟩
    · exact ⟨steps, name, type, value, pos, [], rfl, hkey⟩

/-! ### Entries and index -/

/-- **One operation keeps entries, index and scopes together.** -/
theorem WF.apply (h : t.WF) (s : Step) : (s.apply t).WF := by
  cases s with
  | push s => exact h.push s
  | pop => exact h.pop
  | declare name type value pos => exact h.declare name type value pos
  | update id value => exact h.update id value

theorem WF.foldl (h : t.WF) (steps : List Step) : (steps.foldl Step.apply t).WF := by
  induction steps generalizing t with
  | nil => exact h
  | cons s steps ih => exact ih (h.apply s)

theorem wf_after (steps : List Step) : (after steps).WF := WF.empty.foldl steps

theorem WF.mem_keys_iff (h : t.WF) :
    key ∈ t.symbols.toList.map Symbol.key ↔ (t.find? key).isSome = true := by
  rw [Option.isSome_iff_exists, List.mem_map]
  constructor
  · rintro ⟨e, he, hkey⟩
    obtain ⟨i, hi⟩ := List.getElem?_of_mem he
    exact ⟨i, h.find?_iff.mpr ⟨e, Array.getElem?_toList.symm.trans hi, hkey⟩⟩
  · rintro ⟨i, hi⟩
    obtain ⟨e, he, hkey⟩ := h.find?_iff.mp hi
    exact ⟨e, Array.mem_toList_iff.mpr (Array.mem_of_getElem? he), hkey⟩

/-- A declaration puts its key into the index, and takes none out. -/
theorem isSome_find?_declare (t : Raw) (name type value : String) (pos : Position)
    (key : SymbolKey) :
    ((t.declare name type value pos).2.find? key).isSome =
      (key == (name, t.current.label, pos) || (t.find? key).isSome) := by
  cases hfind : t.find? (name, t.current.label, pos) with
  | some i =>
    rw [declare_of_some hfind]
    change (t.find? key).isSome = _
    by_cases hkey : key = (name, t.current.label, pos)
    · rw [hkey, hfind]
      simp
    · simp [hkey]
  | none =>
    rw [declare_of_none hfind]
    exact Table.isSome_lookup_put ..

/-- **The index has the keys that were declared.** -/
theorem isSome_find?_iff (steps : List Step) (key : SymbolKey) :
    ((after steps).find? key).isSome = true ↔ Declared steps key := by
  induction steps using List.reverseRecOn with
  | nil => simp [after, Raw.empty, find?, Declared]
  | append_singleton steps s ih =>
    have hstep : after (steps ++ [s]) = s.apply (after steps) := by simp [after]
    rw [hstep, declared_concat, ← ih]
    cases s with
    | declare name type value pos =>
      rw [Step.apply, isSome_find?_declare, Bool.or_eq_true, beq_iff_eq, or_comm]
      exact or_congr_right ⟨fun hkey => ⟨name, type, value, pos, rfl, hkey⟩, by
        rintro ⟨_, _, _, _, ⟨⟩, hkey⟩
        exact hkey⟩
    | push s => simp [Step.apply, Raw.push, find?]
    | pop => simp [Step.apply, Raw.pop, find?]
    | update id value => simp [Step.apply, Raw.update, find?]

/-! ### What is kept of an entry -/

theorem exists_kept_modify (n : Nat) {f : Symbol → Symbol} (hkey : ∀ e, (f e).key = e.key)
    (horder : ∀ e, (f e).order = e.order) (he : t.symbols[i]? = some e) :
    ∃ e', (t.symbols.modify n f)[i]? = some e' ∧ e'.key = e.key ∧ e'.order = e.order := by
  rw [Array.getElem?_modify]
  split
  · exact ⟨f e, by rw [he]; rfl, hkey e, horder e⟩
  · exact ⟨e, he, rfl, rfl⟩

/-- One operation renews entries at most, and loses none. -/
theorem exists_kept_apply (s : Step) (he : t.symbols[i]? = some e) :
    ∃ e', (s.apply t).symbols[i]? = some e' ∧ e'.key = e.key ∧ e'.order = e.order := by
  cases s with
  | push s => exact ⟨e, he, rfl, rfl⟩
  | pop => exact ⟨e, he, rfl, rfl⟩
  | update id value => exact exists_kept_modify id (fun _ => rfl) (fun _ => rfl) he
  | declare name type value pos =>
    rw [Step.apply]
    cases hfind : t.find? (name, t.current.label, pos) with
    | some j =>
      rw [declare_of_some hfind]
      exact exists_kept_modify j (fun _ => rfl) (fun _ => rfl) he
    | none =>
      have hne : i ≠ t.symbols.size := Nat.ne_of_lt (Array.getElem?_eq_some_iff.mp he).1
      rw [declare_of_none hfind]
      exact ⟨e, by rw [Array.getElem?_push, if_neg hne, he], rfl, rfl⟩

theorem exists_kept_foldl (steps : List Step) (he : t.symbols[i]? = some e) :
    ∃ e', (steps.foldl Step.apply t).symbols[i]? = some e' ∧ e'.key = e.key ∧
      e'.order = e.order := by
  induction steps generalizing t e with
  | nil => exact ⟨e, he, rfl, rfl⟩
  | cons s steps ih =>
    obtain ⟨e₁, he₁, hkey₁, horder₁⟩ := exists_kept_apply s he
    obtain ⟨e', he', hkey, horder⟩ := ih he₁
    exact ⟨e', he', hkey.trans hkey₁, horder.trans horder₁⟩

/-- What a declaration leaves in a table: its entry with the number `id`, which the index has under
its key, and all else as it was. -/
structure Enters (t : Raw) (name type value : String) (pos : Position) (id : Nat) (t' : Raw) :
    Prop where
  entry : ∃ e, t'.symbols[id]? = some e ∧ e.key = (name, t.current.label, pos) ∧ e.type = type ∧
    e.value = value
  indexed : t'.index.lookup (name, t.current.label, pos) = some id
  others : ∀ j, j ≠ id → t'.symbols[j]? = t.symbols[j]?
  unindexed : ∀ key, key ≠ (name, t.current.label, pos) → t'.index.lookup key = t.index.lookup key
  scopes : t'.scopes = t.scopes

/-- The number that the index gives is that of an entry, so the entry is there to be renewed. -/
theorem WF.enters_declare (h : t.WF) (name type value : String) (pos : Position) :
    t.Enters name type value pos (t.declare name type value pos).1
      (t.declare name type value pos).2 := by
  cases hfind : t.find? (name, t.current.label, pos) with
  | some i =>
    obtain ⟨e, he, hkey⟩ := h.find?_iff.mp hfind
    rw [declare_of_some hfind]
    refine ⟨⟨{ e with type, value }, ?_, hkey, rfl, rfl⟩, hfind, fun j hj => ?_, fun _ _ => rfl,
      rfl⟩
    · rw [Array.getElem?_modify, if_pos rfl, he]
      rfl
    · rw [Array.getElem?_modify, if_neg (Ne.symm hj)]
  | none =>
    rw [declare_of_none hfind]
    refine ⟨⟨_, Array.getElem?_push_size, rfl, rfl, rfl⟩, Table.lookup_put_self ..,
      fun j hj => ?_, fun key hkey => Table.lookup_put_of_ne _ _ hkey, rfl⟩
    rw [Array.getElem?_push, if_neg hj]

/-- A new entry is made for a key that has none. -/
theorem size_declare (t : Raw) (name type value : String) (pos : Position) :
    (t.declare name type value pos).2.symbols.size =
      t.symbols.size + if (t.find? (name, t.current.label, pos)).isSome then 0 else 1 := by
  cases hfind : t.find? (name, t.current.label, pos) with
  | some i => simp [declare_of_some hfind]
  | none => simp [declare_of_none hfind]

theorem update_of_size_le {id : Nat} (h : t.symbols.size ≤ id) (value : String) :
    t.update id value = t := by
  have hsame : t.symbols.modify id ({ · with value }) = t.symbols := by
    refine Array.ext_getElem? fun j => ?_
    rw [Array.getElem?_modify]
    split
    · rw [Array.getElem?_eq_none (by omega)]
      rfl
    · rfl
  rw [update, hsame]

/-! ### Scopes -/

/-- One operation does to the scopes what it should: the global one stays below all others, also if
there are no others to be left. -/
theorem scopes_apply {scopes : List Scope} (h : t.scopes = scopes ++ [.global]) (s : Step) :
    (s.apply t).scopes = s.enter scopes ++ [.global] := by
  cases s with
  | push s => exact congrArg (s :: ·) h
  | pop =>
    rw [Step.apply, Raw.pop, h]
    cases scopes with
    | nil => rfl
    | cons s rest => simp [Step.enter]
  | declare name type value pos => exact (scopes_declare ..).trans h
  | update id value => exact h

theorem scopes_foldl {scopes : List Scope} (h : t.scopes = scopes ++ [.global])
    (steps : List Step) :
    (steps.foldl Step.apply t).scopes = steps.foldl Step.enter scopes ++ [.global] := by
  induction steps generalizing t scopes with
  | nil => exact h
  | cons s steps ih => exact ih (scopes_apply h s)

theorem scopes_after (steps : List Step) : (after steps).scopes = entered steps ++ [.global] :=
  scopes_foldl rfl steps

end SymbolTable.Raw

open SymbolTable.Raw in
/-- **The symbol table is a register of declarations.** After any operations on a table, in any
order: the order of an entry is its number; no two entries agree in name, scope label and place; the
index has the number of each entry under its key, and nothing else; and the keys of entries are
those that were declared. A declaration gives the number of the entry of its key, which is new just
when the key was never declared before, and touches no other entry. Whatever is done later, every
entry stays, with its key and its order. Renewing a value changes the value of one entry, and
nothing if there is no such entry. The scopes that are open are those that were entered and not
left, above the global one, which no number of exits leaves. -/
theorem symbol_table_is_a_register (steps : List Step) :
    let t := after steps
    (∀ (i : Nat) e, t.symbols[i]? = some e → e.order = i) ∧
      (t.symbols.toList.map Symbol.key).Nodup ∧
      (∀ key (i : Nat), t.index.lookup key = some i ↔ ∃ e, t.symbols[i]? = some e ∧ e.key = key) ∧
      (∀ key, key ∈ t.symbols.toList.map Symbol.key ↔ Declared steps key) ∧
      (∀ name type value pos,
        let made := t.declare name type value pos
        t.Enters name type value pos made.1 made.2 ∧
          (made.2.symbols.size = t.symbols.size + 1 ↔
            ¬ Declared steps (name, t.current.label, pos)) ∧
          (made.2.symbols.size = t.symbols.size ↔ Declared steps (name, t.current.label, pos))) ∧
      (∀ more (i : Nat) e, t.symbols[i]? = some e →
        ∃ e', (after (steps ++ more)).symbols[i]? = some e' ∧ e'.key = e.key ∧
          e'.order = e.order) ∧
      (∀ id value,
        (∀ j : Nat, (t.update id value).symbols[j]? =
          if id = j then (t.symbols[j]?).map ({ · with value }) else t.symbols[j]?) ∧
        (t.update id value).index = t.index ∧ (t.update id value).scopes = t.scopes ∧
        (t.symbols.size ≤ id → t.update id value = t)) ∧
      t.scopes = entered steps ++ [.global] ∧ t.scopes ≠ [] ∧
      t.scopes.getLast? = some .global ∧ t.scopes.head? = some t.current := by
  intro t
  have h : t.WF := wf_after steps
  have hfound : ∀ name pos, (t.find? (name, t.current.label, pos)).isSome = true ↔
      Declared steps (name, t.current.label, pos) := fun name pos => isSome_find?_iff steps _
  have hscopes : t.scopes = entered steps ++ [.global] := scopes_after steps
  refine ⟨fun i e he => h.order he, h.nodup_keys, fun key i => h.find?_iff,
    fun key => h.mem_keys_iff.trans (isSome_find?_iff steps key),
    fun name type value pos => ⟨h.enters_declare name type value pos, ?_, ?_⟩,
    fun more i e he => ?_, fun id value => ⟨fun j => ?_, rfl, rfl, fun hid => ?_⟩, hscopes, ?_,
    h.bottom, ?_⟩
  · rw [t.size_declare, ← hfound]
    cases (t.find? (name, t.current.label, pos)).isSome <;> simp
  · rw [t.size_declare, ← hfound]
    cases (t.find? (name, t.current.label, pos)).isSome <;> simp
  · rw [after_append]
    exact exists_kept_foldl more he
  · exact Array.getElem?_modify
  · exact update_of_size_le hid value
  · simp [hscopes]
  · rw [SymbolTable.Raw.current, hscopes]
    cases entered steps <;> rfl

/-- Two loops with a variable each, the second gone through twice, and more scopes left than were
entered. -/
def twoLoops : List SymbolTable.Raw.Step :=
  [.push (.function "main"), .push .loop, .declare "i" "int32" "0" ⟨2, 9⟩, .pop, .push .loop,
    .declare "i" "int32" "0" ⟨5, 9⟩, .update 1 "1", .declare "i" "int32" "0" ⟨5, 9⟩, .pop, .pop,
    .pop, .pop]

theorem twoLoops_is_a_register :
    (SymbolTable.Raw.after twoLoops).symbols.map Symbol.key =
        #[("i", "for", ⟨2, 9⟩), ("i", "for", ⟨5, 9⟩)] ∧
      (SymbolTable.Raw.after twoLoops).index =
        [(("i", "for", ⟨2, 9⟩), 0), (("i", "for", ⟨5, 9⟩), 1)] ∧
      SymbolTable.Raw.Declared twoLoops ("i", "for", ⟨5, 9⟩) ∧
      (SymbolTable.Raw.after twoLoops).scopes = [.global] ∧
      (SymbolTable.Raw.after twoLoops).scopes.head? =
        some (SymbolTable.Raw.after twoLoops).current := by
  obtain ⟨-, -, -, hkeys, -, -, -, -, -, -, hcurrent⟩ := symbol_table_is_a_register twoLoops
  exact ⟨by decide +kernel, by decide +kernel, (hkeys _).mp (by decide +kernel), by decide +kernel,
    hcurrent⟩

end Treewalk
