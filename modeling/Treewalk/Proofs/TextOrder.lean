/-
# Texts are ordered by their code points

Texts are compared byte by byte, and a character is up to four bytes. The
first of them is the greater the more bytes follow it, and those are the last
digits of the code point to base 64. So of two characters neither begins with
the bytes of the other, and the first bytes that differ are in the order of
the code points. Then texts are in the order of their code points, too: in
that of the first that differ, or a text before the longer one that begins
with it.

Key definitions: `codePoints`, `Utf8.ofCodePoint`, `Comparison`.
Key theorems: `Utf8.compare_spell`, `Utf8.compare_ofCodePoint`,
`order?_str`, `texts_are_ordered_by_code_points`.
-/
import Treewalk.Operator

namespace Treewalk

/-- The code points of a text. -/
def codePoints (s : String) : List Nat := s.toList.map Char.toNat

/-! ### Comparing lists -/

theorem compare_append_left {α : Type} [Ord α] [Std.ReflOrd α] (p l l' : List α) :
    compare (p ++ l) (p ++ l') = compare l l' := by
  induction p with
  | nil => rfl
  | cons x p ih =>
    rw [List.cons_append, List.cons_append, List.compare_cons_cons, Std.compare_self, ih]
    rfl

theorem compare_cons_of_lt {n k : Nat} (h : n < k) (l l' : List Nat) :
    compare (n :: l) (k :: l') = .lt := by
  rw [List.compare_cons_cons, Nat.compare_eq_lt.mpr h]
  rfl

/-- The order of lists of numbers: that of the first that differ, or the beginning of a list before
the list. -/
theorem compare_eq_lt_iff : ∀ {l l' : List Nat}, compare l l' = .lt ↔ l < l'
  | [], [] => by simp
  | [], y :: l' => by simp
  | x :: l, [] => by simp
  | x :: l, y :: l' => by
    rw [List.compare_cons_cons, Ordering.then_eq_lt, Nat.compare_eq_lt, Nat.compare_eq_eq,
      compare_eq_lt_iff, List.cons_lt_cons_iff]

namespace Utf8

theorem compare_toNat (x y : UInt8) : compare x.toNat y.toNat = compare x y := by
  rcases Nat.lt_trichotomy x.toNat y.toNat with h | h | h
  · rw [Nat.compare_eq_lt.mpr h, Std.compare_eq_lt.mpr (UInt8.lt_iff_toNat_lt.mpr h)]
  · rw [UInt8.toNat_inj.mp h, Std.compare_self, Std.compare_self]
  · rw [Nat.compare_eq_gt.mpr h, Std.compare_eq_gt.mpr (UInt8.lt_iff_toNat_lt.mpr h)]

theorem compare_map_toNat (l l' : List UInt8) :
    compare (l.map UInt8.toNat) (l'.map UInt8.toNat) = compare l l' := by
  induction l generalizing l' with
  | nil => cases l' <;> rfl
  | cons x l ih =>
    cases l' with
    | nil => rfl
    | cons y l' =>
      rw [List.map_cons, List.map_cons, List.compare_cons_cons, List.compare_cons_cons, ih,
        compare_toNat]

/-! ### The bytes of a character -/

/-- How many bytes follow the first byte of a character. -/
def following (n : Nat) : Nat :=
  if n ≤ 0x7f then 0 else if n ≤ 0x7ff then 1 else if n ≤ 0xffff then 2 else 3

/-- The least first byte that so many bytes follow. -/
def mark : Nat → Nat
  | 0 => 0
  | 1 => 0xc0
  | 2 => 0xe0
  | 3 => 0xf0
  | _ => 0x100

/-- A number as its last `k` digits to base 64, each with the mark of a byte that follows, behind
what is left of it, which has a mark of its own. -/
def spell (first : Nat) : Nat → Nat → List Nat
  | 0, n => [n + first]
  | k + 1, n => spell first k (n / 64) ++ [n % 64 + 0x80]

/-- The bytes of a code point. -/
def ofCodePoint (n : Nat) : List Nat := spell (mark (following n)) (following n) n

/-- The four ranges of code points. -/
theorem following_cases (n : Nat) :
    n ≤ 0x7f ∧ following n = 0 ∨ (0x7f < n ∧ n ≤ 0x7ff) ∧ following n = 1 ∨
      (0x7ff < n ∧ n ≤ 0xffff) ∧ following n = 2 ∨ 0xffff < n ∧ following n = 3 := by
  unfold following
  grind

theorem following_mono {n n' : Nat} (h : n ≤ n') : following n ≤ following n' := by
  have hn := following_cases n
  have hn' := following_cases n'
  omega

theorem following_le (n : Nat) : following n ≤ 3 := by
  have hn := following_cases n
  omega

theorem mark_succ_le : ∀ k' ≤ 3, ∀ k < k', mark (k + 1) ≤ mark k' := by
  decide

theorem toNat_lt (c : Char) : c.val.toNat < 0x110000 := by
  have hv := c.valid
  simp only [UInt32.isValidChar, Nat.isValidChar] at hv
  omega

theorem toNat_utf8EncodeChar (c : Char) :
    (String.utf8EncodeChar c).map UInt8.toNat = ofCodePoint c.toNat := by
  have hc := toNat_lt c
  unfold String.utf8EncodeChar ofCodePoint Char.toNat
  generalize c.val.toNat = n at *
  rcases following_cases n with ⟨h, hk⟩ | ⟨h, hk⟩ | ⟨h, hk⟩ | ⟨h, hk⟩
  · rw [hk, if_pos h]
    simp only [spell, mark, List.map_cons, List.map_nil, UInt8.toNat_ofNat', List.cons.injEq,
      and_true]
    omega
  · rw [hk, if_neg (by omega), if_pos h.2]
    simp only [spell, mark, List.map_cons, List.map_nil, UInt8.toNat_ofNat', List.cons.injEq,
      List.cons_append, List.nil_append, and_true]
    omega
  · rw [hk, if_neg (by omega), if_neg (by omega), if_pos h.2]
    simp only [spell, mark, List.map_cons, List.map_nil, UInt8.toNat_ofNat', List.cons.injEq,
      List.cons_append, List.nil_append, and_true]
    omega
  · rw [hk, if_neg (by omega), if_neg (by omega), if_neg (by omega)]
    simp only [spell, mark, List.map_cons, List.map_nil, UInt8.toNat_ofNat', List.cons.injEq,
      List.cons_append, List.nil_append, and_true]
    omega

/-- With equally many bytes, the first that differ are in the order of the numbers, whatever
comes behind. -/
theorem compare_spell (first : Nat) : ∀ (k : Nat) {n n' : Nat} (l l' : List Nat), n < n' →
    compare (spell first k n ++ l) (spell first k n' ++ l') = .lt
  | 0, _, _, l, l', h => compare_cons_of_lt (by omega) l l'
  | k + 1, n, n', l, l', h => by
    rw [spell, spell, List.append_assoc, List.append_assoc]
    by_cases hrest : n / 64 < n' / 64
    · exact compare_spell first k _ _ hrest
    · have heq : n / 64 = n' / 64 := by omega
      rw [heq, compare_append_left]
      exact compare_cons_of_lt (by omega) l l'

/-- The first byte shows how many follow. -/
theorem ofCodePoint_first {n : Nat} (hn : n < 0x110000) : ∃ x t, ofCodePoint n = x :: t ∧
    mark (following n) ≤ x ∧ x < mark (following n + 1) := by
  unfold ofCodePoint
  rcases following_cases n with ⟨h, hk⟩ | ⟨h, hk⟩ | ⟨h, hk⟩ | ⟨h, hk⟩ <;> rw [hk] <;>
    refine ⟨_, _, rfl, ?_⟩ <;> simp only [mark] <;> omega

/-- **The bytes of characters are in the order of the code points,** whatever comes behind. -/
theorem compare_ofCodePoint {n n' : Nat} (h : n < n') (hn' : n' < 0x110000) (l l' : List Nat) :
    compare (ofCodePoint n ++ l) (ofCodePoint n' ++ l') = .lt := by
  by_cases hk : following n = following n'
  · unfold ofCodePoint
    rw [hk]
    exact compare_spell _ _ l l' h
  · have hlt : following n < following n' := by
      have := following_mono (Nat.le_of_lt h)
      omega
    obtain ⟨x, t, hx, -, hxu⟩ := ofCodePoint_first (Nat.lt_trans h hn')
    obtain ⟨x', t', hx', hxl, -⟩ := ofCodePoint_first hn'
    have hmark := mark_succ_le _ (following_le n') _ hlt
    rw [hx, hx']
    exact compare_cons_of_lt (by omega) _ _

/-! ### The bytes of a text -/

theorem compare_flatMap : ∀ cs ds : List Char,
    compare (cs.flatMap fun c => ofCodePoint c.toNat) (ds.flatMap fun d => ofCodePoint d.toNat) =
      compare (cs.map Char.toNat) (ds.map Char.toNat)
  | [], [] => rfl
  | [], d :: ds => by
    obtain ⟨x, t, hx, -⟩ := ofCodePoint_first (toNat_lt d)
    rw [List.flatMap_cons, show ofCodePoint d.toNat = x :: t from hx]
    rfl
  | c :: cs, [] => by
    obtain ⟨x, t, hx, -⟩ := ofCodePoint_first (toNat_lt c)
    rw [List.flatMap_cons, show ofCodePoint c.toNat = x :: t from hx]
    rfl
  | c :: cs, d :: ds => by
    simp only [List.flatMap_cons, List.map_cons]
    rcases Nat.lt_trichotomy c.toNat d.toNat with h | h | h
    · rw [compare_ofCodePoint h (toNat_lt d), compare_cons_of_lt h]
    · rw [h, compare_append_left, compare_flatMap cs ds, List.compare_cons_cons, Std.compare_self]
      rfl
    · rw [Std.OrientedOrd.eq_swap, compare_ofCodePoint h (toNat_lt c), Std.OrientedOrd.eq_swap,
        compare_cons_of_lt h]

theorem utf8_eq (s : String) : Value.utf8 s = s.toList.flatMap String.utf8EncodeChar := by
  have hs : s.toByteArray = s.toList.utf8Encode := by
    rw [← String.toByteArray_ofList, String.ofList_toList]
  rw [Value.utf8, hs, List.utf8Encode, List.data_toByteArray, List.toList_toArray]

theorem map_toNat_utf8 (s : String) :
    (Value.utf8 s).map UInt8.toNat = s.toList.flatMap fun c => ofCodePoint c.toNat := by
  rw [utf8_eq, List.map_flatMap]
  simp only [toNat_utf8EncodeChar]

end Utf8

namespace Value

variable {a b c : String}

/-- **The bytes of texts are in the order of the code points.** -/
theorem order?_str (a b : String) :
    (str a).order? (str b) = some (compare (codePoints a) (codePoints b)) := by
  have hbytes : compare (utf8 a) (utf8 b) = compare (codePoints a) (codePoints b) := calc
    compare (utf8 a) (utf8 b)
    _ = compare ((utf8 a).map UInt8.toNat) ((utf8 b).map UInt8.toNat) :=
      (Utf8.compare_map_toNat _ _).symm
    _ = compare (a.toList.flatMap fun c => Utf8.ofCodePoint c.toNat)
        (b.toList.flatMap fun c => Utf8.ofCodePoint c.toNat) := by
      rw [Utf8.map_toNat_utf8, Utf8.map_toNat_utf8]
    _ = compare (codePoints a) (codePoints b) := Utf8.compare_flatMap _ _
  rw [order?, hbytes]

theorem codePoints_inj : codePoints a = codePoints b ↔ a = b := by
  refine ⟨fun h => String.toList_inj.mp ?_, fun h => by rw [h]⟩
  exact (List.map_inj_right fun c d h => Char.toNat_inj.mp h).mp h

/-- Texts are equal where they stand in no order. -/
theorem equal?_str (a b : String) :
    (str a).equal? (str b) = some (compare (codePoints a) (codePoints b)).isEq := by
  have heq : compare (codePoints a) (codePoints b) = .eq ↔ a = b :=
    Std.compare_eq_iff_eq.trans codePoints_inj
  by_cases h : a = b
  · rw [heq.mpr h, equal?, h, beq_self_eq_true]
    rfl
  · rw [equal?, beq_false_of_ne h, Ordering.isEq_eq_false.mpr fun he => h (heq.mp he)]

theorem apply_lt_str :
    (str a).apply .lt (str b) = .ok (bool true) ↔ codePoints a < codePoints b := by
  rw [apply, order?_str, ← compare_eq_lt_iff]
  cases compare (codePoints a) (codePoints b) <;> simp

end Value

/-- What the six comparisons of two texts evaluate to: just one of `<`, `==` and `>` to true, and the
others to what follows from these. -/
structure Comparison (a b : String) (less same more : Bool) : Prop where
  lt : (Value.str a).apply .lt (.str b) = .ok (.bool less)
  eq : (Value.str a).apply .eq (.str b) = .ok (.bool same)
  gt : (Value.str a).apply .gt (.str b) = .ok (.bool more)
  one : [less, same, more].count true = 1
  le : (Value.str a).apply .le (.str b) = .ok (.bool (less || same))
  ge : (Value.str a).apply .ge (.str b) = .ok (.bool (more || same))
  ne : (Value.str a).apply .ne (.str b) = .ok (.bool !same)

/-- The comparisons are read off the order of the code points. -/
theorem comparison_of_compare (a b : String) {o : Ordering}
    (h : compare (codePoints a) (codePoints b) = o) : Comparison a b o.isLT o.isEq o.isGT where
  lt := by rw [Value.apply, Value.order?_str, h, Option.any_some]
  eq := by
    rw [Value.apply, Value.equal?_str, h]
    cases o <;> rfl
  gt := by rw [Value.apply, Value.order?_str, h, Option.any_some]
  one := by cases o <;> rfl
  le := by rw [Value.apply, Value.order?_str, h, Option.any_some, Ordering.isLE_eq_isLT_or_isEq]
  ge := by rw [Value.apply, Value.order?_str, h, Option.any_some, Ordering.isGE_eq_isGT_or_isEq]
  ne := by
    rw [Value.apply, Value.equal?_str, h]
    cases o <;> rfl

/-- **Texts are ordered by their code points.** Of two texts just one is less than, equal to or
greater than the other, the further comparisons agree with that, and what is less comes first in the
lexicographic order of the code points. What is less than a lesser text is less. -/
theorem texts_are_ordered_by_code_points :
    (∀ a b : String, ∃ less same more, Comparison a b less same more ∧ (same = true ↔ a = b) ∧
      (less = true ↔ codePoints a < codePoints b) ∧
      (more = true ↔ codePoints b < codePoints a)) ∧
    ∀ a b c : String, (Value.str a).apply .lt (.str b) = .ok (.bool true) →
      (Value.str b).apply .lt (.str c) = .ok (.bool true) →
      (Value.str a).apply .lt (.str c) = .ok (.bool true) := by
  refine ⟨fun a b => ?_, fun a b c hab hbc => ?_⟩
  · refine ⟨_, _, _, comparison_of_compare a b rfl, ?_, ?_, ?_⟩
    · rw [Ordering.isEq_iff_eq_eq, Std.compare_eq_iff_eq, Value.codePoints_inj]
    · rw [Ordering.isLT_iff_eq_lt, compare_eq_lt_iff]
    · rw [Ordering.isGT_iff_eq_gt, Std.OrientedOrd.eq_swap, Ordering.swap_eq_gt,
        compare_eq_lt_iff]
  · rw [Value.apply_lt_str] at hab hbc ⊢
    exact List.lt_trans hab hbc

/-- Characters of two, three and four bytes, in this order. -/
theorem longer_characters_are_greater :
    (Value.str "é").apply .lt (.str "\uffff") = .ok (.bool true) ∧
      (Value.str "\uffff").apply .lt (.str "😀") = .ok (.bool true) ∧
      (Value.str "é").apply .lt (.str "😀") = .ok (.bool true) := by
  have hfirst : (Value.str "é").apply .lt (.str "\uffff") = .ok (.bool true) :=
    Value.apply_lt_str.mpr (by decide)
  have hsecond : (Value.str "\uffff").apply .lt (.str "😀") = .ok (.bool true) :=
    Value.apply_lt_str.mpr (by decide)
  exact ⟨hfirst, hsecond, texts_are_ordered_by_code_points.2 _ _ _ hfirst hsecond⟩

end Treewalk
