/-
# Texts under joining, repeating, measuring and cutting

Sums join texts, products with a count repeat them, `len` counts their code
points and `substr` cuts a part out by code points. The four are defined apart
from each other, on integers of 32 bits that wrap around. As long as lengths
fit into these, they agree: a part has the length asked for, two parts that
meet make up the whole, and lengths add and multiply as texts are joined and
repeated.

Key definitions: `Expr.length`, `Expr.part`, `Expr.Counts`.
Key theorems: `Value.repeated_add`, `Value.length_repeated`,
`Builtin.part_of_inside`, `texts_form_an_algebra`.
-/
import Treewalk.Proofs.Yields
import Treewalk.Session

namespace Treewalk

/-! ### Integers that do not wrap around -/

theorem bmod_size {x : Int} (hlow : -2147483648 ≤ x) (hhigh : x < 2147483648) :
    x.bmod Int32.size = x :=
  Int.bmod_eq_of_le hlow hhigh

/-! ### Repeating -/

namespace Value

theorem toList_repeat (s : String) (n : Nat) :
    (Nat.repeat (· ++ s) n "").toList = (List.replicate n s.toList).flatten := by
  induction n with
  | zero => rfl
  | succ n ih =>
    rw [Nat.repeat, String.toList_append, ih, List.replicate_succ', List.flatten_concat]

theorem toList_repeated (s : String) (n : Nat) :
    (repeated s n).toList = (List.replicate n s.toList).flatten := by
  unfold repeated
  by_cases h : s.isEmpty = true
  · have hs : s = "" := by simpa using h
    subst hs
    simp
  · rw [if_neg h, toList_repeat]

theorem repeated_add (s : String) (n k : Nat) :
    repeated s (n + k) = repeated s n ++ repeated s k := by
  refine String.toList_inj.mp ?_
  rw [String.toList_append, toList_repeated, toList_repeated, toList_repeated, ← List.flatten_append,
    List.replicate_append_replicate]

theorem length_repeated (s : String) (n : Nat) : (repeated s n).length = n * s.length := by
  rw [← String.length_toList, toList_repeated, List.length_flatten, List.map_replicate,
    List.sum_replicate_nat, String.length_toList]

theorem apply_times {s : String} {n : Int32} (hn : 0 ≤ n.toInt) :
    (str s).apply .mul (int n) = .ok (str (repeated s n.toInt.toNat)) ∧
      (int n).apply .mul (str s) = .ok (str (repeated s n.toInt.toNat)) := by
  have htimes : times s n = .ok (str (repeated s n.toInt.toNat)) := if_neg (by omega)
  exact ⟨htimes, htimes⟩

end Value

/-! ### Cutting -/

/-- The part lies inside the text. -/
def Inside (s : String) (start length : Int) : Prop :=
  0 ≤ start ∧ 0 ≤ length ∧ start + length ≤ s.length

namespace Builtin

variable {s : String} {start length : Int}

theorem part_of_outside (h : ¬ Inside s start length) : part s start length = .nil :=
  if_pos (by unfold Inside at h; omega)

theorem part_of_inside (h : Inside s start length) : part s start length =
    .str (String.ofList ((s.toList.drop start.toNat).take length.toNat)) :=
  if_neg (by unfold Inside at h; omega)

/-- A part has the length asked for. -/
theorem length_part (h : Inside s start length) :
    ((String.ofList ((s.toList.drop start.toNat).take length.toNat)).length : Int) = length := by
  obtain ⟨hstart, hlength, hend⟩ := h
  rw [String.length_ofList, List.length_take, List.length_drop, String.length_toList]
  omega

/-- Two parts that meet make up the whole. -/
theorem parts_meet (s : String) (k : Nat) :
    String.ofList (s.toList.take k) ++ String.ofList (s.toList.drop k) = s := by
  rw [← String.ofList_append, List.take_append_drop, String.ofList_toList]

/-- The part behind the first of two texts that are joined is the second. -/
theorem part_append (s t : String) : part (s ++ t) s.length t.length = .str t := by
  have hinside : Inside (s ++ t) s.length t.length :=
    ⟨by omega, by omega, by rw [String.length_append]; omega⟩
  rw [part_of_inside hinside, String.toList_append, Int.toNat_natCast, Int.toNat_natCast,
    ← String.length_toList, ← String.length_toList, List.drop_left, List.take_length,
    String.ofList_toList]

end Builtin

/-! ### As expressions -/

namespace Expr

/-- `len(e)`. -/
def length (e : Expr) (pos : Position) : Expr := .call "len" [e] pos

/-- `substr(e, start, length)`. -/
def part (e start length : Expr) (pos : Position) : Expr := .call "substr" [e, start, length] pos

/-- The value of the expression is the integer `k`, and evaluating it does nothing else. -/
def Counts (e : Expr) (ctx : Context) (frame : FrameId) (m : Machine) (k : Int) : Prop :=
  ∃ n : Int32, n.toInt = k ∧ e.Yields ctx frame m (.int n)

variable {ctx : Context} {frame : FrameId} {m : Machine} {e i n l r : Expr} {s t : String}
  {start count : Int32} {a b : Int}

theorem Counts.yields {k : Int32} (h : e.Counts ctx frame m k.toInt) :
    e.Yields ctx frame m (.int k) := by
  obtain ⟨n, hn, he⟩ := h
  rwa [Int32.toInt_inj.mp hn] at he

/-- An operator on integers that do not wrap around. -/
theorem Counts.binary {op : BinaryOp} {f : Int → Int → Int} (hl : l.Counts ctx frame m a)
    (hr : r.Counts ctx frame m b)
    (hop : ∀ n k : Int32, ∃ u : Int32, (Value.int n).apply op (.int k) = .ok (.int u) ∧
      u.toInt = (f n.toInt k.toInt).bmod Int32.size)
    (hlow : -2147483648 ≤ f a b) (hhigh : f a b < 2147483648) (pos : Position) :
    (Expr.binary op l r pos).Counts ctx frame m (f a b) := by
  obtain ⟨n, rfl, hl⟩ := hl
  obtain ⟨k, rfl, hr⟩ := hr
  obtain ⟨u, happly, hu⟩ := hop n k
  exact ⟨u, hu.trans (bmod_size hlow hhigh), hl.binary hr rfl rfl happly pos⟩

theorem Counts.add (hl : l.Counts ctx frame m a) (hr : r.Counts ctx frame m b)
    (hlow : -2147483648 ≤ a + b) (hhigh : a + b < 2147483648) (pos : Position) :
    (Expr.binary .add l r pos).Counts ctx frame m (a + b) :=
  hl.binary hr (fun n k => ⟨n + k, rfl, Int32.toInt_add n k⟩) hlow hhigh pos

theorem Counts.sub (hl : l.Counts ctx frame m a) (hr : r.Counts ctx frame m b)
    (hlow : -2147483648 ≤ a - b) (hhigh : a - b < 2147483648) (pos : Position) :
    (Expr.binary .sub l r pos).Counts ctx frame m (a - b) :=
  hl.binary hr (fun n k => ⟨n - k, rfl, Int32.toInt_sub n k⟩) hlow hhigh pos

theorem Counts.mul (hl : l.Counts ctx frame m a) (hr : r.Counts ctx frame m b)
    (hlow : -2147483648 ≤ a * b) (hhigh : a * b < 2147483648) (pos : Position) :
    (Expr.binary .mul l r pos).Counts ctx frame m (a * b) :=
  hl.binary hr (fun n k => ⟨n * k, rfl, Int32.toInt_mul n k⟩) hlow hhigh pos

theorem Yields.length (hlen : m.functions.lookup "len" = none) (he : e.Yields ctx frame m (.str s))
    (hs : s.length < 2147483648) (pos : Position) : (e.length pos).Counts ctx frame m s.length :=
  ⟨_, Builtin.toInt_clamp (Nat.le_of_lt_succ hs),
    yields_builtin [(e, .str s)] hlen rfl (by simpa using ⟨he, rfl⟩) rfl pos⟩

theorem Yields.part (hsubstr : m.functions.lookup "substr" = none)
    (he : e.Yields ctx frame m (.str s)) (hi : i.Yields ctx frame m (.int start))
    (hn : n.Yields ctx frame m (.int count)) (pos : Position) :
    (e.part i n pos).Yields ctx frame m (Builtin.part s start.toInt count.toInt) :=
  yields_builtin [(e, .str s), (i, .int start), (n, .int count)] hsubstr rfl
    (by simpa using ⟨⟨he, rfl⟩, ⟨hi, rfl⟩, ⟨hn, rfl⟩⟩) rfl pos

theorem Yields.join (hl : l.Yields ctx frame m (.str s)) (hr : r.Yields ctx frame m (.str t))
    (pos : Position) :
    (Expr.binary .add l r pos).Yields ctx frame m (.str (s ++ t)) :=
  hl.binary hr rfl rfl rfl pos

end Expr

section Laws

variable {ctx : Context} {frame : FrameId} {m : Machine} {S : Expr} {s : String}
  (hS : S.Yields ctx frame m (.str s)) (pos : Position)
include hS

/-- A part is nil just if it does not lie inside, and else a text of the length asked for. -/
theorem parts_have_their_length (hlen : m.functions.lookup "len" = none)
    (hsubstr : m.functions.lookup "substr" = none) {I N : Expr} {start length : Int32}
    (hI : I.Yields ctx frame m (.int start)) (hN : N.Yields ctx frame m (.int length)) :
    ((S.part I N pos).Yields ctx frame m .nil ↔ ¬ Inside s start.toInt length.toInt) ∧
      (Inside s start.toInt length.toInt → ∃ u, (S.part I N pos).Yields ctx frame m (.str u) ∧
        ((S.part I N pos).length pos).Yields ctx frame m (.int length)) := by
  have hpart := hS.part hsubstr hI hN pos
  refine ⟨⟨fun hnil hinside => ?_, fun h => ?_⟩, fun hinside => ?_⟩
  · rw [Builtin.part_of_inside hinside] at hpart
    cases hpart.symm.trans hnil
  · rwa [Builtin.part_of_outside h] at hpart
  · rw [Builtin.part_of_inside hinside] at hpart
    have hlength := Builtin.length_part hinside
    have hcount := hpart.length hlen (by have := length.toInt_lt; omega) pos
    rw [hlength] at hcount
    exact ⟨_, hpart, hcount.yields⟩

/-- A text is its part up to a place and the part from there on. -/
theorem parts_make_up_the_whole (hlen : m.functions.lookup "len" = none)
    (hsubstr : m.functions.lookup "substr" = none) (hs : s.length < 2147483648) {Z K : Expr}
    {k : Int32} (hZ : Z.Yields ctx frame m (.int 0)) (hK : K.Yields ctx frame m (.int k))
    (hk : 0 ≤ k.toInt) (hle : k.toInt ≤ s.length) :
    (Expr.binary .add (S.part Z K pos)
      (S.part K (.binary .sub (S.length pos) K pos) pos) pos).Yields ctx frame m (.str s) := by
  have hrest : (Expr.binary .sub (S.length pos) K pos).Counts ctx frame m (s.length - k.toInt) :=
    (hS.length hlen hs pos).sub ⟨k, rfl, hK⟩ (by omega) (by omega) pos
  obtain ⟨d, hd, hrest⟩ := hrest
  have hfirst := hS.part hsubstr hZ hK pos
  have hsecond := hS.part hsubstr hK hrest pos
  rw [Builtin.part_of_inside ⟨by decide, hk, by rw [Int32.toInt_zero]; omega⟩] at hfirst
  rw [Builtin.part_of_inside ⟨hk, by omega, by omega⟩,
    List.take_of_length_le (by rw [List.length_drop, String.length_toList]; omega)] at hsecond
  have hwhole := hfirst.join hsecond pos
  rwa [Int32.toInt_zero, Int.toNat_zero, List.drop_zero, Builtin.parts_meet] at hwhole

/-- What is repeated is as many times as long, and may be repeated in two goes, from either side. -/
theorem repeating_adds_up (hlen : m.functions.lookup "len" = none) (hs : s.length < 2147483648)
    {N K : Expr} {n k : Int32} (hN : N.Yields ctx frame m (.int n))
    (hK : K.Yields ctx frame m (.int k)) (hn : 0 ≤ n.toInt) (hk : 0 ≤ k.toInt)
    (hsum : n.toInt + k.toInt < 2147483648)
    (hsize : (n.toInt + k.toInt) * s.length < 2147483648) :
    ((Expr.binary .mul S N pos).length pos).Counts ctx frame m (n.toInt * s.length) ∧
      (Expr.binary .mul N (S.length pos) pos).Counts ctx frame m (n.toInt * s.length) ∧
      (∃ u, (Expr.binary .mul S (.binary .add N K pos) pos).Yields ctx frame m (.str u) ∧
        (Expr.binary .add (.binary .mul S N pos) (.binary .mul S K pos) pos).Yields ctx frame m
          (.str u)) ∧
      ∃ u, (Expr.binary .mul S N pos).Yields ctx frame m (.str u) ∧
        (Expr.binary .mul N S pos).Yields ctx frame m (.str u) := by
  have hnonneg : 0 ≤ n.toInt * s.length := Int.mul_nonneg hn (Int.natCast_nonneg _)
  have hlow : -2147483648 ≤ n.toInt * s.length := by omega
  have hhigh : n.toInt * s.length < 2147483648 := calc
    n.toInt * s.length ≤ (n.toInt + k.toInt) * s.length :=
      Int.mul_le_mul_of_nonneg_right (by omega) (Int.natCast_nonneg _)
    _ < 2147483648 := hsize
  have hSN := hS.binary hN rfl rfl (Value.apply_times hn).1 pos
  have hNS := hN.binary hS rfl rfl (Value.apply_times hn).2 pos
  have hSK := hS.binary hK rfl rfl (Value.apply_times hk).1 pos
  have hlength : ((Value.repeated s n.toInt.toNat).length : Int) = n.toInt * s.length := by
    rw [Value.length_repeated, Int.natCast_mul, Int.toNat_of_nonneg hn]
  refine ⟨?_, ?_, ?_, _, hSN, hNS⟩
  · have hcount := hSN.length hlen (by omega) pos
    rwa [hlength] at hcount
  · exact Expr.Counts.mul ⟨n, rfl, hN⟩ (hS.length hlen hs pos) hlow hhigh pos
  · obtain ⟨u, hu, hNK⟩ := Expr.Counts.add ⟨n, rfl, hN⟩ ⟨k, rfl, hK⟩ (by omega) hsum pos
    have hall := hS.binary hNK rfl rfl (Value.apply_times (by omega)).1 pos
    rw [hu, Int.toNat_add hn hk, Value.repeated_add] at hall
    exact ⟨_, hall, hSN.join hSK pos⟩

end Laws

/-- **Joining, repeating, measuring and cutting texts agree.** Let `S` and `T` be expressions for two
texts of less than 2^31 code points together, in a program that has no functions `len` and `substr`
of its own. A part of a text is nil just if it does not lie inside, and else of the length asked for;
the parts up to a place and from there on make up the text; the part behind the first of two joined
texts is the second; lengths add up; and what is repeated is as many times as long, and may be
repeated in two goes, from either side. Nothing is reported. -/
theorem texts_form_an_algebra {ctx : Context} {frame : FrameId} {m : Machine}
    (hlen : m.functions.lookup "len" = none) (hsubstr : m.functions.lookup "substr" = none)
    {S T : Expr} {s t : String} (hS : S.Yields ctx frame m (.str s))
    (hT : T.Yields ctx frame m (.str t)) (hsize : s.length + t.length < 2147483648)
    (pos : Position) :
    (∀ (I N : Expr) (start length : Int32), I.Yields ctx frame m (.int start) →
      N.Yields ctx frame m (.int length) →
      ((S.part I N pos).Yields ctx frame m .nil ↔
        start.toInt < 0 ∨ length.toInt < 0 ∨ s.length < start.toInt + length.toInt) ∧
      (¬ (start.toInt < 0 ∨ length.toInt < 0 ∨ s.length < start.toInt + length.toInt) →
        ∃ u, (S.part I N pos).Yields ctx frame m (.str u) ∧
          ((S.part I N pos).length pos).Yields ctx frame m (.int length))) ∧
    (∀ (Z K : Expr) (k : Int32), Z.Yields ctx frame m (.int 0) → K.Yields ctx frame m (.int k) →
      0 ≤ k.toInt → k.toInt ≤ s.length →
      (Expr.binary .add (S.part Z K pos)
        (S.part K (.binary .sub (S.length pos) K pos) pos) pos).Yields ctx frame m (.str s)) ∧
    ((Expr.binary .add S T pos).part (S.length pos) (T.length pos) pos).Yields ctx frame m
      (.str t) ∧
    ((S.length pos).Counts ctx frame m s.length ∧
      ((Expr.binary .add S T pos).length pos).Counts ctx frame m (s.length + t.length) ∧
      (Expr.binary .add (S.length pos) (T.length pos) pos).Counts ctx frame m
        (s.length + t.length)) ∧
    ∀ (N K : Expr) (n k : Int32), N.Yields ctx frame m (.int n) → K.Yields ctx frame m (.int k) →
      0 ≤ n.toInt → 0 ≤ k.toInt → n.toInt + k.toInt < 2147483648 →
      (n.toInt + k.toInt) * s.length < 2147483648 →
      ((Expr.binary .mul S N pos).length pos).Counts ctx frame m (n.toInt * s.length) ∧
      (Expr.binary .mul N (S.length pos) pos).Counts ctx frame m (n.toInt * s.length) ∧
      (∃ u, (Expr.binary .mul S (.binary .add N K pos) pos).Yields ctx frame m (.str u) ∧
        (Expr.binary .add (.binary .mul S N pos) (.binary .mul S K pos) pos).Yields ctx frame m
          (.str u)) ∧
      ∃ u, (Expr.binary .mul S N pos).Yields ctx frame m (.str u) ∧
        (Expr.binary .mul N S pos).Yields ctx frame m (.str u) := by
  have hs : s.length < 2147483648 := by omega
  have hlenS := hS.length hlen hs pos
  have hlenT := hT.length hlen (by omega) pos
  refine ⟨fun I N start length hI hN => ?_, fun Z K k hZ hK => ?_, ?_, ⟨hlenS, ?_, ?_⟩,
    fun N K n k hN hK => ?_⟩
  · have houtside : ¬ Inside s start.toInt length.toInt ↔
        start.toInt < 0 ∨ length.toInt < 0 ∨ s.length < start.toInt + length.toInt := by
      unfold Inside
      omega
    rw [← houtside, Classical.not_not]
    exact parts_have_their_length hS pos hlen hsubstr hI hN
  · exact parts_make_up_the_whole hS pos hlen hsubstr hs hZ hK
  · obtain ⟨n, hn, hlenS⟩ := hlenS
    obtain ⟨k, hk, hlenT⟩ := hlenT
    have hpart := (hS.join hT pos).part hsubstr hlenS hlenT pos
    rwa [hn, hk, Builtin.part_append] at hpart
  · have hjoin := (hS.join hT pos).length hlen (by rw [String.length_append]; omega) pos
    rwa [String.length_append, Int.natCast_add] at hjoin
  · exact hlenS.add hlenT (by omega) (by omega) pos
  · exact repeating_adds_up hS pos hlen hs hN hK

/-- A literal of characters of one, two and four bytes. -/
def wideText : Expr := .str "añ😀" .origin

/-- Its parts up to its last character and from there on, and its length when it is repeated. -/
theorem wideText_is_cut_and_repeated :
    (Expr.binary .add (wideText.part (.int "0" .origin) (.int "2" .origin) .origin)
      (wideText.part (.int "2" .origin)
        (.binary .sub (wideText.length .origin) (.int "2" .origin) .origin) .origin)
      .origin).Yields (Config.context ⟨{}, ""⟩) Frames.globalId .initial (.str "añ😀") ∧
    ((Expr.binary .mul wideText (.int "2" .origin) .origin).length .origin).Counts
      (Config.context ⟨{}, ""⟩) Frames.globalId .initial 6 := by
  have hwide : wideText.Yields (Config.context ⟨{}, ""⟩) Frames.globalId .initial (.str "añ😀") :=
    Expr.yields_str (by decide) .origin
  have hzero : (Expr.int "0" .origin).Yields (Config.context ⟨{}, ""⟩) Frames.globalId .initial
      (.int 0) := Expr.yields_int (by decide) .origin
  have htwo : (Expr.int "2" .origin).Yields (Config.context ⟨{}, ""⟩) Frames.globalId .initial
      (.int 2) := Expr.yields_int (by decide) .origin
  obtain ⟨-, hwhole, -, -, hrepeat⟩ :=
    texts_form_an_algebra rfl rfl hwide hwide (by decide) .origin
  exact ⟨hwhole _ _ 2 hzero htwo (by decide) (by decide),
    (hrepeat _ _ 2 0 htwo hzero (by decide) (by decide) (by decide) (by decide)).1⟩

end Treewalk
