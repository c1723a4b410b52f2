/-
# Quotients and remainders

Integers are divided toward zero, so that a remainder has the sign of the
dividend. By zero nothing is divided, and the result is nil. One quotient does
not fit into 32 bits, that of the least integer by minus one; it wraps around.
But sums and products do so, too: quotient times divisor plus remainder is the
dividend for all integers, because it is before anything wraps around.

Key definitions: `Value.IsInteger`, `IsRemainder`, `Expr.recombined`.
Key theorems: `Value.apply_div`, `Value.apply_mod`, `div_mul_add_mod`,
`quotients_and_remainders`.
-/
import Treewalk.Proofs.Yields
import Treewalk.Session

namespace Treewalk

/-- An integer or a rune of the number. -/
def Value.IsInteger (v : Value) (n : Int32) : Prop := v = .int n ∨ v = .rune n

/-- A remainder is zero or has the sign of the dividend, and is of less size than the divisor. -/
structure IsRemainder (a b r : Int32) : Prop where
  sign : r.toInt = 0 ∨ r.toInt.sign = a.toInt.sign
  size : r.toInt.natAbs < b.toInt.natAbs

theorem isRemainder_mod {a b : Int32} (hb : b ≠ 0) : IsRemainder a b (a % b) where
  sign := by
    rw [Int32.toInt_mod]
    by_cases hdvd : b.toInt ∣ a.toInt
    · exact .inl (Int.tmod_eq_zero_of_dvd hdvd)
    · rw [Int.sign_tmod, if_neg hdvd]
      exact .inr rfl
  size := by
    have hne : b.toInt ≠ 0 := fun h => hb (Int32.toInt_inj.mp h)
    rw [Int32.toInt_mod, Int.natAbs_tmod]
    exact Nat.mod_lt _ (Int.natAbs_pos.mpr hne)

/-- What is divided comes back, whether the quotient has wrapped around or not. -/
theorem div_mul_add_mod (a b : Int32) : a / b * b + a % b = a := by
  refine Int32.toInt_inj.mp ?_
  -- all wrapping around can wait until the end, and then there is nothing to wrap around
  calc (a / b * b + a % b).toInt
    _ = (a.toInt.tdiv b.toInt * b.toInt + a.toInt.tmod b.toInt).bmod Int32.size := by
      rw [Int32.toInt_add, Int32.toInt_mul, Int32.toInt_div, Int32.toInt_mod, Int.bmod_mul_bmod,
        Int.bmod_add_bmod]
    _ = a.toInt.bmod Int32.size := by rw [Int.tdiv_mul_add_tmod]
    _ = a.toInt := a.toInt_bmod_size

namespace Value

variable {v w : Value} {a b : Int32}

theorem IsInteger.isMulti (h : v.IsInteger a) : v.isMulti = false := by
  rcases h with rfl | rfl <;> rfl

theorem apply_mod (hv : v.IsInteger a) (hw : w.IsInteger b) :
    v.apply .mod w = .ok (if b = 0 then .nil else .int (a % b)) := by
  rcases hv with rfl | rfl <;> rcases hw with rfl | rfl <;> rfl

/-- A quotient of two runes is refused, any other is one of integers. -/
theorem apply_div (hv : v.IsInteger a) (hw : w.IsInteger b) (hint : v = .int a ∨ w = .int b) :
    v.apply .div w = .ok (if b = 0 then .nil else .int (a / b)) := by
  have hnumber : numberArith .div (.int a) (.int b) = if b = 0 then .nil else .int (a / b) := by
    by_cases hb : b = 0 <;> simp [numberArith, Operand.isZero, intArith, hb]
  rw [← hnumber]
  rcases hv with rfl | rfl <;> rcases hw with rfl | rfl
  · rfl
  · rfl
  · rfl
  · rcases hint with h | h <;> cases h

theorem apply_mul (hw : w.IsInteger b) : (int a).apply .mul w = .ok (.int (a * b)) := by
  rcases hw with rfl | rfl <;> rfl

end Value

/-- `(l / r) * r + l % r`. -/
def Expr.recombined (l r : Expr) (pos : Position) : Expr :=
  .binary .add (.binary .mul (.binary .div l r pos) r pos) (.binary .mod l r pos) pos

theorem yields_recombined {ctx : Context} {frame : FrameId} {m : Machine} {l r : Expr}
    {v w : Value} {a b : Int32} (hl : l.Yields ctx frame m v) (hr : r.Yields ctx frame m w)
    (hv : v.IsInteger a) (hw : w.IsInteger b) (hint : v = .int a ∨ w = .int b) (hb : b ≠ 0)
    (pos : Position) : (Expr.recombined l r pos).Yields ctx frame m (.int a) := by
  have hdiv : (Expr.binary .div l r pos).Yields ctx frame m (.int (a / b)) :=
    hl.binary hr hv.isMulti hw.isMulti (by rw [Value.apply_div hv hw hint, if_neg hb]) pos
  have hmod : (Expr.binary .mod l r pos).Yields ctx frame m (.int (a % b)) :=
    hl.binary hr hv.isMulti hw.isMulti (by rw [Value.apply_mod hv hw, if_neg hb]) pos
  have hmul := hdiv.binary hr rfl hw.isMulti (Value.apply_mul hw) pos
  refine hmul.binary hmod rfl rfl ?_ pos
  exact congrArg (fun n => Except.ok (Value.int n)) (div_mul_add_mod a b)

/-- **Division goes toward zero, and what is divided comes back.** By zero, quotient and remainder
are nil. By anything else the quotient is the one cut toward zero, wrapped around, the remainder has
the sign of the dividend and is of less size than the divisor, and quotient times divisor plus
remainder has the value of the dividend. Runes count as integers, but a quotient takes at
least one operand that is no rune. Nothing is reported. -/
theorem quotients_and_remainders (a b : Int32) (v w : Value) (hv : v.IsInteger a)
    (hw : w.IsInteger b) :
    (b = 0 → v.apply .mod w = .ok .nil) ∧
    (b ≠ 0 → ∃ r, v.apply .mod w = .ok (.int r) ∧ IsRemainder a b r) ∧
    (v = .int a ∨ w = .int b →
      (b = 0 → v.apply .div w = .ok .nil) ∧
      (b ≠ 0 → ∃ q, v.apply .div w = .ok (.int q) ∧
        q.toInt = (a.toInt.tdiv b.toInt).bmod Int32.size) ∧
      ∀ (ctx : Context) (frame : FrameId) (m : Machine) (l r : Expr),
        l.Yields ctx frame m v → r.Yields ctx frame m w → ∀ pos : Position,
        (b = 0 → (Expr.binary .div l r pos).Yields ctx frame m .nil ∧
          (Expr.binary .mod l r pos).Yields ctx frame m .nil) ∧
        (b ≠ 0 → (Expr.recombined l r pos).Yields ctx frame m (.int a))) := by
  have hmod := Value.apply_mod hv hw
  refine ⟨fun hb => by rw [hmod, if_pos hb], fun hb => ?_, fun hint => ?_⟩
  · exact ⟨a % b, by rw [hmod, if_neg hb], isRemainder_mod hb⟩
  have hdiv := Value.apply_div hv hw hint
  refine ⟨fun hb => by rw [hdiv, if_pos hb], fun hb => ?_, ?_⟩
  · exact ⟨a / b, by rw [hdiv, if_neg hb], Int32.toInt_div a b⟩
  intro ctx frame m l r hl hr pos
  refine ⟨fun hb => ⟨?_, ?_⟩, fun hb => yields_recombined hl hr hv hw hint hb pos⟩
  · exact hl.binary hr hv.isMulti hw.isMulti (by rw [hdiv, if_pos hb]) pos
  · exact hl.binary hr hv.isMulti hw.isMulti (by rw [hmod, if_pos hb]) pos

/-- The quotient that wraps around, of integers, and by a number that is a rune. -/
theorem least_by_minus_one_comes_back :
    (Value.int Int32.minValue).apply .div (.rune (-1)) = .ok (.int Int32.minValue) ∧
      (Value.int Int32.minValue).apply .mod (.rune (-1)) = .ok (.int 0) ∧
      (Expr.recombined (.int "-2147483648" .origin) (.int "-1" .origin) .origin).Yields
        (Config.context ⟨{}, ""⟩) Frames.globalId .initial (.int Int32.minValue) := by
  obtain ⟨-, hmod, hdiv⟩ := quotients_and_remainders Int32.minValue (-1) (.int Int32.minValue)
    (.rune (-1)) (.inl rfl) (.inr rfl)
  obtain ⟨q, hq, hqval⟩ := (hdiv (.inl rfl)).2.1 (by decide)
  obtain ⟨r, hr, hrem⟩ := hmod (by decide)
  have hleast : q = Int32.minValue := Int32.toInt_inj.mp (hqval.trans (by decide))
  have hzero : r = 0 := by
    have hsize : r.toInt.natAbs < 1 := hrem.size
    exact Int32.toInt_inj.mp (Int.natAbs_eq_zero.mp (Nat.lt_one_iff.mp hsize))
  obtain ⟨-, -, hint⟩ := quotients_and_remainders Int32.minValue (-1) (.int Int32.minValue)
    (.int (-1)) (.inl rfl) (.inl rfl)
  have hback := (hint (.inl rfl)).2.2 (Config.context ⟨{}, ""⟩) Frames.globalId .initial
    (.int "-2147483648" .origin) (.int "-1" .origin) (Expr.yields_int (by decide) .origin)
    (Expr.yields_int (by decide) .origin) .origin
  exact ⟨hleast ▸ hq, hzero ▸ hr, hback.2 (by decide)⟩

end Treewalk
