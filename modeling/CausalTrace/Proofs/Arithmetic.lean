import CausalTrace.Template
import CausalTrace.Proofs.Numerals
import CausalTrace.Proofs.Steps
import Mathlib.Data.Int.Cast.Field
import Mathlib.Data.Rat.Cast.Order

/-!
# Integer arithmetic is exact

Templates compute with integers of 64 bits. A formula over integers has an exact value among the
rationals; when its evaluation ends in an integer, this is the exact value. A result that is not
whole is a float, and no float becomes an integer again. Without division a formula is an integer
unless some part of it has a value outside 64 bits, and then its evaluation is an overflow.
-/

namespace CausalTrace.Template

/-! ## Formulas over integers -/

/-- A number truncated toward zero. -/
def truncate (q : ℚ) : ℤ := q.num.tdiv q.den

/-- The exact result of an operator, unless it divides by zero. -/
def ArithOp.exact : ArithOp → ℚ → ℚ → Option ℚ
  | .add, x, y => some (x + y)
  | .sub, x, y => some (x - y)
  | .mul, x, y => some (x * y)
  | .div, x, y => if y = 0 then none else some (x / y)
  | .rem, x, y => if y = 0 then none else some (x - y * truncate (x / y))

/-- An expression of integers, bare placeholders, the operators of arithmetic and the minus sign. -/
inductive Formula where
  | int (n : Int64)
  | arg (i : Nat)
  | neg (f : Formula)
  | op (o : ArithOp) (f g : Formula)

namespace Formula

def expr : Formula → Expr
  | int n => .literal (.int n)
  | arg i => .arg i
  | neg f => .unary .neg f.expr
  | op o f g => .binary o.toBinary f.expr g.expr

/-- The exact value over the integers that fill the placeholders. -/
def exact (ns : Nat → Int64) : Formula → Option ℚ
  | int n => some n.toInt
  | arg i => some (ns i).toInt
  | neg f => (f.exact ns).map (-·)
  | op o f g => do o.exact (← f.exact ns) (← g.exact ns)

/-- The formula and the formulas it is made of. -/
def parts : Formula → List Formula
  | int n => [int n]
  | arg i => [arg i]
  | neg f => neg f :: f.parts
  | op o f g => op o f g :: (f.parts ++ g.parts)

/-- Neither a quotient nor a remainder is taken. -/
def DivisionFree : Formula → Prop
  | int _ => True
  | arg _ => True
  | neg f => f.DivisionFree
  | op o f g => o ≠ .div ∧ o ≠ .rem ∧ f.DivisionFree ∧ g.DivisionFree

/-- Between the least and the greatest integer of 64 bits. -/
def InRange (q : ℚ) : Prop := Int64.minValue.toInt ≤ q ∧ q ≤ Int64.maxValue.toInt

/-- The exact value of every part is in range. -/
def Fits (ns : Nat → Int64) (f : Formula) : Prop :=
  ∀ g ∈ f.parts, ∀ q, g.exact ns = some q → InRange q

end Formula

/-! ## Operators on integers -/

theorem truncate_div {m n : ℤ} (hn : n ≠ 0) : truncate ((m : ℚ) / n) = m.tdiv n := by
  obtain ⟨c, hm, hc⟩ := Rat.num_den_mk hn (Rat.divInt_eq_div m n).symm
  -- The fraction is the quotient in lowest terms with both sides multiplied by some factor.
  generalize (m : ℚ) / n = q at hm hc
  have hfactor : c ≠ 0 := by
    rintro rfl
    exact hn (by rw [hc, Int.zero_mul])
  rw [truncate, hm, hc]
  rcases Int.lt_or_gt_of_ne hfactor with hneg | hpos
  · rw [← Int.neg_tdiv_neg (c * q.num), ← Int.neg_mul, ← Int.neg_mul,
      Int.mul_tdiv_mul_of_pos _ _ (Int.neg_pos_of_neg hneg)]
  · rw [Int.mul_tdiv_mul_of_pos _ _ hpos]

theorem checked_eq_int_iff {n : ℤ} {v : Int64} : checked n = .ok (.int v) ↔ v.toInt = n := by
  rw [checked, ← Number.fit?_eq_some_iff]
  cases Number.fit? n <;> simp

/-- An integer result is in range, or it is an overflow. -/
theorem checked_cases (n : ℤ) : Formula.InRange n ∧ (∃ v, checked n = .ok (.int v)) ∨
    ¬ Formula.InRange n ∧ checked n = .error .overflow := by
  rw [Formula.InRange, Int.cast_le, Int.cast_le, checked]
  cases hfit : Number.fit? n with
  | some v =>
      rw [← Number.fit?_eq_some_iff.mp hfit]
      exact .inl ⟨⟨Int64.minValue_le_toInt v, Int64.toInt_le v⟩, v, rfl⟩
  | none => exact .inr ⟨Number.fit?_eq_none_iff.mp hfit, rfl⟩

theorem exact_of_integerArith {o : ArithOp} {m n v : Int64}
    (h : integerArith o m n = .ok (.int v)) : o.exact m.toInt n.toInt = some (v.toInt : ℚ) := by
  cases o with
  | add =>
      rw [checked_eq_int_iff.mp h, ArithOp.exact, Int.cast_add]
  | sub =>
      rw [checked_eq_int_iff.mp h, ArithOp.exact, Int.cast_sub]
  | mul =>
      rw [checked_eq_int_iff.mp h, ArithOp.exact, Int.cast_mul]
  | div =>
      rw [integerArith] at h
      split at h
      · cases h
      · next hn =>
          split at h
          · next hdvd =>
              rw [checked_eq_int_iff.mp h, ArithOp.exact, if_neg (Int.cast_ne_zero.mpr hn)]
              rw [Int.tdiv_eq_ediv_of_dvd (Int.dvd_of_tmod_eq_zero hdvd),
                Int.cast_div (Int.dvd_of_tmod_eq_zero hdvd) (Int.cast_ne_zero.mpr hn)]
          · cases h
  | rem =>
      rw [integerArith] at h
      split at h
      · cases h
      · next hn =>
          split at h
          · cases h
          · rw [checked_eq_int_iff.mp h, ArithOp.exact, if_neg (Int.cast_ne_zero.mpr hn),
              truncate_div hn, Int.tmod_def, Int.cast_sub, Int.cast_mul]

/-- Without division the exact result is an integer, which then has to be in range. -/
theorem integerArith_eq_checked {o : ArithOp} (hdiv : o ≠ .div) (hrem : o ≠ .rem) (m n : Int64) :
    ∃ k : ℤ, o.exact m.toInt n.toInt = some (k : ℚ) ∧ integerArith o m n = checked k := by
  cases o with
  | add => exact ⟨m.toInt + n.toInt, by rw [ArithOp.exact, Int.cast_add], rfl⟩
  | sub => exact ⟨m.toInt - n.toInt, by rw [ArithOp.exact, Int.cast_sub], rfl⟩
  | mul => exact ⟨m.toInt * n.toInt, by rw [ArithOp.exact, Int.cast_mul], rfl⟩
  | div => exact absurd rfl hdiv
  | rem => exact absurd rfl hrem

theorem floatArith_ne_int {o : ArithOp} {x y : Float} {v : Int64} :
    floatArith o x y ≠ .ok (.int v) := by
  cases o with
  | add | sub | mul => exact nofun
  | div | rem =>
      rw [floatArith]
      split <;> exact nofun

/-- Only integers give an integer. -/
theorem integers_of_arith {o : ArithOp} {l r : Value} {v : Int64} (h : arith o l r = .ok (.int v)) :
    ∃ m n, l = .int m ∧ r = .int n ∧ integerArith o m n = .ok (.int v) := by
  unfold arith at h
  split at h
  · cases h
  · cases h
  · exact ⟨_, _, rfl, rfl, h⟩
  · split at h
    · exact (floatArith_ne_int h).elim
    · cases h

theorem integer_of_applyUnary {w : Value} {v : Int64} (h : applyUnary .neg w = .ok (.int v)) :
    ∃ n : Int64, w = .int n ∧ v.toInt = -n.toInt := by
  cases w with
  | int n => exact ⟨n, rfl, checked_eq_int_iff.mp h⟩
  | float x => cases h
  | null | bool | str => cases h

/-! ## Formulas -/

theorem arith_int {o : ArithOp} (m n : Int64) : arith o (.int m) (.int n) = integerArith o m n := by
  cases o <;> rfl

theorem eval_binary_toBinary (env : Nat → Value) (o : ArithOp) (l r : Expr) :
    (Expr.binary o.toBinary l r).eval env = (do arith o (← l.eval env) (← r.eval env)) := by
  cases o <;> rfl

namespace Formula

variable {f g : Formula} {o : ArithOp} {env : Nat → Value} {ns : Nat → Int64} {v : Int64}

/-- An integer that a formula evaluates to is its exact value. -/
theorem exact_of_eval (henv : ∀ i ∈ f.expr.positions, env i = .int (ns i))
    (h : f.expr.eval env = .ok (.int v)) : f.exact ns = some (v.toInt : ℚ) := by
  induction f generalizing v with
  | int n =>
      cases h
      rfl
  | arg i =>
      rw [expr, Expr.eval, henv i (List.mem_singleton_self i)] at h
      cases h
      rfl
  | neg f ih =>
      obtain ⟨w, hw, hneg⟩ := bind_eq_ok_iff.mp h
      obtain ⟨n, rfl, hv⟩ := integer_of_applyUnary hneg
      rw [exact, ih henv hw, hv, Int.cast_neg]
      rfl
  | op o f g ihf ihg =>
      rw [expr, eval_binary_toBinary] at h
      obtain ⟨l, hl, hright⟩ := bind_eq_ok_iff.mp h
      obtain ⟨r, hr, harith⟩ := bind_eq_ok_iff.mp hright
      obtain ⟨m, n, rfl, rfl, hinteger⟩ := integers_of_arith harith
      rw [exact, ihf (fun i hi => henv i (List.mem_append_left _ hi)) hl,
        ihg (fun i hi => henv i (List.mem_append_right _ hi)) hr]
      exact exact_of_integerArith hinteger

theorem fits_neg : (neg f).Fits ns ↔ (∀ q, (neg f).exact ns = some q → InRange q) ∧ f.Fits ns :=
  List.forall_mem_cons

theorem fits_op : (op o f g).Fits ns ↔
    (∀ q, (op o f g).exact ns = some q → InRange q) ∧ f.Fits ns ∧ g.Fits ns :=
  List.forall_mem_cons.trans (and_congr_right' List.forall_mem_append)

/-- A formula without division is an integer if all its parts are in range, else an overflow. -/
theorem eval_cases (hfree : f.DivisionFree) (henv : ∀ i ∈ f.expr.positions, env i = .int (ns i)) :
    f.Fits ns ∧ (∃ v, f.expr.eval env = .ok (.int v)) ∨
      ¬ f.Fits ns ∧ f.expr.eval env = .error .overflow := by
  have hinteger : ∀ v : Int64, InRange v.toInt := fun v =>
    ⟨Int.cast_le.mpr (Int64.minValue_le_toInt v), Int.cast_le.mpr (Int64.toInt_le v)⟩
  induction f with
  | int n =>
      refine .inl ⟨List.forall_mem_singleton.mpr fun q hq => ?_, n, rfl⟩
      cases hq
      exact hinteger n
  | arg i =>
      refine .inl ⟨List.forall_mem_singleton.mpr fun q hq => ?_, ns i, ?_⟩
      · cases hq
        exact hinteger (ns i)
      · rw [expr, Expr.eval, henv i (List.mem_singleton_self i)]
        rfl
  | neg f ih =>
      rw [fits_neg]
      rcases ih hfree henv with ⟨hfits, n, hn⟩ | ⟨hfits, hover⟩
      · have heval : (neg f).expr.eval env = checked (-n.toInt) := by
          rw [expr, Expr.eval, hn]
          rfl
        have hexact : (neg f).exact ns = some ((-n.toInt : ℤ) : ℚ) := by
          rw [exact, exact_of_eval (f := f) henv hn, Int.cast_neg]
          rfl
        rw [heval, hexact]
        simpa [hfits] using checked_cases (-n.toInt)
      · refine .inr ⟨fun h => hfits h.2, ?_⟩
        rw [expr, Expr.eval, hover]
        rfl
  | op o f g ihf ihg =>
      rw [fits_op, expr, eval_binary_toBinary]
      obtain ⟨hdiv, hrem, hf, hg⟩ := hfree
      have henvf : ∀ i ∈ f.expr.positions, env i = .int (ns i) := fun i hi =>
        henv i (List.mem_append_left _ hi)
      have henvg : ∀ i ∈ g.expr.positions, env i = .int (ns i) := fun i hi =>
        henv i (List.mem_append_right _ hi)
      rcases ihf hf henvf with ⟨hfitsf, m, hm⟩ | ⟨hfits, hover⟩
      · rcases ihg hg henvg with ⟨hfitsg, n, hn⟩ | ⟨hfits, hover⟩
        · obtain ⟨k, hexact, harith⟩ := integerArith_eq_checked hdiv hrem m n
          have hexact' : (op o f g).exact ns = some (k : ℚ) := by
            rw [exact, exact_of_eval henvf hm, exact_of_eval henvg hn]
            exact hexact
          have heval : (do arith o (← f.expr.eval env) (← g.expr.eval env)) = checked k := by
            rw [hm, hn, ← harith, ← arith_int]
            rfl
          rw [heval, hexact']
          simpa [hfitsf, hfitsg] using checked_cases k
        · refine .inr ⟨fun h => hfits h.2.2, ?_⟩
          rw [hm, hover]
          rfl
      · refine .inr ⟨fun h => hfits h.2.1, ?_⟩
        rw [hover]
        rfl

end Formula

/-! ## Templates -/

/-- Over integers an integer result of a template is the exact value of its formula. Without
division the result is an integer where the exact value of every part is in range, and an
overflow where that of some part is not. -/
theorem eval_integers {t : Template} {f : Formula} {ns : Nat → Int64} {args : Row}
    (hexpr : t.expr = f.expr) (hlength : args.length = t.arity)
    (hargs : ∀ i ∈ t.expr.positions, args[i]? = some (.int (ns i))) :
    (∀ v, t.eval args = .ok (.int v) → f.exact ns = some (v.toInt : ℚ)) ∧
    (f.DivisionFree →
      (f.Fits ns → ∃ v, t.eval args = .ok (.int v)) ∧
      (¬ f.Fits ns → t.eval args = .error .overflow)) := by
  have henv : ∀ i ∈ f.expr.positions, args.getD i .null = .int (ns i) := by
    intro i hi
    rw [List.getD_eq_getElem?_getD, hargs i (hexpr ▸ hi)]
    rfl
  rw [eval, if_pos hlength, hexpr]
  refine ⟨fun v hv => Formula.exact_of_eval henv hv, fun hfree => ?_⟩
  rcases Formula.eval_cases hfree henv with ⟨hfits, hint⟩ | ⟨hfits, hover⟩
  · exact ⟨fun _ => hint, fun h => absurd hfits h⟩
  · exact ⟨fun h => absurd h hfits, fun _ => hover⟩

/-- A remainder of a negative number, and a quotient that is whole. -/
def mixed : Formula :=
  .op .add (.op .rem (.neg (.arg 0)) (.int 4)) (.op .div (.int 14) (.arg 1))

/-- The least integer has no negative. -/
def tooLarge : Formula := .op .sub (.int 1) (.neg (.arg 0))

theorem eval_integers_mixed :
    parse "-{}%4+14/{}" = .ok ⟨"-{}%4+14/{}", mixed.expr, 2⟩ ∧
      mixed.exact (fun i => [10, 7].getD i 0) = some (((0 : Int64).toInt : ℤ) : ℚ) ∧
      parse "1-(-{})" = .ok ⟨"1-(-{})", tooLarge.expr, 1⟩ ∧
      eval ⟨"1-(-{})", tooLarge.expr, 1⟩ [.int Int64.minValue] = .error .overflow := by
  refine ⟨rfl, ?_, rfl, ?_⟩
  · have hargs : ∀ i ∈ mixed.expr.positions,
        [Value.int 10, .int 7][i]? = some (.int ([10, 7].getD i 0)) := by decide
    exact (eval_integers (t := ⟨"-{}%4+14/{}", mixed.expr, 2⟩) rfl rfl hargs).1 0 rfl
  · have hargs : ∀ i ∈ tooLarge.expr.positions,
        [Value.int Int64.minValue][i]? = some (.int Int64.minValue) := by decide
    refine ((eval_integers rfl rfl hargs).2 ?_).2 fun hfits => ?_
    · simp [tooLarge, Formula.DivisionFree]
    · have hpart := hfits (.neg (.arg 0)) (by simp [tooLarge, Formula.parts]) _ rfl
      have hmax : ((-Int64.minValue.toInt : ℤ) : ℚ) ≤ Int64.maxValue.toInt := by
        rw [Int.cast_neg]
        exact hpart.2
      exact absurd (Int.cast_le.mp hmax) (by decide)

end CausalTrace.Template
