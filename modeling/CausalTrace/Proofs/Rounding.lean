import Mathlib.Algebra.Order.Ring.Int
import Mathlib.Data.Nat.Log

/-!
# Rounding integers to 53 binary digits

A float has 53 binary digits. An integer with more of them is rounded to the nearest that has no
more, of two such to the one whose last digit is even. Rounding keeps the order, though not
strictly: it leaves alone what 53 digits hold, and takes an integer of 64 bits to one at most
512 away.
-/

namespace CausalTrace.Number

/-! ## Rounding to 53 binary digits -/

/-- A number without its last `k` binary digits, rounded to the nearest, a tie to the even one. -/
def roundShift (n k : Nat) : Nat :=
  let q := n / 2 ^ k
  let r := n % 2 ^ k
  if 2 * r < 2 ^ k ∨ 2 * r = 2 ^ k ∧ q % 2 = 0 then q else q + 1

/-- The nearest number of at most 53 binary digits, but for zeros at the end. -/
def nearestNat (n : Nat) : Nat := roundShift n (n.log2 - 52) * 2 ^ (n.log2 - 52)

/-- The nearest integer of at most 53 binary digits, but for zeros at the end. -/
def nearest (n : Int) : Int := n.sign * nearestNat n.natAbs

variable {m n k : Nat}

theorem roundShift_mul (n j k : Nat) : roundShift (n * 2 ^ j) (k + j) = roundShift n k := by
  have hpos : 0 < 2 ^ j := Nat.two_pow_pos j
  have hmod : n * 2 ^ j % 2 ^ (k + j) = n % 2 ^ k * 2 ^ j := by
    rw [Nat.pow_add, Nat.mul_mod_mul_right]
  have hdiv : n * 2 ^ j / 2 ^ (k + j) = n / 2 ^ k := by
    rw [Nat.pow_add, Nat.mul_div_mul_right _ _ hpos]
  have hlt : 2 * (n % 2 ^ k * 2 ^ j) < 2 ^ (k + j) ↔ 2 * (n % 2 ^ k) < 2 ^ k := by
    rw [← Nat.mul_assoc, Nat.pow_add, Nat.mul_lt_mul_right hpos]
  have heq : 2 * (n % 2 ^ k * 2 ^ j) = 2 ^ (k + j) ↔ 2 * (n % 2 ^ k) = 2 ^ k := by
    rw [← Nat.mul_assoc, Nat.pow_add, Nat.mul_left_inj hpos.ne']
  simp only [roundShift, hmod, hdiv, hlt, heq]

theorem roundShift_zero (n : Nat) : roundShift n 0 = n := by
  simp [roundShift, Nat.mod_one]

theorem roundShift_mul_self (n k : Nat) : roundShift (n * 2 ^ k) k = n := by
  have h := roundShift_mul n k 0
  rwa [Nat.zero_add, roundShift_zero] at h

theorem roundShift_bounds (n k : Nat) :
    n / 2 ^ k ≤ roundShift n k ∧ roundShift n k ≤ n / 2 ^ k + 1 := by
  unfold roundShift
  dsimp only
  split <;> omega

theorem roundShift_mono (h : m ≤ n) : roundShift m k ≤ roundShift n k := by
  have hpos : 0 < 2 ^ k := Nat.two_pow_pos k
  have hq : m / 2 ^ k ≤ n / 2 ^ k := Nat.div_le_div_right h
  by_cases heq : m / 2 ^ k = n / 2 ^ k
  · have hm := Nat.div_add_mod m (2 ^ k)
    have hn := Nat.div_add_mod n (2 ^ k)
    rw [heq] at hm
    have hr : m % 2 ^ k ≤ n % 2 ^ k := by omega
    unfold roundShift
    dsimp only
    rw [heq]
    split <;> split <;> omega
  · have hlt : m / 2 ^ k + 1 ≤ n / 2 ^ k := by omega
    exact ((roundShift_bounds m k).2.trans hlt).trans (roundShift_bounds n k).1

theorem log2_ge (h : 2 ^ k ≤ n) : k ≤ n.log2 :=
  (Nat.le_log2 (by have := Nat.two_pow_pos k; omega)).2 h

/-- What has at least 53 binary digits is rounded to 53, or to the next power of two. -/
theorem roundShift_log2 (h : 2 ^ 52 ≤ n) :
    2 ^ 52 ≤ roundShift n (n.log2 - 52) ∧ roundShift n (n.log2 - 52) ≤ 2 ^ 53 := by
  have hn : n ≠ 0 := by omega
  have hlog : 52 ≤ n.log2 := log2_ge h
  have hlow : 2 ^ 52 ≤ n / 2 ^ (n.log2 - 52) := by
    rw [Nat.le_div_iff_mul_le (Nat.two_pow_pos _), ← Nat.pow_add, Nat.add_sub_cancel' hlog]
    exact Nat.log2_self_le hn
  have hhigh : n / 2 ^ (n.log2 - 52) < 2 ^ 53 := by
    rw [Nat.div_lt_iff_lt_mul (Nat.two_pow_pos _), ← Nat.pow_add,
      show 53 + (n.log2 - 52) = n.log2 + 1 by omega]
    exact Nat.lt_log2_self
  have hround := roundShift_bounds n (n.log2 - 52)
  omega

theorem log2_sub_eq_zero (h : n < 2 ^ 53) : n.log2 - 52 = 0 := by
  by_cases hn : n = 0
  · subst hn; rfl
  · have := (Nat.log2_lt hn).2 h
    omega

theorem nearestNat_eq_self (h : n < 2 ^ 53) : nearestNat n = n := by
  rw [nearestNat, log2_sub_eq_zero h, roundShift_zero, Nat.pow_zero, Nat.mul_one]

/-- Rounding keeps the order: what has more digits is rounded to at least the power of two where
these begin, what has fewer to at most that. -/
theorem nearestNat_mono (h : m ≤ n) : nearestNat m ≤ nearestNat n := by
  by_cases hn : n < 2 ^ 53
  · rwa [nearestNat_eq_self hn, nearestNat_eq_self (by omega)]
  have hlog : m.log2 ≤ n.log2 := by
    by_cases hm : m = 0
    · subst hm; exact Nat.zero_le _
    · exact log2_ge ((Nat.log2_self_le hm).trans h)
  by_cases heq : m.log2 - 52 = n.log2 - 52
  · rw [nearestNat, nearestNat, heq]
    exact Nat.mul_le_mul_right _ (roundShift_mono h)
  have hm : roundShift m (m.log2 - 52) ≤ 2 ^ 53 := by
    by_cases hlarge : 2 ^ 52 ≤ m
    · exact (roundShift_log2 hlarge).2
    · rw [log2_sub_eq_zero (by omega), roundShift_zero]
      omega
  calc nearestNat m ≤ 2 ^ 53 * 2 ^ (m.log2 - 52) := Nat.mul_le_mul_right _ hm
    _ = 2 ^ 52 * 2 ^ (m.log2 - 52 + 1) := by rw [Nat.pow_succ]; omega
    _ ≤ 2 ^ 52 * 2 ^ (n.log2 - 52) :=
        Nat.mul_le_mul_left _ (Nat.pow_le_pow_right (by omega) (by omega))
    _ ≤ nearestNat n := Nat.mul_le_mul_right _ (roundShift_log2 (by omega)).1

theorem log2_mul_two_pow (hn : n ≠ 0) (j : Nat) : (n * 2 ^ j).log2 = n.log2 + j := by
  have hpos : 0 < 2 ^ j := Nat.two_pow_pos j
  rw [Nat.log2_eq_iff (Nat.mul_ne_zero hn hpos.ne'), Nat.pow_add, Nat.add_right_comm, Nat.pow_add]
  exact ⟨Nat.mul_le_mul_right _ (Nat.log2_self_le hn),
    Nat.mul_lt_mul_of_pos_right Nat.lt_log2_self hpos⟩

/-- Zeros behind a number do not change what it is rounded to. -/
theorem roundShift_mul_two_pow {j : Nat} (hj : 52 ≤ n.log2 + j) :
    roundShift (n * 2 ^ j) (n.log2 + j - 52) * 2 ^ n.log2 = nearestNat n * 2 ^ 52 := by
  obtain hlog | hlog := Nat.le_total 52 n.log2
  · rw [nearestNat, Nat.mul_assoc, ← Nat.pow_add, Nat.sub_add_cancel hlog,
      show n.log2 + j - 52 = n.log2 - 52 + j by omega, roundShift_mul]
  · have hsplit : n * 2 ^ j = n * 2 ^ (52 - n.log2) * 2 ^ (n.log2 + j - 52) := by
      rw [Nat.mul_assoc, ← Nat.pow_add, show 52 - n.log2 + (n.log2 + j - 52) = j by omega]
    have hsmall : n < 2 ^ 53 :=
      Nat.lt_log2_self.trans_le (Nat.pow_le_pow_right (by omega) (by omega))
    rw [hsplit, roundShift_mul_self, nearestNat_eq_self hsmall, Nat.mul_assoc, ← Nat.pow_add,
      Nat.sub_add_cancel hlog]

/-! ## Rounding integers -/

@[simp]
theorem nearest_natCast (n : Nat) : nearest n = nearestNat n := by
  cases n with
  | zero => rfl
  | succ n =>
      rw [nearest, Int.sign_natCast_of_ne_zero n.succ_ne_zero, Int.one_mul, Int.natAbs_natCast]

@[simp]
theorem nearest_neg (n : Int) : nearest (-n) = -nearest n := by
  rw [nearest, nearest, Int.sign_neg, Int.natAbs_neg, Int.neg_mul]

theorem nearest_eq_self {n : Int} (h : n.natAbs ≤ 2 ^ 53) : nearest n = n := by
  have hself : nearestNat n.natAbs = n.natAbs := by
    obtain hlt | heq := Nat.lt_or_eq_of_le h
    · exact nearestNat_eq_self hlt
    · rw [heq]
      decide +kernel
  rw [nearest, hself, Int.sign_mul_natAbs]

theorem nearest_mono {m n : Int} (h : m ≤ n) : nearest m ≤ nearest n := by
  obtain ⟨a, rfl | rfl⟩ := m.eq_nat_or_neg <;> obtain ⟨b, rfl | rfl⟩ := n.eq_nat_or_neg
  · simpa using nearestNat_mono (Int.ofNat_le.1 h)
  · have ha : a = 0 := by omega
    have hb : b = 0 := by omega
    subst ha hb
    exact le_refl _
  · simp only [nearest_neg, nearest_natCast]
    omega
  · simp only [nearest_neg, nearest_natCast]
    have := nearestNat_mono (m := b) (n := a) (by omega)
    omega

/-! ## How far rounding goes -/

theorem roundShift_half (n k : Nat) :
    2 * n ≤ 2 * (roundShift n k * 2 ^ k) + 2 ^ k ∧
      2 * (roundShift n k * 2 ^ k) ≤ 2 * n + 2 ^ k := by
  have hdiv : n / 2 ^ k * 2 ^ k + n % 2 ^ k = n := Nat.div_add_mod' n (2 ^ k)
  have hmod : n % 2 ^ k < 2 ^ k := Nat.mod_lt n (Nat.two_pow_pos k)
  unfold roundShift
  dsimp only
  split
  · omega
  · rw [Nat.add_mul, Nat.one_mul]
    omega

/-- Below 2^63 at most ten digits are rounded away. -/
theorem nearestNat_half (h : n ≤ 2 ^ 63) :
    n ≤ nearestNat n + 2 ^ 9 ∧ nearestNat n ≤ n + 2 ^ 9 := by
  obtain hlt | rfl := Nat.lt_or_eq_of_le h
  · have hlog : n.log2 - 52 ≤ 10 := by
      by_cases hn : n = 0
      · subst hn; decide
      · have := (Nat.log2_lt hn).2 hlt
        omega
    have hpow : 2 ^ (n.log2 - 52) ≤ 2 ^ 10 := Nat.pow_le_pow_right (by omega) hlog
    have hhalf := roundShift_half n (n.log2 - 52)
    unfold nearestNat
    omega
  · decide +kernel

theorem nearest_half {i : Int} (h : i.natAbs ≤ 2 ^ 63) :
    i ≤ nearest i + 2 ^ 9 ∧ nearest i ≤ i + 2 ^ 9 := by
  have hhalf := nearestNat_half h
  obtain ⟨n, rfl | rfl⟩ := i.eq_nat_or_neg
  · rw [Int.natAbs_natCast] at hhalf
    rw [nearest_natCast]
    omega
  · rw [Int.natAbs_neg, Int.natAbs_natCast] at hhalf
    rw [nearest_neg, nearest_natCast]
    omega

/-- Integers that are rounded to the same one are close to each other, and not both have 53
digits. -/
theorem eq_or_close_of_nearest_eq {i j : Int} (hi : i.natAbs ≤ 2 ^ 63) (hj : j.natAbs ≤ 2 ^ 63)
    (h : nearest i = nearest j) :
    i = j ∨ (i - j).natAbs ≤ 2 ^ 10 ∧ (2 ^ 53 < i.natAbs ∨ 2 ^ 53 < j.natAbs) := by
  by_cases hsmall : i.natAbs ≤ 2 ^ 53 ∧ j.natAbs ≤ 2 ^ 53
  · left
    rw [← nearest_eq_self hsmall.1, h, nearest_eq_self hsmall.2]
  · right
    have hihalf := nearest_half hi
    have hjhalf := nearest_half hj
    omega

end CausalTrace.Number
