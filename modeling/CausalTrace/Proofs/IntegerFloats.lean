import CausalTrace.Number.Binary
import CausalTrace.Proofs.Rounding
import Mathlib

/-!
# Floats by their bits and floats of integers

The bits of a float say which float it is, and of NaN which one. The float of an integer
of 64 bits is the integer rounded to 53 binary digits. So two such floats are in the
order of the rounded integers.
-/

namespace CausalTrace.Number

/-! ## Bits -/

open Float.Model.UnpackedFloat in
/-- There is one float that is no number. -/
theorem isNaN_iff {x : Float} : x.isNaN = true ↔ x = nan := by
  have hpacked : nan.toBits.toBitVec = packedNaN .binary64 := by decide +kernel
  have hbits : x.isNaN = true ↔ x.toBits.toBitVec = packedNaN .binary64 :=
    isNaN_unpack_iff_of_valid x.toModel.valid (by decide)
  rw [hbits, ← hpacked, UInt64.toBitVec_inj]
  refine ⟨fun h => ?_, fun h => h ▸ rfl⟩
  rw [← Float.ofBits_toBits x, h, Float.ofBits_toBits]

namespace Binary64

variable {x y : Binary64}

open Float.Model.UnpackedFloat in
/-- A float that is no NaN has the bits that it was read from. -/
theorem ofFloat_toFloat (h : x.isNaN = false) : ofFloat x.toFloat = x := by
  have hbits : x.toFloat.toBits.toBitVec = _ :=
    @pack_unpack .binary64 x.toBits.toBitVec (by decide)
  split at hbits
  · -- The bits of any NaN are packed to those of one.
    have hnan : x.isNaN = true :=
      (isNaN_unpack_iff_of_valid x.toFloat.toModel.valid (by decide)).mpr hbits
    rw [h] at hnan
    cases hnan
  · exact congrArg mk (UInt64.toBitVec_inj.mp hbits)

/-- The bits tell floats apart, and of the NaNs, which are one float, one from another. -/
theorem toFloat_eq_iff : x.toFloat = y.toFloat ↔ x = y ∨ x.isNaN = true ∧ y.isNaN = true := by
  constructor
  · intro h
    have hsame : x.isNaN = y.isNaN := congrArg Float.isNaN h
    cases hx : x.isNaN with
    | true => exact Or.inr ⟨rfl, hsame ▸ hx⟩
    | false =>
        refine Or.inl ?_
        calc x = ofFloat x.toFloat := (ofFloat_toFloat hx).symm
          _ = ofFloat y.toFloat := congrArg ofFloat h
          _ = y := ofFloat_toFloat (hsame.symm.trans hx)
  · rintro (rfl | ⟨hx, hy⟩)
    · rfl
    · exact (isNaN_iff.mp hx).trans (isNaN_iff.mp hy).symm

end Binary64

open Float.Model Float.Model.UnpackedFloat

variable {m n : Nat}

/-! ## Shifting digits out

A mantissa that loses digits keeps two bits of them: the first, and whether another is not zero.
They tell on which side of the half the lost digits are. -/

theorem shiftRight_eq (n k : Nat) :
    (⟨n, false, false⟩ : ExtendedMantissa) >>> k
      = ⟨n / 2 ^ k, decide (2 ^ k ≤ 2 * (n % 2 ^ k)),
          decide (2 * (n % 2 ^ k) ≠ 0 ∧ 2 * (n % 2 ^ k) ≠ 2 ^ k)⟩ := by
  induction k with
  | zero => simp [HShiftRight.hShiftRight, Nat.repeat, Nat.mod_one]
  | succ k ih =>
    have hpos : 0 < 2 ^ k := Nat.two_pow_pos k
    have hstep : (⟨n, false, false⟩ : ExtendedMantissa) >>> (k + 1)
        = ((⟨n, false, false⟩ : ExtendedMantissa) >>> k).shiftRightOne := rfl
    have hmod : n % 2 ^ (k + 1) = n % 2 ^ k + 2 ^ k * (n / 2 ^ k % 2) := Nat.mod_pow_succ
    have hr : n % 2 ^ k < 2 ^ k := Nat.mod_lt n hpos
    have hpow : 2 ^ (k + 1) = 2 * 2 ^ k := Nat.pow_succ'
    have hquot : n / 2 ^ k / 2 = n / 2 ^ (k + 1) := by rw [Nat.div_div_eq_div_mul, Nat.pow_succ]
    rw [hstep, ih, ExtendedMantissa.shiftRightOne, hquot, hmod, hpow, bne, beq_eq_decide,
      ← decide_not, ← Bool.decide_or, ExtendedMantissa.mk.injEq, decide_eq_decide, decide_eq_decide]
    -- The last digit of what is left is the first of those lost next.
    obtain hbit | hbit : n / 2 ^ k % 2 = 0 ∨ n / 2 ^ k % 2 = 1 := Nat.mod_two_eq_zero_or_one _
    · rw [hbit]
      exact ⟨rfl, by omega, by omega⟩
    · rw [hbit]
      exact ⟨rfl, by omega, by omega⟩

theorem roundedMantissa_mk (q : Nat) (round sticky : Bool) :
    (⟨q, round, sticky⟩ : ExtendedMantissa).roundedMantissa
      = if round then if sticky then q + 1 else q + q % 2 else q := by
  cases round <;> cases sticky <;> rfl

theorem roundedMantissa_shiftRight (n k : Nat) :
    ((⟨n, false, false⟩ : ExtendedMantissa) >>> k).roundedMantissa = roundShift n k := by
  have hpos : 0 < 2 ^ k := Nat.two_pow_pos k
  rw [shiftRight_eq, roundedMantissa_mk, roundShift]
  simp only [decide_eq_true_eq]
  split_ifs <;> omega

/-! ## Rounding a float -/

theorem targetExponent_binary64 (e : Int) :
    Format.targetExponent .binary64 e = max (e - 53) (-1074) := rfl

theorem shiftToTargetExponent_eq {e : Int} (hm : 2 ^ 52 ≤ m) (he : -1074 ≤ e) :
    shiftToTargetExponent .binary64 m e .exact
      = ((⟨m, false, false⟩ : ExtendedMantissa) >>> (m.log2 - 52), e + (m.log2 - 52 : Nat)) := by
  have hlog : 52 ≤ m.log2 := log2_ge hm
  have hshift : (Format.targetExponent .binary64 (totalExponent m e) - e).toNat = m.log2 - 52 := by
    rw [targetExponent_binary64, totalExponent]
    omega
  rw [shiftToTargetExponent, shiftToExponent, hshift]
  rfl

/-- Rounding to 53 digits, and one digit further where that carried into the next power of two. -/
theorem roundWithAccuracy_exact (s : Sign) {e : Int} (hm : 2 ^ 52 ≤ m) (he : -1074 ≤ e) :
    ∃ r j hr,
      roundWithAccuracy .binary64 s m e .exact = .finite s r (e + (m.log2 - 52 + j : Nat)) hr ∧
        2 ^ 52 ≤ r ∧ r < 2 ^ 53 ∧ j ≤ 1 ∧ r * 2 ^ j = roundShift m (m.log2 - 52) := by
  obtain ⟨hlow, hhigh⟩ := roundShift_log2 hm
  have hfirst := shiftToTargetExponent_eq hm he
  have hsecond := shiftToTargetExponent_eq hlow (e := e + (m.log2 - 52 : Nat)) (by omega)
  rw [roundWithAccuracy, hfirst]
  dsimp only
  rw [roundedMantissa_shiftRight, hsecond, shiftRight_eq]
  dsimp only
  obtain hlt | hcarry := Nat.lt_or_eq_of_le hhigh
  · refine ⟨roundShift m (m.log2 - 52), 0, by omega, ?_, hlow, hlt, by omega, by omega⟩
    simp only [log2_sub_eq_zero hlt, Nat.pow_zero, Nat.div_one, Int.natCast_zero, Int.add_zero,
      Nat.add_zero]
    exact dif_neg (by omega)
  · have hlog : Nat.log2 (2 ^ 53) = 53 := Nat.log2_two_pow
    refine ⟨2 ^ 52, 1, by omega, ?_, by omega, by omega, by omega, by omega⟩
    rw [hcarry, hlog, dif_neg (by decide)]
    congr 1
    omega

/-! ## Packing and unpacking -/

theorem ofBitVec_toBitVec (s : Sign) : Sign.ofBitVec s.toBitVec = s := by
  cases s <;> rfl

theorem unpackSign_packComponents {spec : Format} {s : Sign} {e m} :
    unpackSign (packComponents spec s e m) = s.toBitVec := by
  ext i hi
  obtain rfl : i = 0 := by omega
  simp [unpackSign, packComponents, BitVec.getLsbD_append, BitVec.getElem_append]

theorem toNat_one_append_ofNat (hlow : 2 ^ 52 ≤ m) (hhigh : m < 2 ^ 53) :
    (1#1 ++ BitVec.ofNat 52 m).toNat = m := by
  rw [BitVec.toNat_append, BitVec.toNat_ofNat, ← Nat.shiftLeft_add_eq_or_of_lt (by omega)]
  simp only [BitVec.toNat_ofNat, Nat.shiftLeft_eq]
  omega

theorem unpack_packComponents (s : Sign) {b : Nat} (hm : 0 < m) (hlow : 2 ^ 52 ≤ m)
    (hhigh : m < 2 ^ 53) (hb : 0 < b) (hb' : b < 2047) :
    UnpackedFloat.unpack .binary64 (packComponents .binary64 s (.ofNat 11 b) (.ofNat 52 m))
      = .finite s m (b - 1075) hm := by
  have hexp : (BitVec.ofNat 11 b).toNat = b := by rw [BitVec.toNat_ofNat]; omega
  have hones : BitVec.ofNat 11 b ≠ -1#11 := fun h => by
    have hb : b = 2047 := hexp.symm.trans (congrArg BitVec.toNat h)
    omega
  have hzero : BitVec.ofNat 11 b ≠ 0#11 := fun h => by
    have hb : b = 0 := hexp.symm.trans (congrArg BitVec.toNat h)
    omega
  unfold UnpackedFloat.unpack
  simp only [unpackMantissa_packComponents, unpackExponent_packComponents,
    unpackSign_packComponents, ofBitVec_toBitVec]
  rw [if_neg hones, if_neg hzero]
  congr 1
  · exact toNat_one_append_ofNat hlow hhigh
  · rw [hexp]
    rfl

/-- Packing loses nothing of a float with 53 digits whose exponent is in range. -/
theorem unpack_pack_finite (s : Sign) {e : Int} (hm : 0 < m) (hlow : 2 ^ 52 ≤ m)
    (hhigh : m < 2 ^ 53) (helow : -1074 ≤ e) (hehigh : e ≤ 971) :
    (Float.Model.pack (.finite s m e hm)).unpack = .finite s m e hm := by
  have hlog : m.log2 = 52 := (Nat.log2_eq_iff hm.ne').2 ⟨hlow, hhigh⟩
  have hbias : e + Format.exponentBias .binary64 + (52 : Nat) = e + 1075 := by
    rw [show Format.exponentBias .binary64 = 1023 from rfl]
    omega
  have hpack : UnpackedFloat.pack .binary64 (.finite s m e hm)
      = packComponents .binary64 s (.ofNat _ (e + 1075).toNat) (.ofNat _ m) := by
    unfold UnpackedFloat.pack
    simp only [hbias]
    rw [if_neg (by change ¬ 2048 ≤ _; omega), if_pos (by rw [hlog]; rfl)]
  change UnpackedFloat.unpack _ (UnpackedFloat.pack _ _) = _
  rw [hpack, unpack_packComponents s hm hlow hhigh (by omega) (by omega)]
  congr 1
  omega

/-! ## Floats that are integers -/

/-- The float is the integer `i`, with 53 digits in its mantissa. -/
def Denotes : UnpackedFloat → Int → Prop
  | .zero _, i => i = 0
  | .finite s m e _, i =>
      2 ^ 52 ≤ m ∧ m < 2 ^ 53 ∧ -52 ≤ e ∧ e ≤ 971 ∧ s.apply (m * 2 ^ (e + 52).toNat) = i * 2 ^ 52
  | _, _ => False

theorem Denotes.unpack_pack {u : UnpackedFloat} {i : Int} (h : Denotes u i) :
    (pack u).unpack = u := by
  match u, h with
  | .zero .negative, _ => rfl
  | .zero .positive, _ => rfl
  | .finite s m e hm, ⟨hlow, hhigh, helow, hehigh, _⟩ =>
      exact unpack_pack_finite s hm hlow hhigh (by omega) hehigh

theorem Denotes.neg {u : UnpackedFloat} {i : Int} (h : Denotes u i) : Denotes u.neg (-i) := by
  match u, h with
  | .zero _, h => exact neg_eq_zero.2 h
  | .finite s m e hm, ⟨hlow, hhigh, helow, hehigh, hvalue⟩ =>
      refine ⟨hlow, hhigh, helow, hehigh, ?_⟩
      rw [Int.neg_mul, ← hvalue]
      cases s
      · exact (Int.neg_neg _).symm
      · rfl

theorem Denotes.pos {e i : Int} {hm : 0 < m}
    (h : Denotes (.finite .positive m e hm) i) : 0 < i := by
  obtain ⟨-, -, -, -, hvalue⟩ := h
  have hpos : 0 < (m : Int) * 2 ^ (e + 52).toNat :=
    Int.mul_pos (Int.natCast_pos.2 hm) (Int.pow_pos (by omega))
  rw [Sign.apply] at hvalue
  omega

theorem Denotes.lt_zero {e i : Int} {hm : 0 < m}
    (h : Denotes (.finite .negative m e hm) i) : i < 0 :=
  Int.neg_pos.1 h.neg.pos

/-! ## The order of floats that are integers -/

theorem mul_pow_lt_mul_pow {i j : Nat} (hij : i < j) (hm : m < 2 ^ 53) (hn : 2 ^ 52 ≤ n) :
    m * 2 ^ i < n * 2 ^ j :=
  calc m * 2 ^ i < 2 ^ 53 * 2 ^ i := Nat.mul_lt_mul_of_pos_right hm (Nat.two_pow_pos i)
    _ = 2 ^ 52 * 2 ^ (i + 1) := by rw [Nat.pow_succ]; omega
    _ ≤ 2 ^ 52 * 2 ^ j := Nat.mul_le_mul_left _ (Nat.pow_le_pow_right (by omega) hij)
    _ ≤ n * 2 ^ j := Nat.mul_le_mul_right _ hn

theorem compare_map {α β : Type} [LinearOrder α] [LinearOrder β] {f : α → β} (hf : StrictMono f)
    (x y : α) : compare (f x) (f y) = compare x y := by
  simpa only [cmp_eq_compare] using hf.cmp_map_eq x y

/-- Of mantissas with 53 digits the exponents decide the order first. -/
theorem compare_then_compare {e f : Int} (hm : 2 ^ 52 ≤ m ∧ m < 2 ^ 53)
    (hn : 2 ^ 52 ≤ n ∧ n < 2 ^ 53) (he : -52 ≤ e) (hf : -52 ≤ f) :
    (compare e f).then (compare m n)
      = compare ((m : Int) * 2 ^ (e + 52).toNat) ((n : Int) * 2 ^ (f + 52).toNat) := by
  obtain hlt | rfl | hgt := lt_trichotomy e f
  · have h : (m : Int) * 2 ^ (e + 52).toNat < n * 2 ^ (f + 52).toNat := by
      exact_mod_cast mul_pow_lt_mul_pow (show (e + 52).toNat < (f + 52).toNat by omega) hm.2 hn.1
    rw [compare_lt_iff_lt.2 hlt, compare_lt_iff_lt.2 h]
    rfl
  · have hmono : StrictMono fun k : Nat => (k : Int) * 2 ^ (e + 52).toNat := fun k l hkl =>
      Int.mul_lt_mul_of_pos_right (Int.ofNat_lt.2 hkl) (Int.pow_pos (by omega))
    rw [compare_eq_iff_eq.2 rfl, compare_map hmono]
    rfl
  · have h : (n : Int) * 2 ^ (f + 52).toNat < m * 2 ^ (e + 52).toNat := by
      exact_mod_cast mul_pow_lt_mul_pow (show (f + 52).toNat < (e + 52).toNat by omega) hn.2 hm.1
    rw [compare_gt_iff_gt.2 hgt, compare_gt_iff_gt.2 h]
    rfl

theorem compare_mul_right (i j : Int) : compare (i * 2 ^ 52) (j * 2 ^ 52) = compare i j :=
  compare_map (f := fun i : Int => i * 2 ^ 52) (fun i j hij => by dsimp only; omega) i j

theorem compare_neg (i j : Int) : compare (-i) (-j) = compare j i := by
  simpa only [cmp_eq_compare] using
    StrictAnti.cmp_map_eq (f := fun i : Int => -i) (fun _ _ h => Int.neg_lt_neg h) i j

theorem Denotes.compare {u v : UnpackedFloat} {i j : Int} (hu : Denotes u i) (hv : Denotes v j) :
    u.compare v = some (compare i j) := by
  match u, v, hu, hv with
  | .zero _, .zero _, hu, hv =>
      rw [compare_eq_iff_eq.2 (hu.trans hv.symm)]
      rfl
  | .zero _, .finite .positive .., hu, hv =>
      rw [compare_lt_iff_lt.2 (hu.trans_lt hv.pos)]
      rfl
  | .zero _, .finite .negative .., hu, hv =>
      rw [compare_gt_iff_gt.2 (hv.lt_zero.trans_eq hu.symm)]
      rfl
  | .finite .positive .., .zero _, hu, hv =>
      rw [compare_gt_iff_gt.2 (hv.trans_lt hu.pos)]
      rfl
  | .finite .negative .., .zero _, hu, hv =>
      rw [compare_lt_iff_lt.2 (hu.lt_zero.trans_eq hv.symm)]
      rfl
  | .finite .positive .., .finite .negative .., hu, hv =>
      rw [compare_gt_iff_gt.2 (hv.lt_zero.trans hu.pos)]
      rfl
  | .finite .negative .., .finite .positive .., hu, hv =>
      rw [compare_lt_iff_lt.2 (hu.lt_zero.trans hv.pos)]
      rfl
  | .finite .positive m e hm, .finite .positive n f hn, ⟨hmlow, hmhigh, he, _, hi⟩,
      ⟨hnlow, hnhigh, hf, _, hj⟩ =>
      rw [← compare_mul_right, ← hi, ← hj, UnpackedFloat.compare, Sign.apply, Sign.apply,
        compare_then_compare ⟨hmlow, hmhigh⟩ ⟨hnlow, hnhigh⟩ he hf]
  | .finite .negative m e hm, .finite .negative n f hn, ⟨hmlow, hmhigh, he, _, hi⟩,
      ⟨hnlow, hnhigh, hf, _, hj⟩ =>
      rw [← compare_mul_right, ← hi, ← hj, UnpackedFloat.compare, Sign.apply, Sign.apply,
        compare_neg, compare_then_compare ⟨hmlow, hmhigh⟩ ⟨hnlow, hnhigh⟩ he hf,
        ← Std.OrientedOrd.eq_swap]

/-! ## From integers to floats -/

/-- A number with zeros behind it, so many that it has 53 binary digits, is rounded to the
nearest. -/
theorem denotes_roundWithAccuracy {j : Nat} (hlow : 2 ^ 52 ≤ n * 2 ^ j) (hhigh : n < 2 ^ 64)
    (hj : j ≤ 1074) :
    Denotes (roundWithAccuracy .binary64 .positive (n * 2 ^ j) (-j) .exact) (nearestNat n) := by
  have hn : n ≠ 0 := by rintro rfl; omega
  have hlog : (n * 2 ^ j).log2 = n.log2 + j := log2_mul_two_pow hn j
  have hlog52 : 52 ≤ n.log2 + j := hlog ▸ log2_ge hlow
  have hlog64 : n.log2 < 64 := (Nat.log2_lt hn).2 hhigh
  obtain ⟨r, i, hr, hround, hrlow, hrhigh, hi, hvalue⟩ :=
    roundWithAccuracy_exact .positive hlow (e := -j) (by omega)
  rw [hlog] at hround hvalue
  rw [hround]
  refine ⟨hrlow, hrhigh, by omega, by omega, ?_⟩
  have hexp : (-(j : Int) + (n.log2 + j - 52 + i : Nat) + 52).toNat = i + n.log2 := by omega
  rw [hexp, Sign.apply, Int.pow_add, ← Int.mul_assoc]
  exact_mod_cast (congrArg (· * 2 ^ n.log2) hvalue).trans (roundShift_mul_two_pow hlog52)

/-- The float 1 changes no factor. -/
theorem Denotes.mul_one {u : UnpackedFloat} {i : Int} (h : Denotes u i) (hm : 0 < 2 ^ 52) :
    UnpackedFloat.mul .binary64 u (.finite .positive (2 ^ 52) (-52) hm) = u := by
  match u, h with
  | .zero s, _ => cases s <;> rfl
  | .finite s m e hpos, ⟨hlow, hhigh, helow, hehigh, _⟩ =>
      have hs : s * .positive = s := by cases s <;> rfl
      have hlog : (m * 2 ^ 52).log2 = 104 := by
        rw [log2_mul_two_pow hpos.ne', (Nat.log2_eq_iff (k := 52) hpos.ne').2 ⟨hlow, hhigh⟩]
      obtain ⟨r, j, hr, hround, hrlow, hrhigh, hj, hvalue⟩ :=
        roundWithAccuracy_exact s (m := m * 2 ^ 52) (e := e + -52) (by omega) (by omega)
      rw [hlog, roundShift_mul_self] at hvalue
      obtain rfl | rfl : j = 0 ∨ j = 1 := by omega
      · rw [UnpackedFloat.mul, hs, hround]
        congr 1
        · omega
        · omega
      · omega

theorem unpack_one :
    (Float.ofBits 0x3FF0000000000000).toModel.unpack =
      .finite .positive (2 ^ 52) (-52) (by decide) :=
  rfl

theorem denotes_round (hn : 0 < n) (h : n < 2 ^ 53) :
    Denotes (UnpackedFloat.round .binary64 .positive n 0) n := by
  have hlog : n.log2 < 53 := (Nat.log2_lt hn.ne').2 h
  have htarget : (0 - Format.targetExponent .binary64 (totalExponent n 0)).toNat = 52 - n.log2 := by
    rw [targetExponent_binary64, totalExponent]
    omega
  have hround : UnpackedFloat.round .binary64 .positive n 0
      = roundWithAccuracy .binary64 .positive (n * 2 ^ (52 - n.log2)) (-(52 - n.log2 : Nat))
          .exact := by
    rw [UnpackedFloat.round, decreaseExponent, htarget, Nat.shiftLeft_eq, Int.zero_sub]
  rw [hround]
  have hlow : 2 ^ 52 ≤ n * 2 ^ (52 - n.log2) :=
    calc 2 ^ 52 = 2 ^ n.log2 * 2 ^ (52 - n.log2) := by rw [← Nat.pow_add]; congr 1; omega
      _ ≤ n * 2 ^ (52 - n.log2) := Nat.mul_le_mul_right _ (Nat.log2_self_le hn.ne')
  simpa only [nearestNat_eq_self h] using
    denotes_roundWithAccuracy hlow (h.trans (by decide)) (by omega)

theorem toModel_toFloat (hn : 0 < n) (h : n < 2 ^ 64) :
    n.toUInt64.toFloat.toModel = pack (UnpackedFloat.round .binary64 .positive n 0) := by
  have htoNat : n.toUInt64.toNat = n := Nat.mod_eq_of_lt h
  have hgt : compare (n : Int) 0 = .gt := compare_gt_iff_gt.2 (Int.natCast_pos.2 hn)
  change pack (UnpackedFloat.normalize .binary64 (n.toUInt64.toNat : Int) 0 .positive) = _
  rw [htoNat, UnpackedFloat.normalize, hgt]
  rfl

theorem ofNat_of_lt (h : n < 2 ^ 53) :
    Float.ofNat n = n.toUInt64.toFloat * Float.ofBits 0x3FF0000000000000 := by
  change Float.ofScientific n false 0 = _
  rw [Float.ofScientific, dif_pos ⟨h, Nat.zero_le _⟩]
  rfl

theorem toModel_ofNat_of_ge (hn : 0 < n) (h : ¬ n < 2 ^ 53) :
    (Float.ofNat n).toModel
      = pack (roundWithAccuracy .binary64 .positive (n * 2 ^ 53) (-(53 : Nat)) .exact) := by
  change (Float.ofScientific n false 0).toModel = _
  rw [Float.ofScientific, dif_neg (fun hlt => h hlt.1)]
  change pack (UnpackedFloat.ofScientific .binary64 n 0) = _
  have hlarge : ¬ (0 : Int) < -((2 ^ Format.exponentBits .binary64 : Int) + n.log2) := by
    change ¬ (0 : Int) < -(2048 + n.log2)
    omega
  rw [UnpackedFloat.ofScientific, dif_neg hn.ne', if_neg (by decide), if_neg hlarge,
    if_pos (le_refl 0), UnpackedFloat.mul, Nat.shiftLeft_eq, Int.toNat_zero, Nat.pow_zero,
    Nat.mul_one, Int.add_zero]
  rfl

/-- Numbers below 2^53 become floats by a conversion that is exact, others by the slow one. -/
theorem denotes_ofNat (h : n < 2 ^ 64) : Denotes (Float.ofNat n).toModel.unpack (nearestNat n) := by
  by_cases hn : n = 0
  · subst hn
    trivial
  by_cases hsmall : n < 2 ^ 53
  · have hround := denotes_round (Nat.pos_of_ne_zero hn) hsmall
    have hmul : (Float.ofNat n).toModel
        = pack (UnpackedFloat.mul .binary64 n.toUInt64.toFloat.toModel.unpack
            (Float.ofBits 0x3FF0000000000000).toModel.unpack) := by
      rw [ofNat_of_lt hsmall]
      rfl
    rw [hmul, toModel_toFloat (Nat.pos_of_ne_zero hn) h, unpack_one, hround.unpack_pack,
      hround.mul_one, hround.unpack_pack, nearestNat_eq_self hsmall]
    exact hround
  · have hround := denotes_roundWithAccuracy (n := n) (j := 53) (by omega) h (by omega)
    rwa [toModel_ofNat_of_ge (Nat.pos_of_ne_zero hn) hsmall, hround.unpack_pack]

theorem denotes_neg {x : Float} {i : Int} (h : Denotes x.toModel.unpack i) :
    Denotes (Float.neg x).toModel.unpack (-i) := by
  change Denotes (pack x.toModel.unpack.neg).unpack (-i)
  rw [h.neg.unpack_pack]
  exact h.neg

/-- The float of an integer is the integer it is rounded to. -/
theorem denotes_ofInt {i : Int} (h : i.natAbs < 2 ^ 64) :
    Denotes (Float.ofInt i).toModel.unpack (nearest i) := by
  match i with
  | .ofNat n =>
    rw [Int.ofNat_eq_natCast, nearest_natCast]
    exact denotes_ofNat h
  | .negSucc n =>
    rw [Int.negSucc_eq, nearest_neg, ← Int.natCast_succ, nearest_natCast]
    exact denotes_neg (denotes_ofNat h)

/-! ## The order of floats of integers -/

theorem ofInt_lt_ofInt {i j : Int} (hi : i.natAbs < 2 ^ 64) (hj : j.natAbs < 2 ^ 64) :
    Float.ofInt i < Float.ofInt j ↔ nearest i < nearest j := by
  have hcompare := (denotes_ofInt hi).compare (denotes_ofInt hj)
  have hlt : Float.ofInt i < Float.ofInt j ↔
      (Float.ofInt i).toModel.unpack.lt (Float.ofInt j).toModel.unpack = true :=
    decide_eq_true_iff
  rw [hlt, UnpackedFloat.lt, hcompare, beq_iff_eq, Option.some_inj, compare_lt_iff_lt]

theorem ofInt_beq_ofInt {i j : Int} (hi : i.natAbs < 2 ^ 64) (hj : j.natAbs < 2 ^ 64) :
    (Float.ofInt i == Float.ofInt j) = decide (nearest i = nearest j) := by
  have hcompare := (denotes_ofInt hi).compare (denotes_ofInt hj)
  have hbeq : (Float.ofInt i == Float.ofInt j) =
      (Float.ofInt i).toModel.unpack.beq (Float.ofInt j).toModel.unpack := rfl
  rw [hbeq, UnpackedFloat.beq, hcompare, Bool.eq_iff_iff, beq_iff_eq, Option.some_inj,
    compare_eq_iff_eq, decide_eq_true_iff]

end CausalTrace.Number
