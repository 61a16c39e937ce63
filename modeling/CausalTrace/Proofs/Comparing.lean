import CausalTrace.Template
import CausalTrace.Proofs.IntegerFloats

/-!
# Comparing integers

Templates compare numbers as floats. Two integers are therefore compared as if rounded to 53
binary digits: of less than, equal and greater than always one is true, and it is the right one
unless different integers are rounded to the same, which can only be where one of them needs
more digits and they are close to each other.
-/

namespace CausalTrace.Template

open Number

/-! ## Comparisons -/

/-- The operators that compare. -/
inductive Comparison where
  | eq
  | ne
  | lt
  | le
  | gt
  | ge
deriving DecidableEq

namespace Comparison

def toBinary : Comparison → BinaryOp
  | eq => .eq
  | ne => .ne
  | lt => .lt
  | le => .le
  | gt => .gt
  | ge => .ge

/-- The comparison of two placeholders. -/
def source (c : Comparison) : String := "{}" ++ c.toBinary.symbol ++ "{}"

def template (c : Comparison) : Template := ⟨c.source, .binary c.toBinary (.arg 0) (.arg 1), 2⟩

/-- Whether the comparison holds of two integers. -/
def holds : Comparison → Int → Int → Bool
  | eq, i, j => i = j
  | ne, i, j => i ≠ j
  | lt, i, j => i < j
  | le, i, j => i ≤ j
  | gt, i, j => i > j
  | ge, i, j => i ≥ j

theorem parse_source (c : Comparison) : parse c.source = .ok c.template := by
  cases c <;> rfl

end Comparison

/-! ## Integers as floats -/

theorem natAbs_toInt_le (a : Int64) : a.toInt.natAbs ≤ 2 ^ 63 := by
  have hlow := a.le_toInt
  have hhigh := a.toInt_lt
  omega

theorem natAbs_toInt_lt (a : Int64) : a.toInt.natAbs < 2 ^ 64 :=
  (natAbs_toInt_le a).trans_lt (by decide)

theorem looselyEqual_int (a b : Int64) :
    looselyEqual (.int a) (.int b) = decide (nearest a.toInt = nearest b.toInt) :=
  ofInt_beq_ofInt (natAbs_toInt_lt a) (natAbs_toInt_lt b)

theorem compareValues_int (a b : Int64) :
    compareValues (.int a) (.int b) = some (compare (nearest a.toInt) (nearest b.toInt)) := by
  have hlt := ofInt_lt_ofInt (natAbs_toInt_lt a) (natAbs_toInt_lt b)
  have hgt := ofInt_lt_ofInt (natAbs_toInt_lt b) (natAbs_toInt_lt a)
  have heq := ofInt_beq_ofInt (natAbs_toInt_lt a) (natAbs_toInt_lt b)
  change compareFloats (Float.ofInt a.toInt) (Float.ofInt b.toInt) = _
  unfold compareFloats
  simp only [hlt, hgt, heq, decide_eq_true_eq]
  obtain h | h | h := lt_trichotomy (nearest a.toInt) (nearest b.toInt)
  · rw [if_pos h, compare_lt_iff_lt.2 h]
  · rw [if_neg h.not_lt, if_pos h, compare_eq_iff_eq.2 h]
  · rw [if_neg h.not_gt, if_neg h.ne', if_pos h, compare_gt_iff_gt.2 h]

/-! ## Templates that compare -/

namespace Comparison

theorem eval_template (c : Comparison) (a b : Int64) :
    c.template.eval [.int a, .int b]
      = .ok (.bool (c.holds (nearest a.toInt) (nearest b.toInt))) := by
  have heval : c.template.eval [.int a, .int b] = applyBinary c.toBinary (.int a) (.int b) := by
    cases c <;> rfl
  rw [heval]
  cases c <;> simp only [toBinary, applyBinary, ordered, looselyEqual_int, compareValues_int, holds]
  case ne => rw [decide_not]
  case lt => rw [beq_eq_decide, decide_eq_decide.2 compare_lt_iff_lt]
  case le => rw [bne, beq_eq_decide, ← decide_not, decide_eq_decide.2 compare_le_iff_le]
  case gt => rw [beq_eq_decide, decide_eq_decide.2 compare_gt_iff_gt]
  case ge => rw [bne, beq_eq_decide, ← decide_not, decide_eq_decide.2 compare_ge_iff_ge]

/-- Of less than, equal and greater than one is true of two integers. -/
theorem existsUnique_holds (i j : Int) :
    ∃! c : Comparison, c ∈ [lt, eq, gt] ∧ c.holds i j = true := by
  have hmem : ∀ c : Comparison, c ∈ [lt, eq, gt] → c = lt ∨ c = eq ∨ c = gt := by decide
  obtain h | h | h := lt_trichotomy i j
  · refine ⟨lt, ⟨by decide, decide_eq_true h⟩, fun c ⟨hc, hholds⟩ => ?_⟩
    obtain rfl | rfl | rfl := hmem c hc
    · rfl
    · exact absurd (of_decide_eq_true hholds) h.ne
    · exact absurd (of_decide_eq_true hholds) h.not_gt
  · refine ⟨eq, ⟨by decide, decide_eq_true h⟩, fun c ⟨hc, hholds⟩ => ?_⟩
    obtain rfl | rfl | rfl := hmem c hc
    · exact absurd h (of_decide_eq_true hholds : i < j).ne
    · rfl
    · exact absurd h (of_decide_eq_true hholds : i > j).ne'
  · refine ⟨gt, ⟨by decide, decide_eq_true h⟩, fun c ⟨hc, hholds⟩ => ?_⟩
    obtain rfl | rfl | rfl := hmem c hc
    · exact absurd (of_decide_eq_true hholds) h.not_gt
    · exact absurd (of_decide_eq_true hholds) h.ne'
    · rfl

theorem holds_nearest {i j : Int} (h : nearest i = nearest j → i = j) (c : Comparison) :
    c.holds (nearest i) (nearest j) = c.holds i j := by
  have hle : i ≤ j → nearest i ≤ nearest j := nearest_mono
  have hge : j ≤ i → nearest j ≤ nearest i := nearest_mono
  cases c <;> simp only [holds, decide_eq_decide] <;> omega

/-- Integers are compared by what they are rounded to, and this is exact unless different integers
are rounded to the same. -/
theorem eval_nearest (a b : Int64) :
    (∀ c : Comparison, parse c.source = .ok c.template ∧
      c.template.eval [.int a, .int b]
        = .ok (.bool (c.holds (nearest a.toInt) (nearest b.toInt)))) ∧
    (∃! c : Comparison, c ∈ [lt, eq, gt] ∧ c.template.eval [.int a, .int b] = .ok (.bool true)) ∧
    ((∀ c : Comparison, c.template.eval [.int a, .int b] = .ok (.bool (c.holds a.toInt b.toInt))) ∨
      a ≠ b ∧ nearest a.toInt = nearest b.toInt ∧ (a.toInt - b.toInt).natAbs ≤ 2 ^ 10 ∧
        (2 ^ 53 < a.toInt.natAbs ∨ 2 ^ 53 < b.toInt.natAbs)) := by
  refine ⟨fun c => ⟨c.parse_source, c.eval_template a b⟩, ?_, ?_⟩
  · simpa only [eval_template, Except.ok.injEq, Value.bool.injEq] using
      existsUnique_holds (nearest a.toInt) (nearest b.toInt)
  by_cases hexact : nearest a.toInt = nearest b.toInt → a.toInt = b.toInt
  · left
    intro c
    rw [eval_template, holds_nearest hexact]
  · right
    obtain ⟨hnearest, hne⟩ := Classical.not_imp.1 hexact
    have hclose := eq_or_close_of_nearest_eq (natAbs_toInt_le a) (natAbs_toInt_le b) hnearest
    exact ⟨fun heq => hne (congrArg Int64.toInt heq), hnearest, hclose.resolve_left hne⟩

/-- The least integer that 53 digits do not hold equals the one before it. -/
theorem eval_eq_of_ne :
    parse "{}=={}" = .ok eq.template ∧
      eq.template.eval [.int 9007199254740992, .int 9007199254740993] = .ok (.bool true) ∧
      eq.holds (9007199254740992 : Int64).toInt (9007199254740993 : Int64).toInt = false := by
  refine ⟨rfl, ?_, by decide⟩
  rw [eval_template]
  decide +kernel

end Comparison

end CausalTrace.Template
