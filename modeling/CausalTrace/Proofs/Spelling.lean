import CausalTrace.Template
import CausalTrace.Proofs.Numerals

/-!
# Integers and their decimal texts

A bare placeholder reads a text of digits as the integer it spells, and a string literal shows an
integer as its digits. So it makes no difference to a template whether an argument is an integer or
the decimal text of one.
-/

namespace CausalTrace

/-! ## Reading the text of an integer -/

namespace Text

theorem isBlank_of_isDigit {c : Char} (h : c.isDigit = true) : isBlank c = false := by
  simp only [Char.isDigit, Bool.and_eq_true, decide_eq_true_eq, ge_iff_le,
    UInt32.le_iff_toNat_le] at h
  change 48 ≤ c.toNat ∧ c.toNat ≤ 57 at h
  simp [isBlank, Ranges.has, blanks]
  omega

theorem trimChars_eq_self {cs : List Char} (h : ∀ c ∈ cs, isBlank c = false) :
    trimChars cs = cs := by
  have hkeep : ∀ ds : List Char, (∀ c ∈ ds, isBlank c = false) → ds.dropWhile isBlank = ds := by
    intro ds hds
    cases ds with
    | nil => rfl
    | cons d ds => rw [List.dropWhile_cons_of_neg (by simp [hds d List.mem_cons_self])]
  rw [trimChars, hkeep cs h, hkeep _ fun c hc => h c (List.mem_reverse.mp hc), List.reverse_reverse]

end Text

namespace Number

theorem isBlank_intDigits (n : Int) : ∀ c ∈ intDigits n, Text.isBlank c = false := by
  cases n with
  | ofNat n => exact fun c hc => Text.isBlank_of_isDigit (isDigit_natDigits n c hc)
  | negSucc n =>
      refine List.forall_mem_cons.mpr ⟨by decide, fun c hc => ?_⟩
      exact Text.isBlank_of_isDigit (isDigit_natDigits (n + 1) c hc)

/-- Digits have no sign in front. -/
theorem takeSign_natDigits (n : Nat) : takeSign (natDigits n) = (false, natDigits n) := by
  have hdigits := isDigit_natDigits n
  unfold takeSign
  split
  · next hn =>
      rw [hn] at hdigits
      exact absurd (hdigits '-' List.mem_cons_self) (by decide)
  · next hn =>
      rw [hn] at hdigits
      exact absurd (hdigits '+' List.mem_cons_self) (by decide)
  · rfl

/-- An integer of 64 bits is read back from its digits, also at both ends of the range. -/
theorem readInt64_intDigits (i : Int64) : readInt64 (intDigits i.toInt) = some i := by
  have hread : ∀ {cs : List Char} {negative : Bool}
      {n : Nat}, takeSign cs = (negative, natDigits n) →
      readInt64 cs = fit? (if negative then -(n : Int) else n) := by
    intro cs negative n hsign
    have hall : (natDigits n).all Char.isDigit = true := List.all_eq_true.mpr (isDigit_natDigits n)
    simp [readInt64, hsign, natDigits_ne_nil, hall, digitsValue_natDigits]
  rw [← fit?_toInt i]
  cases i.toInt with
  | ofNat n => exact hread (takeSign_natDigits n)
  | negSucc n =>
      have hsign : takeSign (intDigits (.negSucc n)) = (true, natDigits (n + 1)) := rfl
      rw [hread hsign, if_pos rfl, Int.negSucc_eq, Int.natCast_succ]

end Number

/-! ## Values -/

namespace Value

/-- An integer as its decimal text, and any other value as it is. -/
def spelled : Value → Value
  | .int n => .str (Value.int n).text
  | v => v

@[simp]
theorem text_spelled (v : Value) : v.spelled.text = v.text := by
  cases v <;> rfl

@[simp]
theorem numeric_spelled (v : Value) : v.spelled.numeric = v.numeric := by
  cases v with
  | int n =>
      have htrim : Text.trimChars (Number.intDigits n.toInt) = Number.intDigits n.toInt :=
        Text.trimChars_eq_self (Number.isBlank_intDigits n.toInt)
      simp [spelled, text, numeric, Number.intText, htrim, Number.readInt64_intDigits]
  | null | bool | float | str => rfl

end Value

namespace Template

/-! ## Two runs of one expression -/

/-- An expression sees of an argument only the number and the text that it is. -/
theorem Expr.eval_congr {env env' : Nat → Value} (e : Expr)
    (h : ∀ i, (env i).numeric = (env' i).numeric ∧ (env i).text = (env' i).text) :
    e.eval env = e.eval env' := by
  induction e with
  | literal v => rfl
  | arg i => rw [eval, eval, (h i).1]
  | interpolated ps =>
      have hparts : Part.value env = Part.value env' := by
        funext p
        cases p with
        | text s => rfl
        | arg i => exact (h i).2
      rw [eval, eval, hparts]
  | unary op e ih => rw [eval, eval, ih]
  | binary op l r ihl ihr => rw [eval, eval, ihl, ihr]

/-- Some arguments with the integers at certain positions as their decimal texts. -/
def spellAt (chosen : Nat → Bool) (args : Row) : Row :=
  args.mapIdx fun i v => if chosen i then v.spelled else v

theorem getD_spellAt (chosen : Nat → Bool) (args : Row) (i : Nat) :
    (spellAt chosen args).getD i .null =
      if chosen i then (args.getD i .null).spelled else args.getD i .null := by
  rw [List.getD_eq_getElem?_getD, List.getD_eq_getElem?_getD, spellAt, List.getElem?_mapIdx]
  cases args[i]? with
  | some v => rfl
  | none => split <;> rfl

/-- Integers and their decimal texts are interchangeable arguments: whichever of them are spelled
out, a template has the same value, or fails in the same way. -/
theorem eval_spellAt (t : Template) (chosen : Nat → Bool) (args : Row) :
    t.eval (spellAt chosen args) = t.eval args ∧ t.test (spellAt chosen args) = t.test args := by
  have heval : t.eval (spellAt chosen args) = t.eval args := by
    have hlength : (spellAt chosen args).length = args.length := List.length_mapIdx
    rw [eval, eval, hlength]
    split
    · refine t.expr.eval_congr fun i => ?_
      rw [getD_spellAt]
      split
      · exact ⟨Value.numeric_spelled _, Value.text_spelled _⟩
      · exact ⟨rfl, rfl⟩
    · rfl
  exact ⟨heval, by rw [test, test, heval]⟩

end Template

end CausalTrace
