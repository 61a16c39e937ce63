import CausalTrace.Json.Lexer
import CausalTrace.Json.Number

/-!
# Numerals read back

The digits of a number are taken from the front of a text as a whole when no other digit
follows. So a literal that is spelled as documents spell numbers is read back as it stands,
and the literal of an integer means this integer.
-/

namespace CausalTrace

namespace Number

variable {n : Nat} {ds rest : List Char} {l : Literal}

/-! ## 64 bits -/

theorem fit?_toInt (i : Int64) : fit? i.toInt = some i := by
  rw [fit?, if_pos ⟨Int64.minValue_le_toInt i, Int64.toInt_le i⟩, Int64.ofInt_toInt]

theorem fit?_eq_some_iff {n : Int} {i : Int64} : fit? n = some i ↔ i.toInt = n := by
  refine ⟨toInt_of_fit?, ?_⟩
  rintro rfl
  exact fit?_toInt i

theorem fit?_eq_none_iff {n : Int} :
    fit? n = none ↔ ¬ (Int64.minValue.toInt ≤ n ∧ n ≤ Int64.maxValue.toInt) := by
  rw [fit?]
  split
  · next h => exact ⟨nofun, fun hn => absurd h hn⟩
  · next h => exact ⟨fun _ => h, fun _ => rfl⟩

/-! ## Digits -/

theorem isDigit_digitChar {d : Nat} (h : d < 10) : (digitChar d).isDigit = true := by
  have all : ∀ d < 10, (digitChar d).isDigit = true := by decide
  exact all d h

theorem isDigit_natDigits (n : Nat) : ∀ c ∈ natDigits n, c.isDigit = true := by
  fun_induction natDigits n with
  | case1 n h => simpa using isDigit_digitChar h
  | case2 n h ih =>
      intro c hc
      rcases List.mem_append.mp hc with hc | hc
      · exact ih c hc
      · rw [List.mem_singleton.mp hc]
        exact isDigit_digitChar (Nat.mod_lt n (by decide))

theorem natDigits_ne_nil (n : Nat) : natDigits n ≠ [] := by
  unfold natDigits
  split <;> simp

/-- Only zero itself starts with a zero. -/
theorem natDigits_eq_zero_cons {cs : List Char} (h : natDigits n = '0' :: cs) : cs = [] := by
  fun_induction natDigits n generalizing cs with
  | case1 n hn => exact (List.cons.inj h).2.symm
  | case2 n hn ih =>
      cases hq : natDigits (n / 10) with
      | nil => exact absurd hq (natDigits_ne_nil _)
      | cons c ds =>
          rw [hq, List.cons_append] at h
          obtain ⟨rfl, _⟩ := List.cons.inj h
          obtain rfl := ih hq
          -- What is left of the number is zero, but it has two digits.
          have hzero : n / 10 = 0 := by
            rw [← digitsValue_natDigits (n / 10), hq]
            rfl
          omega

/-- No digit stands at the front. -/
def Ended (rest : List Char) : Prop := ∀ c ∈ rest.head?, c.isDigit = false

theorem takeDigits_append (hds : ∀ c ∈ ds, c.isDigit = true) (hrest : Ended rest) :
    takeDigits (ds ++ rest) = (ds, rest) := by
  have htake : rest.takeWhile Char.isDigit = [] ∧ rest.dropWhile Char.isDigit = rest := by
    cases rest with
    | nil => exact ⟨rfl, rfl⟩
    | cons c cs =>
        have hc : c.isDigit = false := hrest c rfl
        simp [hc]
  unfold takeDigits
  rw [List.takeWhile_append_of_pos hds, List.dropWhile_append_of_pos hds, htake.1, htake.2,
    List.append_nil]

theorem takeExponent_of_takeSign {cs : List Char} {negative : Bool}
    (hsign : takeSign cs = (negative, ds ++ rest)) (hds : ∀ c ∈ ds, c.isDigit = true)
    (hne : ds ≠ []) (hrest : Ended rest) : takeExponent ('e' :: cs) =
      some (if negative then -(digitsValue ds : Int) else digitsValue ds, rest) := by
  cases ds with
  | nil => exact absurd rfl hne
  | cons d ds =>
      have hdigits := takeDigits_append hds hrest
      simp only [takeExponent, true_or, if_true, hsign, hdigits]

/-- An exponent is read back with the sign that documents ask for. -/
theorem takeExponent_append (e : Int) (hrest : Ended rest) :
    takeExponent ('e' :: (if 0 ≤ e then ['+'] else []) ++ intDigits e ++ rest) =
      some (e, rest) := by
  cases e with
  | ofNat n =>
      have hsign : takeSign ('+' :: (natDigits n ++ rest)) = (false, natDigits n ++ rest) := rfl
      have hread := takeExponent_of_takeSign hsign (isDigit_natDigits n) (natDigits_ne_nil n) hrest
      rw [digitsValue_natDigits] at hread
      exact hread
  | negSucc n =>
      have hsign : takeSign ('-' :: (natDigits (n + 1) ++ rest)) =
          (true, natDigits (n + 1) ++ rest) := rfl
      have hread := takeExponent_of_takeSign hsign (isDigit_natDigits _) (natDigits_ne_nil _) hrest
      rw [digitsValue_natDigits] at hread
      exact hread

/-! ## Literals -/

namespace Literal

/-- The exponent as documents spell it, if there is one. -/
def exponentChars (l : Literal) : List Char :=
  match l.exponent with
  | none => []
  | some e => 'e' :: (if 0 ≤ e then ['+'] else []) ++ intDigits e

/-- Spelled as documents spell numbers: all digits are digits, there is one before the point,
and no zero stands before another. -/
structure Spelled (l : Literal) : Prop where
  whole : ∀ c ∈ l.whole, c.isDigit = true
  fraction : ∀ c ∈ l.fraction, c.isDigit = true
  some_digit : l.whole ≠ []
  no_leading_zero : ∀ cs, l.whole = '0' :: cs → cs = []

theorem spelled_ofInt (n : Int) : (ofInt n).Spelled where
  whole := isDigit_natDigits _
  fraction := nofun
  some_digit := natDigits_ne_nil _
  no_leading_zero _ h := natDigits_eq_zero_cons h

@[simp]
theorem toInt_ofInt (n : Int) : (ofInt n).toInt = n := by
  simp only [toInt, ofInt, digitsValue_natDigits, decide_eq_true_eq]
  split <;> omega

theorem Spelled.exists_cons (h : l.Spelled) : ∃ c cs, l.whole = c :: cs ∧ c.isDigit = true := by
  cases hw : l.whole with
  | nil => exact absurd hw h.some_digit
  | cons c cs => exact ⟨c, cs, rfl, h.whole c (hw ▸ List.mem_cons_self)⟩

end Literal

end Number

/-! ## Numbers of documents -/

namespace Json

open Number

variable {l : Literal} {ds rest : List Char}

/-- What may stand after a value: nothing, or a token that no number reaches into. -/
def Delimited (rest : List Char) : Prop := ∀ c ∈ rest.head?, c = ',' ∨ c = ']' ∨ c = '\x7d'

theorem Delimited.ended (h : Delimited rest) : Ended rest := by
  intro c hc
  rcases h c hc with rfl | rfl | rfl <;> rfl

theorem Delimited.takeFraction (h : Delimited rest) : takeFraction rest = none := by
  cases rest with
  | nil => rfl
  | cons c cs => rcases h c rfl with rfl | rfl | rfl <;> rfl

theorem Delimited.takeExponent (h : Delimited rest) : takeExponent rest = none := by
  cases rest with
  | nil => rfl
  | cons c cs => rcases h c rfl with rfl | rfl | rfl <;> rfl

/-- A number is read by its parts: after the sign the digits as far as they go, then a fraction
and an exponent or neither. -/
theorem numberFront?_of_parts {after after' : List Char} (h : l.Spelled) (hafter : Ended after)
    (hfraction : takeFraction after = none ∧ l.fraction = [] ∧ after' = after ∨
      takeFraction after = some (l.fraction, after') ∧ l.fraction ≠ [])
    (hexponent : takeExponent after' = none ∧ l.exponent = none ∧ rest = after' ∨
      ∃ e, takeExponent after' = some (e, rest) ∧ l.exponent = some e) :
    numberFront? ((if l.negative then ['-'] else []) ++ (l.whole ++ after)) = some (l, rest) := by
  have hdigits := takeDigits_append h.whole hafter
  obtain ⟨c, cs, hwhole, hc⟩ := h.exists_cons
  have hzero : cs ≠ [] → c ≠ '0' := by
    rintro hcs rfl
    exact hcs (h.no_leading_zero cs hwhole)
  have hsign : c ≠ '-' := by
    rintro rfl
    cases hc
  obtain ⟨negative, whole, fraction, exponent⟩ := l
  obtain rfl : whole = c :: cs := hwhole
  simp only [List.cons_append] at hdigits hfraction hexponent ⊢
  -- Whether a further digit follows decides about the check for a needless zero.
  cases cs with
  | nil =>
      cases negative <;> rcases hfraction with ⟨hf, rfl, rfl⟩ | ⟨hf, hne⟩ <;>
        rcases hexponent with ⟨he, rfl, rfl⟩ | ⟨e, he, rfl⟩ <;>
        simp_all [numberFront?]
  | cons d ds =>
      have hc0 := hzero (List.cons_ne_nil d ds)
      cases negative <;> rcases hfraction with ⟨hf, rfl, rfl⟩ | ⟨hf, hne⟩ <;>
        rcases hexponent with ⟨he, rfl, rfl⟩ | ⟨e, he, rfl⟩ <;>
        simp_all [numberFront?]

/-- The literal is read from the front of a text. -/
theorem numberFront?_chars (h : l.Spelled) (hrest : Delimited rest) :
    numberFront? (l.chars true ++ rest) = some (l, rest) := by
  -- The exponent follows the digits of the fraction, or those before the point if there is none.
  have hexponent : takeExponent (l.exponentChars ++ rest) = none ∧ l.exponent = none ∧
        rest = l.exponentChars ++ rest ∨
      ∃ e, takeExponent (l.exponentChars ++ rest) = some (e, rest) ∧ l.exponent = some e := by
    unfold Literal.exponentChars
    cases he : l.exponent with
    | none => exact .inl ⟨hrest.takeExponent, rfl, rfl⟩
    | some e => exact .inr ⟨e, takeExponent_append e hrest.ended, rfl⟩
  have hended : Ended (l.exponentChars ++ rest) ∧
      takeFraction (l.exponentChars ++ rest) = none := by
    unfold Literal.exponentChars
    cases he : l.exponent with
    | none => exact ⟨hrest.ended, hrest.takeFraction⟩
    | some e => exact ⟨by simp [Ended], rfl⟩
  have hchars : l.chars true ++ rest = (if l.negative then ['-'] else []) ++ (l.whole ++
      ((if l.fraction.isEmpty then [] else '.' :: l.fraction) ++ (l.exponentChars ++ rest))) := by
    cases he : l.exponent <;> simp [Literal.chars, Literal.exponentChars, he]
  rw [hchars]
  cases hf : l.fraction with
  | nil => exact numberFront?_of_parts h hended.1 (.inl ⟨hended.2, hf, rfl⟩) hexponent
  | cons d ds =>
      have hdigits : takeDigits (d :: ds ++ (l.exponentChars ++ rest)) =
          (d :: ds, l.exponentChars ++ rest) := takeDigits_append (hf ▸ h.fraction) hended.1
      refine numberFront?_of_parts h (by simp [Ended]) (.inr ⟨?_, by simp [hf]⟩) hexponent
      rw [hf]
      exact congrArg some hdigits

/-- A number without point and exponent is read as this integer if 64 bits hold it. -/
theorem integer?_ofInt {n : Int} (hlow : Int64.minValue.toInt ≤ n) (hhigh : n < (pow2 64 : Int)) :
    integer? (Literal.ofInt n) = some n := by
  have hfits : if (Literal.ofInt n).negative then Int64.minValue.toInt ≤ n ∧ n < 0
      else n < (pow2 64 : Int) := by
    by_cases hneg : n < 0
    · simpa [Literal.ofInt, hneg] using hlow
    · simpa [Literal.ofInt, hneg] using hhigh
  rw [integer?, Literal.toInt_ofInt, if_pos ⟨rfl, by simpa using hfits⟩]

end Json

end CausalTrace
