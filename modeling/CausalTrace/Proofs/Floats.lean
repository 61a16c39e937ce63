import CausalTrace.Proofs.Wire

/-!
# Floats in documents

The literal of a finite float is spelled as documents spell numbers: the shortest decimal of a
magnitude has no digits but for zero itself, so no zero stands in front of others. A value is
therefore read back from a document as soon as it is read back from its own text.
-/

namespace CausalTrace

namespace Number

/-! ## The shortest decimal -/

theorem compareScaled_zero {n : Nat} (hn : 0 < n) (i j : Int) : compareScaled 0 i n j = .lt := by
  have htwo : 0 < pow2 j.toNat := Nat.pow_pos (by decide)
  have hten : 0 < pow10 (-i).toNat := Nat.pow_pos (by decide)
  rw [compareScaled, Nat.zero_mul, Nat.zero_mul, Nat.compare_eq_lt]
  exact Nat.mul_pos (Nat.mul_pos hn htwo) hten

/-- Zero is not among the decimals that round to another magnitude. -/
theorem digits_of_readsBack {x : Binary} {d : Decimal} (hx : x.significand ≠ 0)
    (h : x.readsBack d = true) : d.digits ≠ 0 := by
  intro hzero
  have hlow : 0 < if x.narrowBelow then 4 * x.significand - 1 else 4 * x.significand - 2 := by
    split <;> omega
  unfold Binary.readsBack at h
  dsimp only at h
  rw [hzero, compareScaled_zero hlow] at h
  simp at h

theorem digits_of_onGrid? {x : Binary} {tie : Tie} {g : Int} {d : Decimal} (hx : x.significand ≠ 0)
    (h : x.onGrid? tie g = some d) : d.digits ≠ 0 := by
  unfold Binary.onGrid? at h
  dsimp only at h
  have hup : x.floorAt g + 1 ≠ 0 := Nat.succ_ne_zero _
  have hdown : x.readsBack ⟨x.floorAt g, g⟩ = true → x.floorAt g ≠ 0 := digits_of_readsBack hx
  split at h
  · cases h
  · next hleft _ =>
      cases h
      exact hdown hleft
  · cases h
    exact hup
  · next hleft _ =>
      split at h
      · cases h
        exact hdown hleft
      · cases h
        exact hup
      · cases h
        exact hup
      · cases h
        split
        · exact hdown hleft
        · exact hup

theorem digits_strip {d : Decimal} (h : d.digits ≠ 0) (n : Nat) : (d.strip n).digits ≠ 0 := by
  induction n generalizing d with
  | zero => exact h
  | succ n ih =>
      rw [Decimal.strip]
      split
      · next hten => exact ih (show d.digits / 10 ≠ 0 by omega)
      · exact h

/-- Only zero has the digits of zero, and it has no exponent. -/
theorem exponent_shortest {x : Binary} {tie : Tie} (h : (x.shortest tie).digits = 0) :
    (x.shortest tie).exponent = 0 := by
  unfold Binary.shortest at h ⊢
  split at h
  · next hzero => rw [if_pos hzero]
  · next hx =>
      exfalso
      dsimp only at h
      split at h
      · next d hd =>
          obtain ⟨n, _, hgrid⟩ := List.exists_of_findSome?_eq_some hd
          exact digits_strip (digits_of_onGrid? hx hgrid) 17 h
      · have htwo : pow2 x.exponent.toNat ≠ 0 := (Nat.pow_pos (by decide)).ne'
        have hfive : Nat.pow 5 (-x.exponent).toNat ≠ 0 := (Nat.pow_pos (by decide)).ne'
        exact Nat.mul_ne_zero (Nat.mul_ne_zero hx htwo) hfive h

/-! ## The literal of a float -/

namespace Notation

theorem spelled_layPositional {keepPoint negative : Bool} {n : Nat} {e : Int} (h : n = 0 → e ≤ 0) :
    (layPositional keepPoint negative (natDigits n) e).Spelled := by
  have hdigits := isDigit_natDigits n
  have hzeros : ∀ k, ∀ c ∈ List.replicate k '0', c.isDigit = true := fun k c hc => by
    rw [List.eq_of_mem_replicate hc]
    rfl
  unfold layPositional
  constructor
  case whole =>
    dsimp only
    split
    · exact List.forall_mem_append.mpr ⟨hdigits, hzeros _⟩
    · split
      · exact fun c hc => hdigits c (List.mem_of_mem_take hc)
      · exact hzeros 1
  case fraction =>
    dsimp only
    split
    · split
      · exact hzeros 1
      · exact List.forall_mem_nil _
    · split
      · exact fun c hc => hdigits c (List.mem_of_mem_drop hc)
      · exact List.forall_mem_append.mpr ⟨hzeros _, hdigits⟩
  case some_digit =>
    have hne := natDigits_ne_nil n
    dsimp only
    split
    · simp [hne]
    · split
      · simp [hne]
        omega
      · exact List.cons_ne_nil _ _
  case no_leading_zero =>
    dsimp only
    intro cs hcs
    cases hn : natDigits n with
    | nil => exact absurd hn (natDigits_ne_nil n)
    | cons d ds =>
        rw [hn] at hcs
        split at hcs
        · obtain ⟨rfl, rfl⟩ := List.cons.inj hcs
          -- The only digit is the zero of zero, after which no zeros follow.
          obtain rfl := natDigits_eq_zero_cons hn
          have hzero : n = 0 := by
            rw [← digitsValue_natDigits n, hn]
            rfl
          simp [Int.toNat_of_nonpos (h hzero)]
        · split at hcs
          · cases hk : (((d :: ds).length : Int) + e).toNat with
            | zero =>
                rw [hk] at hcs
                cases hcs
            | succ k =>
                rw [hk, List.take_succ_cons] at hcs
                obtain ⟨rfl, rfl⟩ := List.cons.inj hcs
                rw [natDigits_eq_zero_cons hn, List.take_nil]
          · exact (List.cons.inj hcs).2.symm

theorem spelled_literal (f : Notation) (x : Binary) : (f.literal x).Spelled := by
  have hscientific : ∀ (negative : Bool) (n : Nat) (e : Int),
      Literal.Spelled ⟨negative, (natDigits n).take 1, (natDigits n).drop 1, some e⟩ := by
    intro negative n e
    refine ⟨fun c hc => isDigit_natDigits n c (List.mem_of_mem_take hc),
      fun c hc => isDigit_natDigits n c (List.mem_of_mem_drop hc), ?_, fun cs hcs => ?_⟩
    · simp [natDigits_ne_nil]
    · have hlength := congrArg List.length hcs
      rw [List.length_take, List.length_cons] at hlength
      exact List.eq_nil_of_length_eq_zero (by omega)
  unfold literal
  apply iteInduction (motive := Literal.Spelled)
  · exact fun _ => spelled_layPositional fun h => Int.le_of_eq (exponent_shortest h)
  · exact fun _ => hscientific _ _ _

end Notation

end Number

/-! ## Values read back from their own texts -/

namespace Value

theorem spelled_toJson_float (x : Number.Binary64) : (Value.float x).toJson.Spelled := by
  unfold toJson
  dsimp only
  split
  · exact .number (Number.Notation.spelled_literal _ _)
  · exact .null

/-- A value is read back from documents if it is read back from the text of its own one. -/
theorem readsBack_iff {v : Value} : v.ReadsBack ↔
    (Json.parse v.toJson.render).bind ofJson? = some v := by
  constructor
  · intro h
    rw [Json.parse_render h.spelled]
    exact h.read
  · intro h
    by_cases hv : v.kind = .float
    · obtain ⟨x, rfl⟩ : ∃ x, v = .float x := by
        cases v with
        | float x => exact ⟨x, rfl⟩
        | null | bool | int | str => cases hv
      rw [Json.parse_render (spelled_toJson_float x)] at h
      exact ⟨spelled_toJson_float x, h⟩
    · exact readsBack_of_kind hv

end Value

end CausalTrace
