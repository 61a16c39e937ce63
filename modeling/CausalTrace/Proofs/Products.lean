import CausalTrace.Proofs.Arithmetic
import CausalTrace.Proofs.Interpreter
import CausalTrace.Proofs.Precedence
import CausalTrace.Proofs.Quoting
import CausalTrace.Query.Optimize
import Mathlib.Algebra.BigOperators.Group.List.Lemmas
import Mathlib.Algebra.BigOperators.Ring.List

/-!
# Products of counts

The template that multiplies counts starts from one and takes the counts from the left.
Its value is their product, as long as that is an integer of 64 bits: no count is zero,
so no product along the way is greater.
-/

namespace CausalTrace.Template

/-- One, times the first `n` placeholders. -/
def product : Nat → Expr
  | 0 => .literal (.int 1)
  | n + 1 => .binary .mul (product n) (.arg n)

/-- The tokens after the one. -/
def factors : Nat → List Token
  | 0 => []
  | n + 1 => .op .mul :: .hole :: factors n

theorem factors_succ (n : Nat) : factors (n + 1) = factors n ++ [.op .mul, .hole] := by
  induction n with
  | zero => rfl
  | succ n ih =>
      show .op .mul :: .hole :: factors (n + 1) = .op .mul :: .hole :: factors n ++ _
      rw [ih]
      rfl

theorem derives_product (n : Nat) :
    Derives BinaryOp.mul.level (.int 1 :: factors n) 0 (product n) n := by
  induction n with
  | zero => exact (Derives.int 1 0).mono (by decide)
  | succ n ih =>
      rw [factors_succ, ← List.cons_append]
      exact .binary .mul ih ((Derives.hole n).mono (by decide))

theorem toList_productExpr (n : Nat) : (Query.productExpr n).toList =
    '1' :: (List.replicate n ['*', '\x7b', '\x7d']).flatten := by
  rw [Query.productExpr, String.toList_append, String.toList_join, List.flatMap_replicate]
  rfl

theorem tokensFrom_factors (n offset : Nat) :
    tokensFrom 0 offset (List.replicate n ['*', '\x7b', '\x7d']).flatten = .ok (factors n) := by
  induction n generalizing offset with
  | zero => rfl
  | succ n ih =>
      rw [List.replicate_succ, List.flatten_cons]
      show ((tokensFrom 0 _ (List.replicate n ['*', '\x7b', '\x7d']).flatten >>=
        fun ts => pure (Token.hole :: ts)) >>= fun ts => pure (Token.op .mul :: ts)) = _
      rw [ih]
      rfl

theorem tokens_productExpr (n : Nat) :
    tokens (Query.productExpr n) = .ok (.int 1 :: factors n) := by
  rw [tokens, toList_productExpr]
  have hfront : front ('1' :: (List.replicate n ['*', '\x7b', '\x7d']).flatten) =
      .token (.int 1) 1 := by
    cases n <;> rfl
  rw [tokensFrom, hfront]
  show (tokensFrom 0 _ _ >>= _) = _
  rw [tokensFrom_factors]
  rfl

theorem parse_productExpr (n : Nat) :
    parse (Query.productExpr n) = .ok ⟨Query.productExpr n, product n, n⟩ := by
  rw [parse, parseExpr, tokens_productExpr]
  show (exprOfTokens (.int 1 :: factors n) >>= _) = _
  rw [exprOfTokens_of_derives ((derives_product n).mono (Nat.zero_le _))]
  rfl

theorem checked_ofNat {n : Nat} (h : n < 2 ^ 63) : checked n = .ok (.int (.ofNat n)) :=
  checked_eq_int_iff.mpr (Int64.toInt_ofNat_of_lt h)

/-- The product of counts is computed exactly. -/
theorem value?_productExpr {counts : List Nat} (hpos : ∀ c ∈ counts, 0 < c)
    (hlt : counts.prod < 2 ^ 63) :
    value? (Query.productExpr counts.length) (counts.map fun c => .int (.ofNat c)) =
      some (.int (.ofNat counts.prod)) := by
  have hprod : 0 < counts.prod := Nat.pos_of_ne_zero <|
    List.prod_ne_zero fun h => Nat.lt_irrefl 0 (hpos 0 h)
  have hle : ∀ n, (counts.take n).prod ≤ counts.prod := fun n =>
    Nat.le_of_dvd hprod ⟨_, (List.prod_take_mul_prod_drop counts n).symm⟩
  have heval : ∀ n ≤ counts.length, (product n).eval
      (fun i => (counts.map fun c => (.int (.ofNat c) : Value)).getD i .null) =
        .ok (.int (.ofNat (counts.take n).prod)) := by
    intro n hn
    induction n with
    | zero => rfl
    | succ n ih =>
        have hn' : n < counts.length := hn
        have hstep := List.prod_take_succ counts n hn'
        have hterm : counts[n] < 2 ^ 63 :=
          (Nat.le_of_dvd hprod (List.dvd_prod (List.getElem_mem hn'))).trans_lt hlt
        have hfirst := Int64.toInt_ofNat_of_lt ((hle n).trans_lt hlt)
        rw [product]
        refine (eval_binary_toBinary _ .mul _ _).trans ?_
        rw [ih (Nat.le_of_succ_le hn), Expr.eval, List.getD_eq_getElem?_getD, List.getElem?_map,
          List.getElem?_eq_getElem hn']
        show arith .mul (.int _) (.int _) = _
        rw [arith_int, integerArith, hfirst, Int64.toInt_ofNat_of_lt hterm, hstep]
        show checked _ = _
        rw [← Int.natCast_mul, ← hstep, checked_ofNat ((hle _).trans_lt hlt)]
  have hlength : (counts.map fun c => (.int (.ofNat c) : Value)).length = counts.length :=
    List.length_map ..
  rw [value?, parse_productExpr]
  show (eval _ _).toOption = _
  rw [eval, if_pos hlength, heval _ (Nat.le_refl _), List.take_length]
  rfl

end CausalTrace.Template
