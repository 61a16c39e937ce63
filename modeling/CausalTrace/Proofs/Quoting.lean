import CausalTrace.Proofs.Placeholders

/-!
# Every text as a string literal

A text between quote marks, with a backslash before each backslash and each such mark in it, is one
token whose contents are the text again. As a template it has a placeholder for every `{}` in the
text, and its value is the text around the values that fill them.
-/

namespace CausalTrace.Template

/-! ## Quoting -/

/-- The quote marks of string literals. -/
inductive Quote where
  | double
  | single
deriving DecidableEq

namespace Quote

def mark : Quote → Char
  | double => '"'
  | single => '\''

/-- The characters of a text with a backslash before each that would not stand for itself. -/
def escape (q : Quote) : List Char → List Char
  | [] => []
  | c :: cs => if c = '\\' ∨ c = q.mark then '\\' :: c :: q.escape cs else c :: q.escape cs

/-- The string literal of a text. -/
def literal (q : Quote) (s : String) : String :=
  String.ofList (q.mark :: (q.escape s.toList ++ [q.mark]))

end Quote

/-! ## Interpolation -/

/-- Some characters with each `{}`, from the left, replaced by the text of the next value. -/
def interpolate : List Char → List Value → List Char
  | [], _ => []
  | '\x7b' :: '\x7d' :: cs, v :: vs => v.text.toList ++ interpolate cs vs
  | c :: cs, vs => c :: interpolate cs vs

/-! ## From the text to one token -/

variable {q : Quote}

/-- A character that is escaped stands for itself, and is no line break. -/
theorem Quote.unescape_eq {c : Char} (h : c = '\\' ∨ c = q.mark) : c ≠ '\n' ∧ unescape c = c := by
  rcases h with rfl | rfl
  · decide
  · cases q <;> decide

theorem stringBody_escape (cs : List Char) :
    stringBody q.mark (q.escape cs ++ [q.mark]) = .ok (cs, (q.escape cs ++ [q.mark]).length) := by
  induction cs with
  | nil => cases q <;> rfl
  | cons c cs ih =>
      rw [Quote.escape]
      split
      · next hc =>
          obtain ⟨hbreak, hself⟩ := Quote.unescape_eq hc
          simp [stringBody, hbreak, hself, ih]
      · next hc =>
          rw [not_or] at hc
          simp [stringBody, hc.1, hc.2, ih]

/-- The characters of a token already taken pass. -/
theorem tokensFrom_length (offset : Nat) (cs : List Char) :
    tokensFrom cs.length offset cs = .ok [] := by
  induction cs generalizing offset with
  | nil => rfl
  | cons c cs ih => exact ih _

theorem front_mark (q : Quote) (cs : List Char) : front (q.mark :: cs) = stringFront q.mark cs := by
  cases q <;> rfl

theorem tokens_literal (q : Quote) (s : String) : tokens (q.literal s) = .ok [.str s] := by
  rw [tokens, Quote.literal, String.toList_ofList, tokensFrom, front_mark, stringFront,
    stringBody_escape]
  show (tokensFrom (q.escape s.toList ++ [q.mark]).length _
    (q.escape s.toList ++ [q.mark]) >>= _) = _
  rw [tokensFrom_length, String.ofList_toList]
  rfl

theorem parse_literal (q : Quote) (s : String) : parse (q.literal s) =
    .ok ⟨q.literal s, (stringLiteral 0 s).1, holeCount s.toList⟩ := by
  have hexpr : exprOfTokens [.str s] = .ok ((stringLiteral 0 s).1, 0 + (stringLiteral 0 s).2) :=
    exprOfTokens_of_derives ((Derives.str s 0).mono (Nat.zero_le wordLevel))
  rw [Nat.zero_add, (placeholders_stringLiteral 0 s).1] at hexpr
  rw [parse, parseExpr, tokens_literal]
  show (exprOfTokens [.str s] >>= _) = _
  rw [hexpr]
  rfl

/-! ## From the token to its value -/

/-- Some pieces with the texts of values between them, from the `n`-th on. -/
def woven (env : Nat → Value) (n : Nat) : List (List Char) → List Char
  | [] => []
  | [p] => p
  | p :: q :: ps => p ++ (env n).text.toList ++ woven env (n + 1) (q :: ps)

/-- That empty pieces are no parts of their own makes no difference. -/
theorem toList_join_literalParts (env : Nat → Value) (n : Nat) (ps : List (List Char)) :
    (String.join ((literalParts n ps).map (Part.value env))).toList = woven env n ps := by
  induction ps generalizing n with
  | nil => rfl
  | cons p ps ih =>
      cases ps with
      | nil =>
          rw [literalParts, woven]
          split
          · next hempty => rw [List.isEmpty_iff.mp hempty]; rfl
          · simp [Part.value]
      | cons q ps =>
          have hrest := ih (n + 1)
          rw [String.toList_join] at hrest
          rw [literalParts, woven, String.toList_join]
          split
          · next hempty => simp [Part.value, hrest, List.isEmpty_iff.mp hempty]
          · simp [Part.value, hrest]

theorem interpolate_cons {c : Char} {cs : List Char} (h : ¬ (c = '\x7b' ∧ cs.head? = some '\x7d'))
    (vs : List Value) : interpolate (c :: cs) vs = c :: interpolate cs vs := by
  rw [interpolate]
  intro cs' v vs' _ hc hcs
  exact h ⟨hc, by rw [hcs, List.head?_cons]⟩

theorem woven_splitAtHoles (env : Nat → Value) (n : Nat) (cs : List Char) :
    woven env n (splitAtHoles cs) = interpolate cs ((List.range' n (holeCount cs)).map env) := by
  induction cs using splitAtHoles.induct generalizing n with
  | case1 => rfl
  | case2 cs ih =>
      have hcount : holeCount ('\x7b' :: '\x7d' :: cs) = holeCount cs + 1 := by
        simp [holeCount_cons]
      rw [hcount, List.range'_succ, List.map_cons, interpolate, ← ih (n + 1), splitAtHoles]
      have hlength := length_splitAtHoles cs
      cases hsplit : splitAtHoles cs with
      | nil => simp [hsplit] at hlength
      | cons p ps => rfl
  | case3 c cs hne hnil ih =>
      have hlength := length_splitAtHoles cs
      simp [hnil] at hlength
  | case4 c cs hne p ps hsplit ih =>
      have hno := not_hole hne
      rw [holeCount_cons, if_neg hno, Nat.add_zero, interpolate_cons hno, ← ih n, hsplit]
      rw [splitAtHoles, hsplit]
      · cases ps <;> rfl
      · exact hne

theorem interpolate_of_holeCount_eq_zero {cs : List Char} (h : holeCount cs = 0) (vs : List Value) :
    interpolate cs vs = cs := by
  induction cs with
  | nil => rfl
  | cons c cs ih =>
      rw [holeCount_cons, Nat.add_eq_zero_iff] at h
      have hno : ¬ (c = '\x7b' ∧ cs.head? = some '\x7d') := by
        intro hhole
        simp [hhole] at h
      rw [interpolate_cons hno, ih h.1]

theorem eval_stringLiteral (env : Nat → Value) (s : String) : (stringLiteral 0 s).1.eval env =
    .ok (.str (String.ofList
      (interpolate s.toList ((List.range (holeCount s.toList)).map env)))) := by
  unfold stringLiteral
  split
  · next p q ps hsplit =>
      rw [Expr.eval, ← hsplit, List.range_eq_range', ← woven_splitAtHoles,
        ← toList_join_literalParts, String.ofList_toList]
  · next hsplit =>
      rw [Expr.eval, interpolate_of_holeCount_eq_zero (holeCount_eq_zero hsplit),
        String.ofList_toList]

/-- Every text is the contents of a string literal, for either quote mark. As a template the literal
takes one value for each `{}` in the text, and its value is the text with the texts of these
values in their places. -/
theorem eval_literal (q : Quote) (s : String) : ∃ t : Template,
    parse (q.literal s) = .ok t ∧ t.arity = holeCount s.toList ∧
      ∀ args : Row, args.length = holeCount s.toList →
        t.eval args = .ok (.str (String.ofList (interpolate s.toList args))) := by
  refine ⟨_, parse_literal q s, rfl, fun args hlength => ?_⟩
  have hargs : (List.range (holeCount s.toList)).map (fun i => args.getD i .null) = args := by
    rw [← hlength]
    apply List.ext_getElem
    · simp
    · intro i _ hi
      simp [hi]
  rw [eval, if_pos hlength, eval_stringLiteral, hargs]

/-- A backslash before a brace, quote marks, a line break, a brace before a placeholder, two
placeholders side by side, a brace after them and a character of several bytes. -/
def knotty : String := "\\\x7b\"\x7d\n\x7b\x7b\x7d\x7b\x7d\x7dλ'"

theorem eval_literal_knotty :
    Quote.double.literal knotty = "\"\\\\\x7b\\\"\x7d\n\x7b\x7b\x7d\x7b\x7d\x7dλ'\"" ∧
      ∃ t : Template, parse (Quote.double.literal knotty) = .ok t ∧ t.arity = 2 ∧
        t.eval [.int 7, .str "a\x7b\x7d"] = .ok (.str "\\\x7b\"\x7d\n\x7b7a\x7b\x7d\x7dλ'") := by
  have hcount : holeCount knotty.toList = 2 := by decide
  have htext : String.ofList (interpolate knotty.toList [.int 7, .str "a\x7b\x7d"]) =
      "\\\x7b\"\x7d\n\x7b7a\x7b\x7d\x7dλ'" := by decide +kernel
  obtain ⟨t, hparse, harity, heval⟩ := eval_literal .double knotty
  refine ⟨by decide, t, hparse, harity.trans hcount, ?_⟩
  rw [heval [.int 7, .str "a\x7b\x7d"] hcount.symm, htext]

end CausalTrace.Template
