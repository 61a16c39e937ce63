import CausalTrace.Template
import CausalTrace.Proofs.Precedence

/-!
# Placeholders of a template

A placeholder stands in the text bare or inside a string literal. The parser gives each of them
the number of placeholders before it, through parentheses, prefix operators and the pieces of
literals alike: read from the left, the tree has the placeholders of the text in their order, with
the positions `0`, `1`, `2` and so on. So a template never looks outside arguments of the right
number, and the placeholder that comes `i`-th in the text is filled by the argument at `i`.
-/

namespace CausalTrace.Template

/-! ## Placeholders in the text -/

/-- How a placeholder stands in the text of a template. -/
inductive Placement where
  | bare
  /-- Inside a string literal. -/
  | quoted
deriving DecidableEq

/-- How often an opening brace stands right before a closing one. -/
def holeCount (cs : List Char) : Nat :=
  (cs.zip cs.tail).count ('\x7b', '\x7d')

/-- The placeholders of a token; those of a string literal stand in its contents, where escapes
are resolved. -/
def Token.placeholders : Token → List Placement
  | .hole => [.bare]
  | .str s => List.replicate (holeCount s.toList) .quoted
  | .bool _ | .null | .int _ | .float _ | .op _ | .bang | .opened | .closed => []

/-! ## Placeholders in the tree -/

/-- The placeholders of an expression from the left, with their argument positions. -/
def Expr.placeholders : Expr → List (Placement × Nat)
  | .literal _ => []
  | .arg i => [(.bare, i)]
  | .interpolated ps => (Part.positions ps).map (.quoted, ·)
  | .unary _ e => e.placeholders
  | .binary _ l r => l.placeholders ++ r.placeholders

theorem Expr.map_snd_placeholders (e : Expr) : e.placeholders.map Prod.snd = e.positions := by
  induction e with
  | literal v => rfl
  | arg i => rfl
  | interpolated ps => simp [placeholders, positions, Function.comp_def]
  | unary op e ih => exact ih
  | binary op l r ihl ihr => simp [placeholders, positions, ihl, ihr]

/-! ## String literals -/

theorem holeCount_cons (c : Char) (cs : List Char) : holeCount (c :: cs) =
    holeCount cs + if c = '\x7b' ∧ cs.head? = some '\x7d' then 1 else 0 := by
  cases cs with
  | nil => simp [holeCount]
  | cons d cs => simp [holeCount, List.count_cons]

/-- The side condition of a match that tries a placeholder first, as `holeCount_cons` has it. -/
theorem not_hole {c : Char} {cs : List Char}
    (h : ∀ cs' : List Char, c = '\x7b' → cs = '\x7d' :: cs' → False) :
    ¬ (c = '\x7b' ∧ cs.head? = some '\x7d') := by
  rintro ⟨hc, hhead⟩
  obtain ⟨cs', hcs⟩ := List.head?_eq_some_iff.mp hhead
  exact h cs' hc hcs

theorem length_splitAtHoles (cs : List Char) : (splitAtHoles cs).length = holeCount cs + 1 := by
  induction cs using splitAtHoles.induct with
  | case1 => rfl
  | case2 cs ih => simp [splitAtHoles, holeCount_cons, ih]
  | case3 c cs hne hnil ih => simp [hnil] at ih
  | case4 c cs hne p ps hsplit ih =>
      rw [splitAtHoles, hsplit, holeCount_cons, if_neg (not_hole hne), ← ih, hsplit]
      · rfl
      · exact hne

theorem positions_literalParts (n : Nat) (p : List Char) (ps : List (List Char)) :
    Part.positions (literalParts n (p :: ps)) = List.range' n ps.length := by
  induction ps generalizing n p with
  | nil =>
      rw [literalParts]
      split <;> rfl
  | cons q ps ih =>
      rw [literalParts]
      split
      · simp [Part.positions, ih, List.range'_succ]
      · simp [Part.positions, ih, List.range'_succ]

/-- A text that is one piece has no placeholder. -/
theorem holeCount_eq_zero {cs : List Char} (h : ∀ p q ps, splitAtHoles cs = p :: q :: ps → False) :
    holeCount cs = 0 := by
  have hlength := length_splitAtHoles cs
  match hsplit : splitAtHoles cs with
  | [] => simp [hsplit] at hlength
  | [p] => simpa [hsplit] using hlength.symm
  | p :: q :: ps => exact (h p q ps hsplit).elim

theorem placeholders_stringLiteral (n : Nat) (s : String) :
    (stringLiteral n s).2 = holeCount s.toList ∧
      (stringLiteral n s).1.placeholders =
        (List.replicate (holeCount s.toList) Placement.quoted).zipIdx n := by
  have hlength := length_splitAtHoles s.toList
  unfold stringLiteral
  split
  · next p q ps hsplit =>
      have hcount : (q :: ps).length = holeCount s.toList := by
        rw [hsplit] at hlength
        exact Nat.succ.inj hlength
      refine ⟨hcount, ?_⟩
      simp only [Expr.placeholders, positions_literalParts]
      rw [hcount, List.zipIdx_eq_zip_range', List.length_replicate]
      exact List.ext_getElem (by simp) (by simp)
  · next hsplit =>
      rw [holeCount_eq_zero hsplit]
      exact ⟨rfl, rfl⟩

/-! ## Every parse numbers the placeholders from the left -/

/-- What some tokens derive has their placeholders in the same order, numbered from the first
number on, and the second number comes after the last of them. -/
theorem Derives.placeholders {level n m : Nat} {ts : List Token} {e : Expr}
    (h : Derives level ts n e m) :
    m = n + (ts.flatMap Token.placeholders).length ∧
      e.placeholders = (ts.flatMap Token.placeholders).zipIdx n := by
  induction h with
  | hole n => exact ⟨rfl, rfl⟩
  | bool b n => exact ⟨rfl, rfl⟩
  | null n => exact ⟨rfl, rfl⟩
  | int i n => exact ⟨rfl, rfl⟩
  | float x n => exact ⟨rfl, rfl⟩
  | str s n =>
      obtain ⟨hcount, hplaceholders⟩ := placeholders_stringLiteral n s
      simp [Token.placeholders, hcount, hplaceholders]
  | group _ ih => simpa [Token.placeholders] using ih
  | unary op _ ih =>
      cases op with
      | not => exact ih
      | neg => exact ih
  | binary op _ _ ihl ihr =>
      obtain ⟨hm, hl⟩ := ihl
      obtain ⟨hk, hr⟩ := ihr
      constructor
      · simp [Token.placeholders, hk, hm, Nat.add_assoc]
      · simp [Token.placeholders, Expr.placeholders, hl, hr, hm, List.zipIdx_append]
  | tighter _ ih => exact ih

/-! ## Evaluation that checks its reads -/

/-- Why an evaluation that checks its reads stops. -/
inductive Halt where
  /-- There is no argument at this position. -/
  | outside (position : Nat)
  | stopped (err : EvalError)
deriving DecidableEq

/-- The argument at a position, which has to be there. -/
def argument (args : Row) (i : Nat) : Except Halt Value :=
  match args[i]? with
  | some v => .ok v
  | none => .error (.outside i)

def Part.evalWithin (args : Row) : Part → Except Halt String
  | .text s => .ok s
  | .arg i => do return (← argument args i).text

/-- The value of an expression over some arguments, where a read outside them stops the evaluation.
An operand that is not evaluated reads nothing. -/
def Expr.evalWithin (args : Row) : Expr → Except Halt Value
  | .literal v => .ok v
  | .arg i => do return (← argument args i).numeric
  | .interpolated ps => do return .str (String.join (← ps.mapM (Part.evalWithin args)))
  | .unary op e => do (applyUnary op (← e.evalWithin args)).mapError .stopped
  | .binary op l r => do
      let a ← l.evalWithin args
      match ← (decided op a).mapError Halt.stopped with
      | some v => return v
      | none => do (applyBinary op a (← r.evalWithin args)).mapError .stopped

theorem argument_eq_ok {args : Row} {i : Nat} (h : i < args.length) :
    argument args i = .ok (args.getD i .null) := by
  simp [argument, h]

theorem Part.mapM_evalWithin {args : Row} {ps : List Part}
    (h : ∀ i ∈ positions ps, i < args.length) :
    ps.mapM (evalWithin args) = .ok (ps.map (value fun i => args.getD i .null)) := by
  induction ps with
  | nil => rfl
  | cons p ps ih =>
      cases p with
      | text s =>
          rw [List.mapM_cons, ih h]
          rfl
      | arg i =>
          have hi : i < args.length := h i (by simp [positions])
          have hps : ∀ j ∈ positions ps, j < args.length :=
            fun j hj => h j (by simp [positions, hj])
          rw [List.mapM_cons, ih hps, evalWithin, argument_eq_ok hi]
          rfl

/-- Where all positions are those of arguments, checking the reads changes nothing. -/
theorem Expr.evalWithin_eq {args : Row} {e : Expr} (h : ∀ i ∈ e.positions, i < args.length) :
    e.evalWithin args = (e.eval fun i => args.getD i .null).mapError .stopped := by
  induction e with
  | literal v => rfl
  | arg i =>
      rw [evalWithin, argument_eq_ok (h i (by simp [positions]))]
      rfl
  | interpolated ps =>
      rw [evalWithin, Part.mapM_evalWithin h]
      rfl
  | unary op e ih =>
      rw [evalWithin, ih h, eval]
      cases e.eval fun i => args.getD i .null <;> rfl
  | binary op l r ihl ihr =>
      rw [evalWithin, ihl fun i hi => h i (by simp [positions, hi]), eval]
      cases l.eval fun i => args.getD i .null with
      | error err => rfl
      | ok a =>
          show (decided op a).mapError Halt.stopped >>=
              _ = (decided op a >>= _).mapError Halt.stopped
          cases decided op a with
          | error err => rfl
          | ok v? =>
              cases v? with
              | some v => rfl
              | none =>
                  show r.evalWithin args >>= _ = _
                  rw [ihr fun i hi => h i (by simp [positions, hi])]
                  show _ = (r.eval _ >>= _).mapError Halt.stopped
                  cases r.eval fun i => args.getD i .null <;> rfl

/-- A read outside them stops it. -/
example : (Expr.binary .add (.arg 0) (.arg 1)).evalWithin [.int 1] = .error (.outside 1) := rfl

/-! ## Templates -/

/-- The placeholders of a template come in the tree as they come in the text, and the one at place
`i` of the text has the argument position `i`. Over arguments of their number no read is outside
of them; another number of arguments is refused as such. -/
theorem placeholders_of_parse {s : String} {t : Template} (h : parse s = .ok t) :
    (∃ ts, tokens s = .ok ts ∧ t.arity = (ts.flatMap Token.placeholders).length ∧
      t.expr.placeholders = (ts.flatMap Token.placeholders).zipIdx) ∧
    t.expr.positions = List.range t.arity ∧
    ∀ args : Row,
      (args.length = t.arity → t.expr.evalWithin args = (t.eval args).mapError .stopped) ∧
      (args.length ≠ t.arity →
        t.eval args = .error (.arity t.arity args.length) ∧
        t.test args = .error (.arity t.arity args.length)) := by
  obtain ⟨⟨e, m⟩, hexpr, ht⟩ := bind_eq_ok_iff.mp h
  cases ht
  obtain ⟨ts, hts, hexpr⟩ := bind_eq_ok_iff.mp hexpr
  obtain ⟨hm, hplaceholders⟩ := (derives_of_exprOfTokens hexpr).placeholders
  rw [Nat.zero_add] at hm
  have hpositions : e.positions = List.range m := by
    rw [← e.map_snd_placeholders, hplaceholders, List.zipIdx_map_snd, hm, List.range_eq_range']
  refine ⟨⟨ts, hts, hm, hplaceholders⟩, hpositions, fun args =>
    ⟨fun hlength => ?_, fun hlength => ?_⟩⟩
  · have hwithin : ∀ i ∈ e.positions, i < args.length := by
      intro i hi
      rw [hpositions, List.mem_range] at hi
      exact hlength ▸ hi
    rw [Expr.evalWithin_eq hwithin, eval, if_pos hlength]
  · have heval : Template.eval ⟨s, e, m⟩ args = .error (.arity m args.length) := if_neg hlength
    refine ⟨heval, ?_⟩
    rw [test, heval]
    rfl

/-- Placeholders behind a prefix operator, made by an escape, and after other text. -/
def escaped : Template :=
  ⟨"-{} < 2 || ('\x7b\\\x7d' == \"a{}\")",
    .binary .or (.binary .lt (.unary .neg (.arg 0)) (.literal (.int 2)))
      (.binary .eq (.interpolated [.arg 1]) (.interpolated [.text "a", .arg 2])), 3⟩

theorem placeholders_of_parse_escaped :
    parse escaped.source = .ok escaped ∧
      escaped.expr.placeholders = [(.bare, 0), (.quoted, 1), (.quoted, 2)] ∧
      ∀ args : Row, args.length = 3 →
        escaped.expr.evalWithin args = (escaped.eval args).mapError .stopped := by
  have hparse : parse escaped.source = .ok escaped := rfl
  obtain ⟨_, _, hargs⟩ := placeholders_of_parse hparse
  exact ⟨hparse, rfl, fun args hlength => (hargs args).1 hlength⟩

end CausalTrace.Template
