import CausalTrace.Template.Parser
import CausalTrace.Proofs.Steps
import Mathlib.Logic.ExistsUnique

/-!
# The grammar of templates

Operators bind in six levels and group to the left, a prefix operator binds tighter than all of
them, and parentheses make one word of what they enclose. The grammar says so by levels: the
operand to the left of an operator is of the level of this operator, the one to the right is of
the next level. The parser, which keeps begun expressions on a stack, accepts what the grammar
derives and nothing else, and gives the derived expression.
-/

namespace CausalTrace.Template

/-- The level of prefix operators, which is above those of all binary ones. -/
def prefixLevel : Nat := 6

/-- The level of placeholders, literals and parentheses. -/
def wordLevel : Nat := 7

def UnaryOp.token : UnaryOp → Token
  | .not => .bang
  | .neg => .op .sub

/-- At a level some tokens are an expression, whose placeholders are numbered from the first number
up to the second. -/
inductive Derives : Nat → List Token → Nat → Expr → Nat → Prop where
  | hole (n : Nat) : Derives wordLevel [.hole] n (.arg n) (n + 1)
  | bool (b : Bool) (n : Nat) : Derives wordLevel [.bool b] n (.literal (.bool b)) n
  | null (n : Nat) : Derives wordLevel [.null] n (.literal .null) n
  | int (i : Int64) (n : Nat) : Derives wordLevel [.int i] n (.literal (.int i)) n
  | float (x : Float) (n : Nat) : Derives wordLevel [.float x] n (.literal (.float x)) n
  | str (s : String) (n : Nat) :
      Derives wordLevel [.str s] n (stringLiteral n s).1 (n + (stringLiteral n s).2)
  | group {ts : List Token} {n m : Nat} {e : Expr} (h : Derives 0 ts n e m) :
      Derives wordLevel (.opened :: ts ++ [.closed]) n e m
  | unary {ts : List Token} {n m : Nat} {e : Expr} (op : UnaryOp)
      (h : Derives prefixLevel ts n e m) :
      Derives prefixLevel (op.token :: ts) n (.unary op e) m
  | binary {ts us : List Token} {n m k : Nat} {l r : Expr} (op : BinaryOp)
      (hl : Derives op.level ts n l m) (hr : Derives (op.level + 1) us m r k) :
      Derives op.level (ts ++ .op op :: us) n (.binary op l r) k
  /-- What binds tighter may stand where looser expressions may. -/
  | tighter {level : Nat} {ts : List Token} {n m : Nat} {e : Expr}
      (h : Derives (level + 1) ts n e m) : Derives level ts n e m

variable {ts us : List Token} {t : Token} {n m k level level' : Nat} {e : Expr} {fs : List Frame}
  {p p' : Progress}

theorem BinaryOp.level_lt_prefixLevel (op : BinaryOp) : op.level < prefixLevel := by
  cases op <;> decide

theorem Derives.mono (h : Derives level' ts n e m) (hle : level ≤ level') :
    Derives level ts n e m := by
  induction hle with
  | refl => exact h
  | step _ ih => exact ih h.tighter

theorem derives_of_operand? (h : operand? n t = some (e, k)) :
    Derives wordLevel [t] n e (n + k) := by
  cases t with
  | hole =>
      cases h
      exact .hole n
  | bool b =>
      cases h
      exact .bool b n
  | null =>
      cases h
      exact .null n
  | int i =>
      cases h
      exact .int i n
  | float x =>
      cases h
      exact .float x n
  | str s =>
      have hstr := Option.some.inj h
      rw [show e = (stringLiteral n s).1 from hstr ▸ rfl,
        show k = (stringLiteral n s).2 from hstr ▸ rfl]
      exact .str s n
  | op _ | bang | opened | closed => cases h

/-! ## What is accepted is derived -/

/-- The level an expression must have after these begun ones. -/
def demand : List Frame → Nat
  | [] => 0
  | .group :: _ => 0
  | .unary _ :: _ => prefixLevel
  | .binary _ op :: _ => op.level + 1

theorem demand_le_prefixLevel (fs : List Frame) : demand fs ≤ prefixLevel := by
  cases fs with
  | nil => exact Nat.zero_le _
  | cons f fs =>
      cases f with
      | group => exact Nat.zero_le _
      | unary op => exact Nat.le_refl _
      | binary l op => exact op.level_lt_prefixLevel

/-- Some tokens leave these expressions begun, with this number of placeholders. -/
inductive Begun : List Frame → List Token → Nat → Prop where
  | start : Begun [] [] 0
  | group {fs : List Frame} {ts : List Token} {n : Nat} (h : Begun fs ts n) :
      Begun (.group :: fs) (ts ++ [.opened]) n
  | unary {fs : List Frame} {ts : List Token} {n : Nat} (op : UnaryOp) (h : Begun fs ts n) :
      Begun (.unary op :: fs) (ts ++ [op.token]) n
  | binary {fs : List Frame} {ts us : List Token} {n m : Nat} {l : Expr} (op : BinaryOp)
      (h : Begun fs ts n) (hd : demand fs ≤ op.level) (hl : Derives op.level us n l m) :
      Begun (.binary l op :: fs) (ts ++ us ++ [.op op]) m

/-- Some tokens leave these expressions begun, followed by an expression that binds at least as
tightly as `level` and as it has to. -/
def Completed (level : Nat) (fs : List Frame) (e : Expr) (ts : List Token) (m : Nat) : Prop :=
  ∃ us vs n, ts = us ++ vs ∧ Begun fs us n ∧ Derives (max level (demand fs)) vs n e m

theorem Completed.mono (h : Completed level' fs e ts m) (hle : level ≤ level') :
    Completed level fs e ts m := by
  obtain ⟨us, vs, n, hts, hbegun, hderives⟩ := h
  have hbound : max level (demand fs) ≤ max level' (demand fs) :=
    Nat.max_le.mpr ⟨Nat.le_trans hle (Nat.le_max_left _ _), Nat.le_max_right _ _⟩
  exact ⟨us, vs, n, hts, hbegun, hderives.mono hbound⟩

/-- Completing begun expressions keeps the tokens they stand for, and what stays begun waits for
an expression of the level or a looser one. -/
theorem Completed.settle (h : Completed level fs e ts m) (hlevel : level ≤ prefixLevel) :
    Completed level (settle level fs e).1 (settle level fs e).2 ts m ∧
      demand (settle level fs e).1 ≤ level := by
  induction fs generalizing e with
  | nil => exact ⟨h, Nat.zero_le _⟩
  | cons f fs ih =>
      obtain ⟨us, vs, n, rfl, hbegun, hderives⟩ := h
      cases hbegun with
      | group hfs => exact ⟨⟨_, vs, n, rfl, .group hfs, hderives⟩, Nat.zero_le _⟩
      | unary op hfs =>
          have hunary := Derives.unary op (hderives.mono (Nat.le_max_right _ _))
          refine ih ⟨_, _, n, List.append_cons .. ▸ rfl, hfs, hunary.mono ?_⟩
          exact Nat.max_le.mpr ⟨hlevel, demand_le_prefixLevel fs⟩
      | binary op hfs hd hl =>
          rw [Template.settle]
          split
          · next hle =>
              have hbinary := hl.binary op (hderives.mono (Nat.le_max_right _ _))
              refine ih ⟨_, _, _, ?_, hfs, hbinary.mono (Nat.max_le.mpr ⟨hle, hd⟩)⟩
              simp only [List.append_assoc, List.singleton_append]
          · next hlt =>
              exact ⟨⟨_, vs, n, rfl, .binary op hfs hd hl, hderives⟩, Nat.lt_of_not_le hlt⟩

/-- The tokens read so far are what the parser keeps. -/
def Progress.Spells (p : Progress) (ts : List Token) : Prop :=
  match p.operand with
  | none => Begun p.stack ts p.holes
  | some e => Completed wordLevel p.stack e ts p.holes

theorem Progress.spells_begin (h : Begun p.stack ts p.holes) (hnone : p.operand = none)
    (hstep : p.begin t = .ok p') : p'.Spells (ts ++ [t]) := by
  obtain ⟨holes, stack, operand⟩ := p
  cases hnone
  unfold begin at hstep
  split at hstep
  · next e k hoperand =>
      cases hstep
      refine ⟨ts, [t], holes, rfl, h, (derives_of_operand? hoperand).mono ?_⟩
      exact Nat.max_le.mpr ⟨Nat.le_refl _, Nat.le_succ_of_le (demand_le_prefixLevel _)⟩
  · split at hstep
    · cases hstep
      exact h.unary .neg
    · cases hstep
      exact h.unary .not
    · cases hstep
      exact h.group
    · cases hstep

/-- After an operand the parser reads an operator, or a parenthesis that has been opened. -/
theorem Progress.extend_cases (hstep : p.extend e t = .ok p') :
    (∃ o, t = .op o ∧
        p' = ⟨p.holes, .binary (settle o.level p.stack e).2 o ::
          (settle o.level p.stack e).1, none⟩) ∨
      ∃ fs e', t = .closed ∧ settle 0 p.stack e = (.group :: fs, e') ∧
        p' = ⟨p.holes, fs, some e'⟩ := by
  unfold extend at hstep
  split at hstep
  · next o =>
      cases hstep
      exact .inl ⟨o, rfl, rfl⟩
  · split at hstep
    · next hsettle _ =>
        cases hstep
        exact .inr ⟨_, _, rfl, hsettle, rfl⟩
    · cases hstep
    · cases hstep

theorem Progress.spells_extend (h : Completed wordLevel p.stack e ts p.holes)
    (hstep : p.extend e t = .ok p') : p'.Spells (ts ++ [t]) := by
  rcases extend_cases hstep with ⟨o, rfl, rfl⟩ | ⟨fs, e', rfl, hsettle, rfl⟩
  · have ho := Nat.le_of_lt o.level_lt_prefixLevel
    obtain ⟨⟨us, vs, n, rfl, hbegun, hderives⟩, hd⟩ := (h.mono (Nat.le_succ_of_le ho)).settle ho
    exact hbegun.binary o hd (hderives.mono (Nat.le_max_left _ _))
  · have hzero := ((h.mono (Nat.zero_le _)).settle (Nat.zero_le _)).1
    rw [hsettle] at hzero
    obtain ⟨_, vs, n, rfl, hbegun, hderives⟩ := hzero
    cases hbegun with
    | group hfs =>
        have hgroup := Derives.group (hderives.mono (Nat.zero_le _))
        refine ⟨_, _, n, ?_, hfs, hgroup.mono ?_⟩
        · simp only [List.append_assoc, List.cons_append, List.nil_append]
        · exact Nat.max_le.mpr ⟨Nat.le_refl _, Nat.le_succ_of_le (demand_le_prefixLevel _)⟩

theorem Progress.Spells.step (h : p.Spells ts) (hstep : p.step t = .ok p') :
    p'.Spells (ts ++ [t]) := by
  rw [Progress.step] at hstep
  rw [Spells] at h
  split at hstep
  · next hnone =>
      rw [hnone] at h
      exact spells_begin h hnone hstep
  · next e hsome =>
      rw [hsome] at h
      exact spells_extend h hstep

theorem Progress.Spells.foldlM (h : p.Spells ts) (hfold : us.foldlM Progress.step p = .ok p') :
    p'.Spells (ts ++ us) := by
  induction us generalizing p ts with
  | nil =>
      cases hfold
      rw [List.append_nil]
      exact h
  | cons t us ih =>
      rw [List.foldlM_cons, bind_eq_ok_iff] at hfold
      obtain ⟨q, hstep, hrest⟩ := hfold
      rw [List.append_cons]
      exact ih (h.step hstep) hrest

theorem Progress.Spells.finish (h : p.Spells ts) (hfinish : p.finish = .ok (e, m)) :
    Derives 0 ts 0 e m := by
  rw [Progress.finish] at hfinish
  rw [Spells] at h
  cases hoperand : p.operand with
  | none =>
      rw [hoperand] at hfinish
      cases hfinish
  | some e' =>
      rw [hoperand] at hfinish h
      have hzero := ((h.mono (Nat.zero_le _)).settle (Nat.zero_le _)).1
      dsimp only at hfinish
      split at hfinish
      · next hsettle =>
          cases hfinish
          rw [hsettle] at hzero
          obtain ⟨_, vs, n, rfl, hbegun, hderives⟩ := hzero
          cases hbegun
          exact hderives.mono (Nat.zero_le _)
      · cases hfinish

/-! ## What is derived is accepted -/

theorem Progress.extend_closed {e' : Expr} (h : settle 0 p.stack e = (.group :: fs, e')) :
    p.extend e .closed = .ok ⟨p.holes, fs, some e'⟩ := by
  unfold extend
  simp only [h]

theorem Progress.finish_of_settle {e' : Expr} (hoperand : p.operand = some e)
    (h : settle 0 p.stack e = ([], e')) : p.finish = .ok (e', p.holes) := by
  unfold finish
  simp only [hoperand, h]

/-- Nothing that is begun is completed at a level looser than it waits for. -/
theorem settle_of_demand_le (hd : demand fs ≤ level) (hlevel : level < prefixLevel) (e : Expr) :
    settle level fs e = (fs, e) := by
  cases fs with
  | nil => rfl
  | cons f fs =>
      cases f with
      | group => rfl
      | unary op => exact absurd hd (Nat.not_le.mpr hlevel)
      | binary l op => exact if_neg (Nat.not_le.mpr hd)

/-- Reading derived tokens after begun expressions that can take what they derive leaves the same
to be completed as reading this as one word. -/
theorem Derives.foldlM (h : Derives level ts n e m) (hd : demand fs ≤ level) : ∃ fs' e',
    ts.foldlM Progress.step ⟨n, fs, none⟩ = .ok ⟨m, fs', some e'⟩ ∧
      ∀ j ≤ level, settle j fs' e' = settle j fs e := by
  induction h generalizing fs with
  | hole n => exact ⟨fs, _, rfl, fun _ _ => rfl⟩
  | bool b n => exact ⟨fs, _, rfl, fun _ _ => rfl⟩
  | null n => exact ⟨fs, _, rfl, fun _ _ => rfl⟩
  | int i n => exact ⟨fs, _, rfl, fun _ _ => rfl⟩
  | float x n => exact ⟨fs, _, rfl, fun _ _ => rfl⟩
  | str s n => exact ⟨fs, _, rfl, fun _ _ => rfl⟩
  | @group ts n m e _ ih =>
      obtain ⟨fs', e', hfold, hsettle⟩ := ih (Nat.le_refl (demand (.group :: fs)))
      refine ⟨fs, e, ?_, fun _ _ => rfl⟩
      rw [List.cons_append, List.foldlM_cons]
      show (ts ++ [Token.closed]).foldlM Progress.step ⟨n, .group :: fs, none⟩ = _
      rw [List.foldlM_append, hfold]
      show Progress.extend ⟨m, fs', some e'⟩ e' .closed >>= pure = _
      rw [Progress.extend_closed (hsettle 0 (Nat.le_refl 0))]
      rfl
  | @unary ts n m e op _ ih =>
      obtain ⟨fs', e', hfold, hsettle⟩ := ih (Nat.le_refl (demand (.unary op :: fs)))
      refine ⟨fs', e', ?_, hsettle⟩
      cases op with
      | not => exact hfold
      | neg => exact hfold
  | @binary ts us n m k l r op _ _ ihl ihr =>
      obtain ⟨fs₁, e₁, hfold₁, hsettle₁⟩ := ihl hd
      obtain ⟨fs₂, e₂, hfold₂, hsettle₂⟩ := ihr (Nat.le_refl (demand (.binary l op :: fs)))
      refine ⟨fs₂, e₂, ?_, fun j hj => ?_⟩
      · rw [List.foldlM_append, hfold₁]
        show Progress.extend ⟨m, fs₁, some e₁⟩ e₁ (.op op) >>= us.foldlM Progress.step = _
        rw [Progress.extend, hsettle₁ _ (Nat.le_refl _),
          settle_of_demand_le hd op.level_lt_prefixLevel]
        exact hfold₂
      · rw [hsettle₂ j (Nat.le_succ_of_le hj)]
        exact if_pos hj
  | tighter _ ih =>
      obtain ⟨fs', e', hfold, hsettle⟩ := ih (Nat.le_succ_of_le hd)
      exact ⟨fs', e', hfold, fun j hj => hsettle j (Nat.le_succ_of_le hj)⟩

theorem exprOfTokens_of_derives (h : Derives 0 ts 0 e m) : exprOfTokens ts = .ok (e, m) := by
  have hnone : demand [] ≤ 0 := Nat.le_refl 0
  obtain ⟨fs', e', hfold, hsettle⟩ := h.foldlM hnone
  rw [exprOfTokens, bind_eq_ok_iff]
  exact ⟨_, hfold, Progress.finish_of_settle rfl (hsettle 0 (Nat.le_refl 0))⟩

theorem derives_of_exprOfTokens (h : exprOfTokens ts = .ok (e, m)) : Derives 0 ts 0 e m := by
  rw [exprOfTokens, bind_eq_ok_iff] at h
  obtain ⟨p, hfold, hfinish⟩ := h
  have hstart : Progress.start.Spells [] := Begun.start
  exact (hstart.foldlM hfold).finish hfinish

/-- The parser accepts what the grammar derives, with the derived expression, of which there is
then no other; everything else it refuses. -/
theorem exprOfTokens_iff_derives (ts : List Token) :
    (∀ r, exprOfTokens ts = .ok r ↔ Derives 0 ts 0 r.1 r.2) ∧
      ((∃ r, exprOfTokens ts = .ok r) ↔ ∃! r : Expr × Nat, Derives 0 ts 0 r.1 r.2) ∧
      ((∃ err, exprOfTokens ts = .error err) ↔ ¬ ∃ r : Expr × Nat, Derives 0 ts 0 r.1 r.2) := by
  have hok : ∀ r, exprOfTokens ts = .ok r ↔ Derives 0 ts 0 r.1 r.2 := fun r =>
    ⟨derives_of_exprOfTokens, exprOfTokens_of_derives⟩
  refine ⟨hok, ⟨?_, ?_⟩, ⟨?_, ?_⟩⟩
  · rintro ⟨r, hr⟩
    refine ⟨r, (hok r).mp hr, fun r' hr' => ?_⟩
    exact Except.ok.inj (((hok r').mpr hr').symm.trans hr)
  · rintro ⟨r, hr, _⟩
    exact ⟨r, (hok r).mpr hr⟩
  · rintro ⟨err, herr⟩ ⟨r, hr⟩
    rw [(hok r).mpr hr] at herr
    cases herr
  · intro hnone
    cases hparse : exprOfTokens ts with
    | error err => exact ⟨err, rfl⟩
    | ok r => exact absurd ⟨r, (hok r).mp hparse⟩ hnone

/-- Operators of one level group to the left, tighter ones come first. -/
example : exprOfTokens [.hole, .op .sub, .hole, .op .sub, .hole, .op .mul, .hole] =
    .ok (.binary .sub (.binary .sub (.arg 0) (.arg 1)) (.binary .mul (.arg 2) (.arg 3)), 4) := rfl

end CausalTrace.Template
