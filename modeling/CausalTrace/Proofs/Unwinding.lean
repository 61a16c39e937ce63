import Mathlib.Data.List.Infix

/-!
# Two runs side by side

Somebody sees some of the steps of a run. Two runs in which they see the same may take other
steps at any time, in any number. If an unseen step changes nothing for them, and a step they see
takes what looks alike to what looks alike, then all the time the two runs look alike.
-/

namespace CausalTrace

variable {σ ε υ τ ω : Type}

/-! ## What runs put out -/

/-- What the steps of a run put out, one after another. -/
def outputs (step : σ → ε → σ) (out : σ → ε → List ω) : σ → List ε → List ω
  | _, [] => []
  | s, e :: es => out s e ++ outputs step out (step s e) es

variable {step : σ → ε → σ} {out : σ → ε → List ω}

theorem outputs_append (s : σ) (es es' : List ε) :
    outputs step out s (es ++ es') = outputs step out s es ++
      outputs step out (es.foldl step s) es' := by
  induction es generalizing s with
  | nil => rfl
  | cons e es ih => rw [List.cons_append, outputs, ih, outputs, List.append_assoc, List.foldl_cons]

theorem outputs_filterMap (f : ω → Option τ) (s : σ) (es : List ε) :
    outputs step (fun s e => (out s e).filterMap f) s es = (outputs step out s es).filterMap f := by
  induction es generalizing s with
  | nil => rfl
  | cons e es ih => rw [outputs, outputs, ih, List.filterMap_append]

/-- Two lists agree as far as both go. -/
def Concur (xs ys : List ω) : Prop := ∃ all, xs <+: all ∧ ys <+: all

section

variable {xs ys more others : List ω} {x y : ω}

theorem Concur.of_eq (h : xs = ys) : Concur xs ys := ⟨ys, h ▸ List.prefix_rfl, List.prefix_rfl⟩

theorem Concur.first (h : Concur (xs ++ more) (ys ++ others)) : Concur xs ys := by
  obtain ⟨all, hxs, hys⟩ := h
  exact ⟨all, (List.prefix_append _ _).trans hxs, (List.prefix_append _ _).trans hys⟩

theorem Concur.rest (h : Concur (xs ++ more) (xs ++ others)) : Concur more others := by
  obtain ⟨_, ⟨last, rfl⟩, hothers⟩ := h
  rw [List.append_assoc] at hothers
  exact ⟨more ++ last, List.prefix_append _ _, (List.prefix_append_right_inj xs).mp hothers⟩

theorem Concur.eq_of_singleton (h : Concur [x] [y]) : x = y := by
  obtain ⟨_, ⟨_, rfl⟩, ⟨_, he⟩⟩ := h
  cases he
  rfl

end

/-! ## Unwinding -/

/-- What has to hold of single steps. `seen` is what a step looks like, if it is seen, and
`Alike` what states look like. A step draws from a supply, and seen steps look alike only as far
as they have drawn the same. -/
structure Unwinds (step : σ → ε → σ) (seen : ε → Option υ) (ok : σ → List ε → Prop)
    (draws : σ → ε → List τ) (out : σ → ε → List ω) (Alike : σ → σ → Prop) : Prop where
  later : ∀ {s e es}, ok s (e :: es) → ok (step s e) es
  symm : ∀ {s s'}, Alike s s' → Alike s' s
  unseen : ∀ {s s' e es}, Alike s s' → ok s (e :: es) → seen e = none →
    Alike (step s e) s' ∧ draws s e = [] ∧ out s e = []
  seen : ∀ {s s' e e' es es'}, Alike s s' → ok s (e :: es) → ok s' (e' :: es') → seen e ≠ none →
    seen e = seen e' → Concur (draws s e) (draws s' e') →
    Alike (step s e) (step s' e') ∧ draws s e = draws s' e' ∧ out s e = out s' e'

namespace Unwinds

variable {seen : ε → Option υ} {ok : σ → List ε → Prop}
  {draws : σ → ε → List τ} {Alike : σ → σ → Prop}
  {s s' : σ} {es es' rest : List ε}

theorem ok_after (u : Unwinds step seen ok draws out Alike) (h : ok s (es ++ rest)) :
    ok (es.foldl step s) rest := by
  induction es generalizing s with
  | nil => exact h
  | cons e es ih => exact ih (u.later h)

theorem unseen_run (u : Unwinds step seen ok draws out Alike) (h : Alike s s')
    (hok : ok s (es ++ rest)) (hes : ∀ e ∈ es, seen e = none) :
    Alike (es.foldl step s) s' ∧ outputs step draws s es = [] ∧ outputs step out s es = [] := by
  induction es generalizing s with
  | nil => exact ⟨h, rfl, rfl⟩
  | cons e es ih =>
      obtain ⟨he, hes⟩ := List.forall_mem_cons.mp hes
      obtain ⟨hnext, hdraws, hout⟩ := u.unseen h hok he
      obtain ⟨hlast, hrest⟩ := ih hnext (u.later hok) hes
      rw [outputs, outputs, hdraws, hout]
      exact ⟨hlast, hrest⟩

/-- Runs in which the same is seen look alike, draw the same and put out the same. -/
theorem run (u : Unwinds step seen ok draws out Alike) (h : Alike s s')
    (hok : ok s es) (hok' : ok s' es') (hseen : es.filterMap seen = es'.filterMap seen)
    (hdraws : Concur (outputs step draws s es) (outputs step draws s' es')) :
    Alike (es.foldl step s) (es'.foldl step s') ∧
      outputs step draws s es = outputs step draws s' es' ∧
      outputs step out s es = outputs step out s' es' := by
  induction es generalizing s s' es' with
  | nil =>
      have hnone : ∀ e ∈ es', seen e = none := List.filterMap_eq_nil_iff.mp hseen.symm
      obtain ⟨hlast, hdrawn, hput⟩ :=
        u.unseen_run (u.symm h) ((List.append_nil es').symm ▸ hok') hnone
      exact ⟨u.symm hlast, hdrawn.symm, hput.symm⟩
  | cons e es ih =>
      cases he : seen e with
      | none =>
          obtain ⟨hnext, hdrawn, hput⟩ := u.unseen h hok he
          rw [outputs, hdrawn, List.nil_append] at hdraws ⊢
          rw [outputs, hput, List.nil_append, List.foldl_cons]
          rw [List.filterMap_cons_none he] at hseen
          exact ih hnext (u.later hok) hok' hseen hdraws
      | some v =>
          -- The other run sees the same step too, after some that are not seen.
          rw [List.filterMap_cons_some he, eq_comm, List.filterMap_eq_cons_iff] at hseen
          obtain ⟨before, e', after, rfl, hbefore, he', hafter⟩ := hseen
          obtain ⟨hskip, hdrawn, hput⟩ := u.unseen_run (u.symm h) hok' hbefore
          have hok'' := u.ok_after hok'
          rw [outputs_append, hdrawn, List.nil_append, outputs, outputs] at hdraws
          obtain ⟨hnext, hsame, hput'⟩ :=
            u.seen (u.symm hskip) hok hok'' (by simp [he]) (he.trans he'.symm) hdraws.first
          rw [hsame] at hdraws
          obtain ⟨hlast, hdrawnRest, hputRest⟩ :=
            ih hnext (u.later hok) (u.later hok'') hafter.symm hdraws.rest
          rw [outputs_append, outputs_append, hdrawn, hput, List.nil_append, List.nil_append,
            List.foldl_append, outputs, outputs, outputs, outputs, hsame,
            hput', hdrawnRest, hputRest]
          exact ⟨hlast, rfl, rfl⟩

end Unwinds

end CausalTrace
