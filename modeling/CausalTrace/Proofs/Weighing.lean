import CausalTrace.Proofs.Narrowing
import Mathlib.Algebra.BigOperators.Pi
import Mathlib.Algebra.BigOperators.Ring.List
import Mathlib.Algebra.Order.BigOperators.Group.List
import Mathlib.Algebra.Order.Ring.Nat

/-!
# Weighing

A list of weighted elements counts each element as often as its weights add up to. Two
such lists are balanced when their elements first come up in the same order and add up to
the same weights. What is made of the elements one by one then is balanced as well, and so
are the meetings of balanced lists of bindings: where bindings meet, their weights multiply.
-/

namespace CausalTrace

/-! ## First mentions -/

section

variable {ν μ : Type} [DecidableEq ν] [DecidableEq μ] {us us' vs vs' : List ν} {f g : ν → List μ}

theorem firstMentions_append_of_subset (h : ∀ v ∈ vs, v ∈ us) :
    firstMentions (us ++ vs) = firstMentions us := by
  induction vs using List.reverseRecOn with
  | nil => rw [List.append_nil]
  | append_singleton vs v ih =>
      have hv : v ∈ us ++ vs :=
        List.mem_append_left _ (h v List.mem_concat_self)
      rw [← List.append_assoc, firstMentions_append_of_mem hv]
      exact ih fun u hu => h u (List.mem_append_left _ hu)

theorem firstMentions_append_left :
    firstMentions (firstMentions us ++ vs) = firstMentions (us ++ vs) := by
  induction vs using List.reverseRecOn with
  | nil =>
      have hself : firstMentions ([] ++ firstMentions us) = firstMentions ([] ++ us) :=
        firstMentions_append_firstMentions
      rw [List.append_nil, List.append_nil]
      exact hself
  | append_singleton vs v ih =>
      have hmem : v ∈ firstMentions us ++ vs ↔ v ∈ us ++ vs := by
        rw [List.mem_append, List.mem_append, mem_firstMentions]
      rw [← List.append_assoc, ← List.append_assoc]
      by_cases h : v ∈ us ++ vs
      · rw [firstMentions_append_of_mem h, firstMentions_append_of_mem (hmem.mpr h), ih]
      · rw [firstMentions_append_of_not_mem h, firstMentions_append_of_not_mem (mt hmem.mp h), ih]

theorem firstMentions_append_congr (hu : firstMentions us = firstMentions us')
    (hv : firstMentions vs = firstMentions vs') :
    firstMentions (us ++ vs) = firstMentions (us' ++ vs') := by
  rw [← firstMentions_append_left, ← firstMentions_append_firstMentions, hu, hv,
    firstMentions_append_firstMentions, firstMentions_append_left]

/-- What comes up first among the pieces comes up first among those of the first mentions. -/
theorem firstMentions_flatMap :
    firstMentions ((firstMentions vs).flatMap f) = firstMentions (vs.flatMap f) := by
  induction vs using List.reverseRecOn with
  | nil => rfl
  | append_singleton vs v ih =>
      rw [List.flatMap_append, List.flatMap_singleton]
      by_cases h : v ∈ vs
      · rw [firstMentions_append_of_mem h, ih]
        exact (firstMentions_append_of_subset fun u hu => List.mem_flatMap.mpr ⟨v, h, hu⟩).symm
      · rw [firstMentions_append_of_not_mem h, List.flatMap_append, List.flatMap_singleton]
        exact firstMentions_append_congr ih rfl

omit [DecidableEq ν] in
theorem firstMentions_flatMap_congr (h : ∀ v ∈ vs, firstMentions (f v) = firstMentions (g v)) :
    firstMentions (vs.flatMap f) = firstMentions (vs.flatMap g) := by
  induction vs with
  | nil => rfl
  | cons v vs ih =>
      obtain ⟨hv, hvs⟩ := List.forall_mem_cons.mp h
      rw [List.flatMap_cons, List.flatMap_cons]
      exact firstMentions_append_congr hv (ih hvs)

end

namespace Weighing

variable {α β γ R : Type} [CommSemiring R]

/-! ## Weighted lists -/

/-- What the weights of one element add up to. -/
def weight [DecidableEq α] (x : α) (ps : List (α × R)) : R := ((ps.filter (·.1 = x)).map (·.2)).sum

/-- Every element is replaced by weighted elements. -/
def spread (ps : List (α × R)) (f : α → List (β × R)) : List (β × R) :=
  ps.flatMap fun p => (f p.1).map fun q => (q.1, p.2 * q.2)

/-- The elements come up in the same order and weigh the same. -/
structure Balanced [DecidableEq α] (ps qs : List (α × R)) : Prop where
  order : firstMentions (ps.map (·.1)) = firstMentions (qs.map (·.1))
  weight : ∀ x, weight x ps = weight x qs

/-- Every element once, with all of its weight. -/
def collected [DecidableEq α] (ps : List (α × R)) : List (α × R) :=
  (firstMentions (ps.map (·.1))).map fun x => (x, weight x ps)

section

variable [DecidableEq α] {x : α} {p : α × R} {ps ps' qs qs' : List (α × R)}

theorem weight_nil : weight x ([] : List (α × R)) = 0 := rfl

theorem weight_cons : weight x (p :: ps) = (if p.1 = x then p.2 else 0) + weight x ps := by
  rw [weight, List.filter_cons]
  by_cases h : p.1 = x
  · rw [if_pos (decide_eq_true h), if_pos h, List.map_cons, List.sum_cons]
    rfl
  · rw [if_neg (by simpa using h), if_neg h, zero_add]
    rfl

theorem weight_append : weight x (ps ++ qs) = weight x ps + weight x qs := by
  rw [weight, List.filter_append, List.map_append, List.sum_append]
  rfl

theorem weight_eq_zero (h : x ∉ ps.map (·.1)) : weight x ps = 0 := by
  have hnone : ps.filter (·.1 = x) = [] := List.filter_eq_nil_iff.mpr fun p hp he =>
    h (List.mem_map.mpr ⟨p, hp, of_decide_eq_true he⟩)
  rw [weight, hnone]
  rfl

namespace Balanced

theorem refl (ps : List (α × R)) : Balanced ps ps := ⟨rfl, fun _ => rfl⟩

theorem of_eq (h : ps = qs) : Balanced ps qs := h ▸ refl ps

theorem symm (h : Balanced ps qs) : Balanced qs ps := ⟨h.order.symm, fun x => (h.weight x).symm⟩

theorem trans (h : Balanced ps qs) (h' : Balanced qs qs') : Balanced ps qs' :=
  ⟨h.order.trans h'.order, fun x => (h.weight x).trans (h'.weight x)⟩

theorem append (h : Balanced ps ps') (h' : Balanced qs qs') : Balanced (ps ++ qs) (ps' ++ qs') where
  order := by
    rw [List.map_append, List.map_append]
    exact firstMentions_append_congr h.order h'.order
  weight x := by rw [weight_append, weight_append, h.weight, h'.weight]

/-- A list that is collected is determined by its balance. -/
theorem collected (h : Balanced ps qs) : collected ps = collected qs := by
  rw [Weighing.collected, Weighing.collected, h.order]
  exact List.map_congr_left fun x _ => by rw [h.weight]

end Balanced

theorem mem_collected {w : R} (h : (x, w) ∈ collected ps) : x ∈ ps.map (·.1) ∧ w = weight x ps := by
  obtain ⟨y, hy, he⟩ := List.mem_map.mp h
  cases he
  exact ⟨mem_firstMentions.mp hy, rfl⟩

/-- The weights of the elements with some factor are those of the collected elements. -/
theorem sum_weight (ps : List (α × R)) (h : α → R) :
    (ps.map fun p => p.2 * h p.1).sum = ((collected ps).map fun p => p.2 * h p.1).sum := by
  rw [collected, List.map_map]
  induction ps using List.reverseRecOn with
  | nil => rfl
  | append_singleton ps p ih =>
      have hself : weight p.1 [p] = p.2 := by
        rw [weight_cons, if_pos rfl, weight_nil, add_zero]
      have hother : ∀ x, p.1 ≠ x → weight x [p] = 0 := fun x hx => by
        rw [weight_cons, if_neg hx, weight_nil, add_zero]
      simp only [Function.comp_def] at ih ⊢
      rw [List.map_append, List.sum_append, ih, List.map_append, List.map_singleton,
        List.map_singleton, List.sum_singleton]
      by_cases hp : p.1 ∈ ps.map (·.1)
      · rw [firstMentions_append_of_mem hp]
        -- The element stands among the first mentions once, and there its weight grows.
        obtain ⟨before, after, hsplit⟩ := List.append_of_mem (mem_firstMentions.mpr hp)
        have hn : (before ++ p.1 :: after).Nodup := hsplit ▸ nodup_firstMentions
        rw [List.nodup_middle, List.nodup_cons, List.mem_append, not_or] at hn
        obtain ⟨⟨hbefore, hafter⟩, _⟩ := hn
        have hkeep : ∀ xs : List α, p.1 ∉ xs →
            xs.map (fun x => weight x (ps ++ [p]) * h x) = xs.map fun x => weight x ps * h x :=
          fun xs hxs => List.map_congr_left fun x hx => by
            rw [weight_append, hother x fun he => hxs (he ▸ hx), add_zero]
        rw [hsplit, List.map_append, List.map_append, List.map_cons, List.map_cons,
          hkeep before hbefore, hkeep after hafter, weight_append, hself, List.sum_append,
          List.sum_append, List.sum_cons, List.sum_cons, add_mul]
        abel
      · rw [firstMentions_append_of_not_mem hp, List.map_append, List.sum_append,
          List.map_singleton, List.sum_singleton, weight_append, weight_eq_zero hp, zero_add, hself]
        congr 2
        refine List.map_congr_left fun x hx => ?_
        rw [weight_append, hother x fun he => hp (he ▸ mem_firstMentions.mp hx), add_zero]

end

/-! ## Spreading -/

section

variable {ps qs : List (α × R)} {f g : α → List (β × R)}

theorem map_fst_spread :
    (spread ps f).map (·.1) = (ps.map (·.1)).flatMap fun x => (f x).map (·.1) := by
  rw [spread, List.map_flatMap, List.flatMap_map]
  refine List.flatMap_congr fun p _ => ?_
  rw [List.map_map]
  rfl

variable [DecidableEq β] {y : β}

theorem weight_map_mul (w : R) (qs : List (β × R)) :
    weight y (qs.map fun q => (q.1, w * q.2)) = w * weight y qs := by
  induction qs with
  | nil => exact (mul_zero w).symm
  | cons q qs ih => rw [List.map_cons, weight_cons, weight_cons, ih, mul_add, mul_ite, mul_zero]

theorem weight_spread (f : α → List (β × R)) :
    weight y (spread ps f) = (ps.map fun p => p.2 * weight y (f p.1)).sum := by
  induction ps with
  | nil => rfl
  | cons p ps ih =>
      rw [List.map_cons, List.sum_cons, ← ih, ← weight_map_mul, ← weight_append]
      rfl

theorem Balanced.spread_congr (h : ∀ p ∈ ps, Balanced (f p.1) (g p.1)) :
    Balanced (spread ps f) (spread ps g) where
  order := by
    rw [map_fst_spread, map_fst_spread]
    refine firstMentions_flatMap_congr fun x hx => ?_
    obtain ⟨p, hp, rfl⟩ := List.mem_map.mp hx
    exact (h p hp).order
  weight y := by
    rw [weight_spread, weight_spread]
    exact congrArg List.sum (List.map_congr_left fun p hp => by rw [(h p hp).weight])

/-- What is made of balanced lists, element by element, is balanced. -/
theorem Balanced.spread [DecidableEq α] (h : Balanced ps qs) (f : α → List (β × R)) :
    Balanced (spread ps f) (spread qs f) where
  order := by
    rw [map_fst_spread, map_fst_spread, ← firstMentions_flatMap, h.order, firstMentions_flatMap]
  weight y := by
    rw [weight_spread, weight_spread, sum_weight ps fun x => Weighing.weight y (f x),
      sum_weight qs fun x => Weighing.weight y (f x), h.collected]

/-- To collect the elements of a list leaves it balanced. -/
theorem balanced_collected [DecidableEq α] (ps : List (α × R)) : Balanced (collected ps) ps := by
  have hfst : (collected ps).map (·.1) = firstMentions (ps.map (·.1)) := by
    rw [collected, List.map_map]
    exact List.map_id _
  refine ⟨?_, fun x => ?_⟩
  · have hself :
        firstMentions ([] ++ firstMentions (ps.map (·.1))) = firstMentions ([] ++ ps.map (·.1)) :=
      firstMentions_append_firstMentions
    rw [hfst]
    exact hself
  · -- The weight of one element is a sum over all, with the factor one there and zero elsewhere.
    have hsum : ∀ ps : List (α × R),
        weight x ps = (ps.map fun p => p.2 * if p.1 = x then 1 else 0).sum := by
      intro ps
      induction ps with
      | nil => rfl
      | cons p ps ih =>
          rw [weight_cons, ih, List.map_cons, List.sum_cons, mul_ite, mul_one, mul_zero]
    rw [hsum, hsum ps, sum_weight ps fun y => if y = x then 1 else 0]

end

/-! ## Meetings -/

section

variable {P : VarId → Prop} {ps qs : List (Binding × R)} {pss qss : List (List (Binding × R))}
  {f : Binding → β}

/-- What is made of a binding does not depend on some variables. -/
def Blind (P : VarId → Prop) (f : Binding → β) : Prop :=
  ∀ ⦃env env' : Binding⦄, Binding.AgreeOff P env env' → f env = f env'

/-- All that is made of the bindings is balanced, as long as it does not depend on some
variables. -/
def BalancedOff (P : VarId → Prop) (ps qs : List (Binding × R)) : Prop :=
  ∀ f : Binding → List (Row × R), Blind P f → Balanced (spread ps f) (spread qs f)

/-- All ways to take one binding of each list, as `meetings` has them. -/
def meet : List (List (Binding × R)) → List (Binding × R)
  | [] => [(.empty, 1)]
  | ps :: others => (meet others).flatMap fun right =>
      ps.map fun left => (left.1.beside right.1, right.2 * left.2)

theorem spread_meet_cons (f : Binding → List (Row × R)) : spread (meet (ps :: pss)) f =
    spread (meet pss) fun right => spread ps fun left => f (left.beside right) := by
  rw [meet, spread, spread, List.flatMap_assoc]
  refine List.flatMap_congr fun right _ => ?_
  rw [List.flatMap_map, spread, List.map_flatMap]
  refine List.flatMap_congr fun left _ => ?_
  rw [List.map_map]
  refine List.map_congr_left fun q _ => ?_
  simp only [Function.comp_apply, mul_assoc]

omit [CommSemiring R] in
theorem Blind.beside_left (h : Blind P f) (right : Binding) :
    Blind P fun left => f (left.beside right) :=
  fun _ _ he => h (he.beside fun _ _ => rfl)

omit [CommSemiring R] in
theorem Blind.beside_right (h : Blind P f) (left : Binding) :
    Blind P fun right => f (left.beside right) :=
  fun _ _ he => h (Binding.AgreeOff.beside (fun _ _ => rfl) he)

namespace BalancedOff

theorem refl (ps : List (Binding × R)) : BalancedOff P ps ps := fun _ _ => .refl _

/-- Bindings that agree one by one. -/
theorem of_forall₂ (h : List.Forall₂ (fun p q => Binding.AgreeOff P p.1 q.1 ∧ p.2 = q.2) ps qs) :
    BalancedOff P ps qs := by
  intro f hf
  refine .of_eq ?_
  induction h with
  | nil => rfl
  | @cons p q ps qs hpq _ ih =>
      show (f p.1).map (fun r => (r.1, p.2 * r.2)) ++ spread ps f =
        (f q.1).map (fun r => (r.1, q.2 * r.2)) ++ spread qs f
      rw [ih, hf hpq.1, hpq.2]

/-- Where balanced lists meet, the meetings are balanced. -/
theorem meet (h : List.Forall₂ (BalancedOff P) pss qss) :
    BalancedOff P (Weighing.meet pss) (Weighing.meet qss) := by
  induction h with
  | nil => exact refl _
  | @cons ps qs pss qss hps _ ih =>
      intro f hf
      rw [spread_meet_cons, spread_meet_cons]
      have hfirst : Balanced
          (spread (Weighing.meet pss) fun right => spread ps fun left => f (left.beside right))
          (spread (Weighing.meet pss) fun right => spread qs fun left => f (left.beside right)) :=
        .spread_congr fun right _ => hps _ (hf.beside_left right.1)
      refine hfirst.trans (ih _ fun right right' he => ?_)
      rw [spread, spread]
      refine List.flatMap_congr fun left _ => ?_
      have hright : f (left.1.beside right) = f (left.1.beside right') := hf.beside_right left.1 he
      rw [hright]

end BalancedOff

end

/-! ## Numbers as weights -/

section

variable {α β γ : Type} [DecidableEq α] [DecidableEq γ] {m : ℕ} {x : α} {y : γ}
  {w : Fin m → ℕ} {i : Fin m}
  {ps qs : List (α × (Fin m → ℕ))}

theorem le_weight (h : (x, w) ∈ ps) (i : Fin m) : w i ≤ weight x ps i := by
  rw [weight, Pi.list_sum_apply, List.map_map]
  refine List.single_le_sum (fun _ _ => Nat.zero_le _) _ ?_
  exact List.mem_map_of_mem (f := fun p : α × (Fin m → ℕ) => p.2 i)
    (List.mem_filter.mpr ⟨h, decide_eq_true rfl⟩)

theorem weight_mono (h : ps.Sublist qs) (i : Fin m) : weight x ps i ≤ weight x qs i := by
  rw [weight, weight, Pi.list_sum_apply, Pi.list_sum_apply]
  exact (((h.filter _).map _).map _).sum_le_sum fun _ _ => Nat.zero_le _

/-- Elements that are told apart by less weigh more. -/
theorem weight_map_le {es : List β} {f : β → α} {g : β → γ} {w : β → Fin m → ℕ}
    (h : ∀ e ∈ es, f e = x → g e = y) (i : Fin m) :
    weight x (es.map fun e => (f e, w e)) i ≤ weight y (es.map fun e => (g e, w e)) i := by
  induction es with
  | nil => exact Nat.le_refl _
  | cons e es ih =>
      obtain ⟨he, hes⟩ := List.forall_mem_cons.mp h
      rw [List.map_cons, List.map_cons, weight_cons, weight_cons]
      refine Nat.add_le_add ?_ (ih hes)
      by_cases hx : f e = x
      · rw [if_pos hx, if_pos (he hx)]
      · rw [if_neg hx]
        exact Nat.zero_le _

theorem weight_pos (h : x ∈ ps.map (·.1)) (hpos : ∀ p ∈ ps, 0 < p.2 i) : 0 < weight x ps i := by
  obtain ⟨p, hp, rfl⟩ := List.mem_map.mp h
  exact (hpos p hp).trans_le (le_weight hp i)

end

end Weighing

end CausalTrace
