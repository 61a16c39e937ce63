import CausalTrace.Proofs.Compilable
import Mathlib.Data.List.Pairwise

/-!
# Copies

Copying a query always succeeds. Every variable of the copy is new to the arena, is defined
as the one it stands for over the variables of the copy, and has the same place among them
in order.
-/

namespace CausalTrace

namespace Query

variable {a a' b : Arena} {q q' : Query} {v w : VarId} {vs ws : List VarId}
  {renamed renamed' : List (VarId × VarId)}

/-! ## Copying succeeds -/

theorem yields_renew (renamed : List (VarId × VarId)) (v : VarId) (a : Arena) :
    ∃ renamed' b, (renew renamed v).Yields a renamed' b := by
  cases hd : a.definition? v with
  | none =>
      refine ⟨renamed, a, Build.yields_bind.mpr ⟨a, a, rfl, ?_⟩⟩
      rw [hd]
      exact Build.yields_pure.mpr ⟨rfl, rfl⟩
  | some d =>
      refine ⟨renamed ++ [(v, ⟨a.defs.length⟩)], ⟨a.defs ++ [d.mapVars (renamedBy renamed)]⟩,
        Build.yields_bind.mpr ⟨a, a, rfl, ?_⟩⟩
      rw [hd]
      exact Build.yields_bind.mpr ⟨_, _, Build.yields_define.mpr ⟨rfl, rfl⟩,
        Build.yields_pure.mpr ⟨rfl, rfl⟩⟩

theorem yields_foldlM_renew (vs : List VarId) (renamed : List (VarId × VarId)) (a : Arena) :
    ∃ renamed' b, (vs.foldlM renew renamed).Yields a renamed' b := by
  induction vs generalizing renamed a with
  | nil => exact ⟨renamed, a, Build.yields_pure.mpr ⟨rfl, rfl⟩⟩
  | cons v vs ih =>
      obtain ⟨next, b, hv⟩ := yields_renew renamed v a
      obtain ⟨last, c, hvs⟩ := ih next b
      exact ⟨last, c, Build.yields_bind.mpr ⟨next, b, hv, hvs⟩⟩

theorem yields_instantiate (q : Query) (a : Arena) : ∃ q' b, q.instantiate.Yields a q' b := by
  obtain ⟨renamed, b, hr⟩ := yields_foldlM_renew (Ascending.ofList q.defines) [] a
  exact ⟨_, b, Build.yields_bind.mpr ⟨renamed, b, hr, Build.yields_pure.mpr ⟨rfl, rfl⟩⟩⟩

/-! ## Copies in order -/

/-- Later sources have later copies. -/
abbrev Climbs (p p' : VarId × VarId) : Prop := p.1.index < p'.1.index ∧ p.2.index < p'.2.index

/-- A renaming in which each source and each copy comes after the ones before. -/
structure Climbing (b : Arena) (renamed : List (VarId × VarId)) : Prop where
  climbs : renamed.Pairwise Climbs
  known : ∀ p ∈ renamed, b.Knows p.2

theorem Climbing.step (h : Climbing b renamed) (hless : ∀ p ∈ renamed, p.1.index < v.index)
    (hr : (renew renamed v).Yields b renamed' a') :
    Climbing a' renamed' ∧ ∀ p ∈ renamed', p ∈ renamed ∨ p.1 = v := by
  obtain ⟨_, _, hg, hr⟩ := Build.yields_bind.mp hr
  obtain ⟨rfl, rfl⟩ := Build.yields_get.mp hg
  split at hr
  · obtain ⟨w, c, hw, hr⟩ := Build.yields_bind.mp hr
    obtain ⟨rfl, rfl⟩ := Build.yields_define.mp hw
    obtain ⟨rfl, rfl⟩ := Build.yields_pure.mp hr
    refine ⟨⟨List.pairwise_append.mpr ⟨h.climbs, List.pairwise_singleton _ _, ?_⟩, ?_⟩, ?_⟩
    · intro p hp p' hp'
      rw [List.mem_singleton.mp hp']
      exact ⟨hless p hp, h.known p hp⟩
    · intro p hp
      rw [Arena.Knows, List.length_append]
      rcases List.mem_append.mp hp with hp | hp
      · exact Nat.lt_add_right 1 (h.known p hp)
      · rw [List.mem_singleton.mp hp]
        exact Nat.lt_succ_self _
    · exact fun p hp => (List.mem_append.mp hp).imp_right fun hp => by rw [List.mem_singleton.mp hp]
  · obtain ⟨rfl, rfl⟩ := Build.yields_pure.mp hr
    exact ⟨h, fun p hp => Or.inl hp⟩

/-- Copies that are made in the order of their sources have that order. -/
theorem Climbing.run (h : Climbing b renamed)
    (hless : ∀ p ∈ renamed, ∀ w ∈ ws, p.1.index < w.index)
    (hsorted : ws.Pairwise fun u w => u.index < w.index)
    (hr : (ws.foldlM renew renamed).Yields b renamed' a') : Climbing a' renamed' := by
  induction ws generalizing b renamed with
  | nil =>
      obtain ⟨rfl, rfl⟩ := Build.yields_pure.mp hr
      exact h
  | cons v ws ih =>
      rw [List.foldlM_cons] at hr
      obtain ⟨next, c, hs, hr⟩ := Build.yields_bind.mp hr
      obtain ⟨hv, hws⟩ := List.pairwise_cons.mp hsorted
      obtain ⟨hstep, hnext⟩ := h.step (fun p hp => hless p hp v List.mem_cons_self) hs
      -- What has just been copied is a source before the ones that are left.
      refine ih hstep (fun p hp w hw => ?_) hws hr
      rcases hnext p hp with hp | hp
      · exact hless p hp w (List.mem_cons_of_mem v hw)
      · rw [hp]
        exact hv w hw

theorem Climbing.lt (h : Climbing b renamed) {p p' : VarId × VarId} (hp : p ∈ renamed)
    (hp' : p' ∈ renamed) (hlt : p.1.index < p'.1.index) : p.2.index < p'.2.index := by
  have hne : p ≠ p' := fun he => Nat.lt_irrefl _ (he ▸ hlt)
  have hall : renamed.Pairwise fun p p' => Climbs p p' ∨ Climbs p' p :=
    h.climbs.imp fun hc => Or.inl hc
  have : Std.Symm fun p p' : VarId × VarId => Climbs p p' ∨ Climbs p' p := ⟨fun _ _ => Or.symm⟩
  rcases hall.forall hp hp' hne with hc | hc
  · exact hc.2
  · exact absurd hc.1 (Nat.lt_asymm hlt)

/-! ## What a copy is -/

/-- The variables of a query are renamed to new ones, which keep their order and are defined
as the old ones are. -/
structure Copy (a b : Arena) (q : Query) (f : VarId → VarId) : Prop where
  arena : a.defs <+: b.defs
  ordered : b.Ordered
  fresh : ∀ v ∈ q.defines, ¬ a.Knows (f v) ∧ b.Knows (f v)
  climbs : ∀ u ∈ q.defines, ∀ v ∈ q.defines, u.index < v.index → (f u).index < (f v).index
  copies : ∀ v ∈ q.defines, ∃ d, a.definition? v = some d ∧ b.definition? (f v) = some (d.mapVars f)

theorem exists_copy (ho : a.Ordered) (hk : ∀ v ∈ q.defines, a.Knows v)
    (h : q.instantiate.Yields a q' b) : ∃ f, Copy a b q f ∧ q' = q.mapVars f := by
  obtain ⟨renamed, c, hr, h⟩ := Build.yields_bind.mp h
  obtain ⟨rfl, rfl⟩ := Build.yields_pure.mp h
  have hknown : ∀ v ∈ Ascending.ofList q.defines, a.Knows v := fun v hv =>
    hk v (Ascending.mem_ofList.mp hv)
  have hsorted : (Ascending.ofList q.defines).Pairwise fun u v => u.index < v.index :=
    (Ascending.sorted_ofList q.defines).imp fun hlt => varId_lt_iff.mp hlt
  have hrenewed : Renewed a a [] [] :=
    ⟨ho, Nat.le_refl _, rfl, List.forall_mem_nil _, List.nodup_nil⟩
  have hcopied : Copied a a [] := ⟨List.prefix_refl _, List.forall_mem_nil _⟩
  have hclimbing : Climbing a [] := ⟨List.Pairwise.nil, List.forall_mem_nil _⟩
  -- Each invariant of the renaming goes through the sources in ascending order.
  have hnew := hrenewed.run hknown hr
  obtain ⟨hcopies, _⟩ := hcopied.run ho hknown hsorted hr
  have hclimbs := hclimbing.run (List.forall_mem_nil _) hsorted hr
  have hmem : ∀ v ∈ q.defines, (v, renamedBy renamed v) ∈ renamed := by
    intro v hv
    refine mem_renamedBy ?_
    rw [hnew.sources]
    exact Ascending.mem_ofList.mpr hv
  refine ⟨renamedBy renamed, ⟨hcopies.arena, hnew.ordered, fun v hv => ?_, fun u hu v hv hlt => ?_,
    fun v hv => hcopies.copies _ (hmem v hv)⟩, rfl⟩
  · exact hnew.fresh _ (List.mem_map_of_mem (f := (·.2)) (hmem v hv))
  · exact hclimbs.lt (hmem u hu) (hmem v hv) hlt

end Query

end CausalTrace
