import CausalTrace.Proofs.Compilable
import CausalTrace.Proofs.Optimizing
import Mathlib.Data.List.Pairwise

/-!
# Where variables come from

A query that was built compiles, and every variable that a stage reads has one source
there: the stage observes it, computes it, or exactly one of the joined queries delivers it.
-/

namespace CausalTrace

/-- What a closed stage reads or delivers is bound there, its own aggregates apart. -/
theorem Stage.Closed.needs {a : Arena} {s : Stage} {bound : List VarId} (h : s.Closed a bound) :
    ∀ v ∈ s.needs a, v ∉ s.shape.defines → v ∈ bound := by
  intro v hv hown
  simp only [Stage.needs, List.mem_append, List.mem_flatMap] at hv
  rcases hv with ((ho | ⟨l, hl, hr⟩) | ⟨w, hw, ha⟩) | hr
  · exact (h.outputs v ho).resolve_right hown
  · exact h.lets l.2 (List.mem_map_of_mem hl) v hr
  · exact h.wheres w hw v ha
  · exact h.shape v hr

namespace Query

variable {a : Arena} {q : Query} {pack : Bool} {v : VarId}

/-- The stage of a query has the variable as an observed value, as a let, or from exactly
one of the queries it joins. -/
def HasSource (q : Query) (v : VarId) : Prop :=
  v ∈ q.stage.observed.values ∨ v ∈ q.stage.lets.map (·.2) ∨
    ∃! j, j ∈ q.joins ∧ v ∈ j.2.stage.unpackedBag.names

/-- Different joined queries define different variables. -/
theorem eq_of_joined_defines {s : Stage} {js : List (String × Query)} {j k : String × Query}
    (hd : (node s js).defines.Nodup) (hj : j ∈ js) (hk : k ∈ js) (hvj : v ∈ j.2.defines)
    (hvk : v ∈ k.2.defines) : j = k := by
  rw [defines, joinsDefine_eq] at hd
  have hapart := (List.nodup_flatMap.mp (List.nodup_append.mp hd).2.1).2
  have : Std.Symm (Function.onFun List.Disjoint fun j : String × Query => j.2.defines) :=
    ⟨fun _ _ h _ hk hj => h hj hk⟩
  by_contra hne
  exact hapart.forall hj hk hne hvj hvk

/-- A variable that is bound at a stage has one source there: every variable is defined
once, and a joined query delivers only what it defines. -/
theorem hasSource_of_bound (hd : q.defines.Nodup) (hs : q.Scoped a pack) (hv : v ∈ q.bound) :
    q.HasSource v := by
  obtain ⟨_, hjoined⟩ := hs
  rcases List.mem_append.mp hv with hi | hl
  · rcases List.mem_append.mp hi with ho | hj
    · exact Or.inl ho
    · obtain ⟨j, hj, hn⟩ := List.mem_flatMap.mp hj
      refine Or.inr (Or.inr ⟨j, ⟨hj, hn⟩, ?_⟩)
      rintro k ⟨hk, hnk⟩
      exact eq_of_joined_defines hd hk hj (delivered_defined (hjoined k hk) v hnk)
        (delivered_defined (hjoined j hj) v hn)
  · exact Or.inr (Or.inl hl)

/-- Every variable that a stage anywhere in a closed query reads has one source. -/
theorem Closed.hasSource (hq : q.Closed a) (hw : WellFormed a q) (hs : q.Scoped a pack) :
    ∀ p ∈ q.parts, ∀ v ∈ p.stage.needs a, v ∉ p.stage.shape.defines → p.HasSource v := by
  induction q generalizing pack with
  | node s js ih =>
      intro p hp v hv hown
      rcases mem_parts_node.mp hp with rfl | ⟨j, hj, hp⟩
      · obtain ⟨hclosed, _⟩ := hq
        exact hasSource_of_bound hw.distinct hs (hclosed.needs v hv hown)
      · obtain ⟨_, hjoined⟩ := hq
        obtain ⟨_, hscoped⟩ := hs
        exact ih j hj (hjoined j hj) (hw.joined hj) (hscoped j hj) p hp v hv hown

/-- Every query that was built compiles: its first stage does not keep a single row, and each
variable that any stage reads in a let, a condition, its shape or its outputs has one source
at that stage, unless it is an aggregate that the stage makes itself. -/
theorem compile_of_built (hq : q.Built a) :
    (∀ id, ∃ c, q.compile a id = .ok c) ∧ (∀ keep, q.stage.shape ≠ .filter keep) ∧
      ∀ p ∈ q.parts, ∀ v ∈ p.stage.needs a, v ∉ p.stage.shape.defines → p.HasSource v := by
  refine ⟨fun id => (compile_isOk_iff hq.wellFormed.ordered).mpr hq.scoped, fun keep hs => ?_,
    hq.closed.hasSource hq.wellFormed hq.scoped⟩
  have hrooted := hq.rooted
  rw [Rooted, hs] at hrooted
  exact hrooted

open Query.Sample

/-- Where the operand of the totals comes from. -/
theorem compile_of_built_totals :
    (∀ id, ∃ c, totals.compile totalsArena id = .ok c) ∧ totals.HasSource ⟨1⟩ := by
  obtain ⟨hcompiles, _, hsource⟩ := compile_of_built built_totals
  exact ⟨hcompiles, hsource totals (self_mem_parts totals) ⟨1⟩ (by decide) (by decide)⟩

end Query

end CausalTrace
