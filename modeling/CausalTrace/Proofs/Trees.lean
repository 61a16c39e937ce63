import CausalTrace.Proofs.Interpreter

/-!
# Trees of stages

Induction over a query, its stages one by one, and the functions on joined queries
as functions on lists.
-/

namespace CausalTrace.Query

/-! ## Induction -/

mutual

theorem inductTree {P : Query → Prop}
    (node : ∀ s js, (∀ j ∈ js, P j.2) → P (.node s js)) : ∀ q, P q
  | .node s js => node s js (inductJoins node js)

theorem inductJoins {P : Query → Prop}
    (node : ∀ s js, (∀ j ∈ js, P j.2) → P (.node s js)) :
    ∀ js : List (String × Query), ∀ j ∈ js, P j.2
  | [], _, h => nomatch h
  | (_, q) :: js, j, h => by
      rcases List.mem_cons.mp h with rfl | h
      · exact inductTree node q
      · exact inductJoins node js j h

end

/-- A property of all queries, by way of the joined ones. -/
@[elab_as_elim, induction_eliminator]
theorem induct {P : Query → Prop} (node : ∀ s js, (∀ j ∈ js, P j.2) → P (.node s js))
    (q : Query) : P q :=
  inductTree node q

@[simp]
theorem stage_node (s : Stage) (js : List (String × Query)) : (node s js).stage = s := rfl

@[simp]
theorem joins_node (s : Stage) (js : List (String × Query)) : (node s js).joins = js := rfl

@[simp]
theorem stage_withStage (f : Stage → Stage) (q : Query) :
    (q.withStage f).stage = f q.stage := by
  cases q; rfl

@[simp]
theorem joins_withStage (f : Stage → Stage) (q : Query) : (q.withStage f).joins = q.joins := by
  cases q; rfl

theorem node_stage_joins (q : Query) : node q.stage q.joins = q := by
  cases q; rfl

/-! ## Parts -/

mutual

/-- The query and all queries joined anywhere below it. -/
def parts : Query → List Query
  | .node s js => .node s js :: joinsParts js

def joinsParts : List (String × Query) → List Query
  | [] => []
  | (_, q) :: js => q.parts ++ joinsParts js

end

theorem joinsParts_eq (js : List (String × Query)) :
    joinsParts js = js.flatMap fun j => j.2.parts := by
  induction js with
  | nil => rfl
  | cons j js ih => rw [joinsParts, ih, List.flatMap_cons]

theorem joinsDefine_eq (js : List (String × Query)) :
    joinsDefine js = js.flatMap fun j => j.2.defines := by
  induction js with
  | nil => rfl
  | cons j js ih => rw [joinsDefine, ih, List.flatMap_cons]

theorem joinsDeliver_eq (a : Arena) (js : List (String × Query)) (passes : List Pass) :
    joinsDeliver a js passes = js.map fun j => j.2.stage.delivered (j.2.arrivals a passes) := by
  induction js with
  | nil => rfl
  | cons j js ih => rw [joinsDeliver, ih, List.map_cons]

theorem arrivals_cons {a : Arena} {p : Pass} {passes : List Pass} (s : Stage)
    (js : List (String × Query)) :
    arrivals a (node s js) (p :: passes) = arrivals a (node s js) passes ++
      s.arrivalsIn a (joinsDeliver a js (p :: passes)) p := by
  rw [arrivals, Stage.arrivals]

theorem self_mem_parts (q : Query) : q ∈ q.parts := by
  cases q
  rw [parts]
  exact List.mem_cons_self

theorem mem_parts_node {s : Stage} {js : List (String × Query)} {p : Query} :
    p ∈ (node s js).parts ↔ p = node s js ∨ ∃ j ∈ js, p ∈ j.2.parts := by
  rw [parts, List.mem_cons, joinsParts_eq, List.mem_flatMap]

/-- The parts of a part are parts. -/
theorem parts_subset {p q : Query} (hp : p ∈ q.parts) : p.parts ⊆ q.parts := by
  induction q with
  | node s js ih =>
      rcases mem_parts_node.mp hp with rfl | ⟨j, hj, hp⟩
      · exact List.Subset.refl _
      · exact fun r hr => mem_parts_node.mpr (Or.inr ⟨j, hj, ih j hj hp hr⟩)

theorem mem_defines_node {s : Stage} {js : List (String × Query)} {v : VarId} :
    v ∈ (node s js).defines ↔ v ∈ s.defines ∨ ∃ j ∈ js, v ∈ j.2.defines := by
  rw [defines, List.mem_append, joinsDefine_eq, List.mem_flatMap]

/-- What a joined query defines, the whole query defines. -/
theorem defines_of_joined {s : Stage} {js : List (String × Query)} {j : String × Query} {v : VarId}
    (hj : j ∈ js) (hv : v ∈ j.2.defines) : v ∈ (node s js).defines :=
  mem_defines_node.mpr (Or.inr ⟨j, hj, hv⟩)

end CausalTrace.Query
