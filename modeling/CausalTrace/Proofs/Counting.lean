import CausalTrace.Proofs.Products
import CausalTrace.Proofs.Weighing

/-!
# Counting

A stage whose aggregates are counts, or sums of counts that joined stages took, groups
weighted bindings: for every aggregate a binding weighs what it adds. The groups are the
collected bindings, as long as their numbers fit into 64 bits.
-/

namespace CausalTrace

open Weighing

/-! ## Numbers in columns -/

section

variable {m n : ℕ} {xs : List ℕ} {v : VarId} {env env' : Binding}

/-- The number that a value stands for; what is no count stands for none. -/
def Value.tally : Value → ℕ
  | .int n => n.toInt.toNat
  | _ => 0

/-- The number that a binding has for a variable. -/
def Binding.tally (env : Binding) (v : VarId) : ℕ := (env.get v).tally

theorem Value.tally_ofNat (h : n < 2 ^ 63) : (Value.int (.ofNat n)).tally = n := by
  rw [tally, Int64.toInt_ofNat_of_lt h]
  rfl

theorem Binding.tally_of_eq (h : env v = some (.int (.ofNat n))) (hn : n < 2 ^ 63) :
    env.tally v = n := by
  rw [tally, get_of_eq_some h, Value.tally_ofNat hn]

theorem Binding.tally_congr (h : env v = env' v) : env.tally v = env'.tally v := by
  rw [tally, tally, get, get, h]

/-- The first `m` of some numbers. -/
def lanes (m : ℕ) (xs : List ℕ) : Fin m → ℕ := fun i => xs.getD i 0

end

namespace Groups

variable {m : ℕ} {kinds : List Aggregation} {w w' : Fin m → ℕ} {ws : List (Fin m → ℕ)}
  {ps : List (Row × (Fin m → ℕ))} {xs : List ℕ} {keys : List VarId} {gs : List Aggregate}
  {envs : List Binding}

/-- The columns of a group that has counted so far. -/
def columns (w : Fin m → ℕ) : List Int64 := List.ofFn fun i => .ofNat (w i)

theorem length_columns : (columns w).length = m := List.length_ofFn

theorem columns_lanes (h : xs.length = m) : columns (lanes m xs) = xs.map .ofNat := by
  refine List.ext_getElem (by rw [columns, List.length_ofFn, List.length_map, h]) fun i hi hi' => ?_
  rw [List.length_map] at hi'
  simp only [columns, List.getElem_ofFn, List.getElem_map, lanes, List.getD_eq_getElem?_getD,
    List.getElem?_eq_getElem hi', Option.getD_some]

/-- Counts and sums, whose results add up. -/
def Additive (kinds : List Aggregation) : Prop := ∀ kind ∈ kinds, kind = .count ∨ kind = .sum

theorem combineAll_columns (hkinds : Additive kinds) (hm : kinds.length = m) :
    combineAll kinds (columns w) (columns w') = columns (w + w') := by
  induction kinds generalizing m with
  | nil =>
      subst hm
      rfl
  | cons kind kinds ih =>
      subst hm
      obtain ⟨hkind, hkinds⟩ := List.forall_mem_cons.mp hkinds
      have hadd : ∀ x y, kind.combine x y = x + y := by
        rcases hkind with rfl | rfl
        · exact fun _ _ => rfl
        · exact fun _ _ => rfl
      have hrest : combineAll kinds (columns fun i : Fin kinds.length => w i.succ)
          (columns fun i => w' i.succ) = columns ((fun i => w i.succ) + fun i => w' i.succ) :=
            ih hkinds rfl
      simp only [columns, List.ofFn_succ, combineAll] at hrest ⊢
      rw [hadd, hrest, Pi.add_apply, Int64.ofNat_add]
      rfl

theorem total_columns (hkinds : Additive kinds) (hm : kinds.length = m) (h : ws ≠ []) :
    total kinds (ws.map columns) = columns ws.sum := by
  obtain ⟨w, ws, rfl⟩ := List.exists_cons_of_ne_nil h
  rw [List.map_cons, total, List.sum_cons]
  clear h
  induction ws generalizing w with
  | nil => rw [List.map_nil, List.foldl_nil, List.sum_nil, add_zero]
  | cons w' ws ih =>
      rw [List.map_cons, List.foldl_cons, combineAll_columns hkinds hm, ih,
        List.sum_cons, add_assoc]

theorem merge_columns (hkinds : Additive kinds) (hm : kinds.length = m) :
    merge kinds [] (ps.map (Prod.map id columns)) = (collected ps).map (Prod.map id columns) := by
  have hkeys : (ps.map (Prod.map id columns)).map (·.1) = ps.map (·.1) := by
    rw [List.map_map]
    rfl
  rw [merge_nil, hkeys, collected, List.map_map]
  refine List.map_congr_left fun key hkey => ?_
  obtain ⟨p, hp, rfl⟩ := List.mem_map.mp (mem_firstMentions.mp hkey)
  have hsome : (ps.filter (·.1 = p.1)).map (·.2) ≠ [] := by
    rw [Ne, List.map_eq_nil_iff]
    exact List.ne_nil_of_mem (List.mem_filter.mpr ⟨hp, decide_eq_true rfl⟩)
  have hcontributions : contributionsTo p.1 (ps.map (Prod.map id columns)) =
      ((ps.filter (·.1 = p.1)).map (·.2)).map columns := by
    rw [contributionsTo, List.filter_map, List.map_map, List.map_map]
    rfl
  rw [hcontributions, total_columns hkinds hm hsome]
  rfl

/-- Bindings that are counted are grouped by collecting them. -/
theorem groups_columns {w : Binding → Fin m → ℕ} (hkinds : Additive (gs.map (·.how)))
    (hm : gs.length = m) (h : ∀ env ∈ envs, offered? gs env = some (columns (w env))) :
    (ofRows keys.length (gs.map (·.how)) (envs.map (groupingRow keys gs))).groups =
      (collected (envs.map fun env => (env.row keys, w env))).map (Prod.map id columns) := by
  have hparts : (envs.map (groupingRow keys gs)).filterMap
        (part? Aggregation.operand? keys.length (gs.map (·.how))) =
      (envs.map fun env => (env.row keys, w env)).map (Prod.map id columns) := by
    rw [List.filterMap_map, List.map_map]
    induction envs with
    | nil => rfl
    | cons env envs ih =>
        obtain ⟨henv, henvs⟩ := List.forall_mem_cons.mp h
        rw [List.filterMap_cons, Function.comp_apply, part?_groupingRow, henv,
          List.map_cons, ih henvs]
        rfl
  rw [ofRows_eq, hparts]
  exact merge_columns hkinds ((List.length_map _).trans hm)

end Groups

/-! ## What bindings weigh -/

/-- What a binding adds to a count, or to a sum of counts. -/
def Aggregate.weight (env : Binding) (g : Aggregate) : ℕ :=
  match g.input with
  | none => 1
  | some v => env.tally v

/-- An aggregate takes a binding for what it weighs. -/
def Aggregate.Weighs (env : Binding) (g : Aggregate) : Prop :=
  g.how.operand? (g.operandIn env) = some (.ofNat (g.weight env))

namespace Stage

variable {s s' : Stage} {m : ℕ} {keys : List VarId} {gs : List Aggregate} {env : Binding}
  {envs : List Binding}

/-- What a binding adds to every aggregate of a stage. -/
def weights (s : Stage) (m : ℕ) (env : Binding) : Fin m → ℕ :=
  lanes m (s.shape.aggregates.map (·.weight env))

theorem offered?_weights (hs : s.shape = .group keys gs) (hm : gs.length = m)
    (h : ∀ g ∈ gs, g.Weighs env) :
    Groups.offered? gs env = some (Groups.columns (s.weights m env)) := by
  have hoffered : ∀ gs : List Aggregate, (∀ g ∈ gs, g.Weighs env) →
      Groups.offered? gs env = some ((gs.map (·.weight env)).map .ofNat) := by
    intro gs h
    induction gs with
    | nil => rfl
    | cons g gs ih =>
        obtain ⟨hg, hgs⟩ := List.forall_mem_cons.mp h
        rw [Groups.offered?_cons, hg, ih hgs]
        rfl
  rw [hoffered gs h, weights, hs]
  exact congrArg some (Groups.columns_lanes ((List.length_map _).trans hm)).symm

/-- The variables by which a stage groups what it delivers. -/
def grouping (s : Stage) : List VarId := s.packedKeys s.shape.keys s.shape.aggregates

/-- Counted bindings are delivered collected, with the columns of the aggregates that are
delivered. -/
theorem delivered_eq_collected (hs : s.shape = .group keys gs)
    (hkinds : Groups.Additive (gs.map (·.how)))
    (hm : gs.length = m) (h : ∀ env ∈ envs, ∀ g ∈ gs, g.Weighs env) :
    s.delivered envs = (collected (envs.map fun env => (env.row s.grouping, s.weights m env))).map
      fun p =>
      .ofRow (s.grouping ++ (gs.filter fun g => s.outputs.contains g.var).map (·.var))
        (p.1 ++ (picked (fun g => s.outputs.contains g.var) gs (Groups.columns p.2)).map .int) := by
  have hoffered : ∀ env ∈ envs, Groups.offered? gs env = some (Groups.columns (s.weights m env)) :=
    fun env henv => offered?_weights hs hm (h env henv)
  have hgrouping : s.grouping = s.packedKeys keys gs := by
    rw [grouping, hs]
    rfl
  have hgroups : (Groups.ofRows s.grouping.length ((s.packedAggregates gs).map (·.how))
        (envs.map (groupingRow s.grouping (s.packedAggregates gs)))).groups =
      (Groups.ofRows s.grouping.length (gs.map (·.how))
        (envs.map (groupingRow s.grouping gs))).groups.map
        (Prod.map id (picked (fun g => s.outputs.contains g.var) gs)) :=
    Groups.groups_filter fun env henv _ =>
      Groups.isSome_offered?.mp (Option.isSome_of_eq_some (hoffered env henv))
  rw [Groups.groups_columns hkinds hm hoffered] at hgroups
  rw [delivered, hs]
  show (Groups.rows _).map _ = _
  rw [Groups.rows, List.map_map, ← hgrouping]
  refine (congrArg (List.map _) hgroups).trans ?_
  rw [List.map_map, List.map_map]
  rfl

end Stage

end CausalTrace
