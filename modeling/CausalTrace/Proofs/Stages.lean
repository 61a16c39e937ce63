import CausalTrace.Proofs.Plans
import Mathlib.Data.List.Basic

/-!
# Runs of one stage

The bindings that meet at a stage, and the rows that a run of its plan combines,
are the same thing seen twice: the rows are the bindings under the names that come
in. What is left of a run is what the stage admits.
-/

namespace CausalTrace

/-! ## What a binding binds -/

namespace Binding

/-- A binding binds nothing but these variables. -/
def Within (vs : List VarId) (env : Binding) : Prop := ∀ v ∉ vs, env v = none

variable {env other : Binding} {vs ws : List VarId} {v : VarId} {x : Value}

theorem Within.mono (h : env.Within vs) (hs : ∀ v ∈ vs, v ∈ ws) : env.Within ws :=
  fun v hv => h v fun hm => hv (hs v hm)

theorem Within.beside (h : env.Within vs) (ho : other.Within ws) :
    (env.beside other).Within (vs ++ ws) := by
  intro v hv
  rw [List.mem_append, not_or] at hv
  rw [beside_apply, h v hv.1, ho v hv.2, Option.none_or]

theorem empty_within : Binding.empty.Within vs := fun _ _ => rfl

theorem ofRow_within {r : Row} : (ofRow vs r).Within vs := fun _ hv => ofRow_eq_none hv

/-- The row of two bindings side by side that bind nothing of each other's part. -/
theorem row_beside (he : ∀ v ∈ ws, env v = none) (ho : ∀ v ∈ vs, other v = none) :
    (env.beside other).row (vs ++ ws) = env.row vs ++ other.row ws := by
  rw [row_append]
  congr 1
  · refine List.map_congr_left fun v hv => ?_
    rw [get, get, beside_apply, ho v hv, Option.or_none]
  · refine List.map_congr_left fun v hv => ?_
    rw [get, get, beside_apply, he v hv, Option.none_or]

end Binding

/-! ## Combining rows -/

/-- One bag of a run: the variables its bindings stay within, those that are
delivered, and the bindings. -/
structure Incoming where
  scope : List VarId
  names : List VarId
  envs : List Binding

/-- The bindings stay within their scope, and so do the delivered variables. -/
structure Incoming.Tidy (b : Incoming) : Prop where
  names : ∀ v ∈ b.names, v ∈ b.scope
  envs : ∀ env ∈ b.envs, env.Within b.scope

theorem meetings_within {bags : List Incoming} (h : ∀ b ∈ bags, b.Tidy) :
    ∀ env ∈ meetings (bags.map (·.envs)), env.Within (bags.flatMap (·.scope)) := by
  induction bags with
  | nil =>
      rintro env (_ | ⟨_, hm⟩)
      · exact Binding.empty_within
      · cases hm
  | cons b bags ih =>
      obtain ⟨hb, hbags⟩ := List.forall_mem_cons.mp h
      intro env hm
      obtain ⟨right, hr, hm⟩ := List.mem_flatMap.mp hm
      obtain ⟨left, hl, rfl⟩ := List.mem_map.mp hm
      exact (hb.envs left hl).beside (ih hbags right hr)

/-- Combining the rows of bags with separate scopes is meeting their bindings. -/
theorem combinations_rows {bags : List Incoming} (hn : (bags.flatMap (·.scope)).Nodup)
    (ht : ∀ b ∈ bags, b.Tidy) :
    Advice.combinations (bags.map fun b => b.envs.map (·.row b.names)) =
      (meetings (bags.map (·.envs))).map (·.row (bags.flatMap (·.names))) := by
  induction bags with
  | nil => rfl
  | cons b bags ih =>
      obtain ⟨hb, hbags⟩ := List.forall_mem_cons.mp ht
      rw [List.flatMap_cons] at hn
      obtain ⟨_, hn', hne⟩ := List.nodup_append.mp hn
      have hright : ∀ right ∈ meetings (bags.map (·.envs)), ∀ v ∈ b.names, right v = none := by
        intro right hr v hv
        exact meetings_within hbags right hr v fun hm => hne v (hb.names v hv) v hm rfl
      have hleft : ∀ left ∈ b.envs, ∀ v ∈ bags.flatMap (·.names), left v = none := by
        intro left hl v hv
        obtain ⟨c, hc, hv⟩ := List.mem_flatMap.mp hv
        have hscope : v ∈ bags.flatMap (·.scope) :=
          List.mem_flatMap.mpr ⟨c, hc, (hbags c hc).names v hv⟩
        exact hb.envs left hl v fun hm => hne v hm v hscope rfl
      rw [List.map_cons, List.map_cons, Advice.combinations, meetings, ih hn' hbags,
        List.flatMap_cons, List.flatMap_map, List.map_flatMap]
      refine List.flatMap_congr fun right hr => ?_
      rw [List.map_map, List.map_map]
      refine List.map_congr_left fun left hl => ?_
      exact (Binding.row_beside (hleft left hl) (hright right hr)).symm

/-! ## What a stage delivers -/

namespace Stage

/-- The row that a joined stage packs of a binding. -/
def packedRow (s : Stage) (env : Binding) : Row :=
  match s.shape with
  | .unfinished => env.row s.outputs
  | .select _ => env.row s.outputs
  | .filter _ => env.row s.outputs
  | .group keys gs => groupingRow (s.packedKeys keys gs) (s.packedAggregates gs) env

/-- The row that a stage makes of a binding, joined or not. -/
def deliveredRow (s : Stage) (pack : Bool) (env : Binding) : Row :=
  if pack then s.packedRow env else s.resultRow env

/-- The columns that a stage delivers, by the variables that fill them. -/
def columns (s : Stage) (pack : Bool) : List VarId :=
  if pack then s.packedBag.names else s.emittedBag.names

end Stage

section

variable {bound vs : List VarId} {env : Binding}

theorem map_ite_bound (h : ∀ v ∈ vs, v ∈ bound) :
    (vs.map fun v => if v ∈ bound then env.get v else .null) = env.row vs :=
  List.map_congr_left fun v hv => if_pos (h v hv)

/-- The columns of a grouping: the keys, the operands that are read, and null for
counts, whose variables are bound nowhere. -/
theorem map_ite_grouping {keys : List VarId} {gs : List Aggregate}
    (h : ∀ v ∈ (BagSpec.groupBy keys (gs.map fun g => ⟨Stage.operand g, g.how⟩)).reads, v ∈ bound)
    (hg : ∀ g ∈ gs, g.var ∉ bound) :
    ((BagSpec.groupBy keys (gs.map fun g => ⟨Stage.operand g, g.how⟩)).names.map fun v =>
      if v ∈ bound then env.get v else .null) = groupingRow keys gs env := by
  have hkeys : ∀ v ∈ keys, v ∈ bound := fun v hv => h v (List.mem_append_left _ hv)
  have hop : ∀ g ∈ gs, g.how ≠ .count → Stage.operand g ∈ bound := by
    intro g hm hc
    refine h _ (List.mem_append_right _ (List.mem_map.mpr ⟨⟨Stage.operand g, g.how⟩, ?_, rfl⟩))
    exact List.mem_filter.mpr ⟨List.mem_map_of_mem hm, bne_iff_ne.mpr hc⟩
  rw [BagSpec.names, List.map_append, map_ite_bound hkeys, groupingRow, List.map_map, List.map_map]
  congr 1
  refine List.map_congr_left fun g hm => ?_
  have hvar := hg g hm
  have hread := hop g hm
  simp only [Function.comp_apply]
  rw [Stage.operand] at hread ⊢
  rw [Aggregate.operandIn]
  cases hc : g.how with
  | count => exact if_neg hvar
  | sum | min | max =>
      cases hi : g.input with
      | none =>
          rw [hc, hi] at hread
          exact absurd (hread (by decide)) hvar
      | some v =>
          rw [hc, hi] at hread
          exact if_pos (hread (by decide))

theorem map_ite_columns {s : Stage} {pack : Bool} (hd : ∀ v ∈ s.owes pack, v ∈ bound)
    (hv : ∀ v ∈ s.shape.defines, v ∉ bound) :
    ((s.columns pack).map fun v => if v ∈ bound then env.get v else .null) =
      s.deliveredRow pack env := by
  cases pack with
  | true =>
      simp only [Stage.owes, Stage.columns, Stage.deliveredRow, Stage.packedBag, Stage.packedRow,
        if_true] at hd ⊢
      cases hs : s.shape with
      | unfinished => rw [hs] at hd; exact map_ite_bound hd
      | select selected => rw [hs] at hd; exact map_ite_bound hd
      | filter keep => rw [hs] at hd; exact map_ite_bound hd
      | group keys gs =>
          rw [hs] at hd hv
          refine map_ite_grouping hd fun g hg => hv g.var (List.mem_map_of_mem ?_)
          exact (List.mem_filter.mp hg).1
  | false =>
      simp only [Stage.owes, Stage.columns, Stage.deliveredRow, Stage.emittedBag, Stage.resultRow,
        Bool.false_eq_true, if_false] at hd ⊢
      cases hs : s.shape with
      | unfinished => rw [hs] at hd; exact map_ite_bound hd
      | select selected => rw [hs] at hd; exact map_ite_bound hd
      | filter keep => rw [hs] at hd; exact map_ite_bound hd
      | group keys gs =>
          rw [hs] at hd hv
          exact map_ite_grouping hd fun g hg => hv g.var (List.mem_map_of_mem hg)

end

/-! ## The plan of a stage -/

section

variable {a : Arena} {s : Stage} {unpack : List (UnpackSpec VarId)} {packAs : BagId} {pack : Bool}
  {ls : List (LetSpec VarId)} {plan : AdviceSpec VarId} {f : VarId → String} {t : Target}

/-- Lets that are ready can be evaluated in their order. -/
theorem Ready.inOrder {bound : List VarId} (hr : Ready a bound ls)
    (hn : (bound ++ ls.map (·.name)).Nodup) : Arena.InOrder a (ls.map (·.name)) := by
  induction ls generalizing bound with
  | nil => exact ⟨List.Pairwise.nil, List.forall_mem_nil _⟩
  | cons l ls ih =>
      obtain ⟨⟨name, hd⟩, hargs, hr⟩ := hr
      obtain ⟨_, hl, hne⟩ := List.nodup_append.mp hn
      obtain ⟨hm, _⟩ := List.nodup_cons.mp hl
      have hreads : ∀ u ∈ (l :: ls).map (·.name), u ∉ a.reads l.name := by
        intro u hu hread
        rw [Arena.reads_computed hd] at hread
        exact hne u (hargs u hread) u hu rfl
      have hperm : (bound ++ (l :: ls).map (·.name)).Perm (l.name :: bound ++ ls.map (·.name)) :=
        List.perm_middle
      obtain ⟨hp, hself⟩ := ih hr (hperm.nodup_iff.mp hn)
      refine ⟨List.pairwise_cons.mpr ⟨fun u hu => ?_, hp⟩, List.forall_mem_cons.mpr ⟨?_, hself⟩⟩
      · exact ⟨hreads u (List.mem_cons_of_mem _ hu), fun e => hm (e ▸ hu)⟩
      · exact hreads l.name List.mem_cons_self

theorem Plans.incoming_eq (hp : Plans a s unpack packAs pack ls plan) :
    plan.incoming = s.observed.values ++ unpack.flatMap (·.bag.names) := by
  rw [hp.plan_eq]
  rfl

theorem Plans.mem_bound_iff (hp : Plans a s unpack packAs pack ls plan) {v : VarId} :
    v ∈ plan.bound ↔
      v ∈ s.observed.values ++ unpack.flatMap (·.bag.names) ++ s.lets.map (·.2) := by
  have hnames := hp.names
  rw [AdviceSpec.bound, hp.incoming_eq, hp.plan_eq, List.mem_append, hnames.mem_iff,
    ← List.mem_append]

theorem Plans.ready_lets (hp : Plans a s unpack packAs pack ls plan) :
    Ready a plan.incoming plan.lets := by
  have hr := hp.ready
  rw [hp.incoming_eq, hp.plan_eq]
  exact hr

theorem Plans.wheres (hp : Plans a s unpack packAs pack ls plan)
    (hs : s.Scoped a (s.observed.values ++ unpack.flatMap (·.bag.names)) pack) :
    ∀ w ∈ plan.wheres, ∀ v ∈ w.args, v ∈ plan.bound := by
  intro w hw v hv
  rw [hp.plan_eq] at hw
  obtain ⟨c, hc, rfl⟩ := List.mem_map.mp hw
  exact hp.mem_bound_iff.mpr (hs.wheres c hc v hv)

/-- The plan of a stage that binds different variables can be resolved. -/
theorem Plans.create_eq (hp : Plans a s unpack packAs pack ls plan)
    (hs : s.Scoped a (s.observed.values ++ unpack.flatMap (·.bag.names)) pack)
    (hf : ∀ u ∈ plan.bound, ∀ v, f u = f v → u = v) (hn : plan.bound.Nodup) (sinks : Sinks)
    (enabled : Bool) :
    Advice.create (plan.rename f) sinks enabled =
      .ok (plan.resolved f enabled ((s.output packAs pack).target sinks enabled).1,
        ((s.output packAs pack).target sinks enabled).2) := by
  have hd : ∀ v ∈ plan.output.bag.reads, v ∈ plan.bound := by
    intro v hv
    refine hp.mem_bound_iff.mpr (hs.delivers v ?_)
    rw [hp.plan_eq] at hv
    cases pack <;> exact hv
  have ho : s.output packAs pack = plan.output := by rw [hp.plan_eq]
  rw [ho]
  exact Advice.create_rename hf hp.ready_lets (hp.wheres hs) hd hn

/-- A run of the plan of a stage delivers what the stage admits. -/
theorem Plans.deliver?_eq (hp : Plans a s unpack packAs pack ls plan) (ho : a.Ordered)
    (hs : s.Scoped a (s.observed.values ++ unpack.flatMap (·.bag.names)) pack)
    (hn : plan.bound.Nodup) (hv : ∀ v ∈ s.shape.defines, v ∉ plan.bound) (env : Binding) :
    (plan.resolved f true t).deliver? (env.row plan.incoming) =
      (s.arrive a env).map (s.deliveredRow pack) := by
  have hnames : (plan.lets.map (·.name)).Perm (s.lets.map (·.2)) := by
    have h := hp.names
    rw [hp.plan_eq]
    exact h
  have hcolumns : plan.output.bag.names = s.columns pack := by
    rw [hp.plan_eq]
    cases pack <;> rfl
  have hwheres : ∀ env : Binding, (plan.wheres.all fun w =>
      Template.value? w.expr (env.row w.args) == some (.bool true)) =
        s.wheres.all (·.holds env) := by
    intro env
    rw [hp.plan_eq, List.all_map]
    rfl
  have hadmit : (((plan.lets.map (·.name)).foldlM (Binding.compute a) env).filter fun env =>
      plan.wheres.all fun w => Template.value? w.expr (env.row w.args) == some (.bool true)) =
      s.arrive a env := by
    refine Option.ext fun env' => ?_
    rw [Option.filter_eq_some_iff, Stage.arrive_eq_some_iff ho, hwheres,
      Arena.foldlM_compute_eq_some_iff (hp.ready_lets.inOrder hn)]
    exact and_congr_left' ⟨.congr fun _ => hnames.mem_iff, .congr fun _ => hnames.mem_iff.symm⟩
  rw [Advice.deliver?_resolved hp.ready_lets hn (hp.wheres hs), hadmit, hcolumns]
  refine congrArg (fun g => (s.arrive a env).map g) (funext fun env' => ?_)
  exact map_ite_columns (fun v hd => hp.mem_bound_iff.mpr (hs.delivers v hd)) hv

end

end CausalTrace
