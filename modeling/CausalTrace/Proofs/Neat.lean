import CausalTrace.Proofs.Building
import CausalTrace.Proofs.Settling

/-!
# Outputs in order, keys told apart

Stages list their outputs in ascending order, however a query was built and optimized. If
no grouping stage repeats a key, optimizing repeats none.
-/

namespace CausalTrace

open Defining

/-! ## Neat stages -/

/-- A stage with ascending outputs; if asked for, its keys are distinct. -/
structure Stage.Neat (distinct : Bool) (s : Stage) : Prop where
  outputs : s.outputs.Sorted
  keys : distinct = true → s.shape.keys.Nodup

/-- Taking outputs away keeps them in order. -/
theorem Ascending.Sorted.filter {κ : Type} [Ord κ] {s : Ascending κ} (h : s.Sorted) (p : κ → Bool) :
    Ascending.Sorted (List.filter p s) :=
  List.Pairwise.filter p h

namespace Query

variable {a a' b : Arena} {distinct : Bool} {s : Stage} {js js' : List (String × Query)}
  {q q' u other : Query} {name aliasName : String} {names : List String} {v : VarId}
  {filter : Option Filter} {m : Moves}

/-- All stages of the query are neat. -/
def Neat (distinct : Bool) (q : Query) : Prop := ∀ p ∈ q.parts, p.stage.Neat distinct

theorem neat_node : (node s js).Neat distinct ↔ s.Neat distinct ∧ ∀ j ∈ js, j.2.Neat distinct := by
  constructor
  · intro h
    refine ⟨h _ (self_mem_parts _), fun j hj p hp => h p ?_⟩
    exact mem_parts_node.mpr (Or.inr ⟨j, hj, hp⟩)
  · rintro ⟨hown, hjoined⟩ p hp
    rcases mem_parts_node.mp hp with rfl | ⟨j, hj, hp⟩
    · exact hown
    · exact hjoined j hj p hp

theorem Neat.stage (h : q.Neat distinct) : q.stage.Neat distinct := h q (self_mem_parts q)

theorem Neat.joined {j : String × Query} (h : q.Neat distinct) (hj : j ∈ q.joins) :
    j.2.Neat distinct := by
  rw [← node_stage_joins q, neat_node] at h
  exact h.2 j hj

theorem neat_withStage {f : Stage → Stage} (h : q.Neat distinct)
    (hf : q.stage.Neat distinct → (f q.stage).Neat distinct) : (q.withStage f).Neat distinct := by
  cases q with
  | node s js =>
      obtain ⟨hown, hjoined⟩ := neat_node.mp h
      exact neat_node.mpr ⟨hf hown, hjoined⟩

/-- A joined query gives way to a neat one, or is added. -/
theorem neat_setJoin (hq : q.Neat distinct) (hu : u.Neat distinct) :
    (q.setJoin name u).Neat distinct := by
  refine neat_node.mpr ⟨hq.stage, fun j hj => ?_⟩
  rcases Table.mem_insert hj with rfl | hj
  · exact hu
  · exact hq.joined hj

/-! ## Building -/

theorem neat_watch (source : Source) : (Query.watch source).Neat distinct :=
  neat_node.mpr ⟨⟨List.Pairwise.nil, fun _ => List.nodup_nil⟩, List.forall_mem_nil _⟩

theorem neat_deliverAlso (h : q.Neat distinct) : (q.withStage (·.deliverAlso v)).Neat distinct :=
  neat_withStage h fun hs => ⟨Ascending.sorted_insert v hs.outputs, hs.keys⟩

theorem neat_input (hq : q.Neat distinct) (h : (q.input name).Yields a (q', v) a') :
    q'.Neat distinct := by
  induction q generalizing name v a a' q' with
  | node s js ih =>
      obtain ⟨hown, hjoined⟩ := neat_node.mp hq
      rw [input] at h
      split at h
      · obtain ⟨he, rfl⟩ := Build.yields_pure.mp h
        cases he
        exact hq
      · obtain ⟨⟨s', x⟩, b, ho, h⟩ := Build.yields_bind.mp h
        obtain ⟨he, rfl⟩ := Build.yields_pure.mp h
        cases he
        have hr : Resolved a b (node s js) (node s' js) := (resolved_observe ho).1
        have houtputs : s'.outputs = s.outputs := hr.outputs
        have hshape : s'.shape = s.shape := hr.shape
        exact neat_node.mpr ⟨⟨houtputs ▸ hown.outputs, hshape ▸ hown.keys⟩, hjoined⟩
      · next aliasName rest _ =>
        obtain ⟨⟨js', x⟩, b, hj, h⟩ := Build.yields_bind.mp h
        obtain ⟨he, rfl⟩ := Build.yields_pure.mp h
        cases he
        obtain ⟨before, u, u', after, rfl, rfl, hu⟩ := inputFrom_eq hj
        have hmem :=
          List.mem_append_right before (List.mem_cons_self (a := (aliasName, u)) (l := after))
        have hu' : u'.Neat distinct := by
          obtain ⟨w, rfl, ⟨path, hi, _⟩ | ⟨⟨rfl, _⟩ | ⟨path, x, hi⟩, _⟩⟩ := deliver_cases hu
          · exact neat_deliverAlso (ih _ hmem (hjoined _ hmem) hi)
          · exact neat_deliverAlso (hjoined _ hmem)
          · exact neat_deliverAlso (ih _ hmem (hjoined _ hmem) hi)
        -- Only the query that the name goes on to changes, and at most by one more output.
        refine neat_node.mpr ⟨hown, fun j hj => ?_⟩
        rcases List.mem_append.mp hj with hj | hj
        · exact hjoined j (List.mem_append_left _ hj)
        · rcases List.mem_cons.mp hj with rfl | hj
          · exact hu'
          · exact hjoined j (List.mem_append_right _ (List.mem_cons_of_mem _ hj))
      · exact (Build.not_yields_throw h).elim

theorem neat_inputs {vs : List VarId} (hq : q.Neat distinct)
    (h : (q.inputs names).Yields a (q', vs) a') : q'.Neat distinct := by
  induction names generalizing q a vs with
  | nil =>
      obtain ⟨he, rfl⟩ := Build.yields_pure.mp h
      cases he
      exact hq
  | cons name names ih =>
      obtain ⟨⟨u, v⟩, b, hi, h⟩ := Build.yields_bind.mp h
      obtain ⟨⟨u', ws⟩, c, hs, h⟩ := Build.yields_bind.mp h
      obtain ⟨he, rfl⟩ := Build.yields_pure.mp h
      cases he
      exact ih (neat_input hq hi) hs

/-- What becomes of the shape does not matter where keys may be repeated. -/
theorem neat_shape {f : Stage → Stage} (h : q.Neat false) (hf : (f q.stage).outputs.Sorted) :
    (q.withStage f).Neat false :=
  neat_withStage h fun _ => ⟨hf, fun hd => absurd hd Bool.false_ne_true⟩

theorem neat_addWhere {expr : String} {args : List String} (hq : q.Neat false)
    (h : (q.addWhere expr args).Yields a q' a') : q'.Neat false := by
  obtain ⟨_, _, hu, h⟩ := Build.yields_bind.mp h
  obtain ⟨_, rfl⟩ := Build.yields_liftExcept.mp hu
  obtain ⟨⟨u, vs⟩, b, hi, h⟩ := Build.yields_bind.mp h
  obtain ⟨rfl, rfl⟩ := Build.yields_pure.mp h
  exact neat_shape (neat_inputs hq hi) (neat_inputs hq hi).stage.outputs

theorem neat_addLet {expr : String} {args : List String} (hq : q.Neat false)
    (h : (q.addLet name expr args).Yields a q' a') : q'.Neat false := by
  obtain ⟨_, _, hu, h⟩ := Build.yields_bind.mp h
  obtain ⟨_, rfl⟩ := Build.yields_liftExcept.mp hu
  obtain ⟨_, _, ha, h⟩ := Build.yields_bind.mp h
  obtain ⟨_, rfl⟩ := Build.yields_liftExcept.mp ha
  obtain ⟨⟨u, vs⟩, b, hi, h⟩ := Build.yields_bind.mp h
  obtain ⟨v, c, hd, h⟩ := Build.yields_bind.mp h
  obtain ⟨rfl, rfl⟩ := Build.yields_pure.mp h
  exact neat_shape (neat_inputs hq hi) (neat_inputs hq hi).stage.outputs

theorem neat_select (hq : q.Neat false) (h : (q.select names).Yields a q' a') : q'.Neat false := by
  obtain ⟨_, _, hu, h⟩ := Build.yields_bind.mp h
  obtain ⟨_, rfl⟩ := Build.yields_liftExcept.mp hu
  obtain ⟨⟨u, vs⟩, b, hi, h⟩ := Build.yields_bind.mp h
  obtain ⟨rfl, rfl⟩ := Build.yields_pure.mp h
  exact neat_shape (neat_inputs hq hi)
    (Ascending.sorted_insertAll vs (neat_inputs hq hi).stage.outputs)

theorem neat_groupBy (hq : q.Neat false) (h : (q.groupBy names).Yields a q' a') :
    q'.Neat false := by
  obtain ⟨_, _, hu, h⟩ := Build.yields_bind.mp h
  obtain ⟨_, rfl⟩ := Build.yields_liftExcept.mp hu
  obtain ⟨⟨u, vs⟩, b, hi, h⟩ := Build.yields_bind.mp h
  obtain ⟨rfl, rfl⟩ := Build.yields_pure.mp h
  exact neat_shape (neat_inputs hq hi)
    (Ascending.sorted_insertAll vs (neat_inputs hq hi).stage.outputs)

theorem neat_addAggregate {how : Aggregation} {input : Option VarId} (hq : q.Neat false)
    (h : (q.addAggregate how input).Yields a q' a') : q'.Neat false := by
  rw [addAggregate] at h
  split at h
  · obtain ⟨v, c, hd, h⟩ := Build.yields_bind.mp h
    obtain ⟨rfl, rfl⟩ := Build.yields_pure.mp h
    exact neat_shape hq (Ascending.sorted_insert v hq.stage.outputs)
  · exact (Build.not_yields_throw h).elim

theorem neat_aggregate {how : Aggregation} (hq : q.Neat false)
    (h : (q.aggregate name how).Yields a q' a') : q'.Neat false := by
  obtain ⟨⟨u, v⟩, b, hi, h⟩ := Build.yields_bind.mp h
  exact neat_addAggregate (neat_input hq hi) h

/-- The outputs of a copy are put in order again. -/
theorem neat_mapVars (f : VarId → VarId) (q : Query) : (q.mapVars f).Neat false := by
  induction q with
  | node s js ih =>
      rw [mapVars, mapJoins_eq]
      refine neat_node.mpr ⟨⟨Ascending.sorted_ofList _, fun hd => absurd hd Bool.false_ne_true⟩, ?_⟩
      intro j hj
      obtain ⟨k, hk, rfl⟩ := List.mem_map.mp hj
      exact ih k hk

theorem neat_prepare (ho : other.Neat false) (h : (q.prepare other filter).Yields a u a') :
    u.Neat false := by
  obtain ⟨w, hcopy, hkeep⟩ := prepare_cases h
  have hw : w.Neat false := by
    rcases hcopy with hc | ⟨rfl, _⟩
    · obtain ⟨renamed, b, _, hc⟩ := Build.yields_bind.mp hc
      obtain ⟨rfl, rfl⟩ := Build.yields_pure.mp hc
      exact neat_mapVars _ other
    · exact ho
  rcases hkeep with rfl | ⟨f, hk⟩
  · exact hw
  · obtain ⟨_, rfl⟩ := keep_eq_ok hk
    exact neat_shape hw hw.stage.outputs

theorem neat_join (hq : q.Neat false) (ho : other.Neat false)
    (h : (q.join aliasName other filter).Yields a q' a') : q'.Neat false := by
  obtain ⟨_, _, ha, h⟩ := Build.yields_bind.mp h
  obtain ⟨_, rfl⟩ := Build.yields_liftExcept.mp ha
  obtain ⟨u, b, hp, h⟩ := Build.yields_bind.mp h
  obtain ⟨rfl, rfl⟩ := Build.yields_pure.mp h
  exact neat_setJoin hq (neat_prepare ho hp)

theorem neat_joinVia {via : String} (hq : q.Neat false) (ho : other.Neat false)
    (h : (q.joinVia via aliasName other filter).Yields a q' a') : q'.Neat false := by
  obtain ⟨_, _, ha, h⟩ := Build.yields_bind.mp h
  obtain ⟨_, rfl⟩ := Build.yields_liftExcept.mp ha
  split at h
  · exact (Build.not_yields_throw h).elim
  · next existing hf =>
      obtain ⟨u, b, hp, h⟩ := Build.yields_bind.mp h
      obtain ⟨nested, c, hn, h⟩ := Build.yields_bind.mp h
      obtain ⟨rfl, rfl⟩ := Build.yields_pure.mp h
      have hexisting : existing.Neat false := hq.joined (Table.mem_of_find?_eq_some hf)
      have hnested := neat_join hexisting (neat_prepare ho hp) hn
      exact neat_shape (neat_setJoin hq hnested) hq.stage.outputs

/-- Every stage of a query that was built lists its outputs in order. -/
theorem Built.neat (h : Built a q) : q.Neat false := by
  induction h with
  | unnamed t => exact neat_watch _
  | named h =>
      rw [Query.named] at h
      split at h
      · cases h
        exact neat_watch _
      · cases h
  | grow _ _ ih => exact ih
  | addWhere _ h ih => exact neat_addWhere ih h
  | addLet _ h ih => exact neat_addLet ih h
  | select _ h ih => exact neat_select ih h
  | groupBy _ h ih => exact neat_groupBy ih h
  | aggregate _ h ih => exact neat_aggregate ih h
  | count _ h ih => exact neat_addAggregate ih h
  | join _ _ h ih ihother => exact neat_join ih ihother h
  | joinTracepoint _ h ih => exact neat_join ih (neat_watch _) h
  | joinVia _ _ h ih ihother => exact neat_joinVia ih ihother h

/-! ## Optimizing -/

/-- All joined queries are neat. -/
def JoinsNeat (distinct : Bool) (js : List (String × Query)) : Prop := ∀ j ∈ js, j.2.Neat distinct

theorem neat_updateJoin {f : Query → Query} (h : q.Neat distinct)
    (hf : ∀ u, u.Neat distinct → (f u).Neat distinct) :
    (q.updateJoin aliasName f).Neat distinct := by
  cases q with
  | node s js =>
      obtain ⟨hown, hjoined⟩ := neat_node.mp h
      refine neat_node.mpr ⟨hown, fun j hj => ?_⟩
      obtain ⟨k, hk, rfl⟩ := List.mem_map.mp hj
      split
      · exact hf _ (hjoined k hk)
      · exact hjoined k hk

theorem neat_pushOneLet (h : q.Neat distinct) (hpush : q.pushOneLet a = some (aliasName, q')) :
    q'.Neat distinct := by
  obtain ⟨⟨l, name⟩, _, he⟩ := Option.map_eq_some_iff.mp hpush
  cases he
  refine neat_updateJoin (neat_withStage h fun hs => ⟨hs.outputs, hs.keys⟩) fun u hu => ?_
  refine neat_withStage hu fun hs => ⟨?_, hs.keys⟩
  dsimp only
  split
  · exact Ascending.sorted_insert l.2 hs.outputs
  · exact hs.outputs

theorem neat_pushOneWhere (h : q.Neat distinct) (hpush : q.pushOneWhere = some (aliasName, q')) :
    q'.Neat distinct := by
  obtain ⟨⟨w, name, left⟩, _, he⟩ := Option.map_eq_some_iff.mp hpush
  cases he
  refine neat_updateJoin (neat_withStage h fun hs => ⟨hs.outputs, hs.keys⟩) fun u hu => ?_
  exact neat_withStage hu fun hs => ⟨hs.outputs, hs.keys⟩

theorem neat_pushDown (h : q.Neat distinct) : (q.pushDown m a).1.Neat distinct :=
  pushDown_induct (P := fun r _ => r.Neat distinct)
    (fun _ _ _ _ _ hr hpush => neat_pushOneLet hr hpush)
    (fun _ _ _ _ _ hr hpush => neat_pushOneWhere hr hpush) h

/-- Sharing an aggregate leaves the outputs in order. -/
theorem leads_shareOne_sorted {kept delivered : List VarId} {S : Sharing} (h : S.outputs.Sorted)
    (g : Aggregate) : (shareOne kept delivered S g).Leads a fun S' _ => S'.outputs.Sorted := by
  rw [shareOne]
  split
  · split
    · refine Leads.bind (R := fun _ _ => True) trivial fun w b _ => leads_pure ?_
      dsimp only
      split
      · exact Ascending.sorted_insert w h
      · exact (Ascending.sorted_insert w h).filter _
    · exact leads_pure h
  · exact leads_pure h

theorem leads_share_neat {keys residual : List VarId} {gs : List Aggregate}
    (hk : distinct = true → keys.Nodup) (h : u.Neat distinct) :
    (share keys residual gs u).Leads a fun r _ => r.1.Neat distinct := by
  have hfold : ∀ {S : Sharing} {a : Arena}, S.outputs.Sorted →
      Leads (gs.foldlM (shareOne (residual ++ keys) u.stage.outputs) S) a
        fun S' _ => S'.outputs.Sorted := by
    induction gs with
    | nil => exact fun hS => leads_pure hS
    | cons g gs ih =>
        intro S a hS
        rw [List.foldlM_cons]
        exact (leads_shareOne_sorted hS g).bind fun S' b hS' => ih hS'
  refine (hfold h.stage.outputs).bind fun S b hS => leads_pure ?_
  exact neat_withStage h fun _ => ⟨hS, fun hd => (hk hd).filter _⟩

theorem leads_shareAll_neat {keys residual : List VarId} {gs : List Aggregate}
    (hk : distinct = true → keys.Nodup) (h : JoinsNeat distinct js) :
    (shareAll keys residual gs js).Leads a fun r _ => JoinsNeat distinct r.1 := by
  induction js generalizing gs a with
  | nil => exact leads_pure (List.forall_mem_nil _)
  | cons j js ih =>
      obtain ⟨hj, hjs⟩ := List.forall_mem_cons.mp h
      rw [shareAll]
      split
      · refine (leads_share_neat hk hj).bind fun r b hr => ?_
        refine (ih hjs).bind fun r' b' hr' => leads_pure ?_
        exact List.forall_mem_cons.mpr ⟨hr, hr'⟩
      · exact ih hjs

theorem leads_mapM_countRows_neat (h : JoinsNeat distinct js) :
    Leads (js.mapM countRows) a fun r _ => JoinsNeat distinct (r.map (·.1)) := by
  induction js generalizing a with
  | nil => exact leads_pure (List.forall_mem_nil _)
  | cons j js ih =>
      obtain ⟨hj, hjs⟩ := List.forall_mem_cons.mp h
      have hone : (countRows j).Leads a fun r _ => r.1.2.Neat distinct := by
        refine Leads.bind (R := fun _ _ => True) trivial fun v b _ => leads_pure ?_
        refine neat_withStage hj fun hs => ⟨Ascending.sorted_insert v hs.outputs, fun hd => ?_⟩
        have hkeys := hs.keys hd
        dsimp only
        split
        · next keys gs hshape =>
            rw [hshape] at hkeys
            exact hkeys
        · exact hkeys
      rw [List.mapM_cons]
      refine hone.bind fun r b hr => (ih hjs).bind fun rs b' hrs => leads_pure ?_
      exact List.forall_mem_cons.mpr ⟨hr, hrs⟩

theorem leads_countAll_neat {gs : List Aggregate} (hq : q.Neat distinct)
    (h : JoinsNeat distinct js) :
    (countAll q js gs).Leads a fun r _ => r.1.Neat distinct ∧ JoinsNeat distinct r.2.1 := by
  induction gs generalizing q js a with
  | nil => exact leads_pure ⟨hq, h⟩
  | cons g gs ih =>
      have hone : (countOne q js g).Leads a fun r _ => r.1.Neat distinct ∧
          JoinsNeat distinct r.2.1 := by
        rw [countOne]
        split
        · refine (leads_mapM_countRows_neat h).bind fun counted b hcounted => ?_
          refine Leads.bind (R := fun _ _ => True) trivial fun v b' _ => leads_pure ⟨?_, hcounted⟩
          exact neat_withStage hq fun hs => ⟨hs.outputs, hs.keys⟩
        · exact leads_pure ⟨hq, h⟩
      rw [countAll]
      refine hone.bind fun r b hr => ?_
      exact (ih hr.1 hr.2).bind fun r' b' hr' => leads_pure hr'

/-- Steps that keep queries neat. -/
def Tidying (distinct : Bool) (again : Query → Defining Query) : Prop :=
  ∀ u a, u.Neat distinct → (again u).Leads a fun u' _ => u'.Neat distinct

section

variable {again : Query → Defining Query}

theorem leads_foldlM_revisit_neat (hagain : Tidying distinct again) (reached : List String)
    (h : q.Neat distinct) :
    Leads (reached.foldlM (revisit again) q) a fun q' _ => q'.Neat distinct := by
  induction reached generalizing q a with
  | nil => exact leads_pure h
  | cons aliasName reached ih =>
      have hone : (revisit again q aliasName).Leads a fun q' _ => q'.Neat distinct := by
        rw [revisit]
        split
        · next u hu =>
            refine (hagain u a (h.joined (Table.mem_of_find?_eq_some hu))).bind fun u' b hu' => ?_
            exact leads_pure (neat_updateJoin h fun _ _ => hu')
        · exact leads_pure h
      rw [List.foldlM_cons]
      exact hone.bind fun q' b hq' => ih hq'

theorem leads_foldlM_rejoin_neat (hagain : Tidying distinct again) (h : q.Neat distinct)
    (hjs : JoinsNeat distinct js) :
    Leads (js.foldlM (rejoin again) q) a fun q' _ => q'.Neat distinct := by
  induction js generalizing q a with
  | nil => exact leads_pure h
  | cons j js ih =>
      obtain ⟨hj, hjs⟩ := List.forall_mem_cons.mp hjs
      have hone : (rejoin again q j).Leads a fun q' _ => q'.Neat distinct :=
        (hagain j.2 a hj).bind fun u' b hu' => leads_pure (neat_updateJoin h fun _ _ => hu')
      rw [List.foldlM_cons]
      exact hone.bind fun q' b hq' => ih hq' hjs

theorem leads_pushAggregates_neat (hagain : Tidying distinct again) (h : q.Neat distinct) :
    (pushAggregates again q).Leads a fun q' _ => q'.Neat distinct := by
  rw [pushAggregates]
  split
  · next keys gs hs =>
      have hk : distinct = true → keys.Nodup := fun hd => by
        have hkeys := h.stage.keys hd
        rwa [hs] at hkeys
      refine (leads_get (Q := fun _ _ => True) trivial).bind fun c b _ => ?_
      refine (leads_shareAll_neat hk fun j hj => h.joined hj).bind ?_
      rintro ⟨shared, gs'⟩ b' hshared
      have hfinish : ∀ {q' : Query} {shared : List (String × Query)} (gs : List Aggregate)
          {c : Arena}, q'.Neat distinct → JoinsNeat distinct shared →
            Leads (shared.foldlM (rejoin again) (q'.withStage
              fun s => { s with shape := .group keys gs })) c fun q' _ => q'.Neat distinct :=
        fun gs _ hq' hshared => leads_foldlM_rejoin_neat hagain
          (neat_withStage hq' fun hs' => ⟨hs'.outputs, hk⟩) hshared
      dsimp only
      split
      · exact hfinish gs' h hshared
      · refine (leads_countAll_neat h hshared).bind ?_
        rintro ⟨q', shared', gs''⟩ c ⟨hq', hshared'⟩
        exact hfinish gs'' hq' hshared'
  · exact leads_pure h
  · exact leads_pure h
  · exact leads_pure h

end

theorem neat_pruneTo {needed : List VarId} (h : q.Neat distinct) :
    (q.pruneTo a needed).Neat distinct := by
  induction q generalizing needed with
  | node s js ih =>
      obtain ⟨hown, hjoined⟩ := neat_node.mp h
      rcases pruneTo_node a s js needed with hsame | hkept
      · rw [hsame]
        exact h
      · rw [hkept, pruneJoins_eq]
        refine neat_node.mpr ⟨⟨hown.outputs.filter _, hown.keys⟩, fun j hj => ?_⟩
        obtain ⟨k, hk, rfl⟩ := List.mem_map.mp hj
        exact ih k hk (hjoined k hk)

theorem neat_prune (h : q.Neat distinct) : (q.prune a).Neat distinct := by
  cases q with
  | node s js =>
      obtain ⟨hown, hjoined⟩ := neat_node.mp h
      rw [prune, pruneJoins_eq]
      refine neat_node.mpr ⟨hown, fun j hj => ?_⟩
      obtain ⟨k, hk, rfl⟩ := List.mem_map.mp hj
      exact neat_pruneTo (hjoined k hk)

/-- Optimizing keeps outputs in order, and keys distinct. -/
theorem leads_neat (n : Nat) (h : q.Neat distinct) :
    (optimizeWithin m n q).Leads a fun q' _ => q'.Neat distinct := by
  induction n generalizing q a with
  | zero => exact leads_pure h
  | succ n ih =>
      have hagain : Tidying distinct (optimizeWithin m n) := fun u a hu => ih hu
      cases q with
      | node s js =>
          obtain ⟨hown, hjoined⟩ := neat_node.mp h
          have hmap : ∀ {js : List (String × Query)} {a : Arena}, JoinsNeat distinct js →
              Leads (js.mapM fun j => do return (j.1, ← optimizeWithin m n j.2)) a
                fun js' _ => JoinsNeat distinct js' := by
            intro js
            induction js with
            | nil => exact fun _ => leads_pure (List.forall_mem_nil _)
            | cons j js ihjs =>
                intro a hjs
                obtain ⟨hj, hjs⟩ := List.forall_mem_cons.mp hjs
                rw [List.mapM_cons]
                refine ((hagain j.2 a hj).bind fun u b hu =>
                  leads_pure (Q := fun (r : String × Query) _ => r.2.Neat distinct) hu).bind
                    fun r b hr => ?_
                exact (ihjs hjs).bind fun rs b' hrs =>
                  leads_pure (List.forall_mem_cons.mpr ⟨hr, hrs⟩)
          exact leads_phases (D := fun q _ _ => q.Neat distinct) (R := fun q _ => q.Neat distinct)
            (S := fun q _ => q.Neat distinct) (hmap hjoined)
            (fun js' b hjs' => neat_pushDown (neat_node.mpr ⟨hown, hjs'⟩))
            (fun q' reached b hq' => leads_foldlM_revisit_neat hagain reached hq')
            (fun _ q' b hq' => leads_pushAggregates_neat hagain hq') (fun _ _ _ hq' => hq')
            (fun q' b hq' => neat_prune hq')

end Query

end CausalTrace
