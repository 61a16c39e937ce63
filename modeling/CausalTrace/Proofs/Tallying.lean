import CausalTrace.Proofs.Collapsing
import CausalTrace.Proofs.Resolvable

/-!
# Queries that count

In a query that counts every stage counts, by itself or by what joined stages have counted,
and no count is too large for 64 bits. Then the counts that a joined stage delivers can be
read, and every stage finds what it finds without the products of counts.
-/

namespace CausalTrace

open Weighing

/-! ## Columns of rows -/

section

variable {vs : List VarId} {r : Row} {gs : List Aggregate} {xs : List Int64}
  {keep : Aggregate → Bool}

theorem Binding.ofRow_of_getElem? (hn : vs.Nodup) (hl : r.length = vs.length) {i : ℕ} {v : VarId}
    (hv : vs[i]? = some v) : ofRow vs r v = r[i]? := by
  induction vs generalizing r i with
  | nil => cases hv
  | cons u vs ih =>
      obtain ⟨hu, hn⟩ := List.nodup_cons.mp hn
      match r, hl with
      | x :: r, hl =>
          cases i with
          | zero =>
              cases hv
              exact ofRow_cons_self
          | succ i =>
              rw [List.getElem?_cons_succ] at hv ⊢
              have hne : v ≠ u := fun he => hu (he ▸ List.mem_of_getElem? hv)
              exact (ofRow_cons_ne hne).trans (ih hn (Nat.succ.inj hl) hv)

theorem picked_eq_self (h : ∀ g ∈ gs, keep g = true) (hl : xs.length = gs.length) :
    picked keep gs xs = xs := by
  induction gs generalizing xs with
  | nil => rw [List.length_eq_zero_iff.mp hl, picked_nil]
  | cons g gs ih =>
      match xs, hl with
      | x :: xs, hl =>
          obtain ⟨hg, hgs⟩ := List.forall_mem_cons.mp h
          rw [picked_cons_of_pos hg, ih hgs (Nat.succ.inj hl)]

end

/-- Whether the queries that a stage joins may be counted: those of a grouping stage with aggregates
may, those of a stage that keeps one binding may not, and those of a flat stage may if the stage
itself may. -/
def Stage.countsOn (s : Stage) (counted : Bool) : Bool :=
  match s.shape with
  | .group _ gs => gs.length != 0
  | .filter _ => false
  | .unfinished | .select _ => counted

theorem Stage.countsOn_of_group {s : Stage} {keys : List VarId}
    {gs : List Aggregate} {counted : Bool} (hs : s.shape = .group keys gs) :
    s.countsOn counted = (gs.length != 0) := by
  rw [countsOn, hs]

theorem Stage.countsOn_of_flat {s : Stage} {counted : Bool} (hs : s.shape.Flat) :
    s.countsOn counted = counted := by
  rw [countsOn]
  rcases hs with hs | ⟨_, hs⟩
  · rw [hs]
  · rw [hs]

namespace Query

variable {a : Arena} {pack counted c : Bool} {taken : String → Bool} {s : Stage}
  {js : List (String × Query)}
  {q u : Query} {env : Binding} {v : VarId} {K : List VarId} {earlier passes : List Pass}
  {keys : List VarId} {gs : List Aggregate}

/-! ## Passes before -/

/-- What arrived before arrives first. -/
theorem prefix_arrivals (q : Query) (h : earlier <:+ passes) :
    q.arrivals a earlier <+: q.arrivals a passes := by
  obtain ⟨later, rfl⟩ := h
  cases q with
  | node s js =>
      induction later with
      | nil => exact List.prefix_refl _
      | cons p later ih =>
          rw [List.cons_append, arrivals_cons]
          exact ih.trans (List.prefix_append _ _)

/-- What a stage counts over some passes, and what is counted of it, fits into 64 bits: how much
arrives for each of its groups and, where a flat stage is counted, how much arrives at all. -/
structure Fits (a : Arena) (counted : Bool) (taken : String → Bool) (s : Stage)
    (js : List (String × Query)) (passes : List Pass) : Prop where
  rows : counted = true → s.shape.Flat → ((node s js).arrivals a passes).length < 2 ^ 63
  load : ∀ row i, load taken js s.shape.keys s.shape.aggregates.length
    ((node s.bare js).arrivals a passes) row i < 2 ^ 63

/-- A stage that does not group has no counts that could be too large. -/
theorem fits_of_not_group (hno : ∀ keys gs, s.shape ≠ .group keys gs)
    (rows : counted = true → s.shape.Flat → ((node s js).arrivals a passes).length < 2 ^ 63) :
    Fits a counted taken s js passes := by
  refine ⟨rows, fun _ i => ?_⟩
  have hnone := congrArg List.length (aggregates_of_not_group hno)
  exact absurd (i.isLt.trans_eq hnone) (Nat.not_lt_zero _)

theorem load_mono {n : ℕ} {envs envs' : List Binding} (h : envs.Sublist envs')
    (row : Row) (i : Fin n) : load taken js keys n envs row i ≤ load taken js keys n envs' row i :=
  weight_mono (h.map _) i

theorem Fits.past (h : Fits a counted taken s js passes) (hpast : earlier <:+ passes) :
    Fits a counted taken s js earlier where
  rows hcounted hflat :=
    ((prefix_arrivals _ hpast).sublist.length_le).trans_lt (h.rows hcounted hflat)
  load row i := (load_mono (prefix_arrivals _ hpast).sublist row i).trans_lt (h.load row i)

/-- Every stage of the query counts, and its counts fit over some passes. -/
inductive Tallied (a : Arena) (passes : List Pass) : Bool → Query → Prop where
  | node {counted : Bool} {s : Stage} {js : List (String × Query)} (taken : String → Bool)
      (counts : Counts a taken s js) (fits : Fits a counted taken s js passes)
      (joined : ∀ j ∈ js, Tallied a passes (s.countsOn counted) j.2) :
      Tallied a passes counted (.node s js)

theorem Tallied.past (h : Tallied a passes counted q) (hpast : earlier <:+ passes) :
    Tallied a earlier counted q := by
  induction h with
  | node taken counts fits _ ih => exact .node taken counts (fits.past hpast) ih

theorem Tallied.passed (h : Tallied a passes counted q) :
    ∀ p ∈ q.parts, ∀ v ∈ p.stage.passed, v ∈ p.bound := by
  induction h with
  | node taken counts _ _ ih =>
      intro p hp
      rcases mem_parts_node.mp hp with rfl | ⟨j, hj, hp⟩
      · exact counts.passed
      · exact ih j hj p hp

/-- A query that counts is in scope. -/
theorem Tallied.scoped (h : Tallied a passes counted q) (hq : Sound a false pack q) :
    q.Scoped a pack := by
  have hpassed := h.passed
  cases pack with
  | true => exact scoped_true_iff.mpr ⟨hq.supplied, hpassed⟩
  | false =>
      refine scoped_iff_supplied.mpr ⟨hq.supplied, fun j hj p hp => hpassed p ?_⟩
      cases q
      exact mem_parts_node.mpr (Or.inr ⟨j, hj, hp⟩)

/-! ## What arrives and what it weighs -/

/-- At a stage that counts arrives what arrives without products of counts. It weighs as much as
the counts of joined stages together. -/
structure Weighed (a : Arena) (taken : String → Bool) (s : Stage) (js : List (String × Query))
    (passes : List Pass) : Prop where
  arrivals : (node s js).arrivals a passes = ((node s.bare js).arrivals a passes).map (s.withSums a)
  weighs : ∀ env ∈ (node s.bare js).arrivals a passes, ∀ g ∈ s.shape.aggregates,
    g.Weighs (s.withSums a env)
  weights : ∀ env ∈ (node s.bare js).arrivals a passes,
    s.weights s.shape.aggregates.length (s.withSums a env) =
      stake taken js s.shape.aggregates.length env
  pos : ∀ env ∈ (node s.bare js).arrivals a passes, ∀ i,
    0 < stake taken js s.shape.aggregates.length env i

/-- The rows of some variables that arrive, with what they weigh. -/
def weighted (a : Arena) (K : List VarId) (m : ℕ) (q : Query) (passes : List Pass) :
    List (Row × (Fin m → ℕ)) :=
  (q.arrivals a passes).map fun env => (env.row K, q.stage.weights m env)

theorem Weighed.weighted (h : Weighed a taken s js passes) (hK : ∀ v ∈ K, s.sums v = false) :
    (node s js).weighted a K s.shape.aggregates.length passes =
      ((node s.bare js).arrivals a passes).map fun env =>
        (env.row K, stake taken js s.shape.aggregates.length env) := by
  rw [Query.weighted, h.arrivals, List.map_map]
  refine List.map_congr_left fun env henv => ?_
  refine Prod.ext (List.map_congr_left fun v hv => ?_) (h.weights env henv)
  rw [Binding.get, Stage.withSums_of_not (hK v hv)]
  rfl

theorem Counts.additive (h : Counts a taken s js) (hs : s.shape = .group keys gs) :
    Groups.Additive (gs.map (·.how)) := by
  have hgs : s.shape.aggregates = gs := by rw [hs]; rfl
  intro kind hkind
  obtain ⟨g, hg, rfl⟩ := List.mem_map.mp hkind
  rcases h.form with hplain | hcollapsed
  · exact Or.inl (hplain.aggregates g (hgs ▸ hg)).1
  · obtain ⟨i, hi⟩ := List.mem_iff_getElem?.mp hg
    exact Or.inr (hcollapsed.products i g (hgs ▸ hi)).1

theorem grouping_eq (hs : s.shape = .group keys gs) : s.grouping = keys ++ s.passed := by
  rw [Stage.grouping, Stage.passed, hs]
  rfl

theorem mem_grouping (hs : s.shape = .group keys gs) : v ∈ s.grouping ↔
    v ∈ keys ∨ v ∈ s.outputs ∧ v ∉ keys ∧ v ∉ gs.map (·.var) := by
  rw [Stage.grouping, hs, Stage.packedKeys, List.mem_append, List.mem_filter]
  simp [Shape.keys, Shape.aggregates]

theorem Counts.grouping_sums (h : Counts a taken s js) (hs : s.shape = .group keys gs) :
    ∀ v ∈ s.grouping, s.sums v = false := by
  intro v hv
  refine Bool.eq_false_iff.mpr fun hsum => ?_
  obtain ⟨hkeys, houtputs, _⟩ := h.inner v (Or.inl hsum)
  rw [hs] at hkeys
  rcases (mem_grouping hs).mp hv with hk | ⟨ho, _⟩
  · exact hkeys hk
  · exact houtputs ho

/-- A stage that counts delivers what arrives collected. -/
theorem Weighed.delivered (h : Weighed a taken s js passes) (hcounts : Counts a taken s js)
    (hs : s.shape = .group keys gs) : s.delivered ((node s js).arrivals a passes) =
      (collected ((node s js).weighted a s.grouping gs.length passes)).map fun p =>
        .ofRow (s.grouping ++ (gs.filter fun g => s.outputs.contains g.var).map (·.var))
          (p.1 ++ (picked (fun g => s.outputs.contains g.var) gs (Groups.columns p.2)).map
            .int) := by
  have hgs : s.shape.aggregates = gs := by rw [hs]; rfl
  refine Stage.delivered_eq_collected hs (hcounts.additive hs) rfl fun env henv g hg => ?_
  rw [h.arrivals] at henv
  obtain ⟨bare, hbare, rfl⟩ := List.mem_map.mp henv
  exact h.weighs bare hbare g (hgs ▸ hg)

/-- What a query groups by is bound where it groups, and no result of it. -/
theorem grouping_not_defines (hq : Sound a false pack (node s js)) (hs : s.shape = .group keys gs) :
    ∀ v ∈ s.grouping, v ∉ gs.map (·.var) := by
  intro v hv
  rcases (mem_grouping hs).mp hv with hk | ⟨_, _, hno⟩
  · have hkey : v ∈ (node s js).stage.shape.keys := by rw [stage_node, hs]; exact hk
    have hno := hq.not_shape_of_key hkey
    rw [stage_node, hs] at hno
    exact hno
  · exact hno

/-- A group binds the results of the stage to what it has counted. -/
theorem ofRow_columns {m : ℕ} (hq : Sound a false pack (node s js)) (hs : s.shape = .group keys gs)
    (hm : gs.length = m) {key : Row} {w : Fin m → ℕ}
    (hkey : key.length = s.grouping.length) (i : Fin m)
    (hv : (gs.map (·.var))[i.val]? = some v) :
    Binding.ofRow (s.grouping ++ gs.map (·.var)) (key ++ (Groups.columns w).map .int) v =
      some (.int (.ofNat (w i))) := by
  have hnodup : (gs.map (·.var)).Nodup := by
    have hn := hq.formed.distinct
    rw [defines, Stage.defines, hs] at hn
    exact (List.nodup_append.mp (List.nodup_append.mp hn).1).2.1
  have hcolumns : ((Groups.columns w).map Value.int).length = (gs.map (·.var)).length := by
    rw [List.length_map, List.length_map, Groups.length_columns, hm]
  have hnot : v ∉ s.grouping :=
    fun hv' => grouping_not_defines hq hs v hv' (List.mem_of_getElem? hv)
  rw [Binding.ofRow_append hkey, Binding.beside_apply, Binding.ofRow_eq_none hnot, Option.none_or,
    Binding.ofRow_of_getElem? hnodup hcolumns hv, List.getElem?_map, Groups.columns,
    List.getElem?_ofFn, dif_pos i.isLt]
  rfl

theorem length_collected {m : ℕ} {p : Row × (Fin m → ℕ)}
    (hp : p ∈ collected (q.weighted a K m passes)) : p.1.length = K.length := by
  obtain ⟨row, hrow, he⟩ := List.mem_map.mp (mem_collected hp).1
  obtain ⟨env, _, rfl⟩ := List.mem_map.mp hrow
  rw [← he]
  exact Binding.length_row

section

variable (h : Weighed a taken s js passes) (hcounts : Counts a taken s js)
  (hs : s.shape = .group keys gs)

include h hcounts hs

theorem Weighed.weighted_grouping : (node s js).weighted a s.grouping gs.length passes =
    ((node s.bare js).arrivals a passes).map fun env =>
      (env.row s.grouping, stake taken js gs.length env) := by
  have hm : s.shape.aggregates.length = gs.length := by rw [hs]; rfl
  have hweighted := h.weighted (hcounts.grouping_sums hs)
  rwa [hm] at hweighted

/-- What is collected is positive, and fits if all that arrives does. -/
theorem Weighed.collected (hfits : Fits a counted taken s js passes) {p : Row × (Fin gs.length → ℕ)}
    (hp : p ∈ collected ((node s js).weighted a s.grouping gs.length passes)) (i : Fin gs.length) :
    0 < p.2 i ∧ p.2 i < 2 ^ 63 := by
  have hm : s.shape.aggregates.length = gs.length := by rw [hs]; rfl
  have hload := hfits.load
  have hpos := h.pos
  rw [hm] at hload hpos
  obtain ⟨hmem, hweight⟩ := mem_collected hp
  rw [h.weighted_grouping hcounts hs] at hmem hweight
  rw [hweight]
  refine ⟨weight_pos hmem fun p hp => ?_, ?_⟩
  · obtain ⟨env, henv, rfl⟩ := List.mem_map.mp hp
    exact hpos env henv i
  · -- What a stage hands on tells its groups further apart.
    rw [List.map_map] at hmem
    obtain ⟨env, _, hrow⟩ := List.mem_map.mp hmem
    refine (weight_map_le (y := env.row s.shape.keys) (fun other _ hother => ?_) i).trans_lt
      (hload _ i)
    rw [← hrow, grouping_eq hs, Function.comp_apply, Binding.row_append,
      Binding.row_append] at hother
    have hkeys := List.append_inj_left hother (Binding.length_row.trans Binding.length_row.symm)
    rw [hs]
    exact hkeys

/-- A stage that counts delivers counts that can be read. -/
theorem Weighed.legible (hfits : Fits a counted taken s js passes)
    (hq : Sound a false pack (node s js)) (hout : ∀ g ∈ gs, g.var ∈ s.outputs) :
    LegibleCounts a (node s js) passes := by
  intro env henv v hv
  rw [stage_node] at henv hv
  rw [h.delivered hcounts hs] at henv
  obtain ⟨p, hp, rfl⟩ := List.mem_map.mp henv
  rw [hs] at hv
  have hall : ∀ g ∈ gs, s.outputs.contains g.var = true := fun g hg =>
    List.contains_iff_mem.mpr (hout g hg)
  obtain ⟨i, hi⟩ := List.mem_iff_getElem?.mp hv
  have hlt : i < gs.length := by
    have hlt := (List.getElem?_eq_some_iff.mp hi).1
    rwa [Shape.defines, List.length_map] at hlt
  obtain ⟨hpos, hsmall⟩ := h.collected hcounts hs hfits hp ⟨i, hlt⟩
  rw [List.filter_eq_self.mpr hall, picked_eq_self hall Groups.length_columns]
  exact ⟨p.2 ⟨i, hlt⟩, hpos, hsmall, ofRow_columns hq hs rfl (length_collected hp) ⟨i, hlt⟩ hi⟩

end

/-- In a query that counts every stage finds what it would find without products. -/
theorem Counts.weighed (hcounts : Counts a taken s js) (hfits : Fits a counted taken s js passes)
    (hq : Sound a false pack (node s js)) (hjoined : ∀ j ∈ js, Tallied a passes c j.2)
    (hlegible : ∀ j ∈ js, taken j.1 = true → ∀ earlier, earlier <:+ passes →
      LegibleCounts a j.2 earlier) :
    Weighed a taken s js passes := by
  have hscoped : ∀ j ∈ js, j.2.Scoped a true := fun j hj => (hjoined j hj).scoped (hq.joined hj)
  refine ⟨hcounts.arrivals hq hscoped hlegible hfits.load, fun env henv => ?_, fun env henv => ?_,
    fun env henv => hcounts.stake_pos hq hscoped hlegible henv⟩
  · exact (hcounts.weighs hq hscoped hlegible hfits.load henv).1
  · exact (hcounts.weighs hq hscoped hlegible hfits.load henv).2

/-- A query that counts, and hands on all of its counts, delivers counts that can be read. -/
theorem Tallied.legible (h : Tallied a passes counted q) (hq : Sound a false pack q)
    (hout : ∀ v ∈ q.stage.shape.defines, v ∈ q.stage.outputs) : LegibleCounts a q passes := by
  induction q generalizing pack passes counted with
  | node s js ih =>
      obtain ⟨taken, hcounts, hfits, hjoined⟩ := h
      have hweighed : Weighed a taken s js passes := by
        refine hcounts.weighed hfits hq hjoined fun j hj htaken earlier hearlier => ?_
        exact ih j hj ((hjoined j hj).past hearlier) (hq.joined hj) (hcounts.shares j hj htaken).2.2
      cases hs : s.shape with
      | unfinished | select _ | filter _ =>
          intro env henv v hv
          rw [stage_node, hs] at hv
          cases hv
      | group keys gs =>
          refine hweighed.legible hcounts hs hfits hq fun g hg => hout g.var ?_
          rw [stage_node, hs]
          exact List.mem_map_of_mem hg

/-- In a query that counts every stage finds what it would find without products. -/
theorem Tallied.weighed (hcounts : Counts a taken s js) (hfits : Fits a counted taken s js passes)
    (hq : Sound a false pack (Query.node s js)) (hjoined : ∀ j ∈ js, Tallied a passes c j.2) :
    Weighed a taken s js passes :=
  hcounts.weighed hfits hq hjoined fun j hj htaken _ hearlier =>
    ((hjoined j hj).past hearlier).legible (hq.joined hj) (hcounts.shares j hj htaken).2.2

section

variable {m : ℕ} (h : Tallied a passes counted q) (hq : Sound a false pack q)
  (hs : q.stage.shape = .group keys gs) (hm : gs.length = m)

include h hq hs hm

/-- A query that counts delivers what arrives collected. -/
theorem Tallied.delivered : q.stage.delivered (q.arrivals a passes) =
    (collected (q.weighted a q.stage.grouping m passes)).map fun p =>
      .ofRow (q.stage.grouping ++ (gs.filter fun g => q.stage.outputs.contains g.var).map (·.var))
        (p.1 ++ (picked (fun g => q.stage.outputs.contains g.var) gs (Groups.columns p.2)).map
          .int) := by
  subst hm
  obtain ⟨taken, hcounts, hfits, hjoined⟩ := h
  exact (Tallied.weighed hcounts hfits hq hjoined).delivered hcounts hs

theorem Tallied.collected {p : Row × (Fin m → ℕ)}
    (hp : p ∈ collected (q.weighted a q.stage.grouping m passes)) (i : Fin m) :
    0 < p.2 i ∧ p.2 i < 2 ^ 63 := by
  subst hm
  obtain ⟨taken, hcounts, hfits, hjoined⟩ := h
  exact (Tallied.weighed hcounts hfits hq hjoined).collected hcounts hs hfits hp i

end

end Query

end CausalTrace
