import CausalTrace.Proofs.Sources
import CausalTrace.Proofs.Tallying

/-!
# Queries that count alike

Two queries match when the same bindings arrive at both, or groups that weigh the same. The
counts that are taken of a joined stage are its groups with their weights, so where all joined
stages match, the stage that joins them matches as well: bindings that meet multiply the
weights, on either side. What a stage does not hand on may differ, and nobody reads it.
-/

namespace CausalTrace

open Weighing

namespace Query

variable {a : Arena} {pack counted c c' : Bool} {taken taken' : String → Bool} {s s' : Stage}
  {js js' : List (String × Query)} {q q' u u' : Query} {env : Binding}
  {v : VarId} {K keys : List VarId}
  {m : ℕ} {p : Pass} {earlier passes : List Pass} {gs : List Aggregate} {P : VarId → Prop}

/-! ## Deliveries with their weights -/

/-- What a joined stage delivers, with the counts that are taken of it. -/
def tagged (a : Arena) (take : Bool) (m : ℕ) (u : Query) (passes : List Pass) :
    List (Binding × (Fin m → ℕ)) :=
  (u.stage.delivered (u.arrivals a passes)).map fun env =>
    (env, if take then lanes m (u.stage.shape.defines.map env.tally) else 1)

theorem counters_cons_of_pos {j : String × Query} {i : ℕ} (h : taken j.1 = true) :
    counters taken (j :: js) i = j.2.stage.shape.defines.getD i ⟨0⟩ :: counters taken js i := by
  rw [counters, List.filter_cons, if_pos h]
  rfl

theorem counters_cons_of_neg {j : String × Query} {i : ℕ} (h : taken j.1 = false) :
    counters taken (j :: js) i = counters taken js i := by
  rw [counters, List.filter_cons, if_neg (Bool.eq_false_iff.mp h)]
  rfl

/-- A joined stage that has counted has its counts multiply those of the others. -/
theorem stake_cons {j : String × Query} (h : taken j.1 = true → j.2.stage.shape.defines.length = m)
    (env : Binding) : stake taken (j :: js) m env =
      stake taken js m env * if taken j.1 then lanes m
        (j.2.stage.shape.defines.map env.tally) else 1 := by
  funext i
  cases htaken : taken j.1 with
  | false =>
      rw [stake, counters_cons_of_neg htaken, if_neg Bool.false_ne_true, mul_one]
      rfl
  | true =>
      have hi : i.val < j.2.stage.shape.defines.length := h htaken ▸ i.isLt
      have hlane : lanes m (j.2.stage.shape.defines.map env.tally) i =
          env.tally (j.2.stage.shape.defines.getD i ⟨0⟩) := by
        rw [lanes, List.getD_eq_getElem?_getD, List.getD_eq_getElem?_getD, List.getElem?_map,
          List.getElem?_eq_getElem hi]
        rfl
      rw [stake, counters_cons_of_pos htaken, List.map_cons, List.prod_cons, mul_comm, if_pos rfl,
        Pi.mul_apply, hlane]
      rfl

/-- A stake depends on the counts that are brought. -/
theorem stake_congr {env' : Binding}
    (h : ∀ j ∈ js, taken j.1 = true → ∀ v ∈ j.2.stage.shape.defines, env v = env' v)
    (hm : ∀ j ∈ js, taken j.1 = true → j.2.stage.shape.defines.length = m) :
    stake taken js m env = stake taken js m env' := by
  funext i
  refine congrArg List.prod (List.map_congr_left fun c hc => Binding.tally_congr ?_)
  obtain ⟨j, hj, htaken, hdefined⟩ := exists_of_mem_counters hm i.isLt hc
  exact h j hj htaken c hdefined

/-- Where bindings of joined stages meet, their counts multiply. -/
theorem meet_tagged (ho : a.Ordered) (hscoped : ∀ j ∈ js, j.2.Scoped a true)
    (hn : (joinsDefine js).Nodup) (hm : ∀ j ∈ js, taken j.1 = true →
      j.2.stage.shape.defines.length = m) :
    meet (js.map fun j => tagged a (taken j.1) m j.2 passes) =
      (meetings (joinsDeliver a js passes)).map fun env => (env, stake taken js m env) := by
  induction js with
  | nil => rfl
  | cons j js ih =>
      obtain ⟨hj, hjs⟩ := List.forall_mem_cons.mp hscoped
      obtain ⟨hmj, hmjs⟩ := List.forall_mem_cons.mp hm
      have hrest : (joinsDefine js).Nodup := (List.nodup_append.mp hn).2.1
      rw [List.map_cons, meet, ih hjs hrest hmjs, joinsDeliver, meetings,
        List.flatMap_map, List.map_flatMap]
      refine List.flatMap_congr fun right hright => ?_
      rw [tagged, List.map_map, List.map_map]
      refine List.map_congr_left fun left hleft => Prod.ext rfl ?_
      -- What either side defines, the other side does not bind.
      have hfirst : ∀ v ∈ j.2.stage.shape.defines, (left.beside right).tally v = left.tally v := by
        intro v hv
        have hnone := meeting_eq_none ho hjs (not_defines_of_head hn (defines_of_shape hv)) hright
        exact Binding.tally_congr (by rw [Binding.beside_apply, hnone, Option.or_none])
      have hothers : stake taken js m (left.beside right) = stake taken js m right := by
        refine stake_congr (fun k hk _ v hv => ?_) hmjs
        have hnone : left v = none := delivered_eq_none ho hj
          (fun hv' => not_defines_of_head hn hv' k hk (defines_of_shape hv)) left hleft
        rw [Binding.beside_apply, hnone, Option.none_or]
      show _ = stake taken (j :: js) m (left.beside right)
      rw [stake_cons hmj, hothers, List.map_congr_left hfirst]
      rfl

/-- What a binding that comes in makes arrive, by its row. -/
def landing (a : Arena) (s : Stage) (K : List VarId) (m : ℕ) (p : Pass) (base : Binding) :
    List (Row × (Fin m → ℕ)) :=
  ((s.arrive a ((s.observedOn p).beside base)).map fun env => (env.row K, 1)).toList

/-- What arrives in one pass weighs as much as the bindings that meet. -/
theorem arrivalsIn_spread (ho : a.Ordered) (hscoped : ∀ j ∈ js, j.2.Scoped a true)
    (hn : (node s js).defines.Nodup)
    (hm : ∀ j ∈ js, taken j.1 = true → j.2.stage.shape.defines.length = m) :
    (s.arrivalsIn a (joinsDeliver a js passes) p).map
      (fun env => (env.row K, stake taken js m env)) =
      if p.tracepoint = s.source.tracepoint.name then
        spread (meet (js.map fun j => tagged a (taken j.1) m j.2 passes)) (landing a s K m p)
      else [] := by
  rw [Stage.arrivalsIn]
  split
  · have hjoins : (joinsDefine js).Nodup := (List.nodup_append.mp hn).2.1
    rw [meet_tagged ho hscoped hjoins hm, spread, List.flatMap_map, List.map_filterMap,
      List.filterMap_eq_flatMap_toList]
    refine List.flatMap_congr fun base hbase => ?_
    rw [landing]
    cases harrive : s.arrive a ((s.observedOn p).beside base) with
    | none => rfl
    | some env =>
        have hstake : stake taken js m env = stake taken js m base := by
          refine stake_congr (fun j hj _ v hv => ?_) hm
          have hnot := not_defines_of_joined hn hj (defines_of_shape hv)
          rw [Stage.mem_defines_iff, not_or, not_or] at hnot
          rw [((Stage.arrive_eq_some_iff ho).mp harrive).1.outside _ hnot.2.1, Binding.beside_apply,
            Stage.observedOn_within p _ hnot.1, Option.none_or]
        rw [Option.map_some, hstake, Option.toList_some, Option.map_some, Option.toList_some,
          List.map_singleton, mul_one]
  · rfl

/-- Stages that let the same bindings arrive. -/
structure Admits (s s' : Stage) : Prop where
  source : s'.source = s.source
  observed : s'.observed = s.observed
  lets : s'.lets = s.lets
  wheres : s'.wheres = s.wheres

/-- What a binding makes arrive depends on what the stage reads. -/
theorem blind_landing (hlets : ∀ v ∈ s.lets.map (·.2), ∀ u ∈ a.reads v, ¬ P u)
    (hwheres : ∀ w ∈ s.wheres, ∀ v ∈ w.args, ¬ P v) (hK : ∀ v ∈ K, ¬ P v) :
    Blind P (landing a s K m p) := by
  intro base base' he
  have harrive := Stage.arrive_agreeOff hlets hwheres
    (Binding.AgreeOff.beside
      (fun v _ => rfl : Binding.AgreeOff P (s.observedOn p) (s.observedOn p)) he)
  rw [landing, landing]
  generalize s.arrive a ((s.observedOn p).beside base) = r at harrive
  generalize s.arrive a ((s.observedOn p).beside base') = r' at harrive
  cases harrive with
  | none => rfl
  | some henv =>
      rw [Option.map_some, Option.map_some, (henv.agree hK).row_eq fun v hv => hv]

theorem Admits.arrive (h : Admits s s') (base : Binding) : s'.arrive a base = s.arrive a base := by
  rw [Stage.arrive, Stage.arrive, h.lets, h.wheres]

theorem Admits.arrivalsIn (h : Admits s s') {bags : List (List Binding)} :
    s'.arrivalsIn a bags p = s.arrivalsIn a bags p := by
  simp only [Stage.arrivalsIn, h.source, h.arrive, Stage.observedOn_congr h.observed]

theorem Admits.arrivals (h : Admits s s') (passes : List Pass) :
    (node s' js).arrivals a passes = (node s js).arrivals a passes := by
  induction passes with
  | nil => rfl
  | cons p passes ih => rw [arrivals_cons, arrivals_cons, ih, h.arrivalsIn]

theorem landing_congr (h : Admits s s') : landing a s' K m p = landing a s K m p := by
  funext base
  rw [landing, landing, h.arrive, Stage.observedOn_congr h.observed]

/-- The joined queries of two queries, one by one, deliver the same weight. -/
def Deliver (a : Arena) (P : VarId → Prop) (m : ℕ) (taken taken' : String → Bool)
    (js js' : List (String × Query)) (passes : List Pass) : Prop :=
  List.Forall₂ (fun j j' => BalancedOff P (tagged a (taken j.1) m j.2 passes)
    (tagged a (taken' j'.1) m j'.2 passes)) js js'

/-- Where joined queries deliver the same weight, the same weight arrives. -/
theorem balanced_arrivals (hadmits : Admits s s') (ho : a.Ordered)
    (hscoped : ∀ j ∈ js, j.2.Scoped a true) (hscoped' : ∀ j ∈ js', j.2.Scoped a true)
    (hn : (node s js).defines.Nodup) (hn' : (node s' js').defines.Nodup)
    (hm : ∀ j ∈ js, taken j.1 = true → j.2.stage.shape.defines.length = m)
    (hm' : ∀ j ∈ js', taken' j.1 = true → j.2.stage.shape.defines.length = m)
    (hlets : ∀ v ∈ s.lets.map (·.2), ∀ u ∈ a.reads v, ¬ P u)
    (hwheres : ∀ w ∈ s.wheres, ∀ v ∈ w.args, ¬ P v) (hK : ∀ v ∈ K, ¬ P v)
    (hjoins : ∀ earlier, earlier <:+ passes → Deliver a P m taken taken' js js' earlier) :
    Balanced (((node s js).arrivals a passes).map fun env => (env.row K, stake taken js m env))
      (((node s' js').arrivals a passes).map fun env => (env.row K, stake taken' js' m env)) := by
  induction passes with
  | nil => exact .refl _
  | cons p earlier ih =>
      have hpast := ih fun past hpast => hjoins past (hpast.trans (List.suffix_cons p earlier))
      rw [arrivals_cons, arrivals_cons, List.map_append, List.map_append]
      refine hpast.append ?_
      rw [arrivalsIn_spread ho hscoped hn hm, arrivalsIn_spread ho hscoped' hn' hm', hadmits.source,
        landing_congr hadmits]
      split
      · refine BalancedOff.meet ?_ _ (blind_landing hlets hwheres hK)
        exact List.forall₂_map_left_iff.mpr
          (List.forall₂_map_right_iff.mpr (hjoins (p :: earlier) (List.suffix_refl _)))
      · exact .refl _

/-! ## Queries that find the same -/

/-- The second query finds the same as the first: the same bindings, apart from what it does
not hand on, or groups that weigh the same. -/
structure Matches (a : Arena) (pack : Bool) (q q' : Query) (passes : List Pass) : Prop where
  rows : (∀ keys gs, q'.stage.shape ≠ .group keys gs) →
    List.Forall₂ (Binding.AgreeOff fun v => v ∈ q'.defines ∧ v ∉ q'.stage.uses pack)
      (q.arrivals a passes) (q'.arrivals a passes)
  groups : ∀ keys gs, q'.stage.shape = .group keys gs →
    Balanced (q.weighted a q'.stage.grouping gs.length passes)
      (q'.weighted a q'.stage.grouping gs.length passes)

/-- The second stage delivers no more than the first, in the same shape, but may count in
another way. -/
structure Alike (s s' : Stage) : Prop where
  outputs : ∀ v ∈ s'.outputs, v ∈ s.outputs
  shape : s'.shape = s.shape ∨ ∃ keys gs gs', s.shape = .group keys gs ∧
    s'.shape = .group keys gs' ∧
    gs'.map (·.var) = gs.map (·.var)

theorem Alike.group (h : Alike s s') (hs : s'.shape = .group keys gs) :
    ∃ fs, s.shape = .group keys fs ∧ gs.map (·.var) = fs.map (·.var) ∧ fs.length = gs.length := by
  rcases h.shape with he | ⟨_, fs, _, hfs, hgs, hvars⟩
  · exact ⟨gs, he ▸ hs, rfl, rfl⟩
  · rw [hs] at hgs
    cases hgs
    have hlength := congrArg List.length hvars
    rw [List.length_map, List.length_map] at hlength
    exact ⟨fs, hfs, hvars, hlength.symm⟩

/-- The second stage groups by no more than the first. -/
theorem Alike.grouping (h : Alike s s') (hs : s'.shape = .group keys gs) (hv : v ∈ s'.grouping) :
    v ∈ s.grouping := by
  obtain ⟨fs, hfs, hvars, _⟩ := h.group hs
  rw [mem_grouping hs] at hv
  rw [mem_grouping hfs, ← hvars]
  exact hv.imp_right fun hv => ⟨h.outputs v hv.1, hv.2⟩

theorem Alike.eq_of_not_group (h : Alike s s') (hs : ∀ keys gs, s'.shape ≠ .group keys gs) :
    s.shape = s'.shape := by
  rcases h.shape with he | ⟨_, _, _, _, hgs, _⟩
  · exact he.symm
  · exact absurd hgs (hs _ _)

/-- Counts that are taken are what is collected. -/
theorem tagged_eq (h : Tallied a passes counted q) (hq : Sound a false pack q)
    (hs : q.stage.shape = .group keys gs) (hm : gs.length = m)
    (hout : ∀ g ∈ gs, g.var ∈ q.stage.outputs) : tagged a true m q passes =
      (collected (q.weighted a q.stage.grouping m passes)).map fun p =>
        (.ofRow (q.stage.grouping ++ gs.map (·.var)) (p.1 ++ (Groups.columns p.2).map .int),
          p.2) := by
  have hall : ∀ g ∈ gs, q.stage.outputs.contains g.var = true := fun g hg =>
    List.contains_iff_mem.mpr (hout g hg)
  rw [tagged, h.delivered hq hs hm, List.map_map, List.filter_eq_self.mpr hall]
  refine List.map_congr_left fun p hp => ?_
  rw [Function.comp_apply, picked_eq_self hall (Groups.length_columns.trans hm.symm), if_pos rfl]
  refine Prod.ext rfl ?_
  funext i
  have hi : i.val < (gs.map (·.var)).length := by
    rw [List.length_map, hm]
    exact i.isLt
  have hvar : (gs.map (·.var))[i.val]? = some (gs.map (·.var))[i.val] := List.getElem?_eq_getElem hi
  have hvalue : Binding.ofRow (q.stage.grouping ++ gs.map (·.var))
      (p.1 ++ (Groups.columns p.2).map .int) (gs.map (·.var))[i.val] =
        some (.int (.ofNat (p.2 i))) := by
    cases q with
    | node s js => exact ofRow_columns hq hs hm (length_collected hp) i hvar
  show lanes _ _ i = p.2 i
  rw [lanes, hs, Shape.defines, List.getD_eq_getElem?_getD, List.getElem?_map, hvar]
  exact Binding.tally_of_eq hvalue (h.collected hq hs hm hp i).2

/-- Tests that see some of the columns by which a stage groups, and no counts, see what arrives. -/
theorem balanced_tagged (h : Tallied a passes counted q) (hq : Sound a false pack q)
    (hs : q.stage.shape = .group keys gs) (hm : gs.length = m)
    (hout : ∀ g ∈ gs, g.var ∈ q.stage.outputs)
    (hcounts : ∀ g ∈ gs, P g.var) (hsub : ∀ v ∈ K, v ∈ q.stage.grouping)
    (hrest : ∀ v ∈ q.stage.grouping, v ∉ K → P v) {f : Binding → List (Row × (Fin m → ℕ))}
    (hf : Blind P f) : Balanced (spread (tagged a true m q passes) f)
      (spread (q.weighted a K m passes) fun row => f (.ofRow K row)) := by
  have hkeys : ∀ p ∈ collected (q.weighted a q.stage.grouping m passes),
      f (.ofRow (q.stage.grouping ++ gs.map (·.var)) (p.1 ++ (Groups.columns p.2).map .int)) =
        f (.ofRow q.stage.grouping p.1) := by
    refine fun p hp => hf fun v hv => ?_
    have hnot : v ∉ gs.map (·.var) := fun hm => by
      obtain ⟨g, hg, rfl⟩ := List.mem_map.mp hm
      exact hv (hcounts g hg)
    rw [Binding.ofRow_append (length_collected hp), Binding.beside_apply,
      Binding.ofRow_eq_none hnot, Option.or_none]
  have hrows : ∀ env : Binding, f (.ofRow q.stage.grouping (env.row q.stage.grouping)) =
      f (.ofRow K (env.row K)) := by
    refine fun env => hf fun v hv => ?_
    by_cases hK : v ∈ K
    · rw [Binding.ofRow_row hK, Binding.ofRow_row (hsub v hK)]
    · rw [Binding.ofRow_eq_none hK, Binding.ofRow_eq_none fun hg => hv (hrest v hg hK)]
  have htagged : spread (tagged a true m q passes) f =
      spread (collected (q.weighted a q.stage.grouping m passes))
        fun row => f (.ofRow q.stage.grouping row) := by
    rw [tagged_eq h hq hs hm hout, spread, spread, List.flatMap_map]
    exact List.flatMap_congr fun p hp => by rw [hkeys p hp]
  have hfine : spread (q.weighted a q.stage.grouping m passes)
        (fun row => f (.ofRow q.stage.grouping row)) =
      spread (q.weighted a K m passes) fun row => f (.ofRow K row) := by
    rw [weighted, weighted, spread, spread, List.flatMap_map, List.flatMap_map]
    exact List.flatMap_congr fun env _ => by rw [hrows env]
  rw [htagged, ← hfine]
  exact (balanced_collected _).spread _

section

variable (h : Matches a true u u' passes) (hface : Alike u.stage u'.stage)
  (hu : Sound a false true u) (hu' : Sound a false true u') (ht : Tallied a passes c u)
  (ht' : Tallied a passes c' u')

include h hface hu hu' ht ht'

/-- Of a stage whose counts are taken matching queries deliver the same weight. -/
theorem Matches.balancedOff (hs : u'.stage.shape = .group keys gs) (hm : gs.length = m)
    (hout : ∀ v ∈ u'.stage.shape.defines, v ∈ u'.stage.outputs)
    (hdefines : ∀ v ∈ u.defines, v ∈ u'.defines)
    (hP : ∀ v ∈ u'.defines, v ∉ u'.stage.unpackedBag.names → P v)
    (hcounts : ∀ v ∈ u'.stage.shape.defines, P v) :
    BalancedOff P (tagged a true m u passes) (tagged a true m u' passes) := by
  subst hm
  obtain ⟨fs, hfs, hvars, hlength⟩ := hface.group hs
  rw [hs] at hout hcounts
  have hout' : ∀ g ∈ gs, g.var ∈ u'.stage.outputs := fun g hg => hout g.var (List.mem_map_of_mem hg)
  have hcounts' : ∀ g ∈ gs, P g.var := fun g hg => hcounts g.var (List.mem_map_of_mem hg)
  -- The aggregates of both are the same variables.
  have hfvars : ∀ g ∈ fs, g.var ∈ gs.map (·.var) := fun g hg => hvars ▸ List.mem_map_of_mem hg
  have hgrouping : ∀ v ∈ u'.stage.grouping, v ∈ u.stage.grouping := fun v hv => hface.grouping hs hv
  have hrest : ∀ v ∈ u.stage.grouping, v ∉ u'.stage.grouping → P v := by
    intro v hv hno
    have hbound : v ∈ u.defines := by
      have hscoped := ht.scoped hu
      refine delivered_defined hscoped v (Stage.mem_names_iff.mpr ?_)
      rw [hfs]
      exact ((mem_grouping hfs).mp hv).imp_right And.left
    rw [mem_grouping hs, not_or] at hno
    refine hP v (hdefines v hbound) fun hname => ?_
    rcases Stage.mem_names_iff.mp hname with hk | ho
    · rw [hs] at hk
      exact hno.1 hk
    · refine hno.2 ⟨ho, hno.1, ?_⟩
      rw [hvars]
      cases u
      exact grouping_not_defines hu hfs v hv
  intro f hf
  have hfirst : Balanced (spread (tagged a true gs.length u passes) f)
      (spread (u.weighted a u'.stage.grouping gs.length passes) fun row =>
        f (.ofRow u'.stage.grouping row)) := by
    refine balanced_tagged ht hu hfs hlength (fun g hg => ?_) (fun g hg => ?_) hgrouping hrest hf
    · exact hface.outputs _ (hout _ (hfvars g hg))
    · exact hcounts _ (hfvars g hg)
  refine hfirst.trans (((h.groups keys gs hs).spread _).trans (Balanced.symm ?_))
  exact balanced_tagged ht' hu' hs rfl hout' hcounts' (fun _ hv => hv)
    (fun _ hv hno => absurd hv hno) hf

/-- Matching queries deliver the same, apart from what the second one does not hand on. -/
theorem Matches.delivered (hpassed : u.stage.passed = []) (hpassed' : u'.stage.passed = [])
    (hP : ∀ v ∈ u'.defines, v ∉ u'.stage.unpackedBag.names → P v) :
    List.Forall₂ (Binding.AgreeOff P) (u.stage.delivered (u.arrivals a passes))
      (u'.stage.delivered (u'.arrivals a passes)) := by
  by_cases hgroup : ∃ keys gs, u'.stage.shape = .group keys gs
  · obtain ⟨keys, gs, hs⟩ := hgroup
    obtain ⟨fs, hfs, hvars, hlength⟩ := hface.group hs
    have hgrouping : u.stage.grouping = keys := by rw [grouping_eq hfs, hpassed, List.append_nil]
    have hgrouping' : u'.stage.grouping = keys := by rw [grouping_eq hs, hpassed', List.append_nil]
    have hsame := (h.groups keys gs hs).collected
    rw [hgrouping'] at hsame
    have hfirst := ht.delivered hu hfs hlength
    have hlast := ht'.delivered hu' hs rfl
    rw [hgrouping] at hfirst
    rw [hgrouping'] at hlast
    -- What is not delivered is a result that the second query does not hand on.
    have hleft : ∀ v ∈ gs.map (·.var), v ∉ u'.stage.outputs → P v := by
      intro v hv hout
      have hdefined : v ∈ u'.stage.shape.defines := by rw [hs]; exact hv
      refine hP v (defines_of_shape hdefined) fun hname => ?_
      rcases Stage.mem_names_iff.mp hname with hk | ho
      · exact hu'.not_shape_of_key hk hdefined
      · exact hout ho
    rw [hfirst, hlast, ← hsame, List.forall₂_map_left_iff, List.forall₂_map_right_iff]
    refine List.forall₂_same.mpr fun p hp v hv => ?_
    have hkey : p.1.length = keys.length := length_collected hp
    have hcolumns : (Groups.columns p.2).length = gs.length := Groups.length_columns
    -- Both agree with the group of all columns.
    refine (Binding.agreeOff_picked hkey (hcolumns.trans hlength.symm) (fun g hg hno => ?_)
      v hv).symm.trans ?_
    · refine hleft g.var (hvars ▸ List.mem_map_of_mem hg) fun hout => hno ?_
      exact List.contains_iff_mem.mpr (hface.outputs _ hout)
    · rw [← hvars]
      refine Binding.agreeOff_picked hkey hcolumns (fun g hg hno => ?_) v hv
      exact hleft g.var (List.mem_map_of_mem hg) fun hout => hno (List.contains_iff_mem.mpr hout)
  · have hno : ∀ keys gs, u'.stage.shape ≠ .group keys gs := fun keys gs hs => hgroup ⟨keys, gs, hs⟩
    have hshape := hface.eq_of_not_group hno
    refine Stage.forall₂_delivered hshape.symm (hshape ▸ hno)
      ((h.rows hno).imp fun _ _ he => he.mono ?_)
    refine fun v hv => hP v hv.1 fun hname => hv.2 ?_
    rw [Stage.uses]
    cases hs : u'.stage.shape with
    | unfinished | select _ | filter _ =>
        rw [Stage.mem_names_iff, hs] at hname
        exact hname.resolve_left List.not_mem_nil
    | group keys gs => exact absurd hs (hno keys gs)

end

theorem balancedOff_untaken
    (h : List.Forall₂ (Binding.AgreeOff P) (u.stage.delivered (u.arrivals a passes))
    (u'.stage.delivered (u'.arrivals a passes))) :
    BalancedOff P (tagged a false m u passes) (tagged a false m u' passes) := by
  refine .of_forall₂ ?_
  rw [tagged, tagged, List.forall₂_map_left_iff, List.forall₂_map_right_iff]
  exact h.imp fun _ _ he => ⟨he, rfl⟩

/-! ## Stages over joined queries that match -/

/-- A variable that the joined queries do not hand on, or only as a count that is taken. -/
def Unseen (taken : String → Bool) (js : List (String × Query)) (v : VarId) : Prop :=
  ∃ j ∈ js, v ∈ j.2.defines ∧ v ∉ j.2.stage.unpackedBag.names ∨
    taken j.1 = true ∧ v ∈ j.2.stage.shape.defines

theorem Unseen.defined (h : Unseen taken js v) : v ∈ (node s js).defines := by
  obtain ⟨j, hj, ⟨hv, _⟩ | ⟨_, hv⟩⟩ := h
  · exact defines_of_joined hj hv
  · exact defines_of_joined hj (defines_of_shape hv)

/-- What is bound, and is not just a count, is seen. -/
theorem not_unseen (hq : Sound a false pack (node s js)) (hv : v ∈ (node s js).bound)
    (hinner : ¬ Inner taken s js v) : ¬ Unseen taken js v := by
  rintro ⟨j, hj, ⟨hdefined, hname⟩ | hcount⟩
  · have hnot := not_defines_of_joined hq.formed.distinct hj hdefined
    rw [Stage.mem_defines_iff, not_or, not_or] at hnot
    rw [bound, incoming, List.mem_append, List.mem_append] at hv
    rcases hv with (ho | hd) | hl
    · exact hnot.1 ho
    · obtain ⟨k, hk, hv⟩ := List.mem_flatMap.mp hd
      have hjoined := (hq.joined hk).supplied.delivers_defined v hv
      obtain rfl := eq_of_joined_defines hq.formed.distinct hj hk hdefined hjoined
      exact hname hv
    · exact hnot.2.1 hl
  · exact hinner (Or.inr ⟨j, hj, hcount⟩)

/-- A stage reads nothing that is unseen. -/
structure Sees (a : Arena) (P : VarId → Prop) (s : Stage) : Prop where
  lets : ∀ v ∈ s.lets.map (·.2), ∀ u ∈ a.reads v, ¬ P u
  wheres : ∀ w ∈ s.wheres, ∀ v ∈ w.args, ¬ P v

theorem Counts.sees (h : Counts a taken s js) (hq : Sound a false pack (node s js)) :
    Sees a (Unseen taken js) s.bare := by
  obtain ⟨hown, _, _⟩ := hq.supplied
  refine ⟨fun v hv u hu => ?_, fun w hw v hv => ?_⟩
  · refine not_unseen hq (hown.lets v (Stage.mem_lets_bare.mp hv).1 u hu) fun hinner => ?_
    obtain ⟨l, hl, rfl⟩ := List.mem_map.mp hv
    exact (h.inner u hinner).2.2.2 l hl hu
  · exact not_unseen hq (hown.wheres w hw v hv) fun hinner => (h.inner v hinner).2.2.1 w hw hv

theorem Counts.grouping_seen (h : Counts a taken s js) (hq : Sound a false pack (node s js))
    (hs : s.shape = .group keys gs) : ∀ v ∈ s.grouping, ¬ Unseen taken js v := by
  obtain ⟨hown, _, _⟩ := hq.supplied
  intro v hv
  have hinner : ¬ Inner taken s js v := fun hinner => by
    obtain ⟨hkeys, hout, _⟩ := h.inner v hinner
    rw [hs] at hkeys
    rcases (mem_grouping hs).mp hv with hk | ⟨ho, _⟩
    · exact hkeys hk
    · exact hout ho
  refine not_unseen hq ?_ hinner
  rw [grouping_eq hs, List.mem_append] at hv
  rcases hv with hk | hp
  · refine hown.uses v (Stage.mem_uses_of_key ?_)
    rw [hs]
    exact hk
  · exact h.passed v hp

section

variable (hcounts : Counts a taken s js) (hcounts' : Counts a taken' s' js')
  (hq : Sound a false pack (node s js)) (hq' : Sound a false pack (node s' js'))
  (hjoined : ∀ j ∈ js, Tallied a passes c j.2) (hjoined' : ∀ j ∈ js', Tallied a passes c' j.2)
  (hfits : Fits a counted taken s js passes) (hadmits : Admits s.bare s'.bare) (hface : Alike s s')

include hcounts hcounts' hq hq' hjoined hjoined' hfits hadmits hface

omit hfits in
/-- Where joined queries deliver the same weight, the same weight arrives without products. -/
theorem Counts.balanced_bare (hs : s'.shape = .group keys gs)
    (hdeliver : ∀ earlier, earlier <:+ passes →
      Deliver a (Unseen taken' js') gs.length taken taken' js js' earlier)
    (hK : ∀ v ∈ K, v ∈ s'.grouping) :
    Balanced (((node s.bare js).arrivals a passes).map
      fun env => (env.row K, stake taken js gs.length env))
      (((node s'.bare js').arrivals a passes).map fun env =>
        (env.row K, stake taken' js' gs.length env)) := by
  obtain ⟨fs, hfs, _, hlength⟩ := hface.group hs
  have hm : s.shape.aggregates.length = gs.length := by rw [hfs]; exact hlength
  have hm' : s'.shape.aggregates.length = gs.length := by rw [hs]; rfl
  have hsees := hcounts'.sees hq'
  refine balanced_arrivals hadmits hq.formed.ordered
    (fun j hj => (hjoined j hj).scoped (hq.joined hj))
    (fun j hj => (hjoined' j hj).scoped (hq'.joined hj))
    ((defines_bare.append (List.Sublist.refl _)).nodup hq.formed.distinct)
    ((defines_bare.append (List.Sublist.refl _)).nodup hq'.formed.distinct)
    (fun j hj ht => (hcounts.shares j hj ht).2.1.trans hm)
    (fun j hj ht => (hcounts'.shares j hj ht).2.1.trans hm') ?_ ?_
    (fun v hv => hcounts'.grouping_seen hq' hs v (hK v hv)) hdeliver
  · rw [← hadmits.lets]
    exact hsees.lets
  · rw [← hadmits.wheres]
    exact hsees.wheres

/-- Over joined queries that deliver the same weight, grouping stages find the same groups. -/
theorem Counts.regroup (hs : s'.shape = .group keys gs)
    (hdeliver : ∀ earlier, earlier <:+ passes →
      Deliver a (Unseen taken' js') gs.length taken taken' js js' earlier) :
    Fits a counted taken' s' js' passes ∧ Matches a pack (node s js) (node s' js') passes := by
  obtain ⟨fs, hfs, _, hlength⟩ := hface.group hs
  have hm : s.shape.aggregates.length = gs.length := by rw [hfs]; exact hlength
  have hm' : s'.shape.aggregates.length = gs.length := by rw [hs]; rfl
  have hbare := fun K (hK : ∀ v ∈ K, v ∈ s'.grouping) =>
    hcounts.balanced_bare hcounts' hq hq' hjoined hjoined' hadmits hface hs hdeliver hK
  have hload : load taken' js' keys gs.length ((node s'.bare js').arrivals a passes) =
      load taken js keys gs.length ((node s.bare js).arrivals a passes) := by
    refine funext fun row => ((hbare keys fun v hv => ?_).weight row).symm
    rw [grouping_eq hs]
    exact List.mem_append_left _ hv
  have hfits' : Fits a counted taken' s' js' passes := by
    refine ⟨fun _ hflat => absurd (hs ▸ hflat) Shape.not_flat_group, ?_⟩
    have hold := hfits.load
    have hkeys : s.shape.keys = keys := by rw [hfs]; rfl
    have hkeys' : s'.shape.keys = keys := by rw [hs]; rfl
    rw [hm, hkeys] at hold
    rw [hm', hkeys', hload]
    exact hold
  refine ⟨hfits', fun hno => absurd hs (hno keys gs), fun keys' gs' hs' => ?_⟩
  rw [stage_node, hs] at hs'
  cases hs'
  have hweighted := (Tallied.weighed hcounts hfits hq hjoined).weighted
    fun v hv => hcounts.grouping_sums hfs v (hface.grouping hs hv)
  have hweighted' := (Tallied.weighed hcounts' hfits' hq' hjoined').weighted
    (hcounts'.grouping_sums hs)
  rw [hm] at hweighted
  rw [hm'] at hweighted'
  rw [stage_node, hweighted, hweighted']
  exact hbare _ fun _ hv => hv

omit hq hjoined hjoined' in
/-- Over joined queries that deliver the same bindings, other stages find the same. -/
theorem Counts.rerow (hno : ∀ keys gs, s'.shape ≠ .group keys gs)
    (hbags : ∀ earlier, earlier <:+ passes → List.Forall₂
      (List.Forall₂ (Binding.AgreeOff (Unseen taken' js'))) (joinsDeliver a js earlier)
        (joinsDeliver a js' earlier)) :
    Fits a counted taken' s' js' passes ∧ Matches a pack (node s js) (node s' js') passes := by
  have hshape := hface.eq_of_not_group hno
  have hplain : Plain taken s js := hcounts.plain_of_not_group (hshape ▸ hno)
  have hplain' : Plain taken' s' js' := hcounts'.plain_of_not_group hno
  have hsees := hcounts'.sees hq'
  rw [hplain.bare_eq, hplain'.bare_eq] at hadmits
  rw [hplain'.bare_eq] at hsees
  have hrows : ∀ earlier, earlier <:+ passes → List.Forall₂ (Binding.AgreeOff (Unseen taken' js'))
      ((node s js).arrivals a earlier) ((node s' js').arrivals a earlier) := by
    intro earlier hearlier
    induction earlier with
    | nil => exact .nil
    | cons p earlier ih =>
        rw [arrivals_cons, arrivals_cons, ← hadmits.arrivalsIn]
        refine List.rel_append (ih ((List.suffix_cons p earlier).trans hearlier)) ?_
        exact Stage.arrivalsIn_agreeOff hsees.lets hsees.wheres (hbags _ hearlier)
  have hall := hrows passes (List.suffix_refl _)
  refine ⟨fits_of_not_group hno fun hcounted hflat => ?_,
    fun _ => hall.imp fun _ _ he => he.mono fun v hv => ⟨hv.defined, ?_⟩,
    fun keys gs hs => absurd hs (hno keys gs)⟩
  · rw [← hall.length_eq]
    exact hfits.rows hcounted (hshape ▸ hflat)
  · intro huses
    obtain ⟨hown, _, _⟩ := hq'.supplied
    exact not_unseen hq' (hown.uses v huses) hplain'.not_inner hv

end

/-- One by one, the second queries are joined in place of the first, which they match. -/
def Rejoined (a : Arena) (passes : List Pass) (js js' : List (String × Query)) : Prop :=
  List.Forall₂ (fun j j' => j'.1 = j.1 ∧ Alike j.2.stage j'.2.stage ∧
    (∀ v ∈ j.2.defines, v ∈ j'.2.defines) ∧
    ∀ earlier, earlier <:+ passes → Matches a true j.2 j'.2 earlier) js js'

theorem Rejoined.past (h : Rejoined a passes js js') (hpast : earlier <:+ passes) :
    Rejoined a earlier js js' :=
  h.imp fun _ _ hj => ⟨hj.1, hj.2.1, hj.2.2.1, fun _ hearlier => hj.2.2.2 _ (hearlier.trans hpast)⟩

section

variable (hcounts : Counts a taken s js) (hcounts' : Counts a taken s' js')
  (hq : Sound a false pack (node s js)) (hq' : Sound a false pack (node s' js'))
  (hjoined : ∀ j ∈ js, Tallied a passes c j.2) (hjoined' : ∀ j ∈ js', Tallied a passes c' j.2)
  (hrejoined : Rejoined a passes js js') {j j' : String × Query} (hzip : (j, j') ∈ js.zip js')

include hcounts hcounts' hq hq' hjoined hjoined' hrejoined

include hzip in
/-- Of matching queries whose counts are not taken the same is delivered. -/
theorem Counts.delivered_of_untaken (htaken : taken j'.1 = false) :
    List.Forall₂ (Binding.AgreeOff (Unseen taken js')) (j.2.stage.delivered (j.2.arrivals a passes))
      (j'.2.stage.delivered (j'.2.arrivals a passes)) := by
  obtain ⟨_, hpairs⟩ := List.forall₂_iff_zip.mp hrejoined
  obtain ⟨hj, hj'⟩ := List.of_mem_zip hzip
  obtain ⟨halias, hface, _, hmatches⟩ := hpairs hzip
  refine (hmatches passes (List.suffix_refl _)).delivered hface (hq.joined hj) (hq'.joined hj')
    (hjoined j hj) (hjoined' j' hj') (hcounts.others j hj (halias ▸ htaken))
    (hcounts'.others j' hj' htaken) fun v hv hname => ?_
  exact ⟨j', hj', Or.inl ⟨hv, hname⟩⟩

omit hcounts in
include hzip in
/-- Of matching queries whose counts are taken the same weight is delivered. -/
theorem Counts.balancedOff_of_taken (hs : s'.shape = .group keys gs) (htaken : taken j'.1 = true) :
    BalancedOff (Unseen taken js') (tagged a true gs.length j.2 passes)
      (tagged a true gs.length j'.2 passes) := by
  obtain ⟨_, hpairs⟩ := List.forall₂_iff_zip.mp hrejoined
  obtain ⟨hj, hj'⟩ := List.of_mem_zip hzip
  obtain ⟨_, hface, hdefines, hmatches⟩ := hpairs hzip
  obtain ⟨⟨ks, fs, hfs⟩, hm, hout⟩ := hcounts'.shares j' hj' htaken
  have hm' : fs.length = gs.length := by
    rw [hfs, hs, Shape.defines, List.length_map] at hm
    exact hm
  refine (hmatches passes (List.suffix_refl _)).balancedOff hface (hq.joined hj) (hq'.joined hj')
    (hjoined j hj) (hjoined' j' hj') hfs hm' hout hdefines ?_ ?_
  · exact fun v hv hname => ⟨j', hj', Or.inl ⟨hv, hname⟩⟩
  · exact fun v hv => ⟨j', hj', Or.inr ⟨htaken, hv⟩⟩

/-- Over joined queries that match, a stage finds the same at any time. -/
theorem Counts.rejoin (hfits : Fits a counted taken s js passes) (hadmits : Admits s.bare s'.bare)
    (hface : Alike s s') : ∀ past, past <:+ passes →
      Fits a counted taken s' js' past ∧ Matches a pack (node s js) (node s' js') past := by
  intro past hpast
  have hearly : ∀ {earlier}, earlier <:+ past → earlier <:+ passes := fun h => h.trans hpast
  have hlength := hrejoined.length_eq
  by_cases hgroup : ∃ keys gs, s'.shape = .group keys gs
  · obtain ⟨keys, gs, hs⟩ := hgroup
    refine hcounts.regroup hcounts' hq hq' (fun j hj => (hjoined j hj).past hpast)
      (fun j hj => (hjoined' j hj).past hpast) (hfits.past hpast) hadmits hface hs
      fun earlier hearlier => ?_
    refine List.forall₂_iff_zip.mpr ⟨hlength, fun {j j'} hzip => ?_⟩
    obtain ⟨halias, _⟩ := (List.forall₂_iff_zip.mp hrejoined).2 hzip
    have hpasts : ∀ k ∈ js, Tallied a earlier c k.2 :=
      fun k hk => (hjoined k hk).past (hearly hearlier)
    have hpasts' : ∀ k ∈ js', Tallied a earlier c' k.2 :=
      fun k hk => (hjoined' k hk).past (hearly hearlier)
    have hagain := hrejoined.past (hearly hearlier)
    rw [← halias]
    cases htaken : taken j'.1 with
    | false =>
        refine balancedOff_untaken ?_
        exact hcounts.delivered_of_untaken hcounts' hq hq' hpasts hpasts' hagain hzip htaken
    | true => exact hcounts'.balancedOff_of_taken hq hq' hpasts hpasts' hagain hzip hs htaken
  · have hno : ∀ keys gs, s'.shape ≠ .group keys gs := fun keys gs hs => hgroup ⟨keys, gs, hs⟩
    have hplain : Plain taken s' js' := hcounts'.plain_of_not_group hno
    refine hcounts.rerow hcounts' hq' (hfits.past hpast) hadmits hface hno
      fun earlier hearlier => ?_
    rw [joinsDeliver_eq, joinsDeliver_eq]
    refine List.forall₂_map_left_iff.mpr (List.forall₂_map_right_iff.mpr ?_)
    refine List.forall₂_iff_zip.mpr ⟨hlength, fun {j j'} hzip => ?_⟩
    exact hcounts.delivered_of_untaken hcounts' hq hq'
      (fun k hk => (hjoined k hk).past (hearly hearlier))
      (fun k hk => (hjoined' k hk).past (hearly hearlier)) (hrejoined.past (hearly hearlier)) hzip
      (hplain.untaken j' (List.of_mem_zip hzip).2)

end

end Query

end CausalTrace
