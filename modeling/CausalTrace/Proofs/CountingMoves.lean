import CausalTrace.Proofs.Recounting

/-!
# Moving work keeps counts

When a let or a condition moves to a joined stage, what arrives at the stage it comes from stays
the same, so all there is to see is that the joined stage still counts. When a stage leaves out
what nobody reads, it keeps the counts that are taken of it, as the products read them. Its groups
are told apart by less then, and weigh together what they weighed before.
-/

namespace CausalTrace

open Weighing Defining

namespace Query

variable {a : Arena} {pack counted : Bool} {taken : String → Bool} {s s' t : Stage}
  {js ks before after : List (String × Query)} {q q' u : Query} {v : VarId} {w : Condition}
  {keys : List VarId} {l : String × VarId} {left : List Condition}
  {needed : Bool} {passes : List Pass}
  {aliasName : String}

/-! ## Moving down -/

theorem Matches.of_arrivals (h : q'.arrivals a passes = q.arrivals a passes)
    (hshape : q'.stage.shape = q.stage.shape) : Matches a pack q q' passes := by
  have hweights : ∀ m, q'.stage.weights m = q.stage.weights m := fun m => by
    funext env
    rw [Stage.weights, Stage.weights, hshape]
  refine ⟨fun _ => ?_, fun _ gs _ => .of_eq ?_⟩
  · rw [h]
    exact List.forall₂_same.mpr fun _ _ _ _ => rfl
  · rw [weighted, weighted, h]
    simp only [hweights]

theorem not_group_of_flat (hs : s.shape.Flat) : ∀ keys gs, s.shape ≠ .group keys gs :=
  fun _ _ hgroup =>
  Shape.not_flat_group (hgroup ▸ hs)

/-- A flat stage counts by itself, if at all. -/
theorem Counts.plain (h : Counts a taken s js) (hs : s.shape.Flat) : Plain taken s js :=
  h.plain_of_not_group (not_group_of_flat hs)

theorem passed_of_flat (hs : s.shape.Flat) : s.passed = [] := by
  rcases hs with hs | ⟨_, hs⟩
  · rw [Stage.passed, hs]
  · rw [Stage.passed, hs]

/-- A flat query with one more let still counts. -/
theorem Tallied.withLet (h : Tallied a passes counted u) (hflat : u.stage.shape.Flat)
    (harrivals : ((u.withStage (·.withLet l needed)).arrivals a passes).length ≤
      (u.arrivals a passes).length) :
    Tallied a passes counted (u.withStage (·.withLet l needed)) := by
  cases u with
  | node t ks =>
      obtain ⟨taken, hcounts, hfits, hjoined⟩ := h
      have hplain := hcounts.plain hflat
      have hflat' : (t.withLet l needed).shape.Flat := hflat
      have hplain' : Plain taken (t.withLet l needed) ks := ⟨hplain.aggregates, hplain.untaken⟩
      refine .node taken (hplain'.counts (hplain.others hcounts) fun v hv => ?_)
        (fits_of_not_group (not_group_of_flat hflat') fun hcounted _ => ?_) hjoined
      · rw [passed_of_flat hflat'] at hv
        cases hv
      · exact harrivals.trans_lt (hfits.rows hcounted hflat)

/-- The query that takes a let still counts. -/
theorem LetMoves.tallied (hm : LetMoves a s u l) (ho : a.Ordered) (hu : Sound a false true u)
    (hnot : l.2 ∉ u.defines) (h : Tallied a passes counted u) :
    Tallied a passes counted (u.withStage (·.withLet l needed)) := by
  have hflat' : (u.withStage (·.withLet l needed)).stage.shape.Flat := by
    rw [stage_withStage]
    exact hm.flat
  have hdelivered : (u.withStage (·.withLet l needed)).stage.delivered
        ((u.withStage (·.withLet l needed)).arrivals a passes) =
      (u.stage.delivered (u.arrivals a passes)).filterMap (·.compute a l.2) :=
    hm.delivered ho hu.supplied hnot passes
  rw [delivered_of_flat hm.flat, delivered_of_flat hflat'] at hdelivered
  refine h.withLet hm.flat ?_
  rw [hdelivered]
  exact List.length_filterMap_le _ _

theorem stake_of_plain (h : Plain taken s js) {m : ℕ} : stake taken js m = fun _ => 1 := by
  funext env i
  rw [stake, h.counters_eq_nil]
  rfl

/-- Bindings that are counted by themselves weigh one each. -/
theorem load_of_plain (h : Plain taken s js) {m : ℕ} {envs : List Binding} (row : Row) (i : Fin m) :
    load taken js keys m envs row i = (envs.filter (·.row keys = row)).length := by
  rw [load, stake_of_plain h, weight, Pi.list_sum_apply, List.filter_map, List.map_map,
    List.map_map, Function.comp_def, Function.comp_def, List.map_const',
    List.sum_replicate, smul_eq_mul]
  exact mul_one _

/-- Moving a let keeps counts. -/
theorem recounts_pushOneLet (hq : Sound a false pack q) (ht : Tallied a passes counted q)
    (hpush : q.pushOneLet a = some (aliasName, q')) : Recounts a a pack counted passes q q' := by
  obtain ⟨hsound, hrefits⟩ := hq.pushOneLet hpush
  have hscoped := ht.scoped hq
  cases q with
  | node s js =>
      obtain ⟨l, before, u, after, rfl, hm, rfl⟩ := pushOneLet_eq_some hq.formed hpush
      generalize hneeded : ((s.withoutLet l).needs a).contains l.2 = needed at hsound hrefits ⊢
      have harrivals : ∀ earlier, (node (s.withoutLet l)
          (before ++ (aliasName, u.withStage (·.withLet l needed)) :: after)).arrivals a earlier =
            (node s (before ++ (aliasName, u) :: after)).arrivals a earlier :=
              hm.arrivals hq.formed hscoped
      have hmem : (aliasName, u) ∈ before ++ (aliasName, u) :: after := List.mem_append_cons_self
      obtain ⟨taken, hcounts, hfits, hjoined⟩ := ht
      -- No let leaves a stage that sums products, as it joins no flat query any more.
      have hplain : Plain taken s (before ++ (aliasName, u) :: after) :=
        hcounts.plain_of_flat_join ⟨_, hmem, hm.flat⟩
      have hplain' : Plain taken (s.withoutLet l)
          (before ++ (aliasName, u.withStage (·.withLet l needed)) :: after) :=
        ⟨hplain.aggregates, forall_joins_replace hplain.untaken
          (hplain.untaken (aliasName, u) hmem)⟩
      have hcounts' : Counts a taken (s.withoutLet l)
          (before ++ (aliasName, u.withStage (·.withLet l needed)) :: after) := by
        refine hplain'.counts (forall_joins_replace (hplain.others hcounts) (passed_of_flat ?_))
          fun v hv => ?_
        · rw [stage_withStage]
          exact hm.flat
        · refine hm.bound_of_needed hq.formed (fun hl => ?_)
            (hq.joined hmem).supplied (hcounts.passed v hv)
            fun _ => Stage.mem_needs_iff.mpr (Or.inl (mem_passed.mp hv).2.1)
          rw [← hneeded]
          exact List.contains_iff_mem.mpr hl
      have hu : Tallied a passes (s.countsOn counted) (u.withStage (·.withLet l needed)) :=
        hm.tallied hq.formed.ordered (hq.joined hmem)
          (hm.not_mem_defines hq.formed.distinct) (hjoined _ hmem)
      refine ⟨hsound, hrefits, .node taken hcounts' ⟨fun hcounted hflat => ?_, fun row i => ?_⟩
        (forall_joins_replace hjoined hu),
        ⟨fun _ hv => hv, Or.inl rfl⟩, rfl, fun earlier _ => .of_arrivals (harrivals earlier) rfl⟩
      · rw [harrivals]
        exact hfits.rows hcounted hflat
      · have hload := hfits.load row
        rw [hplain.bare_eq, load, stake_of_plain hplain] at hload
        rw [hplain'.bare_eq, load, stake_of_plain hplain', harrivals]
        exact hload i

theorem sublist_filterMap_test (envs : List Binding) : (envs.filterMap w.test).Sublist envs := by
  induction envs with
  | nil => exact List.Sublist.refl _
  | cons env envs ih =>
      rw [List.filterMap_cons, Condition.test]
      split
      · next hnone => exact ih.cons env
      · next env' hsome =>
          split at hsome
          · cases hsome
            exact ih.cons_cons env
          · cases hsome

/-- A query with one more condition still counts, if the condition reads no counts that are
taken. -/
theorem Tallied.withWhere (h : Tallied a passes counted u) (ho : a.Ordered)
    (htakes : u.stage.shape.Flat ∨ ∃ keys gs, u.stage.shape = .group keys gs ∧
      ∀ v ∈ w.args, v ∈ keys) :
    Tallied a passes counted (u.withStage (·.withWhere w)) := by
  cases u with
  | node t ks =>
      obtain ⟨taken, hcounts, hfits, hjoined⟩ := h
      have harrivals : (Query.node (t.withWhere w) ks).arrivals a passes =
          ((Query.node t ks).arrivals a passes).filterMap w.test :=
        Stage.arrivals_filterMap rfl rfl fun base =>
          Stage.arrive_of_where_last ho rfl (List.perm_append_singleton _ _)
      have hbare : (Query.node (t.withWhere w).bare ks).arrivals a passes =
          ((Query.node t.bare ks).arrivals a passes).filterMap w.test :=
        Stage.arrivals_filterMap rfl rfl fun base =>
          Stage.arrive_of_where_last ho rfl (List.perm_append_singleton _ _)
      refine .node taken ⟨?_, hcounts.shares, hcounts.others, fun v hv => ?_, hcounts.passed⟩
        ⟨fun hcounted hflat => ?_, fun row i => ?_⟩ hjoined
      · exact hcounts.form.imp (fun hplain => ⟨hplain.aggregates, hplain.untaken⟩)
          fun hcollapsed => ⟨hcollapsed.group, hcollapsed.firm, hcollapsed.products⟩
      · have hinner : Inner taken t ks v := hv
        obtain ⟨hkeys, hout, hwheres, hlets⟩ := hcounts.inner v hinner
        refine ⟨hkeys, hout, fun w' hw' => ?_, hlets⟩
        rcases List.mem_append.mp hw' with hw' | hw'
        · exact hwheres w' hw'
        · rw [List.mem_singleton.mp hw']
          rcases htakes with hflat | ⟨keys, gs, hs, hargs⟩
          · exact absurd hinner (hcounts.plain hflat).not_inner
          · rw [stage_node] at hs
            rw [hs] at hkeys
            exact fun hv => hkeys (hargs v hv)
      · rw [harrivals]
        exact (List.length_filterMap_le _ _).trans_lt (hfits.rows hcounted hflat)
      · rw [hbare]
        exact (load_mono (sublist_filterMap_test _) row i).trans_lt (hfits.load row i)

/-- Moving a condition keeps counts. -/
theorem recounts_pushOneWhere (hq : Sound a false pack q) (ht : Tallied a passes counted q)
    (hpush : q.pushOneWhere = some (aliasName, q')) : Recounts a a pack counted passes q q' := by
  obtain ⟨hsound, hrefits⟩ := hq.pushOneWhere hpush
  have hscoped := ht.scoped hq
  cases q with
  | node s js =>
      obtain ⟨w, left, before, u, after, rfl, hm, rfl⟩ := pushOneWhere_eq_some hq.formed hpush
      have harrivals := hm.arrivals hq.formed hscoped
      have hmem : (aliasName, u) ∈ before ++ (aliasName, u) :: after := List.mem_append_cons_self
      obtain ⟨taken, hcounts, hfits, hjoined⟩ := ht
      have hface : Alike u.stage (u.withStage (·.withWhere w)).stage := by
        rw [stage_withStage]
        exact ⟨fun _ hv => hv, Or.inl rfl⟩
      have hreplaced : Replaced (before ++ (aliasName, u) :: after)
          (before ++ (aliasName, u.withStage (·.withWhere w)) :: after) :=
        List.rel_append (List.forall₂_same.mpr fun _ _ => ⟨rfl, .refl⟩)
          (.cons ⟨rfl, hface⟩ (List.forall₂_same.mpr fun _ _ => ⟨rfl, .refl⟩))
      have hless : Lessens s { s with wheres := left } :=
        ⟨rfl, rfl, fun w' hw' => hm.perm.mem_iff.mpr (List.mem_cons_of_mem w hw'), fun _ hv => hv⟩
      have hcounts' : Counts a taken { s with wheres := left }
          (before ++ (aliasName, u.withStage (·.withWhere w)) :: after) := by
        refine hcounts.rebuild hless hreplaced ?_ fun v hv => ?_
        · refine forall_joins_replace (fun j hj htaken => (hcounts.shares j hj htaken).2.2)
            fun htaken => ?_
          rw [stage_withStage]
          exact (hcounts.shares (aliasName, u) hmem htaken).2.2
        · rw [bound_whereMoved]
          exact hcounts.passed v hv
      have hu : Tallied a passes (s.countsOn counted) (u.withStage (·.withWhere w)) :=
        (hjoined _ hmem).withWhere hq.formed.ordered (hm.takes.imp And.left id)
      refine ⟨hsound, hrefits, .node taken hcounts' ⟨fun hcounted hflat => ?_, fun row i => ?_⟩
        (forall_joins_replace hjoined hu),
        ⟨fun _ hv => hv, Or.inl rfl⟩, rfl, fun earlier _ => .of_arrivals (harrivals earlier) rfl⟩
      · rw [harrivals]
        exact hfits.rows hcounted hflat
      · have hbare : (node ({ s with wheres := left } : Stage).bare
            (before ++ (aliasName, u.withStage (·.withWhere w)) :: after)).arrivals a passes =
              (node s.bare (before ++ (aliasName, u) :: after)).arrivals a passes := by
          have hmoves : WhereMoves s.bare u w left := ⟨hm.perm, hm.takes⟩
          refine hmoves.arrivals_of_apart hq.formed.ordered (fun j hj => ?_) ?_ passes
          · exact (hjoined j hj).scoped (hq.joined hj)
          · exact (defines_bare.append (List.Sublist.refl _)).nodup hq.formed.distinct
        have hstake :
            ∀ m, stake taken (before ++ (aliasName, u.withStage (·.withWhere w)) :: after) m =
            stake taken (before ++ (aliasName, u) :: after) m := fun m => by
          funext env i
          rw [stake, stake, hreplaced.counters]
        rw [hbare, load, hstake]
        exact hfits.load row i

/-- Moving lets and conditions keeps counts. -/
theorem recounts_pushDown {m : Moves} (hq : Sound a false pack q)
    (ht : Tallied a passes counted q) : Recounts a a pack counted passes q (q.pushDown m a).1 := by
  refine pushDown_induct (P := fun r _ => Recounts a a pack counted passes q r)
    (fun _ _ _ _ _ h hpush => ?_) (fun _ _ _ _ _ h hpush => ?_) (.refl hq ht)
  · exact h.trans hq.formed.known (recounts_pushOneLet h.sound h.tallied hpush)
  · exact h.trans hq.formed.known (recounts_pushOneWhere h.sound h.tallied hpush)

/-! ## Leaving out what nobody reads -/

/-- A count that is taken is needed, for a product reads it. -/
theorem Counts.needs (h : Counts a taken s js) {j : String × Query} (hj : j ∈ js)
    (htaken : taken j.1 = true) (hv : v ∈ j.2.stage.shape.defines) (hlets : s'.lets = s.lets) :
    v ∈ s'.needs a := by
  have hcollapsed : Collapsed a taken s js :=
    h.form.resolve_left fun hplain => hplain.not_taken hj htaken
  obtain ⟨_, hlength, _⟩ := h.shares j hj htaken
  obtain ⟨i, hi⟩ := List.mem_iff_getElem?.mp hv
  have hlt : i < s.shape.aggregates.length := hlength ▸ (List.getElem?_eq_some_iff.mp hi).1
  obtain ⟨_, p, hp, _, name, hdefinition⟩ := hcollapsed.products i _ (List.getElem?_eq_getElem hlt)
  obtain ⟨l, hl, rfl⟩ := List.mem_map.mp hp
  refine Stage.mem_needs_iff.mpr (Or.inr (Or.inl ⟨l, hlets ▸ hl, ?_⟩))
  rw [Arena.reads_computed hdefinition]
  refine mem_counters.mpr ⟨j, hj, htaken, ?_⟩
  rw [List.getD_eq_getElem?_getD, hi]
  rfl

/-- The second query is the first one with less to deliver. -/
structure Lessened (a : Arena) (counted : Bool) (passes : List Pass) (u u' : Query) : Prop where
  tallied : Tallied a passes counted u'
  alike : Alike u.stage u'.stage
  found : ∀ earlier, earlier <:+ passes → Matches a true u u' earlier

theorem mem_bound_pruneJoins {needed : List VarId} (hobserved : s'.observed = s.observed)
    (hlets : s'.lets = s.lets) (hv : v ∈ (node s js).bound) (hn : v ∈ needed) :
    v ∈ (node s' (pruneJoins a needed js)).bound := by
  simp only [bound, incoming, stage_node, joins_node, List.mem_append, List.mem_flatMap] at hv ⊢
  rw [hobserved, hlets]
  refine hv.imp_left fun hv => hv.imp_right ?_
  rintro ⟨j, hj, hv⟩
  rw [pruneJoins_eq]
  exact ⟨_, List.mem_map_of_mem hj, names_pruneTo hv hn⟩

/-- Over joined queries that deliver what is needed a stage counts as before. -/
theorem Counts.prune (hcounts : Counts a taken s js) (hfits : Fits a counted taken s js passes)
    (hq : Sound a false pack (node s js)) (hnarrowed : s.Narrowed s')
    (hq' : Sound a false pack (node s' (Query.pruneJoins a (s'.needs a) js)))
    (hjoined : ∀ j ∈ js, Tallied a passes (s.countsOn counted) j.2)
    (hpruned : ∀ j ∈ js, Lessened a (s.countsOn counted) passes j.2 (j.2.pruneTo a (s'.needs a))) :
    Tallied a passes counted (node s' (Query.pruneJoins a (s'.needs a) js)) ∧
      ∀ earlier, earlier <:+ passes →
      Matches a pack (node s js) (node s' (Query.pruneJoins a (s'.needs a) js)) earlier := by
  have heq := hnarrowed.eq
  have hsource : s'.source = s.source := by rw [heq]
  have hobserved : s'.observed = s.observed := by rw [heq]
  have hlets : s'.lets = s.lets := by rw [heq]
  have hwheres : s'.wheres = s.wheres := by rw [heq]
  have hless : Lessens s s' := ⟨hnarrowed.shape, hlets, fun w hw => hwheres ▸ hw, hnarrowed.outputs⟩
  have hadmits : Admits s.bare s'.bare := ⟨hsource, hobserved, hless.lets_bare, hwheres⟩
  have hface : Alike s s' := ⟨hnarrowed.outputs, Or.inl hnarrowed.shape⟩
  have hjoins : Query.pruneJoins a (s'.needs a) js = js.map fun j =>
      (j.1, j.2.pruneTo a (s'.needs a)) :=
    pruneJoins_eq js
  have hrejoined : Rejoined a passes js (Query.pruneJoins a (s'.needs a) js) := by
    rw [hjoins]
    refine List.forall₂_map_right_iff.mpr (List.forall₂_same.mpr fun j hj => ?_)
    obtain ⟨_, halike, hfound⟩ := hpruned j hj
    exact ⟨rfl, halike, fun v hv => (defines_pruneTo j.2 _).symm ▸ hv, hfound⟩
  have hmem : ∀ j' ∈ Query.pruneJoins a (s'.needs a) js,
      ∃ j ∈ js, (j.1, j.2.pruneTo a (s'.needs a)) = j' := by
    rw [hjoins]
    exact fun j' hj' => List.mem_map.mp hj'
  have hcounts' : Counts a taken s' (Query.pruneJoins a (s'.needs a) js) := by
    refine hcounts.rebuild hless (replaced_of_rejoined hrejoined) (fun j' hj' htaken v hv => ?_)
      fun v hv => ?_
    · obtain ⟨j, hj, rfl⟩ := hmem j' hj'
      obtain ⟨_, _, hout⟩ := hcounts.shares j hj htaken
      have hdefined : v ∈ j.2.stage.shape.defines := (hpruned j hj).alike.defines_eq ▸ hv
      have hname := names_pruneTo (a := a) (Stage.mem_names_iff.mpr (Or.inr (hout v hdefined)))
        (hcounts.needs hj htaken hdefined hlets)
      refine (Stage.mem_names_iff.mp hname).resolve_left fun hkey => ?_
      exact (hq'.joined hj').not_shape_of_key hkey hv
    · refine mem_bound_pruneJoins hobserved hlets (hcounts.passed v (hface.passed hv)) ?_
      exact Stage.mem_needs_iff.mpr (Or.inl (mem_passed.mp hv).2.1)
  have hjoined' :
      ∀ j' ∈ Query.pruneJoins a (s'.needs a) js, Tallied a passes (s'.countsOn counted) j'.2 := by
    rw [Stage.countsOn, hnarrowed.shape]
    intro j' hj'
    obtain ⟨j, hj, rfl⟩ := hmem j' hj'
    exact (hpruned j hj).tallied
  have hfind := hcounts.rejoin hcounts' hq hq' hjoined hjoined' hrejoined hfits hadmits hface
  exact ⟨.node taken hcounts' (hfind passes (List.suffix_refl _)).1 hjoined',
    fun earlier hearlier => (hfind earlier hearlier).2⟩

/-- A query that delivers less counts as before. -/
theorem Tallied.pruneTo (h : Tallied a passes counted u)
    (hu : Sound a false true u) (needed : List VarId) :
    Lessened a counted passes u (u.pruneTo a needed) := by
  induction u generalizing needed counted with
  | node s js ih =>
      have hstay : Lessened a counted passes (Query.node s js) (Query.node s js) :=
        ⟨h, .refl, fun _ _ => .refl⟩
      have hu' : Sound a false true ((Query.node s js).pruneTo a needed) := hu.pruneTo
      rcases pruneTo_node a s js needed with he | he
      · rw [he]
        exact hstay
      · rw [he] at hu' ⊢
        obtain ⟨taken, hcounts, hfits, hjoined⟩ := h
        have hnarrowed : s.Narrowed (s.keeping needed) := Stage.narrowed_keeping needed
        obtain ⟨htallied, hfound⟩ := hcounts.prune hfits hu hnarrowed hu' hjoined fun j hj =>
          ih j hj (hjoined j hj) (hu.joined hj) _
        exact ⟨htallied, ⟨hnarrowed.outputs, Or.inl hnarrowed.shape⟩, hfound⟩

/-- Leaving out what nobody reads keeps counts. -/
theorem recounts_prune (hq : Sound a false pack q) (ht : Tallied a passes counted q) :
    Recounts a a pack counted passes q (q.prune a) := by
  obtain ⟨hsound, hrefits⟩ := hq.prune
  cases q with
  | node s js =>
      obtain ⟨taken, hcounts, hfits, hjoined⟩ := ht
      obtain ⟨htallied, hfound⟩ := hcounts.prune hfits hq .refl hsound hjoined fun j hj =>
        (hjoined j hj).pruneTo (hq.joined hj) _
      exact ⟨hsound, hrefits, htallied, .refl, rfl, hfound⟩

end Query

end CausalTrace
