import CausalTrace.Proofs.CountingMoves

/-!
# Shares of counts

A grouping stage that counts has its flat joined stages group first by all that they deliver,
and count what they find once for each of its own counts. Each of these becomes a sum of
products, of one count of every stage that has counted.
-/

namespace CausalTrace

open Weighing Defining

/-- The stage that groups by what it delivers, and counts once for each of some variables. -/
def Stage.tallying (t : Stage) (keys : List VarId) (outputs : Ascending VarId)
    (cs : List VarId) : Stage :=
  { t with
    outputs := outputs
    shape := .group (keys.filter t.outputs.contains) (cs.map fun c => ⟨c, .count, none⟩) }

namespace Query

variable {a b : Arena} {s s' : Stage} {js js' shared : List (String × Query)} {aliasName : String}
  {u u' : Query} {keys residual kept delivered cs : List VarId}
  {gs done : List Aggregate} {g : Aggregate}
  {S : Sharing} {n : ℕ}

/-! ## One joined query -/

/-- The second query counts what the first one finds, once for each of some new variables. -/
structure TookCounts (a : Arena) (keys cs : List VarId) (u u' : Query) : Prop where
  flat : u.stage.shape.Flat
  stage : ∃ outputs : Ascending VarId, (∀ v, v ∈ outputs ↔ v ∈ u.stage.outputs ∨ v ∈ cs) ∧
    u' = u.withStage (·.tallying keys outputs cs)
  new : ∀ c ∈ cs, ¬ a.Knows c

theorem map_var_counts (cs : List VarId) :
    (cs.map fun c => (⟨c, .count, none⟩ : Aggregate)).map (·.var) = cs := by
  rw [List.map_map]
  exact List.map_id _

theorem TookCounts.groups (h : TookCounts a keys cs u u') :
    u'.stage.shape = .group (keys.filter u.stage.outputs.contains)
      (cs.map fun c => ⟨c, .count, none⟩) := by
  obtain ⟨outputs, _, rfl⟩ := h.stage
  rw [stage_withStage]
  rfl

theorem TookCounts.defines_eq (h : TookCounts a keys cs u u') : u'.stage.shape.defines = cs := by
  rw [h.groups]
  exact map_var_counts cs

theorem TookCounts.mem_outputs (h : TookCounts a keys cs u u') {v : VarId} :
    v ∈ u'.stage.outputs ↔ v ∈ u.stage.outputs ∨ v ∈ cs := by
  obtain ⟨outputs, houtputs, rfl⟩ := h.stage
  rw [stage_withStage]
  exact houtputs v

/-- Counts read nothing that a joined query delivers, so they are left as they are. -/
theorem foldlM_shareOne_counts (hgs : ∀ g ∈ gs, g.input = none) :
    gs.foldlM (shareOne kept delivered) S =
      (pure { S with combined := S.combined ++ gs } : Defining Sharing) := by
  induction gs generalizing S with
  | nil => simp
  | cons g gs ih =>
      obtain ⟨hg, hgs⟩ := List.forall_mem_cons.mp hgs
      have hone : shareOne kept delivered S g = pure { S with combined := S.combined ++ [g] } := by
        rw [shareOne, hg]
      rw [List.foldlM_cons, hone, pure_bind, ih hgs, List.append_assoc]
      rfl

theorem share_counts (hgs : ∀ g ∈ gs, g.input = none) :
    share keys residual gs u = pure (u.withStage (·.tallying keys u.stage.outputs []), gs) := by
  rw [share, foldlM_shareOne_counts hgs, pure_bind]
  cases u
  rfl

/-- A query that has counted so far counts once more. -/
theorem leads_countRows_took (h : TookCounts a keys cs u u') (hp : a.defs <+: b.defs) :
    (countRows (aliasName, u')).Leads b fun r c => ∃ u'', r.1 = (aliasName, u'') ∧
      TookCounts a keys (cs ++ [r.2]) u u'' ∧ b.defs <+: c.defs := by
  obtain ⟨hflat, ⟨outputs, houtputs, rfl⟩, hnew⟩ := h
  generalize hv : (b.define (.aggregated .count none)).1 = v
  have hrun : (countRows (aliasName, u.withStage (·.tallying keys outputs cs))).Leads b fun r c =>
      r = ((aliasName, u.withStage (·.tallying keys (outputs.insert v) (cs ++ [v]))), v) ∧
        b.defs <+: c.defs := by
    refine ⟨?_, Arena.prefix_define⟩
    cases u
    simp only [withStage, Stage.tallying, List.map_append, ← hv]
    rfl
  refine hrun.mono ?_
  rintro r c ⟨rfl, hp'⟩
  refine ⟨_, rfl, ⟨hflat, ⟨_, fun w => ?_, rfl⟩, fun w hw => ?_⟩, hp'⟩
  · rw [Ascending.mem_insert, houtputs, List.mem_append, List.mem_singleton, or_comm, or_assoc]
  · rcases List.mem_append.mp hw with hw | hw
    · exact hnew w hw
    · obtain rfl : w = v := List.mem_singleton.mp hw
      have hfresh : ¬ b.Knows w := hv ▸ Arena.not_knows_define
      exact fun hk => hfresh (hk.of_extension hp)

/-! ## All joined queries -/

/-- The flat ones among the joined queries have counted what they find `n` times: those joined
before, the ones that count by their aliases, and those joined after. -/
inductive Tallying (a : Arena) (keys : List VarId) (n : ℕ) :
    List (String × Query) → List (String × Query) → List (String × Query) → Prop where
  | nil : Tallying a keys n [] [] []
  | skip {j : String × Query} {js shared js' : List (String × Query)} :
      ¬ j.2.stage.shape.Flat → Tallying a keys n js shared js' →
        Tallying a keys n (j :: js) shared (j :: js')
  | take {aliasName : String} {u u' : Query} {cs : List VarId}
      {js shared js' : List (String × Query)} :
      TookCounts a keys cs u u' → cs.length = n → Tallying a keys n js shared js' →
        Tallying a keys n ((aliasName, u) :: js) ((aliasName, u') :: shared)
          ((aliasName, u') :: js')

/-- Of a grouping stage that counts every flat joined query takes its share. -/
theorem shareAll_counts (a : Arena) (hgs : ∀ g ∈ gs, g.input = none)
    (hvars : ∀ g ∈ gs, g.var ∉ residual) (js : List (String × Query)) :
    ∃ shared js', Tallying a keys 0 js shared js' ∧
      shareAll keys residual gs js = pure (shared, gs) := by
  induction js with
  | nil => exact ⟨[], [], .nil, rfl⟩
  | cons j js ih =>
      obtain ⟨aliasName, u⟩ := j
      obtain ⟨shared, js', htallying, hrun⟩ := ih
      rw [shareAll]
      by_cases htakes : takesShare residual gs u = true
      · have htook : TookCounts a keys [] u (u.withStage (·.tallying keys u.stage.outputs [])) :=
          ⟨flat_of_takesShare htakes, ⟨_, fun v => by simp, rfl⟩, List.forall_mem_nil _⟩
        refine ⟨_, _, .take htook rfl htallying, ?_⟩
        rw [if_pos htakes, share_counts hgs, pure_bind]
        dsimp only
        rw [hrun, pure_bind]
      · refine ⟨shared, _,
          .skip (fun hflat => htakes (takesShare_of_flat hflat hvars)) htallying, ?_⟩
        rw [if_neg htakes, hrun]

/-- All queries that have counted so far count once more. -/
theorem Tallying.leads_mapM (h : Tallying a keys n js shared js') (hp : a.defs <+: b.defs) :
    Leads (shared.mapM countRows) b fun r c =>
      (∃ js'', Tallying a keys (n + 1) js (r.map (·.1)) js'') ∧
      column (r.map (·.1)) n = r.map (·.2) ∧ (∀ i < n, column (r.map (·.1)) i = column shared i) ∧
        b.defs <+: c.defs := by
  induction h generalizing b with
  | nil => exact leads_pure ⟨⟨[], .nil⟩, rfl, fun _ _ => rfl, List.prefix_refl _⟩
  | skip hnot _ ih =>
      refine (ih hp).mono fun r c hr => ?_
      obtain ⟨⟨js'', htallying⟩, hrest⟩ := hr
      exact ⟨⟨_, .skip hnot htallying⟩, hrest⟩
  | @take aliasName u u' cs js shared js' htook hlength _ ih =>
      rw [List.mapM_cons]
      refine (leads_countRows_took htook hp).bind ?_
      rintro ⟨_, v⟩ b' ⟨u'', rfl, htook', hp'⟩
      refine (ih (hp.trans hp')).bind ?_
      rintro r c ⟨⟨js'', htallying⟩, hlast, hfirst, hp''⟩
      have hlength' : (cs ++ [v]).length = n + 1 := by
        rw [List.length_append, hlength]
        rfl
      refine leads_pure ⟨⟨_, .take htook' hlength' htallying⟩, ?_, fun i hi => ?_, hp'.trans hp''⟩
      · rw [column, List.map_map] at hlast
        rw [column, List.map_map, List.map_cons, List.map_cons, hlast, Function.comp_apply,
          htook'.defines_eq, List.getD_eq_getElem?_getD,
          List.getElem?_append_right hlength.le, hlength, Nat.sub_self]
        rfl
      · have hrest := hfirst i hi
        rw [column, column, List.map_map] at hrest
        rw [column, column, List.map_map, List.map_cons, List.map_cons, hrest, Function.comp_apply,
          htook'.defines_eq, htook.defines_eq, List.getD_eq_getElem?_getD,
          List.getD_eq_getElem?_getD, List.getElem?_append_left (hlength.symm ▸ hi)]

/-! ## Sums of products -/

theorem leads_define (d : Definition) : (Defining.define d).Leads b fun v c =>
    b.defs <+: c.defs ∧ c.definition? v = some d ∧ ¬ b.Knows v :=
  ⟨Arena.prefix_define, Arena.definition?_define, Arena.not_knows_define⟩

/-- What has become of some counts of a grouping stage, and of the stage that joins: every count
is the sum of a new let, the product of one count of each stage that has counted. -/
structure Collapses (a b : Arena) (keys : List VarId) (s s' : Stage)
    (js shared : List (String × Query)) (done : List Aggregate) : Prop where
  arena : a.defs <+: b.defs
  joins : ∃ js', Tallying a keys done.length js shared js'
  stage : ∃ more, s' = { s with lets := s.lets ++ more } ∧
    ∀ l ∈ more, ∃ g ∈ done, g.input = some l.2
  products : ∀ i g, done[i]? = some g → g.how = .sum ∧ ∃ l ∈ s'.lets, g.input = some l.2 ∧
    ¬ a.Knows l.2 ∧ b.definition? l.2 =
      some (.computed l.1 (productExpr (column shared i).length) (column shared i))

theorem Collapses.outputs_eq (h : Collapses a b keys s s' js shared done) :
    s'.outputs = s.outputs := by
  obtain ⟨_, rfl, _⟩ := h.stage
  rfl

theorem Collapses.wheres_eq (h : Collapses a b keys s s' js shared done) :
    s'.wheres = s.wheres := by
  obtain ⟨_, rfl, _⟩ := h.stage
  rfl

theorem Collapses.start (h : Tallying a keys 0 js shared js') :
    Collapses a a keys s s js shared [] :=
  ⟨List.prefix_refl _, ⟨js', h⟩, ⟨[], by rw [List.append_nil], List.forall_mem_nil _⟩,
    fun _ _ hi => by cases hi⟩

/-- One more count becomes the sum of a product. -/
theorem Collapses.leads_countOne (h : Collapses a b keys s s' js shared done)
    (hhow : g.how = .count) (hinput : g.input = none) :
    (countOne (node s' js) shared g).Leads b fun r c =>
      ∃ s'', r.1 = node s'' js ∧ r.2.2.var = g.var ∧
        Collapses a c keys s s'' js r.2.1 (done ++ [r.2.2]) := by
  obtain ⟨hp, ⟨js', htallying⟩, ⟨more, rfl, hmore⟩, hproducts⟩ := h
  rw [countOne, hhow, hinput]
  refine (htallying.leads_mapM hp).bind ?_
  rintro counted b' ⟨hjoins, hlast, hfirst, hp'⟩
  refine (leads_define _).bind ?_
  rintro v c ⟨hp'', hdefined, hfresh⟩
  generalize freshName _ "counts" = name at hdefined ⊢
  have hlength : (done ++ [(⟨g.var, .sum, some v⟩ : Aggregate)]).length = done.length + 1 := by
    rw [List.length_append]
    rfl
  have hshared : ∀ {b : Arena} {v : VarId} {d : Definition}, b.definition? v = some d → b.Knows v :=
    fun hd => (List.getElem?_eq_some_iff.mp hd).1
  refine leads_pure ⟨_, rfl, rfl, (hp.trans hp').trans hp'', hlength ▸ hjoins,
    ⟨more ++ [(name, v)], ?_, ?_⟩, fun i g' hi => ?_⟩
  · rw [← List.append_assoc]
  · intro l hl
    rcases List.mem_append.mp hl with hl | hl
    · obtain ⟨g', hg', hin⟩ := hmore l hl
      exact ⟨g', List.mem_append_left _ hg', hin⟩
    · rw [List.mem_singleton.mp hl]
      exact ⟨_, List.mem_concat_self, rfl⟩
  · by_cases hlt : i < done.length
    · rw [List.getElem?_append_left hlt] at hi
      obtain ⟨hsum, l, hl, hin, hnew, hproduct⟩ := hproducts i g' hi
      refine ⟨hsum, l, List.mem_append_left _ hl, hin, hnew, ?_⟩
      rw [hfirst i hlt, Arena.definition?_of_extension (hp'.trans hp'') (hshared hproduct)]
      exact hproduct
    · have hlast' : i = done.length := by
        have hbound := hlength ▸ (List.getElem?_eq_some_iff.mp hi).1
        omega
      subst hlast'
      rw [List.getElem?_append_right (Nat.le_refl _), Nat.sub_self] at hi
      cases hi
      refine ⟨rfl, (name, v), List.mem_concat_self, rfl, ?_, ?_⟩
      · exact fun hk => hfresh (hk.of_extension (hp.trans hp'))
      · rw [hlast]
        exact hdefined

/-- All counts become sums of products. -/
theorem Collapses.leads_countAll (h : Collapses a b keys s s' js shared done)
    (hgs : ∀ g ∈ gs, g.how = .count ∧ g.input = none) :
    (countAll (node s' js) shared gs).Leads b fun r c =>
      ∃ s'', r.1 = node s'' js ∧ r.2.2.map (·.var) = gs.map (·.var) ∧
        Collapses a c keys s s'' js r.2.1 (done ++ r.2.2) := by
  induction gs generalizing done s' shared b with
  | nil =>
      refine leads_pure ⟨s', rfl, rfl, ?_⟩
      rw [List.append_nil]
      exact h
  | cons g gs ih =>
      obtain ⟨⟨hhow, hinput⟩, hgs⟩ := List.forall_mem_cons.mp hgs
      rw [countAll]
      refine (h.leads_countOne hhow hinput).bind ?_
      rintro ⟨_, shared₁, g₁⟩ b₁ ⟨s₁, rfl, hvar, h₁⟩
      refine (ih h₁ hgs).bind ?_
      rintro ⟨_, shared₂, gs₂⟩ b₂ ⟨s₂, rfl, hvars, h₂⟩
      refine leads_pure ⟨s₂, rfl, ?_, ?_⟩
      · rw [List.map_cons, List.map_cons, hvar, hvars]
      · rw [List.append_assoc] at h₂
        exact h₂

/-! ## The stages that have counted -/

theorem Tallying.pairs (h : Tallying a keys n js shared js') :
    List.Forall₂ (fun j j' => j'.1 = j.1 ∧ (¬ j.2.stage.shape.Flat ∧ j'.2 = j.2 ∨
      ∃ cs, cs.length = n ∧ TookCounts a keys cs j.2 j'.2)) js js' := by
  induction h with
  | nil => exact .nil
  | skip hnot _ ih => exact .cons ⟨rfl, Or.inl ⟨hnot, rfl⟩⟩ ih
  | take htook hlength _ ih => exact .cons ⟨rfl, Or.inr ⟨_, hlength, htook⟩⟩ ih

theorem Tallying.filter (h : Tallying a keys n js shared js') {taken : String → Bool}
    (htaken : ∀ j ∈ js, taken j.1 = true ↔ j.2.stage.shape.Flat) :
    js'.filter (taken ·.1) = shared := by
  induction h with
  | nil => rfl
  | skip hnot _ ih =>
      obtain ⟨hj, hjs⟩ := List.forall_mem_cons.mp htaken
      rw [List.filter_cons, if_neg fun ht => hnot (hj.mp ht), ih hjs]
  | take htook _ _ ih =>
      obtain ⟨hj, hjs⟩ := List.forall_mem_cons.mp htaken
      rw [List.filter_cons, if_pos (hj.mpr htook.flat), ih hjs]

theorem TookCounts.arrivals (h : TookCounts a keys cs u u') (passes : List Pass) :
    u'.arrivals b passes = u.arrivals b passes := by
  obtain ⟨outputs, _, rfl⟩ := h.stage
  cases u with
  | node t ks =>
      have hadmits : Admits t (t.tallying keys outputs cs) := ⟨rfl, rfl, rfl, rfl⟩
      exact hadmits.arrivals passes

/-- A flat query that counts what it finds is one that counts. -/
theorem TookCounts.tallied {counted : Bool} {passes : List Pass} (h : TookCounts a keys cs u u')
    (hu : Sound b false true u) (ht : Tallied b passes (cs.length != 0) u) :
    Tallied b passes counted u' := by
  have harrivals := h.arrivals (b := b) passes
  have hgroups := h.groups
  obtain ⟨outputs, houtputs, rfl⟩ := h.stage
  cases u with
  | node t ks =>
      obtain ⟨taken, hcounts, hfits, hjoined⟩ := ht
      have hflat : t.shape.Flat := h.flat
      have hplain := hcounts.plain hflat
      have hplain' : Plain taken (t.tallying keys outputs cs) ks := by
        refine ⟨fun g hg => ?_, hplain.untaken⟩
        obtain ⟨c, _, rfl⟩ := List.mem_map.mp hg
        exact ⟨rfl, rfl⟩
      have hjoined' :
          ∀ j ∈ ks, Tallied b passes ((t.tallying keys outputs cs).countsOn counted) j.2 := by
        rw [Stage.countsOn_of_flat hflat] at hjoined
        rw [Stage.countsOn_of_group rfl, List.length_map]
        exact hjoined
      refine .node taken (hplain'.counts (hplain.others hcounts) fun v hv => ?_)
        ⟨fun _ hflat' => ?_, fun row i => ?_⟩ hjoined'
      · -- What is passed on, counts apart, has been delivered before.
        obtain ⟨_, hout, _, hdefines⟩ := mem_passed.mp hv
        have hc : v ∉ cs := h.defines_eq ▸ hdefines
        obtain ⟨hown, _, _⟩ := hu.supplied
        have huses := hown.uses
        rw [Stage.uses_of_flat hflat] at huses
        exact huses v (((houtputs v).mp hout).resolve_right hc)
      · exact absurd hflat' Shape.not_flat_group
      · rw [hplain'.bare_eq]
        have hsome : 0 < cs.length := i.pos.trans_eq (List.length_map _)
        have hrows := hfits.rows (bne_iff_ne.mpr hsome.ne') hflat
        rw [← harrivals] at hrows
        rw [load_of_plain hplain']
        exact (List.length_filter_le _ _).trans_lt hrows

theorem TookCounts.mem_grouping (h : TookCounts a keys cs u u') {v : VarId}
    (hv : v ∈ u'.stage.grouping) : v ∈ u.stage.outputs := by
  rcases (Query.mem_grouping h.groups).mp hv with hk | ⟨hout, _, hdefines⟩
  · exact List.contains_iff_mem.mp (List.mem_filter.mp hk).2
  · exact (h.mem_outputs.mp hout).resolve_right fun hc => hdefines ((map_var_counts cs).symm ▸ hc)

theorem TookCounts.mem_defines (h : TookCounts a keys cs u u') {v : VarId} (hv : v ∈ u.defines) :
    v ∈ u'.defines := by
  have hflat := h.flat
  obtain ⟨outputs, _, rfl⟩ := h.stage
  cases u with
  | node t ks =>
      refine mem_defines_node.mpr ((mem_defines_node.mp hv).imp_left fun hv => ?_)
      rcases Stage.mem_defines_iff.mp hv with hv | hv | hv
      · exact Stage.mem_defines_iff.mpr (Or.inl hv)
      · exact Stage.mem_defines_iff.mpr (Or.inr (Or.inl hv))
      · have hflat' : t.shape.Flat := hflat
        rw [shape_defines_of_flat hflat'] at hv
        cases hv

/-- A query hands on as much as one that counts what it finds. -/
theorem TookCounts.balancedOff {counted counted' : Bool} {passes : List Pass}
    {m : ℕ} {P : VarId → Prop} (h : TookCounts a keys cs u u') (hu : Sound b false true u)
    (hu' : Sound b false true u') (ht : Tallied b passes counted u)
    (ht' : Tallied b passes counted' u') (hm : cs.length = m)
    (hP : ∀ v ∈ u'.defines, v ∉ u'.stage.unpackedBag.names → P v) (hcounts : ∀ v ∈ cs, P v) :
    BalancedOff P (tagged b false m u passes) (tagged b true m u' passes) := by
  subst hm
  have hgroups := h.groups
  have hlength : (cs.map fun c => (⟨c, .count, none⟩ : Aggregate)).length = cs.length :=
    List.length_map _
  have hscoped := ht.scoped hu
  have hweights : ∀ env, u'.stage.weights cs.length env = 1 := by
    intro env
    funext i
    have hi : i.val < (cs.map fun c => (⟨c, .count, none⟩ : Aggregate)).length :=
      hlength.symm ▸ i.isLt
    rw [Stage.weights, lanes, hgroups, Shape.aggregates, List.getD_eq_getElem?_getD,
      List.getElem?_map, List.getElem?_eq_getElem hi, List.getElem_map]
    rfl
  -- What arrives agrees with its row, off what is not handed on.
  have hrow : ∀ env ∈ u.arrivals b passes,
      Binding.AgreeOff P env (.ofRow u'.stage.grouping (env.row u'.stage.grouping)) := by
    intro env henv v hv
    by_cases hgrouping : v ∈ u'.stage.grouping
    · have hbound : v ∈ u.bound := by
        refine hscoped.uses_bound v ?_
        rw [Stage.uses_of_flat h.flat]
        exact h.mem_grouping hgrouping
      have hsome :=
        (isSome_of_arrival hu.formed.ordered hscoped hu.formed.distinct).1 env henv v hbound
      obtain ⟨x, hx⟩ := Option.isSome_iff_exists.mp hsome
      rw [Binding.ofRow_row hgrouping, hx, Binding.get_of_eq_some hx]
    · rw [Binding.ofRow_eq_none hgrouping]
      refine arrivals_within hu.formed.ordered hscoped env henv v fun hdefined => ?_
      refine hv (hP v (h.mem_defines hdefined) fun hname => hgrouping ?_)
      rw [Stage.mem_names_iff, hgroups] at hname
      refine (Query.mem_grouping hgroups).mpr ?_
      by_cases hk : v ∈ keys.filter u.stage.outputs.contains
      · exact Or.inl hk
      · exact Or.inr ⟨hname.resolve_left hk, hk, fun hc => hv (hcounts v (map_var_counts cs ▸ hc))⟩
  intro f hf
  refine Balanced.trans (.of_eq ?_)
    (balanced_tagged ht' hu' hgroups hlength (fun g hg => ?_) (fun g hg => ?_)
    (fun _ hv => hv) (fun _ hv hno => absurd hv hno) hf).symm
  · rw [tagged, weighted, delivered_of_flat h.flat, h.arrivals, spread, spread, List.flatMap_map,
      List.flatMap_map]
    refine List.flatMap_congr fun env henv => ?_
    rw [hweights, hf (hrow env henv)]
    rfl
  · obtain ⟨c, hc, rfl⟩ := List.mem_map.mp hg
    exact h.mem_outputs.mpr (Or.inr hc)
  · obtain ⟨c, hc, rfl⟩ := List.mem_map.mp hg
    exact hcounts c hc

/-! ## The stage that joins them -/

/-- A grouping stage of a query that counts delivers known variables only. -/
theorem Counts.known_outputs {taken : String → Bool} {pack : Bool} (hcounts : Counts b taken s js)
    (hq : Sound a false pack (node s js)) (hs : s.shape = .group keys gs) :
    ∀ v ∈ s.outputs, a.Knows v := by
  intro v hv
  refine hq.formed.known v ?_
  by_cases hk : v ∈ s.shape.keys
  · obtain ⟨hown, _, _⟩ := hq.supplied
    exact hq.supplied.bound_defined v (hown.uses v (Stage.mem_uses_of_key hk))
  · by_cases hd : v ∈ s.shape.defines
    · exact defines_of_shape (q := node s js) hd
    · exact hq.supplied.bound_defined v
        (hcounts.passed v (mem_passed.mpr ⟨⟨keys, gs, hs⟩, hv, hk, hd⟩))

section

variable {pack counted : Bool} {taken taken' : String → Bool}
  {passes : List Pass} {gs' : List Aggregate}
  (h : Collapses a b keys s s' js shared gs') (htallying : Tallying a keys gs'.length js shared js')
  (hs : s.shape = .group keys gs) (hvars : gs'.map (·.var) = gs.map (·.var))
  (hcounts : Counts b taken s js) (hplain : Plain taken s js) (hq : Sound a false pack (node s js))
  (htaken : ∀ j ∈ js, taken' j.1 = true ↔ j.2.stage.shape.Flat)

include h

theorem Collapses.sums_new {v : VarId} (hv : (s'.regrouped keys gs').sums v = true) :
    ¬ a.Knows v := by
  obtain ⟨g, hg, hin⟩ := Stage.sums_iff.mp hv
  obtain ⟨i, hi⟩ := List.mem_iff_getElem?.mp hg
  obtain ⟨_, l, _, hin', hnew, _⟩ := h.products i g hi
  rw [hin] at hin'
  cases hin'
  exact hnew

/-- Lets that are no products have been there before. -/
theorem Collapses.lets_bare (hk : ∀ v ∈ s.lets.map (·.2), a.Knows v) :
    (s'.regrouped keys gs').bare.lets = s.lets := by
  have hold : ∀ l ∈ s.lets, (s'.regrouped keys gs').sums l.2 = false := fun l hl =>
    Bool.eq_false_iff.mpr fun hsum => h.sums_new hsum (hk l.2 (List.mem_map_of_mem hl))
  obtain ⟨more, rfl, hmore⟩ := h.stage
  have hnew : ∀ l ∈ more, (({ s with lets := s.lets ++ more } : Stage).regrouped keys gs').sums
      l.2 = true :=
    fun l hl => Stage.sums_iff.mpr (hmore l hl)
  show (s.lets ++ more).filter _ = s.lets
  rw [List.filter_append, List.filter_eq_self.mpr fun l hl => ?_,
    List.filter_eq_nil_iff.mpr fun l hl => ?_, List.append_nil]
  · rw [hnew l hl]
    exact Bool.false_ne_true
  · rw [hold l hl]
    rfl

include htallying htaken in
/-- Variables by which counts are handed on are new. -/
theorem Collapses.inner_new {v : VarId} (hv : Inner taken' (s'.regrouped keys gs') js' v) :
    ¬ a.Knows v := by
  rcases hv with hsum | ⟨j', hj', htook', hv⟩
  · exact h.sums_new hsum
  · obtain ⟨j, hj, halias, hpair⟩ := exists_of_forall₂ htallying.pairs hj'
    rcases hpair with ⟨hnot, _⟩ | ⟨cs, _, htook⟩
    · exact absurd ((htaken j hj).mp (halias ▸ htook')) hnot
    · rw [htook.defines_eq] at hv
      exact htook.new v hv

include htallying in
/-- What has been bound at the stage is bound there now. -/
theorem Collapses.bound {v : VarId} (hv : v ∈ (node s js).bound) :
    v ∈ (node (s'.regrouped keys gs') js').bound := by
  obtain ⟨more, rfl, _⟩ := h.stage
  simp only [Query.bound, incoming, stage_node, joins_node, List.mem_append,
    List.mem_flatMap] at hv ⊢
  rcases hv with (hobserved | ⟨j, hj, hname⟩) | hl
  · exact Or.inl (Or.inl hobserved)
  · obtain ⟨j', hj', _, hpair⟩ := exists_of_forall₂ htallying.pairs.flip hj
    refine Or.inl (Or.inr ⟨j', hj', ?_⟩)
    rcases hpair with ⟨_, he⟩ | ⟨cs, _, htook⟩
    · rw [he]
      exact hname
    · rw [Stage.names_of_flat htook.flat] at hname
      exact Stage.mem_names_iff.mpr (Or.inr (htook.mem_outputs.mpr (Or.inl hname)))
  · refine Or.inr ?_
    show v ∈ (s.lets ++ more).map (·.2)
    rw [List.map_append]
    exact List.mem_append_left _ hl

include htallying htaken in
/-- The stage sums products of the counts that the joined stages have taken. -/
theorem Collapses.collapsed : Collapsed b taken' (s'.regrouped keys gs') js' where
  group := ⟨keys, gs', rfl⟩
  firm := by
    intro j' hj'
    obtain ⟨j, _, _, ⟨hnot, he⟩ | ⟨cs, _, htook⟩⟩ := exists_of_forall₂ htallying.pairs hj'
    · exact he ▸ hnot
    · rw [htook.groups]
      exact Shape.not_flat_group
  products := by
    intro i g hi
    obtain ⟨hsum, l, hl, hin, _, hproduct⟩ := h.products i g hi
    refine ⟨hsum, l.2, List.mem_map_of_mem hl, hin, l.1, ?_⟩
    rw [counters, htallying.filter htaken]
    exact hproduct

include hplain hq

include htallying hs hvars hcounts htaken in
/-- The stage counts by what the joined stages have counted. -/
theorem Collapses.counts : Counts b taken' (s'.regrouped keys gs') js' where
  form := Or.inr (h.collapsed htallying htaken)
  shares := by
    intro j' hj' htook'
    obtain ⟨j, hj, halias, ⟨hnot, _⟩ | ⟨cs, hlength, htook⟩⟩ :=
      exists_of_forall₂ htallying.pairs hj'
    · exact absurd ((htaken j hj).mp (halias ▸ htook')) hnot
    · refine ⟨⟨_, _, htook.groups⟩, ?_,
        fun v hv => htook.mem_outputs.mpr (Or.inr (htook.defines_eq ▸ hv))⟩
      rw [htook.defines_eq, hlength]
      rfl
  others := by
    intro j' hj' hnot'
    obtain ⟨j, hj, halias, ⟨_, he⟩ | ⟨cs, _, htook⟩⟩ := exists_of_forall₂ htallying.pairs hj'
    · rw [he]
      exact hcounts.others j hj (hplain.untaken j hj)
    · rw [halias, (htaken j hj).mpr htook.flat] at hnot'
      cases hnot'
  inner := by
    -- By new variables only counts are handed on, and the stage read none of them before.
    intro v hv
    obtain ⟨hown, _, _⟩ := hq.supplied
    have hnew : ¬ a.Knows v := h.inner_new htallying htaken hv
    have hknown : ∀ v ∈ (node s js).bound, a.Knows v := fun v hv =>
      hq.formed.known v (hq.supplied.bound_defined v hv)
    refine ⟨fun hk => hnew (hknown v (hown.uses v (Stage.mem_uses_of_key (hs ▸ hk)))),
      fun ho => hnew (hcounts.known_outputs hq hs v (h.outputs_eq ▸ ho)),
      fun w hw hr => hnew (hknown v (hown.wheres w (h.wheres_eq ▸ hw) v hr)),
      fun l hl hr => hnew ?_⟩
    have hl' : l.2 ∈ s.lets.map (·.2) := List.mem_map_of_mem (h.lets_bare hq.known_lets ▸ hl)
    rw [Arena.reads_of_extension h.arena (hq.known_lets l.2 hl')] at hr
    exact hknown v (hown.lets l.2 hl' v hr)
  passed := by
    intro v hv
    obtain ⟨_, hout, hk, hd⟩ := mem_passed.mp hv
    have hdefines : v ∉ s.shape.defines := by
      rw [hs, Shape.defines, ← hvars]
      exact hd
    have hpassed : v ∈ s.passed :=
      mem_passed.mpr ⟨⟨keys, gs, hs⟩, h.outputs_eq ▸ hout, hs ▸ hk, hdefines⟩
    exact h.bound htallying (hcounts.passed v hpassed)

/-- Without the products the stage computes what it did. -/
theorem Collapses.admits : Admits s.bare (s'.regrouped keys gs').bare := by
  have hlets := h.lets_bare hq.known_lets
  rw [hplain.bare_eq]
  obtain ⟨more, rfl, _⟩ := h.stage
  exact ⟨rfl, rfl, hlets, rfl⟩

end

/-- The flat ones among joined queries can be told by their aliases. -/
theorem exists_taken_flat (haliases : (js.map (·.1)).Nodup) :
    ∃ taken : String → Bool, ∀ j ∈ js, taken j.1 = true ↔ j.2.stage.shape.Flat := by
  classical
  refine ⟨fun name => decide (∃ u, (name, u) ∈ js ∧ u.stage.shape.Flat), fun j hj => ?_⟩
  rw [decide_eq_true_iff]
  refine ⟨?_, fun hflat => ⟨j.2, hj, hflat⟩⟩
  rintro ⟨u, hu, hflat⟩
  have hself : (j.1, u) = j := List.inj_on_of_nodup_map haliases hu hj rfl
  rwa [← hself]

section

variable {pack : Bool} {taken taken' : String → Bool} {passes : List Pass}
  (h : Tallying a keys n js shared js') (hq : Sound b false pack (node s js))

include h hq

/-- The joined queries count before and after. -/
theorem Tallying.tallied (ht : ∀ j ∈ js, Tallied b passes (n != 0) j.2) :
    ∀ j' ∈ js', Tallied b passes (n != 0) j'.2 := by
  intro j' hj'
  obtain ⟨j, hj, _, ⟨_, he⟩ | ⟨cs, hcs, htook⟩⟩ := exists_of_forall₂ h.pairs hj'
  · exact he ▸ ht j hj
  · exact htook.tallied (hq.joined hj) (hcs ▸ ht j hj)

/-- The joined queries hand on the same weight before and after. -/
theorem Tallying.deliver (hq' : Sound b false pack (node s' js')) (hplain : Plain taken s js)
    (htaken : ∀ j ∈ js, taken' j.1 = true ↔ j.2.stage.shape.Flat)
    (ht : ∀ j ∈ js, Tallied b passes (n != 0) j.2) :
    Deliver b (Unseen taken' js') n taken taken' js js' passes := by
  have ht' := h.tallied hq ht
  obtain ⟨hsame, hpairs⟩ := List.forall₂_iff_zip.mp h.pairs
  refine List.forall₂_iff_zip.mpr ⟨hsame, fun {j j'} hzip => ?_⟩
  obtain ⟨hj, hj'⟩ := List.of_mem_zip hzip
  obtain ⟨halias, ⟨hnot, he⟩ | ⟨cs, hlength, htook⟩⟩ := hpairs hzip
  · have hfree : taken' j.1 = false := Bool.eq_false_iff.mpr fun ht => hnot ((htaken j hj).mp ht)
    rw [hplain.untaken j hj, halias, hfree, he]
    exact .refl _
  · have htakes : taken' j.1 = true := (htaken j hj).mpr htook.flat
    rw [hplain.untaken j hj, halias, htakes]
    refine htook.balancedOff (hq.joined hj) (hq'.joined hj') (ht j hj) (ht' j' hj') hlength
      (fun v hv hname => ⟨j', hj', Or.inl ⟨hv, hname⟩⟩) fun v hv => ?_
    exact ⟨j', hj', Or.inr ⟨halias ▸ htakes, htook.defines_eq ▸ hv⟩⟩

end

/-- Having joined stages count first keeps what a grouping stage finds. -/
theorem Collapses.recounts {pack counted : Bool} {passes : List Pass} {gs' : List Aggregate}
    (h : Collapses a b keys s s' js shared gs')
    (htallying : Tallying a keys gs'.length js shared js')
    (hs : s.shape = .group keys gs) (hvars : gs'.map (·.var) = gs.map (·.var))
    (hflat : ∃ j ∈ js, j.2.stage.shape.Flat) (hq : Sound a false pack (node s js))
    (ht : Tallied a passes counted (node s js))
    (hq' : Sound b false pack (node (s'.regrouped keys gs') js'))
    (hrefits : Refits a b (node s js) (node (s'.regrouped keys gs') js')) :
    Recounts a b pack counted passes (node s js) (node (s'.regrouped keys gs') js') := by
  obtain ⟨taken, hcounts, hfits, hjoined⟩ := ht.grow h.arena hq.formed.known
  have hplain : Plain taken s js := hcounts.plain_of_flat_join hflat
  have hgrown : Sound b false pack (node s js) := hq.grow h.arena hq'.formed.ordered
  obtain ⟨taken', htaken⟩ := exists_taken_flat (Ascending.Sorted.nodup hq.regular.aliases)
  have hcounts' := h.counts htallying hs hvars hcounts hplain hq htaken
  have hadmits := h.admits hplain hq
  have hface : Alike s (s'.regrouped keys gs') :=
    ⟨fun _ hv => h.outputs_eq ▸ hv, Or.inr ⟨keys, gs, gs', hs, rfl, hvars⟩⟩
  have hlength : gs'.length = gs.length := by
    have he := congrArg List.length hvars
    rwa [List.length_map, List.length_map] at he
  rw [Stage.countsOn_of_group hs, ← hlength] at hjoined
  have hjoined' : ∀ j' ∈ js', Tallied b passes ((s'.regrouped keys gs').countsOn counted) j'.2 :=
    htallying.tallied hgrown hjoined
  have hfind : ∀ earlier, earlier <:+ passes →
      Fits b counted taken' (s'.regrouped keys gs') js' earlier ∧
      Matches b pack (node s js) (node (s'.regrouped keys gs') js') earlier := by
    intro earlier hearlier
    refine hcounts.regroup hcounts' hgrown hq' (fun j hj => (hjoined j hj).past hearlier)
      (fun j hj => (hjoined' j hj).past hearlier) (hfits.past hearlier) hadmits hface rfl
      fun past hpast => ?_
    exact htallying.deliver hgrown hq' hplain htaken fun j hj =>
      (hjoined j hj).past (hpast.trans hearlier)
  exact ⟨hq', hrefits, .node taken' hcounts' (hfind passes (List.suffix_refl _)).1 hjoined', hface,
    h.outputs_eq, fun earlier hearlier => (hfind earlier hearlier).2⟩

/-! ## Moving counts -/

theorem Tallying.placed (h : Tallying a keys n js shared js') : Placed keys js shared js' := by
  induction h with
  | nil => exact .nil
  | skip hnot _ ih => exact .skip hnot ih
  | take htook _ _ ih =>
      refine .take ⟨htook.flat, ?_, _, htook.groups⟩ ih
      obtain ⟨outputs, _, rfl⟩ := htook.stage
      exact joins_withStage _ _

theorem Tallying.isEmpty (h : Tallying a keys n js shared js')
    (hflat : ∃ j ∈ js, j.2.stage.shape.Flat) : shared.isEmpty = false := by
  induction h with
  | nil =>
      obtain ⟨j, hj, _⟩ := hflat
      cases hj
  | skip hnot _ ih =>
      obtain ⟨j, hj, hj'⟩ := hflat
      rcases List.mem_cons.mp hj with rfl | hj
      · exact absurd hj' hnot
      · exact ih ⟨j, hj, hj'⟩
  | take _ _ _ _ => rfl

/-- The shares say which queries are joined after. -/
theorem Placed.unique {js'' : List (String × Query)} (h : Placed keys js shared js')
    (h' : Placed keys js shared js'') : js' = js'' := by
  induction h generalizing js'' with
  | nil =>
      cases h'
      rfl
  | skip hnot _ ih =>
      cases h' with
      | skip _ h' => rw [ih h']
      | take htook _ => exact absurd htook.flat hnot
  | take htook _ ih =>
      cases h' with
      | skip hnot _ => exact absurd htook.flat hnot
      | take _ h' => rw [ih h']

/-- Where no joined query is flat none takes a share. -/
theorem shareAll_of_firm (h : ∀ j ∈ js, ¬ j.2.stage.shape.Flat) :
    shareAll keys residual gs js = pure ([], gs) := by
  induction js with
  | nil => rfl
  | cons j js ih =>
      obtain ⟨hj, hjs⟩ := List.forall_mem_cons.mp h
      rw [shareAll, if_neg fun htakes => hj (flat_of_takesShare htakes), ih hjs]

section

variable {pack counted : Bool} {passes : List Pass} (hs : s.shape = .group keys gs)
  (hflat : ∃ j ∈ js, j.2.stage.shape.Flat) (hq : Sound a false pack (node s js))

include hs hq

/-- The shares that flat joined queries take of counts leave a sound query. -/
theorem sound_of_shares (htallying : Tallying a keys 0 js shared js')
    (hrun : shareAll keys (residue a s) gs js = pure (shared, gs)) :
    Sound a false pack (node (s.regrouped keys gs) js') ∧
      Refits a a (node s js) (node (s.regrouped keys gs) js') := by
  have hsame : s.regrouped keys gs = s := by rw [Stage.regrouped, ← hs]
  have hq₀ : Sound a false pack (node (s.regrouped keys gs) ([] ++ js)) := hsame.symm ▸ hq
  have hleads := leads_shareAll hq₀ rfl
  rw [hrun] at hleads
  obtain ⟨js'', hplaced, hsound, hfits⟩ := hleads
  obtain rfl := htallying.placed.unique hplaced
  rw [List.nil_append, List.nil_append, hsame] at hfits
  exact ⟨hsound, hsame.symm ▸ hfits⟩

include hflat

/-- Once the shares are taken, counting them recounts the query. -/
theorem leads_countAll_recounts (htallying : Tallying a keys 0 js shared js')
    (hgs : ∀ g ∈ gs, g.how = .count ∧ g.input = none) (ht : Tallied a passes counted (node s js))
    (hsound : Sound a false pack (node (s.regrouped keys gs) js'))
    (hfits : Refits a a (node s js) (node (s.regrouped keys gs) js')) :
    (countAll (node s js) shared gs).Leads a fun r b => ∃ s' js'', r.1 = node s' js ∧
      Placed keys js r.2.1 js'' ∧
        Recounts a b pack counted passes (node s js) (node (s'.regrouped keys r.2.2) js'') := by
  have hsound₀ : Sound a false pack (node (s.regrouped keys ([] ++ gs)) js') := hsound
  have hstart : Collapses a a keys s s js shared [] := .start htallying
  refine ((leads_countAll htallying.placed hsound₀).and (hstart.leads_countAll hgs)).mono ?_
  rintro ⟨_, shared', gs'⟩ b ⟨⟨s', js'', rfl, hplaced, hsound', hrest⟩,
    ⟨_, hsame', hvars, hcollapses⟩⟩
  cases hsame'
  obtain ⟨js₃, htallying'⟩ := hcollapses.joins
  obtain rfl := htallying'.placed.unique hplaced
  have hrecounts := hcollapses.recounts htallying' hs hvars hflat hq ht hsound' (hfits.trans hrest)
  exact ⟨s', js₃, rfl, hplaced, hrecounts⟩

/-- Of flat joined queries the shares are taken, counted and optimized. -/
theorem leads_collapse {again : Query → Defining Query} (hagain : Recounting passes again)
    (ht : Tallied a passes counted (node s js)) :
    (pushAggregates again (node s js)).Leads a fun q' b =>
      Recounts a b pack counted passes (node s js) q' := by
  have hgs : ∀ g ∈ gs, g.how = .count ∧ g.input = none := by
    obtain ⟨taken, hcounts, _, _⟩ := ht
    have haggregates := (hcounts.plain_of_flat_join hflat).aggregates
    rw [hs] at haggregates
    exact haggregates
  obtain ⟨shared, js', htallying, hrun⟩ : ∃ shared js', Tallying a keys 0 js shared js' ∧
      shareAll keys (residue a s) gs js = pure (shared, gs) :=
    shareAll_counts a (fun g hg => (hgs g hg).2) (hq.not_mem_residue hs) js
  obtain ⟨hsound, hfits⟩ := sound_of_shares hs hq htallying hrun
  rw [pushAggregates, stage_node, hs]
  refine (leads_get (Q := fun r b => a = r ∧ a = b) ⟨rfl, rfl⟩).bind ?_
  rintro _ _ ⟨rfl, rfl⟩
  have hshare : (shareAll keys (residue a s) gs js).Leads a fun r b =>
      (shared, gs) = r ∧ a = b := by
    rw [hrun]
    exact leads_pure ⟨rfl, rfl⟩
  refine hshare.bind ?_
  rintro _ _ ⟨rfl, rfl⟩
  dsimp only
  rw [htallying.isEmpty hflat, if_neg Bool.false_ne_true]
  refine (leads_countAll_recounts hs hflat hq htallying hgs ht hsound hfits).bind ?_
  rintro ⟨_, shared', gs'⟩ b ⟨s', js'', rfl, hplaced, hrecounts⟩
  have hstart : Recounts a b pack counted passes (node s js)
      (node (s'.regrouped keys gs') ([] ++ js'')) :=
    hrecounts
  exact leads_foldlM_rejoin_keep (I := fun q' b => Recounts a b pack counted passes (node s js) q')
    (hagain.keeps a hq.formed.known) (fun _ _ hq => hq.sound.regular) hplaced hstart

end

/-- Where no joined query is flat nothing moves. -/
theorem leads_pushAggregates_of_firm {again : Query → Defining Query}
    (hs : s.shape = .group keys gs) (hfirm : ∀ j ∈ js, ¬ j.2.stage.shape.Flat) :
    (pushAggregates again (node s js)).Leads a fun q' b => q' = node s js ∧ b = a := by
  rw [pushAggregates, stage_node, hs]
  refine (leads_get (Q := fun r b => a = r ∧ a = b) ⟨rfl, rfl⟩).bind ?_
  rintro _ _ ⟨rfl, rfl⟩
  have hshare : (shareAll keys (residue a s) gs js).Leads a fun r b => ([], gs) = r ∧ a = b := by
    rw [shareAll_of_firm hfirm]
    exact leads_pure ⟨rfl, rfl⟩
  refine hshare.bind ?_
  rintro _ _ ⟨rfl, rfl⟩
  refine ⟨?_, rfl⟩
  show node { s with shape := .group keys gs } js = node s js
  rw [← hs]

/-- Moving aggregates keeps counts. -/
theorem leads_pushAggregates_recounts {again : Query → Defining Query} {pack counted : Bool}
    {passes : List Pass} {q : Query} (hagain : Recounting passes again) (hq : Sound a false pack q)
    (ht : Tallied a passes counted q) :
    (pushAggregates again q).Leads a fun q' b => Recounts a b pack counted passes q q' := by
  cases q with
  | node s js =>
      have hstay : Leads (pure (node s js)) a fun q' b =>
          Recounts a b pack counted passes (node s js) q' :=
        leads_pure (.refl hq ht)
      cases hs : s.shape with
      | unfinished | select _ | filter _ =>
          rw [pushAggregates, stage_node, hs]
          exact hstay
      | group keys gs =>
          by_cases hflat : ∃ j ∈ js, j.2.stage.shape.Flat
          · exact leads_collapse hs hflat hq hagain ht
          · refine (leads_pushAggregates_of_firm hs fun j hj hj' => hflat ⟨j, hj, hj'⟩).mono ?_
            rintro _ _ ⟨rfl, rfl⟩
            exact .refl hq ht

end Query

end CausalTrace
