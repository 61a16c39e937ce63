import CausalTrace.Proofs.Matching
import CausalTrace.Proofs.Optimizing

/-!
# Queries that count in another way

A query recounts another one when it takes its place, counts throughout, and finds the same at
any time. One recounting after another is one again, also where definitions have been added in
between, and what recounts a joined query leads the stage that joins it to find the same.
-/

namespace CausalTrace

open Weighing Defining

namespace Query

variable {a b c : Arena} {pack counted : Bool} {taken : String → Bool} {s s' t : Stage}
  {js js' before after : List (String × Query)} {q r q' u u' : Query} {v : VarId} {m : ℕ}
  {K K' keys : List VarId} {earlier passes : List Pass} {gs : List Aggregate} {aliasName : String}

/-! ## Larger arenas -/

theorem evaluate?_grow (hp : a.defs <+: b.defs) (hk : a.Knows v) (env : Binding) :
    b.evaluate? env v = a.evaluate? env v := by
  rw [Arena.evaluate?, Arena.evaluate?, Arena.definition?_of_extension hp hk]

theorem arrive_grow (hp : a.defs <+: b.defs) (hk : ∀ v ∈ s.lets.map (·.2), a.Knows v)
    (base : Binding) : s.arrive b base = s.arrive a base := by
  have hlets : ∀ v ∈ Ascending.ofList (s.lets.map (·.2)), a.Knows v := fun v hv =>
    hk v (Ascending.mem_ofList.mp hv)
  rw [Stage.arrive, Stage.arrive]
  congr 1
  generalize Ascending.ofList (s.lets.map (·.2)) = lets at hlets
  induction lets generalizing base with
  | nil => rfl
  | cons v lets ih =>
      obtain ⟨hv, hlets⟩ := List.forall_mem_cons.mp hlets
      rw [List.foldlM_cons, List.foldlM_cons, Binding.compute,
        Binding.compute, evaluate?_grow hp hv]
      exact congrArg _ (funext fun env => ih env hlets)

/-- Definitions that are added later change nothing of what arrives. -/
theorem arrivals_grow (hp : a.defs <+: b.defs)
    (hk : ∀ v ∈ q.defines, a.Knows v) (passes : List Pass) :
    q.arrivals b passes = q.arrivals a passes := by
  induction q generalizing passes with
  | node s js ih =>
      have hlets : ∀ v ∈ s.lets.map (·.2), a.Knows v := fun v hv =>
        hk v (mem_defines_node.mpr (Or.inl (Stage.mem_defines_iff.mpr (Or.inr (Or.inl hv)))))
      have hjoins : ∀ passes, joinsDeliver b js passes = joinsDeliver a js passes := by
        intro passes
        rw [joinsDeliver_eq, joinsDeliver_eq]
        refine List.map_congr_left fun j hj => ?_
        rw [ih j hj (fun v hv => hk v (defines_of_joined hj hv)) passes]
      induction passes with
      | nil => rfl
      | cons p earlier ihp =>
          rw [arrivals_cons, arrivals_cons, ihp, hjoins, Stage.arrivalsIn, Stage.arrivalsIn]
          simp only [arrive_grow hp hlets]

theorem weighted_grow (hp : a.defs <+: b.defs) (hk : ∀ v ∈ q.defines, a.Knows v) :
    q.weighted b K m passes = q.weighted a K m passes := by
  rw [weighted, weighted, arrivals_grow hp hk]

theorem Matches.grow (h : Matches a pack q q' passes) (hp : a.defs <+: b.defs)
    (hk : ∀ v ∈ q.defines, a.Knows v) (hk' : ∀ v ∈ q'.defines, a.Knows v) :
    Matches b pack q q' passes := by
  refine ⟨fun hno => ?_, fun keys gs hs => ?_⟩
  · rw [arrivals_grow hp hk, arrivals_grow hp hk']
    exact h.rows hno
  · rw [weighted_grow hp hk, weighted_grow hp hk']
    exact h.groups keys gs hs

theorem Counts.grow (h : Counts a taken s js) (hp : a.defs <+: b.defs)
    (hk : ∀ v ∈ s.lets.map (·.2), a.Knows v) : Counts b taken s js where
  form := h.form.imp_right fun hcollapsed => ⟨hcollapsed.group, hcollapsed.firm, fun i g hi => by
    obtain ⟨hhow, v, hv, hin, name, hdefinition⟩ := hcollapsed.products i g hi
    refine ⟨hhow, v, hv, hin, name, ?_⟩
    rw [Arena.definition?_of_extension hp (hk v hv)]
    exact hdefinition⟩
  shares := h.shares
  others := h.others
  inner v hv := by
    obtain ⟨hkeys, hout, hwheres, hlets⟩ := h.inner v hv
    refine ⟨hkeys, hout, hwheres, fun l hl => ?_⟩
    have hknows : a.Knows l.2 := hk l.2 (Stage.mem_lets_bare.mp (List.mem_map_of_mem hl)).1
    rw [Arena.reads_of_extension hp hknows]
    exact hlets l hl
  passed := h.passed

theorem defines_bare_node : ∀ v ∈ (node s.bare js).defines, v ∈ (node s js).defines := fun _ hv =>
  (defines_bare.append (List.Sublist.refl _)).subset hv

theorem Tallied.grow (h : Tallied a passes counted q) (hp : a.defs <+: b.defs)
    (hk : ∀ v ∈ q.defines, a.Knows v) : Tallied b passes counted q := by
  induction h with
  | @node _ s js taken counts fits _ ih =>
      refine .node taken (counts.grow hp fun v hv => ?_) ⟨fun hcounted hflat => ?_, fun row i => ?_⟩
        fun j hj => ?_
      · exact hk v (mem_defines_node.mpr (Or.inl (Stage.mem_defines_iff.mpr (Or.inr (Or.inl hv)))))
      · rw [arrivals_grow hp hk]
        exact fits.rows hcounted hflat
      · rw [arrivals_grow hp fun v hv => hk v (defines_bare_node v hv)]
        exact fits.load row i
      · exact ih j hj fun v hv => hk v (defines_of_joined hj hv)

/-! ## One match after another -/

theorem forall₂_trans {α : Type} {R : α → α → Prop} {xs ys zs : List α}
    (hR : ∀ {x y z}, R x y → R y z → R x z) (h : List.Forall₂ R xs ys) (h' : List.Forall₂ R ys zs) :
    List.Forall₂ R xs zs := by
  induction h generalizing zs with
  | nil => exact h'
  | cons hxy _ ih =>
      cases h' with
      | cons hyz h' => exact .cons (hR hxy hyz) (ih h')

theorem Matches.refl : Matches a pack q q passes where
  rows _ := List.forall₂_same.mpr fun _ _ _ _ => rfl
  groups _ _ _ := .refl _

/-- Rows of fewer variables are balanced as well. -/
theorem balanced_weighted (hK : ∀ v ∈ K', v ∈ K)
    (h : Balanced (q.weighted a K m passes) (q'.weighted a K m passes)) :
    Balanced (q.weighted a K' m passes) (q'.weighted a K' m passes) := by
  have hcoarse : ∀ q : Query, q.weighted a K' m passes =
      spread (q.weighted a K m passes) fun row => [((Binding.ofRow K row).row K', 1)] := by
    intro q
    rw [weighted, weighted, spread, List.flatMap_map]
    refine (List.map_eq_flatMap ..).trans (List.flatMap_congr fun env _ => ?_)
    have hrow : (Binding.ofRow K (env.row K)).row K' = env.row K' :=
      List.map_congr_left fun v hv => by
      rw [Binding.get_of_eq_some (Binding.ofRow_row (hK v hv))]
    rw [hrow, List.map_singleton, mul_one]
  rw [hcoarse q, hcoarse q']
  exact h.spread _

theorem Alike.refl : Alike s s := ⟨fun _ hv => hv, Or.inl rfl⟩

theorem Alike.trans (h : Alike s t) (h' : Alike t s') : Alike s s' := by
  refine ⟨fun v hv => h.outputs v (h'.outputs v hv), ?_⟩
  rcases h.shape, h'.shape with ⟨ht | ⟨keys, gs, fs, hs, ht, hvars⟩,
    hs' | ⟨ks, fs', gs', ht', hs', hvars'⟩⟩
  · exact Or.inl (hs'.trans ht)
  · exact Or.inr ⟨ks, fs', gs', ht ▸ ht', hs', hvars'⟩
  · exact Or.inr ⟨keys, gs, fs, hs, hs'.trans ht, hvars⟩
  · rw [ht] at ht'
    cases ht'
    exact Or.inr ⟨keys, gs, gs', hs, hs', hvars'.trans hvars⟩

theorem Alike.uses (h : Alike s s') (hno : ∀ keys gs, s'.shape ≠ .group keys gs)
    (hv : v ∈ s'.uses pack) : v ∈ s.uses pack := by
  have hshape := h.eq_of_not_group hno
  rw [Stage.uses] at hv
  rw [Stage.uses, hshape]
  cases hs : s'.shape with
  | unfinished | filter _ =>
      rw [hs] at hv
      exact h.outputs v hv
  | select selected =>
      rw [hs] at hv
      cases pack with
      | true => exact h.outputs v hv
      | false => exact hv
  | group keys gs => exact absurd hs (hno keys gs)

theorem Matches.trans (h : Matches a pack q r passes) (h' : Matches a pack r q' passes)
    (hface : Alike r.stage q'.stage) (hdefines : ∀ v ∈ r.defines, v ∈ q'.defines) :
    Matches a pack q q' passes := by
  refine ⟨fun hno => ?_, fun keys gs hs => ?_⟩
  · have hno' : ∀ keys gs, r.stage.shape ≠ .group keys gs := hface.eq_of_not_group hno ▸ hno
    have hfirst := (h.rows hno').imp fun _ _ he => he.mono fun v hv =>
      (⟨hdefines v hv.1, fun hu => hv.2 (hface.uses hno hu)⟩ : v ∈ q'.defines ∧
        v ∉ q'.stage.uses pack)
    exact forall₂_trans (fun he he' v hv => (he v hv).trans (he' v hv)) hfirst (h'.rows hno)
  · obtain ⟨fs, hfs, _, hlength⟩ := hface.group hs
    have hfirst :=
      balanced_weighted (fun v hv => hface.grouping hs hv) (hlength ▸ h.groups keys fs hfs)
    exact hfirst.trans (h'.groups keys gs hs)

/-! ## Counting over other joined queries -/

theorem Alike.defines_eq (h : Alike s s') : s'.shape.defines = s.shape.defines := by
  rcases h.shape with he | ⟨keys, gs, gs', hs, hs', hvars⟩
  · rw [he]
  · rw [hs, hs']
    exact hvars

theorem Alike.keys_eq (h : Alike s s') : s'.shape.keys = s.shape.keys := by
  rcases h.shape with he | ⟨keys, gs, gs', hs, hs', _⟩
  · rw [he]
  · rw [hs, hs']
    rfl

theorem Alike.flat (h : Alike s s') (hflat : s'.shape.Flat) : s.shape.Flat := by
  rcases h.shape with he | ⟨keys, gs, gs', _, hs', _⟩
  · exact he ▸ hflat
  · exact absurd (hs' ▸ hflat) Shape.not_flat_group

theorem mem_passed : v ∈ s.passed ↔
    (∃ keys gs, s.shape = .group keys gs) ∧ v ∈ s.outputs ∧ v ∉ s.shape.keys ∧
      v ∉ s.shape.defines := by
  rw [Stage.passed]
  cases hs : s.shape with
  | unfinished | select _ | filter _ => simp
  | group keys gs =>
      rw [List.mem_filter]
      simp [Shape.keys, Shape.defines]

theorem Alike.passed (h : Alike s s') (hv : v ∈ s'.passed) : v ∈ s.passed := by
  rw [mem_passed] at hv ⊢
  obtain ⟨⟨keys, gs, hs⟩, hout, hkeys, hdefines⟩ := hv
  obtain ⟨fs, hfs, _⟩ := h.group hs
  exact ⟨⟨keys, fs, hfs⟩, h.outputs v hout, h.keys_eq ▸ hkeys, h.defines_eq ▸ hdefines⟩

/-- The second stage computes and counts what the first one does, but may test and deliver less. -/
structure Lessens (s s' : Stage) : Prop where
  shape : s'.shape = s.shape
  lets : s'.lets = s.lets
  wheres : ∀ w ∈ s'.wheres, w ∈ s.wheres
  outputs : ∀ v ∈ s'.outputs, v ∈ s.outputs

theorem Lessens.refl : Lessens s s := ⟨rfl, rfl, fun _ hw => hw, fun _ hv => hv⟩

theorem Lessens.sums (h : Lessens s s') : s'.sums v = s.sums v := by
  rw [Stage.sums, Stage.sums, h.shape]

theorem Lessens.lets_bare (h : Lessens s s') : s'.bare.lets = s.bare.lets := by
  simp only [Stage.bare, h.lets, h.sums]

/-- One by one, the second queries are joined in place of the first. -/
def Replaced (js js' : List (String × Query)) : Prop :=
  List.Forall₂ (fun j j' => j'.1 = j.1 ∧ Alike j.2.stage j'.2.stage) js js'

theorem Replaced.mem (h : Replaced js js') {j' : String × Query} (hj' : j' ∈ js') :
    ∃ j ∈ js, j'.1 = j.1 ∧ Alike j.2.stage j'.2.stage := exists_of_forall₂ h hj'

theorem Replaced.counters (h : Replaced js js') (i : ℕ) :
    counters taken js' i = counters taken js i := by
  induction h with
  | nil => rfl
  | cons hj _ ih =>
      obtain ⟨halias, hface⟩ := hj
      rename_i j j' js js' _
      cases htaken : taken j.1 with
      | true =>
          rw [counters_cons_of_pos htaken, counters_cons_of_pos (halias ▸ htaken), ih,
            hface.defines_eq]
      | false => rw [counters_cons_of_neg htaken, counters_cons_of_neg (halias ▸ htaken), ih]

/-- A stage counts over other joined queries as it did, if these still hand on all counts that
are taken and what the stage passes through. -/
theorem Counts.rebuild (h : Counts a taken s js) (hless : Lessens s s')
    (hreplaced : Replaced js js') (hout : ∀ j ∈ js', taken j.1 = true →
      ∀ v ∈ j.2.stage.shape.defines, v ∈ j.2.stage.outputs)
    (hpassed : ∀ v ∈ s'.passed, v ∈ (node s' js').bound) : Counts a taken s' js' where
  form := by
    refine h.form.imp (fun hplain => ⟨hless.shape ▸ hplain.aggregates, fun j' hj' => ?_⟩)
      fun hcollapsed => ⟨hless.shape ▸ hcollapsed.group, fun j' hj' => ?_, fun i g hi => ?_⟩
    · obtain ⟨j, hj, halias, _⟩ := hreplaced.mem hj'
      exact halias ▸ hplain.untaken j hj
    · obtain ⟨j, hj, _, hface⟩ := hreplaced.mem hj'
      exact fun hflat => hcollapsed.firm j hj (hface.flat hflat)
    · rw [hless.shape] at hi
      rw [hless.lets, hreplaced.counters]
      exact hcollapsed.products i g hi
  shares := by
    intro j' hj' htaken
    obtain ⟨j, hj, halias, hface⟩ := hreplaced.mem hj'
    obtain ⟨⟨keys, gs, hs⟩, hlength, _⟩ := h.shares j hj (halias ▸ htaken)
    refine ⟨?_, ?_, hout j' hj' htaken⟩
    · rcases hface.shape with he | ⟨ks, _, fs, _, hfs, _⟩
      · exact ⟨keys, gs, he.trans hs⟩
      · exact ⟨ks, fs, hfs⟩
    · rw [hface.defines_eq, hless.shape]
      exact hlength
  others := by
    intro j' hj' htaken
    obtain ⟨j, hj, halias, hface⟩ := hreplaced.mem hj'
    have hnone := h.others j hj (halias ▸ htaken)
    refine List.eq_nil_iff_forall_not_mem.mpr fun v hv => ?_
    have hpassed := hface.passed hv
    rw [hnone] at hpassed
    cases hpassed
  inner := by
    intro v hv
    have hinner : Inner taken s js v := by
      refine hv.imp (fun hsum => hless.sums ▸ hsum) ?_
      rintro ⟨j', hj', htaken, hdefined⟩
      obtain ⟨j, hj, halias, hface⟩ := hreplaced.mem hj'
      exact ⟨j, hj, halias ▸ htaken, hface.defines_eq ▸ hdefined⟩
    obtain ⟨hkeys, hno, hwheres, hlets⟩ := h.inner v hinner
    refine ⟨hless.shape ▸ hkeys, fun ho => hno (hless.outputs v ho),
      fun w hw => hwheres w (hless.wheres w hw), ?_⟩
    rw [hless.lets_bare]
    exact hlets
  passed := hpassed

/-! ## Recounting -/

/-- The second query takes the place of the first: it delivers and finds the same over some passes,
but may count in another way. -/
structure Recounts (a b : Arena) (pack counted : Bool) (passes : List Pass)
    (q q' : Query) : Prop where
  sound : Sound b false pack q'
  refits : Refits a b q q'
  tallied : Tallied b passes counted q'
  alike : Alike q.stage q'.stage
  outputs : q'.stage.outputs = q.stage.outputs
  found : ∀ earlier, earlier <:+ passes → Matches b pack q q' earlier

theorem Recounts.refl (hq : Sound a false pack q) (ht : Tallied a passes counted q) :
    Recounts a a pack counted passes q q :=
  ⟨hq, .refl, ht, .refl, rfl, fun _ _ => .refl⟩

theorem Recounts.trans (hk : ∀ v ∈ q.defines, a.Knows v) (h : Recounts a b pack counted passes q r)
    (h' : Recounts b c pack counted passes r q') : Recounts a c pack counted passes q q' where
  sound := h'.sound
  refits := h.refits.trans h'.refits
  tallied := h'.tallied
  alike := h.alike.trans h'.alike
  outputs := h'.outputs.trans h.outputs
  found earlier hearlier := by
    have hfirst := (h.found earlier hearlier).grow h'.refits.grown.arena
      (fun v hv => (hk v hv).of_extension h.refits.grown.arena) h.sound.formed.known
    exact hfirst.trans (h'.found earlier hearlier) h'.alike h'.refits.grown.subset

/-- What holds of joined queries holds after one of them is replaced, if it holds of the new one. -/
theorem forall_joins_replace {P : String × Query → Prop}
    (h : ∀ j ∈ before ++ (aliasName, u) :: after, P j)
    (hu : P (aliasName, u')) : ∀ j ∈ before ++ (aliasName, u') :: after, P j := by
  rw [List.forall_mem_append, List.forall_mem_cons] at h ⊢
  exact ⟨h.1, hu, h.2.2⟩

theorem replaced_of_rejoined (h : Rejoined a passes js js') : Replaced js js' :=
  h.imp fun _ _ hj => ⟨hj.1, hj.2.1⟩

/-- Where one joined query recounts, the query that joins it does. -/
theorem Recounts.replaceJoin (hq : Sound b false pack (node s (before ++ (aliasName, u) :: after)))
    (ht : Tallied b passes counted (node s (before ++ (aliasName, u) :: after)))
    (h : Recounts b c true (s.countsOn counted) passes u u') : Recounts b c pack counted passes
      (node s (before ++ (aliasName, u) :: after))
      (node s (before ++ (aliasName, u') :: after)) := by
  have hp := h.refits.grown.arena
  have hmem : (aliasName, u) ∈ before ++ (aliasName, u) :: after := List.mem_append_cons_self
  obtain ⟨hsound, hrefits⟩ := hq.refitJoin h.sound h.refits
  have hgrown := hq.grow hp h.sound.formed.ordered
  obtain ⟨taken, hcounts, hfits, hjoined⟩ := ht.grow hp hq.formed.known
  have hself : ∀ js : List (String × Query), Rejoined c passes js js := fun js =>
    List.forall₂_same.mpr fun _ _ => ⟨rfl, .refl, fun _ hv => hv, fun _ _ => .refl⟩
  have hrejoined : Rejoined c passes (before ++ (aliasName, u) :: after)
      (before ++ (aliasName, u') :: after) :=
    List.rel_append (hself before)
      (.cons ⟨rfl, h.alike, h.refits.grown.subset, h.found⟩ (hself after))
  have hbound : (node s (before ++ (aliasName, u') :: after)).bound =
      (node s (before ++ (aliasName, u) :: after)).bound := by
    simp only [bound, incoming, stage_node, joins_node, List.flatMap_append, List.flatMap_cons,
      h.refits.names]
  have hcounts' : Counts c taken s (before ++ (aliasName, u') :: after) := by
    refine hcounts.rebuild .refl (replaced_of_rejoined hrejoined) ?_ fun v hv => ?_
    · refine forall_joins_replace (fun j hj htaken => (hcounts.shares j hj htaken).2.2)
        fun htaken => ?_
      rw [h.alike.defines_eq, h.outputs]
      exact (hcounts.shares _ hmem htaken).2.2
    · rw [hbound]
      exact hcounts.passed v hv
  have hjoined' :
      ∀ j ∈ before ++ (aliasName, u') :: after, Tallied c passes (s.countsOn counted) j.2 :=
    forall_joins_replace hjoined h.tallied
  have hfind := hcounts.rejoin hcounts' hgrown hsound hjoined hjoined' hrejoined hfits
    ⟨rfl, rfl, rfl, rfl⟩ .refl
  exact ⟨hsound, hrefits, .node taken hcounts' (hfind passes (List.suffix_refl _)).1 hjoined',
    .refl, rfl, fun earlier hearlier => (hfind earlier hearlier).2⟩

/-- Steps that lead from joined queries that count to ones that recount them. -/
def Recounting (passes : List Pass) (again : Query → Defining Query) : Prop :=
  ∀ counted u a, Sound a false true u → Tallied a passes counted u →
    (again u).Leads a fun u' b => Recounts a b true counted passes u u'

theorem Recounting.keeps {again : Query → Defining Query}
    (hagain : Recounting passes again) (a : Arena)
    (hk : ∀ v ∈ q.defines, a.Knows v) :
    Keeps again fun q' b => Recounts a b pack counted passes q q' := by
  intro s before after aliasName u b h
  have hmem : (aliasName, u) ∈ before ++ (aliasName, u) :: after := List.mem_append_cons_self
  have htallied := h.tallied
  obtain ⟨_, _, _, hjoined⟩ := htallied
  refine (hagain _ u b (h.sound.joined hmem) (hjoined _ hmem)).mono fun u' c hu' => ?_
  exact h.trans hk (hu'.replaceJoin h.sound h.tallied)

end Query

end CausalTrace
