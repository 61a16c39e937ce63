import CausalTrace.Proofs.Bags
import CausalTrace.Proofs.Deployment

/-!
# What stages deliver

The bindings that arrive at a stage bind what its query defines and nothing else,
and a bag that holds the rows of all arrivals gives back the rows of what the stage
delivers.
-/

namespace CausalTrace

namespace Stage

variable {a : Arena} {s : Stage} {env env' : Binding} {envs : List Binding}

/-! ## Arrivals -/

theorem observedOn_within (p : Pass) : (s.observedOn p).Within s.observed.values :=
  Binding.ofRow_within

theorem arrive_within {vs : List VarId} (ho : a.Ordered) (h : s.arrive a env = some env')
    (hw : env.Within vs) : env'.Within (vs ++ s.lets.map (·.2)) := by
  have hs := ((arrive_eq_some_iff ho).mp h).1
  intro v hv
  rw [List.mem_append, not_or] at hv
  rw [hs.outside v hv.2, hw v hv.1]

theorem mem_arrivals_iff {joined : List Pass → List (List Binding)} {passes : List Pass} :
    env ∈ s.arrivals a joined passes ↔
      ∃ later p past, passes = later ++ p :: past ∧
        env ∈ s.arrivalsIn a (joined (p :: past)) p := by
  induction passes with
  | nil =>
      constructor
      · exact fun h => (List.not_mem_nil h).elim
      · rintro ⟨later, p, past, h, _⟩
        exact absurd h (by simp)
  | cons p past ih =>
      rw [arrivals, List.mem_append, ih]
      constructor
      · rintro (⟨later, q, rest, rfl, h⟩ | h)
        · exact ⟨p :: later, q, rest, rfl, h⟩
        · exact ⟨[], p, past, rfl, h⟩
      · rintro ⟨later, q, rest, he, h⟩
        cases later with
        | nil =>
            cases he
            exact Or.inr h
        | cons r later =>
            cases he
            exact Or.inl ⟨later, q, rest, rfl, h⟩

theorem mem_arrivalsIn {joined : List (List Binding)} {p : Pass}
    (h : env ∈ s.arrivalsIn a joined p) :
    ∃ m ∈ meetings joined, s.arrive a ((s.observedOn p).beside m) = some env := by
  rw [arrivalsIn] at h
  split at h
  · exact List.mem_filterMap.mp h
  · cases h

/-! ## Deliveries -/

/-- The variables of a delivered group: its keys, then its aggregates. -/
theorem names_unpackedBag_group {keys : List VarId} {gs : List Aggregate}
    (hs : s.shape = .group keys gs) :
    s.unpackedBag.names = s.packedKeys keys gs ++ (s.packedAggregates gs).map (·.var) := by
  rw [unpackedBag, hs, BagSpec.names, List.map_map]
  rfl

/-- A stage delivers some of what arrives, or groups that bind what it packs. -/
theorem mem_delivered (h : env ∈ s.delivered envs) :
    env ∈ envs ∨ env.Within s.unpackedBag.names := by
  rw [delivered] at h
  split at h
  · exact Or.inl h
  · exact Or.inl h
  · exact Or.inl (List.mem_of_head? (Option.mem_toList.mp h))
  · exact Or.inl (List.mem_of_getLast? (Option.mem_toList.mp h))
  · next keys gs hs =>
      obtain ⟨r, _, rfl⟩ := List.mem_map.mp h
      rw [names_unpackedBag_group hs]
      exact Or.inr Binding.ofRow_within

theorem length_of_mem_groupedRows {keys : List VarId} {gs : List Aggregate} {r : Row}
    (h : r ∈ groupedRows keys gs envs) : r.length = (keys ++ gs.map (·.var)).length := by
  obtain ⟨g, hg, rfl⟩ := List.mem_map.mp h
  obtain ⟨hk, hx⟩ := Groups.length_of_mem_ofRows hg
  rw [List.length_append, hk, List.length_map, hx, List.length_append, List.length_map,
    List.length_map]

theorem create_packedBag (id : BagId) :
    Bag.create id s.packedBag true = Bag.create id s.unpackedBag true := by
  rw [packedBag, unpackedBag]
  cases s.shape with
  | unfinished => rfl
  | select selected => rfl
  | filter keep => rfl
  | group keys gs => simp [Bag.create, Function.comp_def]

/-- What is kept of the rows of all arrivals are the rows of what is delivered. -/
theorem keeps_packedRows (id : BagId) (hn : s.unpackedBag.names.Nodup) :
    (Bag.create id s.packedBag true).discipline.keeps (envs.map s.packedRow) =
      (s.delivered envs).map (·.row s.unpackedBag.names) := by
  have hall : ∀ rows : List Row, (∀ r ∈ rows, r.length = s.outputs.length) →
      rows.filter (·.length == s.outputs.length) = rows := fun rows h =>
    List.filter_eq_self.mpr fun r hr => beq_iff_eq.mpr (h r hr)
  have hlength : ∀ r ∈ envs.map (·.row s.outputs), r.length = s.outputs.length := by
    intro r hr
    obtain ⟨env, _, rfl⟩ := List.mem_map.mp hr
    exact Binding.length_row
  cases hs : s.shape with
  | unfinished =>
      have hrow : s.packedRow = (·.row s.outputs) := by funext env; rw [packedRow, hs]
      simp only [packedBag, unpackedBag, delivered, hs, hrow, Bag.create, if_true, Discipline.keeps,
        BagSpec.names]
      exact hall _ hlength
  | select selected =>
      have hrow : s.packedRow = (·.row s.outputs) := by funext env; rw [packedRow, hs]
      simp only [packedBag, unpackedBag, delivered, hs, hrow, Bag.create, if_true, Discipline.keeps,
        BagSpec.names]
      exact hall _ hlength
  | filter keep =>
      have hrow : s.packedRow = (·.row s.outputs) := by funext env; rw [packedRow, hs]
      cases keep with
      | first =>
          simp only [packedBag, unpackedBag, delivered, hs, hrow, Bag.create, if_true,
            Discipline.keeps, BagSpec.names, hall _ hlength, List.head?_map]
          cases envs.head? <;> rfl
      | mostRecent =>
          simp only [packedBag, unpackedBag, delivered, hs, hrow, Bag.create, if_true,
            Discipline.keeps, BagSpec.names, hall _ hlength, List.getLast?_map]
          cases envs.getLast? <;> rfl
  | group keys gs =>
      have hrow : s.packedRow = groupingRow (s.packedKeys keys gs) (s.packedAggregates gs) := by
        funext env
        rw [packedRow, hs]
      rw [names_unpackedBag_group hs] at hn ⊢
      simp only [packedBag, delivered, hs, hrow, Bag.create, if_true,
        Discipline.keeps, List.map_map]
      refine Eq.trans (Eq.symm (List.map_id _)) (List.map_congr_left fun r hr => ?_)
      have hr' : r ∈ groupedRows (s.packedKeys keys gs) (s.packedAggregates gs) envs := hr
      exact (Binding.row_ofRow hn (length_of_mem_groupedRows hr')).symm

end Stage

/-! ## Trees -/

namespace Query

variable {a : Arena} {passes : List Pass}

/-- What the joined queries of a stage deliver to it. -/
def incomings (a : Arena) (js : List (String × Query)) (passes : List Pass) : List Incoming :=
  js.map fun j => ⟨j.2.defines, j.2.stage.unpackedBag.names,
    j.2.stage.delivered (j.2.arrivals a passes)⟩

theorem envs_incomings (js : List (String × Query)) :
    (incomings a js passes).map (·.envs) = joinsDeliver a js passes := by
  rw [joinsDeliver_eq, incomings, List.map_map]
  rfl

theorem scope_incomings (js : List (String × Query)) :
    (incomings a js passes).flatMap (·.scope) = joinsDefine js := by
  rw [joinsDefine_eq, incomings, List.flatMap_map]

theorem names_incomings (js : List (String × Query)) :
    (incomings a js passes).flatMap (·.names) = js.flatMap fun j =>
      j.2.stage.unpackedBag.names := by
  rw [incomings, List.flatMap_map]

/-- Arrivals that bind what the query defines are delivered so. -/
theorem delivered_within {q : Query} (hq : q.Scoped a true)
    (h : ∀ env ∈ q.arrivals a passes, env.Within q.defines) :
    ∀ env ∈ q.stage.delivered (q.arrivals a passes), env.Within q.defines := by
  intro env hm
  rcases Stage.mem_delivered hm with ha | hw
  · exact h env ha
  · exact hw.mono (delivered_defined hq)

theorem tidy_of_within {js : List (String × Query)} (hq : ∀ j ∈ js, j.2.Scoped a true)
    (h : ∀ j ∈ js, ∀ env ∈ j.2.arrivals a passes, env.Within j.2.defines) :
    ∀ b ∈ incomings a js passes, b.Tidy := by
  intro b hb
  obtain ⟨j, hj, rfl⟩ := List.mem_map.mp hb
  exact ⟨delivered_defined (hq j hj), delivered_within (hq j hj) (h j hj)⟩

/-- What arrives at a query binds nothing but what the query defines. -/
theorem arrivals_within {q : Query} {pack : Bool} (ho : a.Ordered) (hq : q.Scoped a pack) :
    ∀ env ∈ q.arrivals a passes, env.Within q.defines := by
  induction q generalizing pack passes with
  | node s js ih =>
      obtain ⟨_, hjoined⟩ := hq
      intro env hm
      rw [arrivals, Stage.mem_arrivals_iff] at hm
      obtain ⟨later, p, past, rfl, hm⟩ := hm
      obtain ⟨m, hmeet, hadmit⟩ := Stage.mem_arrivalsIn hm
      rw [← envs_incomings] at hmeet
      have hin :=
        meetings_within (tidy_of_within hjoined fun j hj => ih j hj (hjoined j hj)) m hmeet
      rw [scope_incomings] at hin
      refine (Stage.arrive_within ho hadmit ((Stage.observedOn_within p).beside hin)).mono ?_
      intro v hv
      rw [defines, List.mem_append, Stage.mem_defines_iff]
      simp only [List.mem_append] at hv
      rcases hv with (ho | hj) | hl
      · exact Or.inl (Or.inl ho)
      · exact Or.inr hj
      · exact Or.inl (Or.inr (Or.inl hl))

theorem tidy_incomings {js : List (String × Query)} (ho : a.Ordered)
    (hq : ∀ j ∈ js, j.2.Scoped a true) : ∀ b ∈ incomings a js passes, b.Tidy :=
  tidy_of_within hq fun j hj => arrivals_within ho (hq j hj)

end Query

end CausalTrace
