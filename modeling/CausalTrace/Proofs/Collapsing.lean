import CausalTrace.Proofs.Counting
import CausalTrace.Proofs.Meetings
import CausalTrace.Proofs.Pushed
import CausalTrace.Proofs.Sound

/-!
# Collapsed grouping stages

A grouping stage that has its joined stages count first sums products of their counts. Apart
from these products it does what it did before: its bindings arrive without the products as
well, and weigh the product of the counts that they bring.
-/

namespace CausalTrace

open Weighing

namespace Stage

variable {a : Arena} {s : Stage} {v : VarId} {base env env' : Binding}

/-- Whether the stage aggregates the variable. -/
def sums (s : Stage) (v : VarId) : Bool := s.shape.aggregates.any (·.input == some v)

theorem sums_iff : s.sums v = true ↔ ∃ g ∈ s.shape.aggregates, g.input = some v := by
  rw [sums, List.any_eq_true]
  simp only [beq_iff_eq]

/-- The stage as it would count by itself: without the variables that it aggregates. -/
def bare (s : Stage) : Stage :=
  { s with
    lets := s.lets.filter fun l => !s.sums l.2
    shape := match s.shape with
      | .group keys gs => .group keys (gs.map fun g => ⟨g.var, .count, none⟩)
      | shape => shape }

theorem mem_lets_bare : v ∈ s.bare.lets.map (·.2) ↔ v ∈ s.lets.map (·.2) ∧ s.sums v = false := by
  simp only [bare, List.mem_map, List.mem_filter, Bool.not_eq_true']
  constructor
  · rintro ⟨l, ⟨hl, hno⟩, rfl⟩
    exact ⟨⟨l, hl, rfl⟩, hno⟩
  · rintro ⟨⟨l, hl, rfl⟩, hno⟩
    exact ⟨l, ⟨hl, hno⟩, rfl⟩

/-- A binding with the values of the variables that the stage aggregates. -/
def withSums (a : Arena) (s : Stage) (env : Binding) : Binding := fun v =>
  if s.sums v then a.evaluate? env v else env v

theorem withSums_of_sums (h : s.sums v = true) : s.withSums a env v = a.evaluate? env v := if_pos h

theorem withSums_of_not (h : s.sums v = false) : s.withSums a env v = env v :=
  if_neg (Bool.eq_false_iff.mp h)

/-- A binding that has what another one has for these variables. -/
def withoutSums (s : Stage) (base env : Binding) : Binding := fun v =>
  if s.sums v then base v else env v

theorem withoutSums_of_sums (h : s.sums v = true) : s.withoutSums base env v = base v := if_pos h

theorem withoutSums_of_not (h : s.sums v = false) : s.withoutSums base env v = env v :=
  if_neg (Bool.eq_false_iff.mp h)

/-- Where a stage computes variables that only its aggregates read. -/
structure Sums (a : Arena) (s : Stage) : Prop where
  lets : ∀ v, s.sums v = true → v ∈ s.lets.map (·.2)
  reads : ∀ v ∈ s.lets.map (·.2), ∀ u ∈ a.reads v, s.sums u = false
  wheres : ∀ w ∈ s.wheres, ∀ u ∈ w.args, s.sums u = false

section

variable (h : s.Sums a) (ho : a.Ordered)

include h ho

/-- What arrives with these variables arrives without them. -/
theorem Sums.arrive_bare (harrive : s.arrive a base = some env) :
    s.bare.arrive a base = some (s.withoutSums base env) ∧
      s.withSums a (s.withoutSums base env) = env := by
  obtain ⟨hs, hpass⟩ := (arrive_eq_some_iff ho).mp harrive
  have hagree : ∀ {vs : List VarId}, (∀ u ∈ vs, s.sums u = false) →
      Binding.Agree vs (s.withoutSums base env) env := fun hvs u hu => withoutSums_of_not (hvs u hu)
  refine ⟨(arrive_eq_some_iff ho).mpr ⟨⟨fun v hv => ?_, fun v hv => ?_, fun v hv => ?_⟩, ?_⟩, ?_⟩
  · cases hsum : s.sums v with
    | true => exact withoutSums_of_sums hsum
    | false =>
        rw [withoutSums_of_not hsum]
        exact hs.outside v fun hl => hv (mem_lets_bare.mpr ⟨hl, hsum⟩)
  · obtain ⟨hl, hsum⟩ := mem_lets_bare.mp hv
    rw [withoutSums_of_not hsum]
    exact hs.isSome v hl
  · obtain ⟨hl, hsum⟩ := mem_lets_bare.mp hv
    rw [Arena.evaluate?_congr (hagree (h.reads v hl)), withoutSums_of_not hsum]
    exact hs.inside v hl
  · refine Eq.trans ?_ hpass
    exact all_congr_of_mem fun w hw => Condition.holds_congr (hagree (h.wheres w hw))
  · funext v
    cases hsum : s.sums v with
    | true =>
        have hl := h.lets v hsum
        rw [withSums_of_sums hsum, Arena.evaluate?_congr (hagree (h.reads v hl))]
        exact hs.inside v hl
    | false => rw [withSums_of_not hsum, withoutSums_of_not hsum]

/-- What arrives without these variables arrives with them, if they have values. -/
theorem Sums.arrive_of_bare (hbare : s.bare.arrive a base = some env)
    (hsome : ∀ v, s.sums v = true → (a.evaluate? env v).isSome) :
    s.arrive a base = some (s.withSums a env) := by
  obtain ⟨hs, hpass⟩ := (arrive_eq_some_iff ho).mp hbare
  have hagree : ∀ {vs : List VarId}, (∀ u ∈ vs, s.sums u = false) →
      Binding.Agree vs (s.withSums a env) env := fun hvs u hu => withSums_of_not (hvs u hu)
  refine (arrive_eq_some_iff ho).mpr ⟨⟨fun v hv => ?_, fun v hv => ?_, fun v hv => ?_⟩, ?_⟩
  · have hno : s.sums v = false := Bool.eq_false_iff.mpr fun hv' => hv (h.lets v hv')
    rw [withSums_of_not hno]
    exact hs.outside v fun hl => hv (mem_lets_bare.mp hl).1
  · cases hsum : s.sums v with
    | true =>
        rw [withSums_of_sums hsum]
        exact hsome v hsum
    | false =>
        rw [withSums_of_not hsum]
        exact hs.isSome v (mem_lets_bare.mpr ⟨hv, hsum⟩)
  · rw [Arena.evaluate?_congr (hagree (h.reads v hv))]
    cases hsum : s.sums v with
    | true => rw [withSums_of_sums hsum]
    | false =>
        rw [withSums_of_not hsum]
        exact hs.inside v (mem_lets_bare.mpr ⟨hv, hsum⟩)
  · refine Eq.trans ?_ hpass
    exact all_congr_of_mem fun w hw => Condition.holds_congr (hagree (h.wheres w hw))

/-- The same arrives with and without these variables, if they always have values. -/
theorem Sums.arrive (hsome : ∀ env, s.bare.arrive a base = some env →
    ∀ v, s.sums v = true → (a.evaluate? env v).isSome) :
    s.arrive a base = (s.bare.arrive a base).map (s.withSums a) := by
  ext env'
  rw [Option.map_eq_some_iff]
  constructor
  · exact fun harrive => ⟨_, h.arrive_bare ho harrive⟩
  · rintro ⟨env, hbare, rfl⟩
    exact h.arrive_of_bare ho hbare (hsome env hbare)

end

end Stage

namespace Query

variable {a : Arena} {pack : Bool} {taken : String → Bool} {s : Stage} {js : List (String × Query)}
  {j : String × Query} {u : Query} {env m : Binding} {v : VarId} {i n : ℕ} {cs keys : List VarId}
  {name : String} {past passes : List Pass}

/-! ## Counts of joined stages -/

/-- The counts of some stages for one aggregate. -/
def column (js : List (String × Query)) (i : ℕ) : List VarId :=
  js.map fun j => j.2.stage.shape.defines.getD i ⟨0⟩

/-- The counts of the joined stages that have counted, for one aggregate. -/
def counters (taken : String → Bool) (js : List (String × Query)) (i : ℕ) : List VarId :=
  column (js.filter fun j => taken j.1) i

theorem mem_counters : v ∈ counters taken js i ↔
    ∃ j ∈ js, taken j.1 = true ∧ j.2.stage.shape.defines.getD i ⟨0⟩ = v := by
  simp only [counters, column, List.mem_map, List.mem_filter, and_assoc]

/-- Where every stage that has counted has `n` counts, all of them are among what it defines. -/
theorem exists_of_mem_counters
    (hn : ∀ j ∈ js, taken j.1 = true → j.2.stage.shape.defines.length = n)
    (hi : i < n) (hv : v ∈ counters taken js i) :
    ∃ j ∈ js, taken j.1 = true ∧ v ∈ j.2.stage.shape.defines := by
  obtain ⟨j, hj, htaken, rfl⟩ := mem_counters.mp hv
  refine ⟨j, hj, htaken, ?_⟩
  rw [List.getD_eq_getElem?_getD, List.getElem?_eq_getElem (hn j hj htaken ▸ hi)]
  exact List.getElem_mem _

/-- What a binding weighs for each of `n` aggregates, by the counts that it brings. -/
def stake (taken : String → Bool) (js : List (String × Query)) (n : ℕ)
    (env : Binding) : Fin n → ℕ :=
  fun i => ((counters taken js i).map env.tally).prod

/-- A variable by which only the counts of joined stages are handed on. -/
def Inner (taken : String → Bool) (s : Stage) (js : List (String × Query)) (v : VarId) : Prop :=
  s.sums v = true ∨ ∃ j ∈ js, taken j.1 = true ∧ v ∈ j.2.stage.shape.defines

/-- A stage that counts by itself, if at all. -/
structure Plain (taken : String → Bool) (s : Stage) (js : List (String × Query)) : Prop where
  aggregates : ∀ g ∈ s.shape.aggregates, g.how = .count ∧ g.input = none
  untaken : ∀ j ∈ js, taken j.1 = false

/-- A grouping stage that sums products of counts. -/
structure Collapsed (a : Arena) (taken : String → Bool) (s : Stage)
    (js : List (String × Query)) : Prop where
  group : ∃ keys gs, s.shape = .group keys gs
  firm : ∀ j ∈ js, ¬ j.2.stage.shape.Flat
  products : ∀ i g, s.shape.aggregates[i]? = some g → g.how = .sum ∧ ∃ v ∈ s.lets.map (·.2),
    g.input = some v ∧ ∃ name, a.definition? v =
      some (.computed name (productExpr (counters taken js i).length) (counters taken js i))

/-- How a stage counts, and what it has joined stages count. -/
structure Counts (a : Arena) (taken : String → Bool) (s : Stage)
    (js : List (String × Query)) : Prop where
  form : Plain taken s js ∨ Collapsed a taken s js
  shares : ∀ j ∈ js, taken j.1 = true → (∃ keys gs, j.2.stage.shape = .group keys gs) ∧
    j.2.stage.shape.defines.length = s.shape.aggregates.length ∧
      ∀ v ∈ j.2.stage.shape.defines, v ∈ j.2.stage.outputs
  others : ∀ j ∈ js, taken j.1 = false → j.2.stage.passed = []
  inner : ∀ v, Inner taken s js v → v ∉ s.shape.keys ∧ v ∉ s.outputs ∧
    (∀ w ∈ s.wheres, v ∉ w.args) ∧
    ∀ l ∈ s.bare.lets, v ∉ a.reads l.2
  passed : ∀ v ∈ s.passed, v ∈ (node s js).bound

theorem Plain.sums_eq_false (h : Plain taken s js) (v : VarId) : s.sums v = false := by
  refine Bool.eq_false_iff.mpr fun hv => ?_
  obtain ⟨g, hg, hin⟩ := Stage.sums_iff.mp hv
  rw [(h.aggregates g hg).2] at hin
  cases hin

theorem Plain.not_taken (h : Plain taken s js) (hj : j ∈ js) : taken j.1 ≠ true := by
  rw [h.untaken j hj]
  exact Bool.false_ne_true

theorem Plain.counters_eq_nil (h : Plain taken s js) (i : ℕ) : counters taken js i = [] := by
  rw [counters, column, List.map_eq_nil_iff, List.filter_eq_nil_iff]
  exact fun j hj => h.not_taken hj

theorem Plain.not_inner (h : Plain taken s js) : ¬ Inner taken s js v := by
  rintro (hsum | ⟨j, hj, htaken, _⟩)
  · rw [h.sums_eq_false] at hsum
    cases hsum
  · exact h.not_taken hj htaken

/-- A stage that counts by itself takes no counts of joined stages. -/
theorem Plain.counts (h : Plain taken s js) (others : ∀ j ∈ js, j.2.stage.passed = [])
    (passed : ∀ v ∈ s.passed, v ∈ (node s js).bound) : Counts a taken s js :=
  ⟨Or.inl h, fun _ hj htaken => absurd htaken (h.not_taken hj), fun j hj _ => others j hj,
    fun _ hv => absurd hv h.not_inner, passed⟩

theorem Plain.others (h : Plain taken s js) (hcounts : Counts a taken s js) :
    ∀ j ∈ js, j.2.stage.passed = [] := fun j hj => hcounts.others j hj (h.untaken j hj)

/-- A stage that counts by itself is bare. -/
theorem Plain.bare_eq (h : Plain taken s js) : s.bare = s := by
  have hlets : (s.lets.filter fun l => !s.sums l.2) = s.lets :=
    List.filter_eq_self.mpr fun l _ => by rw [h.sums_eq_false, Bool.not_false]
  have haggregates := h.aggregates
  cases s with
  | mk source observed shorts lets wheres outputs shape =>
      rw [Stage.bare, hlets]
      cases shape with
      | unfinished | select _ | filter _ => rfl
      | group keys gs =>
          have hgs : (gs.map fun g => (⟨g.var, .count, none⟩ : Aggregate)) = gs := by
            refine (List.map_congr_left fun g hg => ?_).trans (List.map_id _)
            obtain ⟨hhow, hin⟩ := haggregates g hg
            rw [← hhow, ← hin]
            rfl
          dsimp only
          rw [hgs]

theorem aggregates_of_not_group (hno : ∀ keys gs, s.shape ≠ .group keys gs) :
    s.shape.aggregates = [] := by
  cases hs : s.shape with
  | unfinished | select _ | filter _ => rfl
  | group keys gs => exact absurd hs (hno keys gs)

/-- A stage that does not group counts by itself, if at all. -/
theorem Counts.plain_of_not_group (h : Counts a taken s js)
    (hno : ∀ keys gs, s.shape ≠ .group keys gs) : Plain taken s js :=
  h.form.resolve_right fun hcollapsed => by
    obtain ⟨keys, gs, hs⟩ := hcollapsed.group
    exact hno keys gs hs

/-- A stage that joins a flat query counts by itself, if at all. -/
theorem Counts.plain_of_flat_join (h : Counts a taken s js)
    (hflat : ∃ j ∈ js, j.2.stage.shape.Flat) : Plain taken s js :=
  h.form.resolve_right fun hcollapsed => by
    obtain ⟨j, hj, hflat⟩ := hflat
    exact hcollapsed.firm j hj hflat

/-- Counts come from joined stages. -/
theorem Counts.counter_defined (h : Counts a taken s js) (hi : i < s.shape.aggregates.length)
    (hv : v ∈ counters taken js i) : ∃ j ∈ js, taken j.1 = true ∧ v ∈ j.2.stage.shape.defines :=
  exists_of_mem_counters (fun j hj htaken => (h.shares j hj htaken).2.1) hi hv

theorem defines_of_shape {q : Query} (h : v ∈ q.stage.shape.defines) : v ∈ q.defines := by
  cases q
  exact mem_defines_node.mpr (Or.inl (Stage.mem_defines_iff.mpr (Or.inr (Or.inr h))))

theorem Counts.form_sums (h : Counts a taken s js) (hv : s.sums v = true) :
    Collapsed a taken s js := by
  refine h.form.resolve_left fun hplain => ?_
  rw [hplain.sums_eq_false] at hv
  cases hv

/-- The variables that a stage aggregates are products, which nothing else reads. -/
theorem Counts.sums (h : Counts a taken s js) (hn : (node s js).defines.Nodup) : s.Sums a := by
  have hlets : ∀ v, s.sums v = true → v ∈ s.lets.map (·.2) := by
    intro v hv
    obtain ⟨g, hg, hin⟩ := Stage.sums_iff.mp hv
    obtain ⟨i, hi⟩ := List.mem_iff_getElem?.mp hg
    obtain ⟨_, u, hu, hin', _⟩ := (h.form_sums hv).products i g hi
    rw [hin] at hin'
    cases hin'
    exact hu
  refine ⟨hlets, fun v hv u hu => ?_, fun w hw u hu => ?_⟩
  · cases hsum : s.sums v with
    | true =>
        obtain ⟨g, hg, hin⟩ := Stage.sums_iff.mp hsum
        obtain ⟨i, hi⟩ := List.mem_iff_getElem?.mp hg
        obtain ⟨_, u', _, hin', name, hdefinition⟩ := (h.form_sums hsum).products i g hi
        rw [hin] at hin'
        cases hin'
        -- A product reads counts of joined stages, and these are no lets here.
        rw [Arena.reads_computed hdefinition] at hu
        obtain ⟨j, hj, _, hcounter⟩ := h.counter_defined (List.getElem?_eq_some_iff.mp hi).1 hu
        have hnot := not_defines_of_joined hn hj (defines_of_shape hcounter)
        refine Bool.eq_false_iff.mpr fun hu' => hnot ?_
        exact Stage.mem_defines_iff.mpr (Or.inr (Or.inl (hlets u hu')))
    | false =>
        obtain ⟨l, hl, rfl⟩ := List.mem_map.mp (Stage.mem_lets_bare.mpr ⟨hv, hsum⟩)
        exact Bool.eq_false_iff.mpr fun hu' => (h.inner u (Or.inl hu')).2.2.2 l hl hu
  · exact Bool.eq_false_iff.mpr fun hu' => (h.inner u (Or.inl hu')).2.2.1 w hw hu

/-! ## Products -/

/-- The counts that a joined stage delivers are positive and fit into 64 bits. -/
def LegibleCounts (a : Arena) (u : Query) (passes : List Pass) : Prop :=
  ∀ env ∈ u.stage.delivered (u.arrivals a passes), ∀ v ∈ u.stage.shape.defines,
    ∃ n, 0 < n ∧ n < 2 ^ 63 ∧ env v = some (.int (.ofNat n))

/-- A product of counts is their product. -/
theorem evaluate?_product
    (hdefinition : a.definition? v = some (.computed name (productExpr cs.length) cs))
    (hcounts : ∀ c ∈ cs, ∃ n, 0 < n ∧ n < 2 ^ 63 ∧ env c = some (.int (.ofNat n)))
    (hlt : (cs.map env.tally).prod < 2 ^ 63) :
    a.evaluate? env v = some (.int (.ofNat (cs.map env.tally).prod)) := by
  have hrow : env.row cs = (cs.map env.tally).map fun n => .int (.ofNat n) := by
    rw [List.map_map]
    refine List.map_congr_left fun c hc => ?_
    obtain ⟨n, _, hn, hvalue⟩ := hcounts c hc
    rw [Function.comp_apply, Binding.tally_of_eq hvalue hn, Binding.get_of_eq_some hvalue]
  have hpos : ∀ n ∈ cs.map env.tally, 0 < n := by
    intro n hn
    obtain ⟨c, hc, rfl⟩ := List.mem_map.mp hn
    obtain ⟨n, hpos, hn, hvalue⟩ := hcounts c hc
    rwa [Binding.tally_of_eq hvalue hn]
  have hvalue := Template.value?_productExpr hpos hlt
  rw [List.length_map, ← hrow] at hvalue
  rw [Arena.evaluate?, hdefinition]
  exact hvalue

/-- What the bindings with one row of some keys weigh together. -/
def load (taken : String → Bool) (js : List (String × Query)) (keys : List VarId) (n : ℕ)
    (envs : List Binding) (row : Row) : Fin n → ℕ :=
  weight row (envs.map fun env => (env.row keys, stake taken js n env))

theorem stake_le_load {envs : List Binding} (h : env ∈ envs) (i : Fin n) :
    stake taken js n env i ≤ load taken js keys n envs (env.row keys) i :=
  le_weight (x := env.row keys) (List.mem_map.mpr ⟨env, h, rfl⟩) i

/-! ## A collapsed stage -/

theorem defines_bare : s.bare.defines.Sublist s.defines := by
  have hshape : s.bare.shape.defines = s.shape.defines := by
    cases hs : s.shape with
    | unfinished | select _ | filter _ => simp only [Stage.bare, hs]
    | group keys gs =>
        simp only [Stage.bare, hs, Shape.defines, List.map_map]
        rfl
  rw [Stage.defines, Stage.defines, hshape]
  exact ((List.Sublist.refl _).append (List.filter_sublist.map _)).append (List.Sublist.refl _)

section

variable (h : Counts a taken s js) (hq : Sound a false pack (node s js))
  (hscoped : ∀ j ∈ js, j.2.Scoped a true)
  (hlegible : ∀ j ∈ js, taken j.1 = true → ∀ past, past <:+ passes → LegibleCounts a j.2 past)
  (hfits : ∀ row i, load taken js s.shape.keys s.shape.aggregates.length
    ((node s.bare js).arrivals a passes) row i < 2 ^ 63)

include h hq hscoped hlegible

theorem Counts.counter_value (henv : env ∈ (node s.bare js).arrivals a passes)
    (hi : i < s.shape.aggregates.length) : ∀ c ∈ counters taken js i,
      ∃ n, 0 < n ∧ n < 2 ^ 63 ∧ env c = some (.int (.ofNat n)) := by
  intro c hc
  obtain ⟨j, hj, htaken, hcounter⟩ := h.counter_defined hi hc
  have hn : (node s.bare js).defines.Nodup :=
    (defines_bare.append (List.Sublist.refl _)).nodup hq.formed.distinct
  obtain ⟨past, hpast, other, hother, hsame⟩ :=
    exists_delivered_of_arrival hq.formed.ordered hscoped hn henv hj
  rw [hsame c (defines_of_shape hcounter)]
  exact hlegible j hj htaken past hpast other hother c hcounter

theorem Counts.stake_pos (henv : env ∈ (node s.bare js).arrivals a passes)
    (i : Fin s.shape.aggregates.length) : 0 < stake taken js s.shape.aggregates.length env i := by
  refine Nat.pos_of_ne_zero (List.prod_ne_zero fun hzero => ?_)
  obtain ⟨c, hc, hzero⟩ := List.mem_map.mp hzero
  obtain ⟨n, hpos, hn, hvalue⟩ := h.counter_value hq hscoped hlegible henv i.isLt c hc
  rw [Binding.tally_of_eq hvalue hn] at hzero
  exact hpos.ne' hzero

include hfits

/-- What the stage aggregates has the value that the binding weighs. -/
theorem Counts.evaluate? (henv : env ∈ (node s.bare js).arrivals a passes)
    {i : Fin s.shape.aggregates.length} (hv : s.shape.aggregates[i].input = some v) :
    a.evaluate? env v = some (.int (.ofNat (stake taken js s.shape.aggregates.length env i))) := by
  have hg : s.shape.aggregates[i.val]? = some s.shape.aggregates[i] :=
    List.getElem?_eq_getElem i.isLt
  have hsum : s.sums v = true := Stage.sums_iff.mpr ⟨_, List.getElem_mem i.isLt, hv⟩
  obtain ⟨_, u, _, hin, name, hdefinition⟩ := (h.form_sums hsum).products i _ hg
  rw [hv] at hin
  cases hin
  exact evaluate?_product hdefinition (h.counter_value hq hscoped hlegible henv i.isLt)
    ((stake_le_load henv i).trans_lt (hfits _ i))

/-- At a stage that counts, the same arrives as without the products, together with them. -/
theorem Counts.arrivals : (node s js).arrivals a passes =
    ((node s.bare js).arrivals a passes).map (s.withSums a) := by
  have hpart : ∀ past, past <:+ passes →
      (node s js).arrivals a past = ((node s.bare js).arrivals a past).map (s.withSums a) := by
    intro past hpast
    induction past with
    | nil => rfl
    | cons p past ih =>
        have hsource : s.bare.source = s.source := rfl
        rw [arrivals_cons, arrivals_cons, List.map_append,
          ih ((List.suffix_cons p past).trans hpast), Stage.arrivalsIn, Stage.arrivalsIn, hsource]
        split
        · next hplace =>
            rw [List.map_filterMap]
            refine congrArg _ (List.filterMap_congr fun m hm => ?_)
            refine (h.sums hq.formed.distinct).arrive hq.formed.ordered fun env harrive v hv => ?_
            obtain ⟨g, hg, hin⟩ := Stage.sums_iff.mp hv
            obtain ⟨i, hi, rfl⟩ := List.getElem_of_mem hg
            have henv : env ∈ (node s.bare js).arrivals a passes := by
              obtain ⟨later, rfl⟩ := hpast
              rw [Query.arrivals, Stage.mem_arrivals_iff]
              refine ⟨later, p, past, rfl, ?_⟩
              rw [Stage.arrivalsIn, hsource, if_pos hplace]
              exact List.mem_filterMap.mpr ⟨m, hm, harrive⟩
            rw [h.evaluate? hq hscoped hlegible hfits henv (i := ⟨i, hi⟩) hin]
            rfl
        · rfl
  exact hpart passes (List.suffix_refl _)

/-- Every aggregate takes what arrives for what the joined stages have counted. -/
theorem Counts.weighs_stake (henv : env ∈ (node s.bare js).arrivals a passes)
    (i : Fin s.shape.aggregates.length) : s.shape.aggregates[i].Weighs (s.withSums a env) ∧
      s.shape.aggregates[i].weight (s.withSums a env) =
        stake taken js s.shape.aggregates.length env i := by
  have hg : s.shape.aggregates[i.val]? = some s.shape.aggregates[i] :=
    List.getElem?_eq_getElem i.isLt
  rcases h.form with hplain | hcollapsed
  · -- A count that is no sum takes a binding for one, and no counts are brought to it.
    obtain ⟨hhow, hin⟩ := hplain.aggregates _ (List.getElem_mem i.isLt)
    have hweight : s.shape.aggregates[i].weight (s.withSums a env) = 1 := by
      rw [Aggregate.weight]
      simp only [Fin.getElem_fin, hin]
    constructor
    · rw [Aggregate.Weighs, hweight, Aggregate.operandIn]
      simp only [Fin.getElem_fin, hhow]
      rfl
    · rw [hweight, stake, hplain.counters_eq_nil]
      rfl
  · -- A sum takes the value of its product.
    obtain ⟨hhow, v, _, hin, _⟩ := hcollapsed.products i _ hg
    have hsum : s.sums v = true := Stage.sums_iff.mpr ⟨_, List.getElem_mem i.isLt, hin⟩
    have hvalue : s.withSums a env v =
        some (.int (.ofNat (stake taken js s.shape.aggregates.length env i))) := by
      rw [Stage.withSums_of_sums hsum]
      exact h.evaluate? hq hscoped hlegible hfits henv hin
    have hlt := (stake_le_load henv i).trans_lt (hfits _ i)
    have hweight : s.shape.aggregates[i].weight (s.withSums a env) =
        stake taken js s.shape.aggregates.length env i := by
      rw [Aggregate.weight, hin]
      exact Binding.tally_of_eq hvalue hlt
    refine ⟨?_, hweight⟩
    rw [Aggregate.Weighs, hweight, Aggregate.operandIn, hhow, hin]
    dsimp only
    rw [Binding.get_of_eq_some hvalue]
    rfl

theorem Counts.weighs (henv : env ∈ (node s.bare js).arrivals a passes) :
    (∀ g ∈ s.shape.aggregates, g.Weighs (s.withSums a env)) ∧
      s.weights s.shape.aggregates.length (s.withSums a env) =
        stake taken js s.shape.aggregates.length env := by
  have hone := h.weighs_stake hq hscoped hlegible hfits henv
  refine ⟨fun g hg => ?_, ?_⟩
  · obtain ⟨i, hi, rfl⟩ := List.getElem_of_mem hg
    exact (hone ⟨i, hi⟩).1
  · funext i
    have hi : i.val < (s.shape.aggregates.map (·.weight (s.withSums a env))).length :=
      (List.length_map _).symm ▸ i.isLt
    rw [Stage.weights, lanes, List.getD_eq_getElem?_getD,
      List.getElem?_eq_getElem hi, List.getElem_map]
    exact (hone i).2

end

end Query

end CausalTrace
