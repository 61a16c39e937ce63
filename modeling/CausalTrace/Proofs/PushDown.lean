import CausalTrace.Proofs.Delivery
import CausalTrace.Proofs.WellFormed
import CausalTrace.Query.Optimize

/-!
# Moving lets and conditions

A let or a condition that reads only what one joined query delivers gives the same,
whether it is evaluated where the bindings meet or before that. So one step of moving
changes nothing of what arrives at the stage it starts from.
-/

namespace CausalTrace

/-! ## Work on some variables -/

namespace Binding

variable {a : Arena} {env pre rest : Binding} {u v : VarId} {x : Value} {vs : List VarId}
  {f : Binding → Option Binding}

theorem set_beside : (env.set v x).beside rest = (env.beside rest).set v x := by
  funext u
  by_cases h : u = v
  · rw [h, beside_apply, set_self, set_self, Option.some_or]
  · rw [beside_apply, set_of_ne h, set_of_ne h, beside_apply]

theorem beside_set (h : pre v = none) : pre.beside (env.set v x) = (pre.beside env).set v x := by
  funext u
  by_cases hu : u = v
  · rw [hu, beside_apply, h, Option.none_or, set_self, set_self]
  · rw [beside_apply, set_of_ne hu, set_of_ne hu, beside_apply]

theorem agree_beside_left (h : ∀ v ∈ vs, pre v = none) : Agree vs (pre.beside env) env := by
  intro v hv
  rw [beside_apply, h v hv, Option.none_or]

theorem agree_beside_right (h : ∀ v ∈ vs, rest v = none) : Agree vs (env.beside rest) env := by
  intro v hv
  rw [beside_apply, h v hv, Option.or_none]

/-- Work that reads and sets only some variables does not see bindings of others. -/
structure Local (vs : List VarId) (f : Binding → Option Binding) : Prop where
  left : ∀ {pre env : Binding}, (∀ v ∈ vs, pre v = none) →
    f (pre.beside env) = (f env).map pre.beside
  right : ∀ {env rest : Binding}, (∀ v ∈ vs, rest v = none) →
    f (env.beside rest) = (f env).map (·.beside rest)

theorem local_compute (v : VarId) : Local (v :: a.reads v) (·.compute a v) where
  left := by
    intro pre env h
    obtain ⟨hv, hreads⟩ := List.forall_mem_cons.mp h
    rw [compute, compute, Arena.evaluate?_congr (agree_beside_left hreads)]
    cases a.evaluate? env v with
    | none => rfl
    | some x => exact congrArg some (beside_set hv).symm
  right := by
    intro env rest h
    obtain ⟨_, hreads⟩ := List.forall_mem_cons.mp h
    rw [compute, compute, Arena.evaluate?_congr (agree_beside_right hreads)]
    cases a.evaluate? env v with
    | none => rfl
    | some x => exact congrArg some set_beside.symm

end Binding

/-- The binding, if the condition holds. -/
def Condition.test (w : Condition) (env : Binding) : Option Binding :=
  if w.holds env then some env else none

theorem Condition.local_test (w : Condition) : Binding.Local w.args w.test where
  left := by
    intro pre env h
    rw [test, test, holds_congr (Binding.agree_beside_left h)]
    split
    · rfl
    · rfl
  right := by
    intro env rest h
    rw [test, test, holds_congr (Binding.agree_beside_right h)]
    split
    · rfl
    · rfl

/-! ## Work before a meeting -/

section

variable {vs : List VarId} {f : Binding → Option Binding} {bags before after : List (List Binding)}
  {envs : List Binding}

theorem meetings_eq_none {v : VarId} (h : ∀ bag ∈ bags, ∀ env ∈ bag, env v = none) :
    ∀ m ∈ meetings bags, m v = none := by
  induction bags with
  | nil =>
      intro m hm
      rw [List.mem_singleton.mp hm, Binding.empty_apply]
  | cons bag bags ih =>
      obtain ⟨hbag, hbags⟩ := List.forall_mem_cons.mp h
      intro m hm
      obtain ⟨right, hr, hm⟩ := List.mem_flatMap.mp hm
      obtain ⟨left, hl, rfl⟩ := List.mem_map.mp hm
      rw [Binding.beside_apply, hbag left hl, ih hbags right hr, Option.or_none]

/-- Work on the bindings of one bag may as well be done on all that meet. -/
theorem meetings_filterMap (hf : Binding.Local vs f)
    (hbefore : ∀ bag ∈ before, ∀ env ∈ bag, ∀ v ∈ vs, env v = none)
    (hafter : ∀ bag ∈ after, ∀ env ∈ bag, ∀ v ∈ vs, env v = none) :
    meetings (before ++ envs.filterMap f :: after) =
      (meetings (before ++ envs :: after)).filterMap f := by
  induction before with
  | nil =>
      rw [List.nil_append, List.nil_append, meetings, meetings, List.filterMap_flatMap]
      refine List.flatMap_congr fun right hr => ?_
      rw [List.map_filterMap, List.filterMap_map]
      refine List.filterMap_congr fun env _ => ?_
      have hnone : ∀ v ∈ vs, right v = none := fun v hv =>
        meetings_eq_none (fun bag hb env he => hafter bag hb env he v hv) right hr
      exact (hf.right hnone).symm
  | cons bag before ih =>
      obtain ⟨hbag, hbefore⟩ := List.forall_mem_cons.mp hbefore
      rw [List.cons_append, List.cons_append, meetings, meetings, ih hbefore,
        List.filterMap_flatMap]
      -- Every binding of the bag in front leaves the work to the rest of the meeting.
      have hpoint : ∀ right, (bag.map (·.beside right)).filterMap f =
          (f right).toList.flatMap fun right => bag.map (·.beside right) := by
        intro right
        rw [List.filterMap_map]
        have hleft : bag.filterMap (f ∘ (·.beside right)) =
            bag.filterMap fun env => (f right).map env.beside :=
          List.filterMap_congr fun env he => hf.left (hbag env he)
        rw [hleft]
        cases f right with
        | none => simp
        | some right' => simp
      simp only [hpoint]
      induction meetings (before ++ envs :: after) with
      | nil => rfl
      | cons m ms ihm =>
          rw [List.flatMap_cons, List.filterMap_cons, ← ihm]
          cases f m with
          | none => rfl
          | some m' => simp

end

/-! ## Work at one stage -/

namespace Stage

variable {a : Arena} {s s' : Stage} {env env' base : Binding} {v : VarId} {w : Condition}
  {f : Binding → Option Binding}

/-- A let may be evaluated before the others. -/
theorem arrive_of_let_first (ho : a.Ordered)
    (hl : ∀ u, u ∈ s.lets.map (·.2) ↔ u ∈ v :: s'.lets.map (·.2)) (hw : s'.wheres = s.wheres)
    (hv : v ∉ s'.lets.map (·.2)) (hr : ∀ u ∈ a.reads v, u ∉ v :: s'.lets.map (·.2)) :
    s.arrive a base = (base.compute a v).bind (s'.arrive a) := by
  ext env'
  rw [arrive_eq_some_iff ho, Option.bind_eq_some_iff]
  constructor
  · rintro ⟨hs, hpass⟩
    obtain ⟨next, hc, hs'⟩ := (Arena.solves_cons_iff hv hr).mp (hs.congr hl)
    exact ⟨next, hc, (arrive_eq_some_iff ho).mpr ⟨hs', hw ▸ hpass⟩⟩
  · rintro ⟨next, hc, h⟩
    obtain ⟨hs', hpass⟩ := (arrive_eq_some_iff ho).mp h
    have hs := (Arena.solves_cons_iff hv hr).mpr ⟨next, hc, hs'⟩
    exact ⟨hs.congr fun u => (hl u).symm, hw ▸ hpass⟩

/-- A let that nothing else at the stage reads may be evaluated last. -/
theorem arrive_of_let_last (ho : a.Ordered)
    (hl : ∀ u, u ∈ s'.lets.map (·.2) ↔ u ∈ v :: s.lets.map (·.2)) (hw : s'.wheres = s.wheres)
    (hv : v ∉ s.lets.map (·.2)) (hr : ∀ u ∈ s.lets.map (·.2), v ∉ a.reads u)
    (hwv : ∀ w ∈ s.wheres, v ∉ w.args) :
    s'.arrive a base = (s.arrive a base).bind (·.compute a v) := by
  have hself : v ∉ a.reads v := fun hm => Nat.lt_irrefl _ (ho v v hm)
  -- Conditions do not see the value of the let.
  have hpass : ∀ {next env' : Binding}, next.compute a v = some env' →
      s.wheres.all (·.holds env') = s.wheres.all (·.holds next) := by
    intro next env' hc
    obtain ⟨x, _, rfl⟩ := Option.map_eq_some_iff.mp hc
    refine all_congr_of_mem fun w hm => ?_
    exact Condition.holds_congr fun u hu => Binding.set_of_ne fun e => hwv w hm (e ▸ hu)
  ext env'
  rw [arrive_eq_some_iff ho, Option.bind_eq_some_iff, hw]
  constructor
  · rintro ⟨hs, hall⟩
    obtain ⟨next, hs', hc⟩ := (Arena.solves_cons_iff_last hv hself hr).mp (hs.congr hl)
    rw [hpass hc] at hall
    exact ⟨next, (arrive_eq_some_iff ho).mpr ⟨hs', hall⟩, hc⟩
  · rintro ⟨next, h, hc⟩
    obtain ⟨hs', hall⟩ := (arrive_eq_some_iff ho).mp h
    have hs := (Arena.solves_cons_iff_last hv hself hr).mpr ⟨next, hs', hc⟩
    rw [← hpass hc] at hall
    exact ⟨hs.congr fun u => (hl u).symm, hall⟩

theorem test_eq_some_iff : w.test env = some env' ↔ w.holds env = true ∧ env = env' := by
  rw [Condition.test]
  split
  · next h => exact ⟨fun he => ⟨h, Option.some.inj he⟩, fun he => congrArg some he.2⟩
  · next h => exact ⟨fun he => (Option.noConfusion rfl (heq_of_eq he)), fun he => absurd he.1 h⟩

/-- A condition that reads no let may be tested first. -/
theorem arrive_of_where_first (ho : a.Ordered) (hl : s'.lets = s.lets)
    (hw : s.wheres.Perm (w :: s'.wheres)) (hr : ∀ u ∈ w.args, u ∉ s.lets.map (·.2)) :
    s.arrive a base = (w.test base).bind (s'.arrive a) := by
  ext env'
  rw [arrive_eq_some_iff ho, Option.bind_eq_some_iff, hw.all_eq,
    List.all_cons, Bool.and_eq_true]
  have hholds : a.Solves (s.lets.map (·.2)) base env' → w.holds env' = w.holds base :=
    fun hs => Condition.holds_congr fun u hu => hs.outside u (hr u hu)
  constructor
  · rintro ⟨hs, hone, hall⟩
    refine ⟨base, test_eq_some_iff.mpr ⟨hholds hs ▸ hone, rfl⟩, (arrive_eq_some_iff ho).mpr ?_⟩
    exact ⟨hl ▸ hs, hall⟩
  · rintro ⟨next, ht, h⟩
    obtain ⟨hone, rfl⟩ := test_eq_some_iff.mp ht
    obtain ⟨hs, hall⟩ := (arrive_eq_some_iff ho).mp h
    rw [hl] at hs
    exact ⟨hs, hholds hs ▸ hone, hall⟩

/-- A condition may be tested last. -/
theorem arrive_of_where_last (ho : a.Ordered) (hl : s'.lets = s.lets)
    (hw : s'.wheres.Perm (w :: s.wheres)) : s'.arrive a base = (s.arrive a base).bind w.test := by
  ext env'
  rw [arrive_eq_some_iff ho, Option.bind_eq_some_iff, hw.all_eq,
    List.all_cons, Bool.and_eq_true, hl]
  constructor
  · rintro ⟨hs, hone, hall⟩
    exact ⟨env', (arrive_eq_some_iff ho).mpr ⟨hs, hall⟩, test_eq_some_iff.mpr ⟨hone, rfl⟩⟩
  · rintro ⟨next, h, ht⟩
    obtain ⟨hone, rfl⟩ := test_eq_some_iff.mp ht
    obtain ⟨hs, hall⟩ := (arrive_eq_some_iff ho).mp h
    exact ⟨hs, hone, hall⟩

/-! ## Work over some passes -/

variable {joined joined' : List Pass → List (List Binding)} {passes : List Pass} {vs : List VarId}

theorem observedOn_congr {p : Pass} (hs : s'.observed = s.observed) :
    s'.observedOn p = s.observedOn p := by
  rw [observedOn, observedOn, hs]

/-- Work that is done last on every binding is done on all that arrives. -/
theorem arrivals_filterMap (hs : s'.source = s.source) (hobs : s'.observed = s.observed)
    (h : ∀ base, s'.arrive a base = (s.arrive a base).bind f) :
    s'.arrivals a joined passes = (s.arrivals a joined passes).filterMap f := by
  induction passes with
  | nil => rfl
  | cons p past ih =>
      rw [arrivals, arrivals, ih, List.filterMap_append]
      congr 1
      rw [arrivalsIn, arrivalsIn, hs]
      split
      · rw [List.filterMap_filterMap]
        refine List.filterMap_congr fun env _ => ?_
        rw [observedOn_congr hobs, h]
      · rfl

/-- Work on what one bag delivers may as well be done first at the stage. -/
theorem arrivals_of_meetings (hf : Binding.Local vs f) (hs : s'.source = s.source)
    (hobs : s'.observed = s.observed) (hfree : ∀ v ∈ vs, v ∉ s.observed.values)
    (hmeet : ∀ passes, meetings (joined' passes) = (meetings (joined passes)).filterMap f)
    (h : ∀ base, s.arrive a base = (f base).bind (s'.arrive a)) :
    s'.arrivals a joined' passes = s.arrivals a joined passes := by
  induction passes with
  | nil => rfl
  | cons p past ih =>
      rw [arrivals, arrivals, ih]
      congr 1
      rw [arrivalsIn, arrivalsIn, hs]
      split
      · rw [hmeet, List.filterMap_filterMap]
        refine List.filterMap_congr fun env _ => ?_
        have hleft : f ((s.observedOn p).beside env) = (f env).map (s.observedOn p).beside :=
          hf.left fun v hv => Binding.ofRow_eq_none (hfree v hv)
        rw [h, hleft, observedOn_congr hobs, Option.bind_map]
        rfl
      · rfl

/-! ## Conditions on keys -/

/-- Testing bindings keeps those of the elements that pass. -/
theorem filterMap_test_map {α : Type} {xs : List α} {bind : α → Binding} {passes : α → Bool}
    (h : ∀ x ∈ xs, w.holds (bind x) = passes x) :
    (xs.map bind).filterMap w.test = (xs.filter passes).map bind := by
  induction xs with
  | nil => rfl
  | cons x xs ih =>
      obtain ⟨hx, hxs⟩ := List.forall_mem_cons.mp h
      rw [List.map_cons, List.filterMap_cons, List.filter_cons, ih hxs, Condition.test, hx]
      cases passes x with
      | true => rfl
      | false => rfl

/-- A condition on keys sees a binding as the row of its keys. -/
theorem holds_ofRow_row {ks : List VarId} (hw : ∀ v ∈ w.args, v ∈ ks) :
    w.holds (.ofRow ks (env.row ks)) = w.holds env := by
  have hrow : (Binding.ofRow ks (env.row ks)).row w.args = env.row w.args := by
    refine List.map_congr_left fun v hv => ?_
    rw [Binding.get_of_eq_some (Binding.ofRow_row (hw v hv))]
  rw [Condition.holds, Condition.holds, hrow]

/-- A condition on keys sees a group as the row of its keys. -/
theorem holds_ofRow_append {ks vs : List VarId} {key values : Row} (hw : ∀ v ∈ w.args, v ∈ ks)
    (hk : key.length = ks.length) :
    w.holds (.ofRow (ks ++ vs) (key ++ values)) = w.holds (.ofRow ks key) := by
  refine Condition.holds_congr fun v hv => ?_
  obtain ⟨x, hx⟩ := Option.isSome_iff_exists.mp (Binding.ofRow_isSome hk (hw v hv))
  rw [Binding.ofRow_append hk, Binding.beside_apply, hx, Option.some_or]

/-- Bindings tested before grouping leave the groups whose keys pass. -/
theorem groups_filterMap_test {ks : List VarId} {gs : List Aggregate} {envs : List Binding}
    (hw : ∀ v ∈ w.args, v ∈ ks) :
    (Groups.ofRows ks.length (gs.map (·.how))
        ((envs.filterMap w.test).map (groupingRow ks gs))).groups =
      (Groups.ofRows ks.length (gs.map (·.how)) (envs.map (groupingRow ks gs))).groups.filter
        fun g => w.holds (.ofRow ks g.1) := by
  have hparts : ((envs.filterMap w.test).map (groupingRow ks gs)).filterMap
        (Groups.part? Aggregation.operand? ks.length (gs.map (·.how))) =
      ((envs.map (groupingRow ks gs)).filterMap
        (Groups.part? Aggregation.operand? ks.length (gs.map (·.how)))).filter
          fun p => w.holds (.ofRow ks p.1) := by
    induction envs with
    | nil => rfl
    | cons env envs ih =>
        rw [List.map_cons, List.filterMap_cons, List.filterMap_cons, Condition.test]
        cases hp : Groups.part? Aggregation.operand? ks.length (gs.map (·.how))
            (groupingRow ks gs env) with
        | none =>
            by_cases hone : w.holds env
            · rw [if_pos hone, List.map_cons, List.filterMap_cons, hp, ih]
            · rw [if_neg hone, ih]
        | some p =>
            have hkey : p.1 = env.row ks := Groups.fst_of_part? hp Binding.length_row
            rw [List.filter_cons, hkey, holds_ofRow_row hw]
            by_cases hone : w.holds env
            · rw [if_pos hone, if_pos hone, List.map_cons, List.filterMap_cons, hp, ih]
            · rw [if_neg hone, if_neg hone, ih]
  rw [Groups.ofRows_eq, Groups.ofRows_eq, hparts]
  exact (Groups.filter_merge (P := fun key => w.holds (.ofRow ks key)) [] _).symm

/-- A condition on keys may be tested before grouping. -/
theorem delivered_filterMap_test {keys : List VarId} {gs : List Aggregate} {envs : List Binding}
    (hs : s.shape = .group keys gs) (hw : ∀ v ∈ w.args, v ∈ keys) :
    s.delivered (envs.filterMap w.test) = (s.delivered envs).filterMap w.test := by
  have hkeys : ∀ v ∈ w.args, v ∈ s.packedKeys keys gs := fun v hv =>
    List.mem_append_left _ (hw v hv)
  rw [delivered, delivered, hs]
  show (Groups.rows _).map _ = ((Groups.rows _).map _).filterMap _
  rw [Groups.rows, Groups.rows, List.map_map, List.map_map]
  refine Eq.trans (congrArg (List.map _) (groups_filterMap_test hkeys)) (Eq.symm ?_)
  refine filterMap_test_map fun g hg => ?_
  exact holds_ofRow_append hkeys (Groups.length_of_mem_ofRows hg).1

end Stage

end CausalTrace
