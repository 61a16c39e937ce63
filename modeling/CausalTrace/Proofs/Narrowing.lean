import CausalTrace.Proofs.Grouping
import CausalTrace.Proofs.Sound
import Mathlib.Data.List.Forall2

/-!
# Delivering less

A stage may leave out some of the variables that it delivers. A grouping stage then
leaves out aggregates: it finds the same groups in the same order, and the same totals
for the aggregates it keeps, as long as it takes the same bindings. That it does so has
to be known. An aggregate that is left out does not drop the bindings any more which
have no number for it.
-/

namespace CausalTrace

/-! ## Lists side by side -/

section

variable {α β γ : Type} {R : α → β → Prop} {xs : List α} {ys : List β}
  {f : α → γ} {g : β → γ} {y : β}

theorem exists_of_forall₂ (h : List.Forall₂ R xs ys) (hy : y ∈ ys) : ∃ x ∈ xs, R x y := by
  induction h with
  | nil => cases hy
  | cons hr _ ih =>
      rcases List.mem_cons.mp hy with rfl | hy
      · exact ⟨_, List.mem_cons_self, hr⟩
      · obtain ⟨x, hx, hr⟩ := ih hy
        exact ⟨x, List.mem_cons_of_mem _ hx, hr⟩

theorem map_eq_of_forall₂ (h : List.Forall₂ (fun x y => f x = g y) xs ys) :
    xs.map f = ys.map g := by
  rw [← List.forall₂_eq_eq_eq, List.forall₂_map_left_iff, List.forall₂_map_right_iff]
  exact h

end

/-! ## Keeping some columns -/

section

variable {α β : Type} {keep : α → Bool} {xs : List α} {ys : List β}

/-- The columns of the elements that are kept. -/
def picked (keep : α → Bool) : List α → List β → List β
  | x :: xs, y :: ys => if keep x then y :: picked keep xs ys else picked keep xs ys
  | _, _ => []

theorem picked_cons_of_pos {x : α} {y : β} (h : keep x = true) :
    picked keep (x :: xs) (y :: ys) = y :: picked keep xs ys := if_pos h

theorem picked_cons_of_neg {x : α} {y : β} (h : ¬ keep x = true) :
    picked keep (x :: xs) (y :: ys) = picked keep xs ys := if_neg h

@[simp]
theorem picked_nil : picked keep xs ([] : List β) = [] := by
  cases xs <;> rfl

end

/-- Whether an aggregate takes what a binding has for it. -/
def Aggregate.takes (env : Binding) (g : Aggregate) : Bool :=
  (g.how.operand? (g.operandIn env)).isSome

namespace Groups

variable {keep : Aggregate → Bool} {keys : List VarId} {gs : List Aggregate} {env : Binding}
  {envs : List Binding} {as bs xs : List Int64} {xss : List (List Int64)}

/-- What a binding contributes to some aggregates. -/
def offered? (gs : List Aggregate) (env : Binding) : Option (List Int64) :=
  contributions? Aggregation.operand? (gs.map (·.how)) (gs.map (·.operandIn env))

theorem offered?_cons (g : Aggregate) :
    offered? (g :: gs) env =
      (g.how.operand? (g.operandIn env)).bind fun x => (offered? gs env).map (x :: ·) := by
  simp only [Option.map_eq_bind]
  rfl

theorem isSome_offered? : (offered? gs env).isSome ↔ ∀ g ∈ gs, g.takes env = true := by
  induction gs with
  | nil => exact iff_of_true rfl (List.forall_mem_nil _)
  | cons g gs ih =>
      rw [offered?_cons, List.forall_mem_cons, ← ih, Aggregate.takes]
      cases g.how.operand? (g.operandIn env) with
      | none => simp
      | some x => simp

/-- A binding contributes the same to the aggregates that are kept. -/
theorem offered?_filter (h : offered? gs env = some xs) :
    offered? (gs.filter keep) env = some (picked keep gs xs) := by
  induction gs generalizing xs with
  | nil =>
      cases h
      rfl
  | cons g gs ih =>
      rw [offered?_cons] at h
      obtain ⟨x, hx, h⟩ := Option.bind_eq_some_iff.mp h
      obtain ⟨ys, hys, rfl⟩ := Option.map_eq_some_iff.mp h
      by_cases hk : keep g
      · rw [List.filter_cons_of_pos hk, picked_cons_of_pos hk, offered?_cons, hx, ih hys]
        rfl
      · rw [List.filter_cons_of_neg hk, picked_cons_of_neg hk, ih hys]

/-- A binding that all aggregates take or one of the kept ones drops is the same to both. -/
theorem offered?_filter_eq (h : (∀ g ∈ gs, keep g = true → g.takes env = true) →
      ∀ g ∈ gs, g.takes env = true) :
    offered? (gs.filter keep) env = (offered? gs env).map (picked keep gs) := by
  cases hall : offered? gs env with
  | some xs => exact offered?_filter hall
  | none =>
      -- If the kept ones all took the binding, so would the others.
      refine Option.not_isSome_iff_eq_none.mp fun hkept => ?_
      have htakes := isSome_offered?.mp hkept
      have hsome := isSome_offered?.mpr (h fun g hg hk => htakes g (List.mem_filter.mpr ⟨hg, hk⟩))
      rw [hall] at hsome
      cases hsome

theorem combineAll_picked (ha : as.length = gs.length) (hb : bs.length = gs.length) :
    combineAll ((gs.filter keep).map (·.how)) (picked keep gs as) (picked keep gs bs) =
      picked keep gs (combineAll (gs.map (·.how)) as bs) := by
  induction gs generalizing as bs with
  | nil => rfl
  | cons g gs ih =>
      match as, bs, ha, hb with
      | a :: as, b :: bs, ha, hb =>
          have hrest := ih (Nat.succ.inj ha) (Nat.succ.inj hb)
          by_cases hk : keep g
          · rw [List.filter_cons_of_pos hk, picked_cons_of_pos hk, picked_cons_of_pos hk,
              List.map_cons, List.map_cons, combineAll, combineAll, hrest, picked_cons_of_pos hk]
          · rw [List.filter_cons_of_neg hk, picked_cons_of_neg hk, picked_cons_of_neg hk, hrest,
              List.map_cons, combineAll, picked_cons_of_neg hk]

/-- The columns of a total are the totals of the columns. -/
theorem total_picked (h : ∀ xs ∈ xss, xs.length = gs.length) :
    total ((gs.filter keep).map (·.how)) (xss.map (picked keep gs)) =
      picked keep gs (total (gs.map (·.how)) xss) := by
  cases xss with
  | nil => exact picked_nil.symm
  | cons xs xss =>
      obtain ⟨hx, hxss⟩ := List.forall_mem_cons.mp h
      rw [List.map_cons, total, total]
      clear h
      -- What is totalled so far has a number for each aggregate, or columns could not be told.
      induction xss generalizing xs with
      | nil => rfl
      | cons ys xss ih =>
          obtain ⟨hy, hxss⟩ := List.forall_mem_cons.mp hxss
          have hkinds : (gs.map (·.how)).length = gs.length := List.length_map ..
          rw [List.map_cons, List.foldl_cons, List.foldl_cons, combineAll_picked hx hy]
          have hlength := length_combineAll (hx.trans hkinds.symm) (hy.trans hkinds.symm)
          exact ih _ (hlength.trans hkinds) hxss

theorem contributionsTo_map {key : Row} {ps : List (Row × List Int64)}
    {f : List Int64 → List Int64} :
    contributionsTo key (ps.map (Prod.map id f)) = (contributionsTo key ps).map f := by
  rw [contributionsTo, contributionsTo, List.filter_map, List.map_map, List.map_map]
  rfl

/-- Groups with fewer columns are the groups without the other columns. -/
theorem merge_picked {ps : List (Row × List Int64)} (h : ∀ p ∈ ps, p.2.length = gs.length) :
    merge ((gs.filter keep).map (·.how)) [] (ps.map (Prod.map id (picked keep gs))) =
      (merge (gs.map (·.how)) [] ps).map (Prod.map id (picked keep gs)) := by
  have hkeys : (ps.map (Prod.map id (picked keep gs))).map (·.1) = ps.map (·.1) := by
    rw [List.map_map]
    rfl
  rw [merge_nil, merge_nil, hkeys, List.map_map]
  refine List.map_congr_left fun key _ => ?_
  rw [contributionsTo_map, total_picked (forall_mem_contributionsTo h)]
  rfl

theorem part?_groupingRow :
    part? Aggregation.operand? keys.length (gs.map (·.how)) (groupingRow keys gs env) =
      (offered? gs env).map (env.row keys, ·) := by
  have hlength : (groupingRow keys gs env).length = keys.length + (gs.map (·.how)).length := by
    rw [groupingRow, List.length_append, Binding.length_row, List.length_map, List.length_map]
  rw [part?, if_pos hlength, groupingRow, List.drop_left' Binding.length_row,
    List.take_left' Binding.length_row, offered?]

/-- Grouping by some of the aggregates only. -/
theorem groups_filter (h : ∀ env ∈ envs, (∀ g ∈ gs, keep g = true → g.takes env = true) →
      ∀ g ∈ gs, g.takes env = true) :
    (ofRows keys.length ((gs.filter keep).map (·.how))
        (envs.map (groupingRow keys (gs.filter keep)))).groups =
      (ofRows keys.length (gs.map (·.how)) (envs.map (groupingRow keys gs))).groups.map
        (Prod.map id (picked keep gs)) := by
  have hparts : (envs.map (groupingRow keys (gs.filter keep))).filterMap
        (part? Aggregation.operand? keys.length ((gs.filter keep).map (·.how))) =
      ((envs.map (groupingRow keys gs)).filterMap
        (part? Aggregation.operand? keys.length (gs.map (·.how)))).map
          (Prod.map id (picked keep gs)) := by
    rw [List.map_filterMap, List.filterMap_map, List.filterMap_map]
    refine List.filterMap_congr fun env henv => ?_
    rw [Function.comp_apply, Function.comp_apply, part?_groupingRow, part?_groupingRow,
      offered?_filter_eq (h env henv), Option.map_map, Option.map_map]
    rfl
  rw [ofRows_eq, ofRows_eq, hparts]
  refine merge_picked fun p hp => ?_
  rw [(forall_filterMap_part? p hp).2, List.length_map]

end Groups

/-! ## Bindings that agree off some variables -/

namespace Binding

variable {P Q : VarId → Prop} {env env' other other' : Binding} {keep : Aggregate → Bool}
  {keys vs : List VarId} {gs : List Aggregate} {key : Row} {xs : List Int64}

/-- Two bindings bind all variables alike, some apart. -/
def AgreeOff (P : VarId → Prop) (env env' : Binding) : Prop := ∀ v, ¬ P v → env v = env' v

theorem AgreeOff.agree (h : AgreeOff P env env') (hvs : ∀ v ∈ vs, ¬ P v) : Agree vs env env' :=
  fun v hv => h v (hvs v hv)

theorem AgreeOff.mono (h : AgreeOff P env env') (hP : ∀ v, P v → Q v) : AgreeOff Q env env' :=
  fun v hv => h v (mt (hP v) hv)

theorem AgreeOff.beside (h : AgreeOff P env env') (h' : AgreeOff P other other') :
    AgreeOff P (env.beside other) (env'.beside other') := by
  intro v hv
  rw [beside_apply, beside_apply, h v hv, h' v hv]

theorem AgreeOff.set {v : VarId} {x : Value} (h : AgreeOff P env env') :
    AgreeOff P (env.set v x) (env'.set v x) := by
  intro u hu
  by_cases huv : u = v
  · rw [huv, set_self, set_self]
  · rw [set_of_ne huv, set_of_ne huv, h u hu]

/-- A group without some columns binds the same, the variables of these columns apart. -/
theorem agreeOff_picked (hkey : key.length = keys.length) (hxs : xs.length = gs.length)
    (hP : ∀ g ∈ gs, ¬ keep g = true → P g.var) :
    AgreeOff P (ofRow (keys ++ gs.map (·.var)) (key ++ xs.map .int))
      (ofRow (keys ++ (gs.filter keep).map (·.var)) (key ++ (picked keep gs xs).map .int)) := by
  rw [ofRow_append hkey, ofRow_append hkey]
  refine AgreeOff.beside (fun _ _ => rfl) fun v hv => ?_
  induction gs generalizing xs with
  | nil => rfl
  | cons g gs ih =>
      match xs, hxs with
      | x :: xs, hxs =>
          obtain ⟨hg, hgs⟩ := List.forall_mem_cons.mp hP
          have hrest := ih (Nat.succ.inj hxs) hgs
          by_cases hk : keep g
          · rw [List.filter_cons_of_pos hk, picked_cons_of_pos hk]
            by_cases hvar : v = g.var
            · rw [hvar]
              exact ofRow_cons_self.trans ofRow_cons_self.symm
            · exact (ofRow_cons_ne hvar).trans (hrest.trans (ofRow_cons_ne hvar).symm)
          · have hvar : v ≠ g.var := fun he => hv (he ▸ hg hk)
            rw [List.filter_cons_of_neg hk, picked_cons_of_neg hk]
            exact (ofRow_cons_ne hvar).trans hrest

end Binding

/-- What meets agrees, if all that may meet does. -/
theorem meetings_agreeOff {P : VarId → Prop} {bags bags' : List (List Binding)}
    (h : List.Forall₂ (List.Forall₂ (Binding.AgreeOff P)) bags bags') :
    List.Forall₂ (Binding.AgreeOff P) (meetings bags) (meetings bags') := by
  induction h with
  | nil => exact .cons (fun _ _ => rfl) .nil
  | cons hbag _ ih =>
      exact List.rel_flatMap ih fun _ _ hright =>
        List.rel_map (fun _ _ hleft => hleft.beside hright) hbag

/-! ## Reading alike -/

theorem Aggregate.operandIn_congr {env env' : Binding} {g : Aggregate}
    (h : (g.how != .count) = true → Binding.Agree [Stage.operand g] env env') :
    g.operandIn env = g.operandIn env' := by
  rw [operandIn, operandIn]
  split
  · rfl
  · next v hv hcount =>
      have hread : (g.how != .count) = true := bne_iff_ne.mpr hcount
      have hagree := h hread
      rw [Stage.operand_of_input hread hv] at hagree
      exact hagree.get_eq List.mem_cons_self
  · rfl

theorem groupingRow_congr {keys : List VarId} {gs : List Aggregate} {env env' : Binding}
    (h : Binding.Agree (keys ++ ((gs.filter (·.how != .count)).map Stage.operand)) env env') :
    groupingRow keys gs env = groupingRow keys gs env' := by
  rw [groupingRow, groupingRow, h.row_eq fun v hv => List.mem_append_left _ hv]
  congr 1
  refine List.map_congr_left fun g hg => Aggregate.operandIn_congr fun hcount v hv => ?_
  rw [List.mem_singleton.mp hv]
  refine h _ (List.mem_append_right _ (List.mem_map_of_mem ?_))
  exact List.mem_filter.mpr ⟨hg, hcount⟩

/-- The aggregates of a grouping stage. -/
def Shape.aggregates : Shape → List Aggregate
  | .group _ gs => gs
  | _ => []

namespace Stage

variable {a : Arena} {s s' : Stage} {P : VarId → Prop} {env env' : Binding}
  {envs envs' : List Binding}

/-- What a root stage makes of a binding depends on what it uses. -/
theorem resultRow_congr (h : Binding.Agree (s.uses false) env env') :
    s.resultRow env = s.resultRow env' := by
  rw [uses] at h
  rw [resultRow, resultRow]
  cases hs : s.shape with
  | unfinished => exact h.row_eq fun v hv => by rwa [hs]
  | select selected => exact h.row_eq fun v hv => by rwa [hs]
  | filter keep => exact h.row_eq fun v hv => by rwa [hs]
  | group keys gs =>
      rw [hs] at h
      exact groupingRow_congr h

theorem arrive_agreeOff (hlets : ∀ v ∈ s.lets.map (·.2), ∀ u ∈ a.reads v, ¬ P u)
    (hwheres : ∀ w ∈ s.wheres, ∀ v ∈ w.args, ¬ P v) (h : Binding.AgreeOff P env env') :
    Option.Rel (Binding.AgreeOff P) (s.arrive a env) (s.arrive a env') := by
  have hreads : ∀ v ∈ Ascending.ofList (s.lets.map (·.2)), ∀ u ∈ a.reads v, ¬ P u :=
    fun v hv => hlets v (Ascending.mem_ofList.mp hv)
  rw [arrive, arrive]
  generalize Ascending.ofList (s.lets.map (·.2)) = lets at hreads
  -- A let reads what both bind alike, so both get the same value, or neither gets one.
  induction lets generalizing env env' with
  | nil =>
      have htests : s.wheres.all (·.holds env) = s.wheres.all (·.holds env') :=
        all_congr_of_mem fun w hw => Condition.holds_congr (h.agree (hwheres w hw))
      show Option.Rel _ (if s.wheres.all (·.holds env) then some env else none)
        (if s.wheres.all (·.holds env') then some env' else none)
      rw [htests]
      split
      · exact .some h
      · exact .none
  | cons v lets ih =>
      obtain ⟨hv, hlets⟩ := List.forall_mem_cons.mp hreads
      rw [List.foldlM_cons, List.foldlM_cons, Binding.compute, Binding.compute,
        Arena.evaluate?_congr (h.agree hv)]
      cases a.evaluate? env' v with
      | none => exact .none
      | some x => exact ih h.set hlets

theorem arrivalsIn_agreeOff {bags bags' : List (List Binding)} {p : Pass}
    (hlets : ∀ v ∈ s.lets.map (·.2), ∀ u ∈ a.reads v, ¬ P u)
    (hwheres : ∀ w ∈ s.wheres, ∀ v ∈ w.args, ¬ P v)
    (h : List.Forall₂ (List.Forall₂ (Binding.AgreeOff P)) bags bags') :
    List.Forall₂ (Binding.AgreeOff P) (s.arrivalsIn a bags p) (s.arrivalsIn a bags' p) := by
  rw [arrivalsIn, arrivalsIn]
  split
  · refine List.rel_filterMap (fun env env' he => ?_) (meetings_agreeOff h)
    exact arrive_agreeOff hlets hwheres (Binding.AgreeOff.beside (fun _ _ => rfl) he)
  · exact .nil

/-- A stage as it was, but for outputs that it has left out. -/
structure Narrowed (s s' : Stage) : Prop where
  eq : s' = { s with outputs := s'.outputs }
  outputs : ∀ v ∈ s'.outputs, v ∈ s.outputs

theorem Narrowed.refl : s.Narrowed s := ⟨rfl, fun _ hv => hv⟩

theorem Narrowed.trans {t : Stage} (h : s.Narrowed t) (h' : t.Narrowed s') : s.Narrowed s' where
  eq := by rw [h'.eq, h.eq]
  outputs v hv := h.outputs v (h'.outputs v hv)

theorem narrowed_keeping (needed : List VarId) : s.Narrowed (s.keeping needed) :=
  ⟨rfl, fun _ hv => (mem_outputs_keeping.mp hv).1⟩

theorem Narrowed.shape (h : s.Narrowed s') : s'.shape = s.shape := by rw [h.eq]

theorem Narrowed.arrivalsIn (h : s.Narrowed s') {bags : List (List Binding)} {p : Pass} :
    s'.arrivalsIn a bags p = s.arrivalsIn a bags p := by
  rw [h.eq]
  rfl

/-- The aggregates that a stage packs. -/
def packs (s : Stage) : List Aggregate := s.packedAggregates s.shape.aggregates

section

variable {keys : List VarId} {gs : List Aggregate}

theorem packs_of_group (hs : s.shape = .group keys gs) : s.packs = s.packedAggregates gs := by
  rw [packs, hs]
  rfl

theorem mem_defines_of_packs {g : Aggregate} (h : g ∈ s.packs) : g.var ∈ s.shape.defines := by
  rw [packs, packedAggregates, List.mem_filter] at h
  cases hs : s.shape with
  | unfinished | select selected | filter keep =>
      rw [hs] at h
      cases h.1
  | group keys gs =>
      rw [hs] at h
      exact List.mem_map_of_mem h.1

theorem uses_of_group (hs : s.shape = .group keys gs) :
    s.uses true = keys ++ (s.packs.filter (·.how != .count)).map operand := by
  rw [uses, hs, packs_of_group hs]
  rfl

/-- What a grouping stage delivers that passes nothing through, group by group. -/
theorem delivered_of_group (hs : s.shape = .group keys gs) (hpassed : s.passed = []) :
    s.delivered envs = (Groups.ofRows keys.length (s.packs.map (·.how))
      (envs.map (groupingRow keys s.packs))).groups.map fun p =>
        .ofRow (keys ++ s.packs.map (·.var)) (p.1 ++ p.2.map .int) := by
  have hkeys : s.packedKeys keys gs = keys := by
    rw [passed, hs] at hpassed
    exact (congrArg (keys ++ ·) hpassed).trans (List.append_nil keys)
  rw [delivered, hs]
  simp only [hkeys, ← packs_of_group hs]
  exact List.map_map ..

theorem Narrowed.packs_eq (h : s.Narrowed s') :
    s'.packs = s.packs.filter fun g => s'.outputs.contains g.var := by
  rw [packs, packs, packedAggregates, packedAggregates, h.shape, List.filter_filter]
  refine List.filter_congr fun g _ => ?_
  cases hc : s'.outputs.contains g.var with
  | false => rfl
  | true => exact (List.contains_iff_mem.mpr (h.outputs _ (List.contains_iff_mem.mp hc))).symm

/-- A grouping stage that packs fewer aggregates and takes the same bindings. -/
theorem Narrowed.groups (h : s.Narrowed s')
    (htakes : ∀ env ∈ envs, (∀ g ∈ s'.packs, g.takes env = true) →
      ∀ g ∈ s.packs, g.takes env = true) :
    (Groups.ofRows keys.length (s'.packs.map (·.how))
      (envs.map (groupingRow keys s'.packs))).groups =
      (Groups.ofRows keys.length (s.packs.map (·.how))
        (envs.map (groupingRow keys s.packs))).groups.map
        (Prod.map id (picked (fun g => s'.outputs.contains g.var) s.packs)) := by
  rw [h.packs_eq] at htakes ⊢
  refine Groups.groups_filter fun env henv hkept => htakes env henv fun g hg => ?_
  obtain ⟨hg, hout⟩ := List.mem_filter.mp hg
  exact hkept g hg hout

end

/-- A stage that does not group delivers bindings that it finds. -/
theorem forall₂_delivered {R : Binding → Binding → Prop}
    (hshape : s'.shape = s.shape) (hno : ∀ keys gs, s.shape ≠ .group keys gs)
    (h : List.Forall₂ R envs envs') : List.Forall₂ R (s.delivered envs) (s'.delivered envs') := by
  rw [Stage.delivered, Stage.delivered, hshape]
  cases hs : s.shape with
  | unfinished | select selected => exact h
  | filter keep =>
      cases keep with
      | first =>
          cases h with
          | nil => exact .nil
          | cons he _ => exact .cons he .nil
      | mostRecent =>
          -- The last of some bindings is the first of them in reverse.
          show List.Forall₂ _ envs.getLast?.toList envs'.getLast?.toList
          rw [← List.head?_reverse, ← List.head?_reverse]
          generalize envs.reverse = latest, envs'.reverse = latest', List.rel_reverse h = hlatest
          cases hlatest with
          | nil => exact .nil
          | cons he _ => exact .cons he .nil
  | group keys gs => exact absurd hs (hno keys gs)

/-- Over bindings that agree off some variables, a stage that has left out only these
delivers bindings that do. -/
theorem Narrowed.delivered (h : s.Narrowed s') (hpassed : s.passed = []) (hpassed' : s'.passed = [])
    (hleft : ∀ v ∈ s.shape.defines, v ∉ s'.outputs → P v) (huses : ∀ v ∈ s'.uses true, ¬ P v)
    (htakes : ∀ env ∈ envs, (∀ g ∈ s'.packs, g.takes env = true) →
      ∀ g ∈ s.packs, g.takes env = true)
    (henvs : List.Forall₂ (Binding.AgreeOff P) envs envs') :
    List.Forall₂ (Binding.AgreeOff P) (s.delivered envs) (s'.delivered envs') := by
  have hshape := h.shape
  cases hs : s.shape with
  | unfinished | select _ | filter _ =>
      exact forall₂_delivered hshape (fun keys gs hgroup => by cases hs.symm.trans hgroup) henvs
  | group keys gs =>
      have hs' : s'.shape = .group keys gs := hshape.trans hs
      rw [uses_of_group hs'] at huses
      -- Keys and the operands that are kept are read alike, so both group the same rows.
      have hrows : envs.map (groupingRow keys s'.packs) = envs'.map (groupingRow keys s'.packs) :=
        map_eq_of_forall₂ (henvs.imp fun _ _ he => groupingRow_congr (he.agree huses))
      rw [delivered_of_group hs hpassed, delivered_of_group hs' hpassed', ← hrows, h.groups htakes]
      simp only [List.map_map, List.forall₂_map_left_iff, List.forall₂_map_right_iff]
      refine List.forall₂_same.mpr fun p hp => ?_
      obtain ⟨hkey, hxs⟩ := Groups.length_of_mem_ofRows hp
      rw [List.length_map] at hxs
      rw [h.packs_eq]
      refine Binding.agreeOff_picked hkey hxs fun g hg hout => ?_
      exact hleft g.var (mem_defines_of_packs hg) fun hm => hout (List.contains_iff_mem.mpr hm)

end Stage

end CausalTrace
