import CausalTrace.Proofs.Steps
import CausalTrace.Proofs.Table
import CausalTrace.Proofs.WellFormed

/-!
# Resolving names keeps queries well-formed

Resolving a name observes at most new fields and marks outputs. The variable it leads
to is defined in the query.
-/

namespace CausalTrace

namespace Stage

theorem let?_eq_none_iff {s : Stage} {name : String} :
    s.let? name = none ↔ name ∉ s.lets.map (·.1) := by
  rw [let?, List.lookup_eq_none_iff, List.mem_map]
  constructor
  · rintro h ⟨l, hl, rfl⟩
    exact absurd (h l hl) (by simp)
  · intro h l hl
    exact bne_iff_ne.mpr fun he => h ⟨l, hl, he.symm⟩

theorem let?_of_direct?_eq_bound {s : Stage} {name : String} {v : VarId}
    (h : s.direct? name = some (.bound v)) : s.let? name = some v := by
  rw [direct?] at h
  split at h
  · next u hu =>
      cases h
      exact hu
  · obtain ⟨_, _, he⟩ := Option.map_eq_some_iff.mp h
    cases he

theorem mem_lets_of_direct? {s : Stage} {name : String} {v : VarId}
    (h : s.direct? name = some (.bound v)) : v ∈ s.lets.map (·.2) :=
  List.mem_map_of_mem (f := (·.2)) (mem_of_lookup_eq_some (let?_of_direct?_eq_bound h))

theorem direct?_of_plainRoute {s : Stage} {name : String} {v : VarId}
    (h : s.plainRoute name = .bound v) : s.direct? name = some (.bound v) := by
  rw [plainRoute] at h
  split at h
  · next r hr =>
      rw [hr, h]
  · cases h
  · cases h

/-- A name that leads to a let leads to a variable of the stage. -/
theorem mem_lets_of_bound {s : Stage} {name : String} {v : VarId}
    (h : s.route name = .bound v) : v ∈ s.lets.map (·.2) := by
  rw [route] at h
  split at h
  · exact mem_lets_of_direct? (direct?_of_plainRoute h)
  · split at h
    · next r hr =>
        rw [h] at hr
        exact mem_lets_of_direct? hr
    · cases h
    · split at h
      · exact mem_lets_of_direct? (direct?_of_plainRoute h)
      · cases h

/-! ## What a stage passes on -/

/-- What the stage passes on under a name, if names lead within the stage where they are said
to. -/
def passed? (s : Stage) (leads : String → Option VarId) (name : String) : Option VarId :=
  match s.shape with
  | .group keys aggregates =>
      match Name.aggregate? name with
      | some (how, none) =>
          (aggregates.find? fun g => g.how == how && g.input == none).map (·.var)
      | some (how, some operand) => (leads operand).bind fun w =>
          (aggregates.find? fun g => g.how == how && g.input == some w).map (·.var)
      | none => (leads name).filter keys.contains
  | .select selected => (leads name).filter selected.contains
  | .unfinished => leads name
  | .filter _ => leads name

theorem passed?_mono {s : Stage} {name : String} {f g : String → Option VarId} {v : VarId}
    (hfg : ∀ n w, f n = some w → g n = some w) (h : s.passed? f name = some v) :
    s.passed? g name = some v := by
  have hfilter : ∀ {n p}, (f n).filter p = some v → (g n).filter p = some v := by
    intro n p hn
    rw [Option.filter_eq_some_iff] at hn ⊢
    exact ⟨hfg n v hn.1, hn.2⟩
  rw [passed?] at h ⊢
  split at h
  · split at h
    · exact h
    · obtain ⟨w, hw, hfind⟩ := Option.bind_eq_some_iff.mp h
      exact Option.bind_eq_some_iff.mpr ⟨w, hfg _ w hw, hfind⟩
    · exact hfilter h
  · exact hfilter h
  · exact hfg _ _ h
  · exact hfg _ _ h

end Stage

namespace Query

variable {a a' : Arena} {q q' : Query} {name : String} {v : VarId}

/-- What resolving a name for the own stage of a query leaves as it was. -/
structure Resolved (a a' : Arena) (q q' : Query) : Prop extends Enlarged a a' q q' where
  shape : q'.stage.shape = q.stage.shape
  outputs : q'.stage.outputs = q.stage.outputs
  lets : q'.stage.lets = q.stage.lets
  wheres : q'.stage.wheres = q.stage.wheres

theorem Resolved.refl : Resolved a a q q := ⟨.refl, rfl, rfl, rfl, rfl⟩

theorem Resolved.trans {b : Arena} {u : Query} (h : Resolved a b q u) (h' : Resolved b a' u q') :
    Resolved a a' q q' where
  toEnlarged := h.toEnlarged.trans h'.toEnlarged
  shape := h'.shape.trans h.shape
  outputs := h'.outputs.trans h.outputs
  lets := h'.lets.trans h.lets
  wheres := h'.wheres.trans h.wheres

/-! ## Marking outputs -/

theorem enlarged_deliverAlso {a : Arena} {q : Query} {v : VarId}
    (h : ∀ keys gs, q.stage.shape = .group keys gs → v ∈ keys ∨ v ∈ gs.map (·.var)) :
    Enlarged a a q (q.withStage (·.deliverAlso v)) := by
  cases q with
  | node s js =>
      refine Enlarged.of_stage [] (Nat.le_refl _) id ?_ List.nodup_nil
        (List.forall_mem_nil _) ?_
      · rw [List.append_nil]
        exact List.Perm.refl _
      · intro hl
        refine ⟨⟨hl.aliases, hl.names⟩, fun _ keys gs hs u hu => ?_⟩
        rcases Ascending.mem_insert.mp hu with rfl | hu
        · exact h keys gs hs
        · exact hl.groups rfl keys gs hs u hu

/-! ## Observing fields -/

theorem resolved_observe {s s' : Stage} {js : List (String × Query)} {field : String}
    (h : (s.observe field).Yields a (s', v) a') :
    Resolved a a' (node s js) (node s' js) ∧ v ∈ s'.defines := by
  rw [Stage.observe] at h
  split at h
  · next u hf =>
      obtain ⟨he, rfl⟩ := Build.yields_pure.mp h
      cases he
      refine ⟨.refl, ?_⟩
      have hm := List.mem_map_of_mem (f := (·.2)) (Table.mem_of_find?_eq_some hf)
      exact List.mem_append_left _ (List.mem_append_left _ hm)
  · next hf =>
      obtain ⟨u, b, hd, h⟩ := Build.yields_bind.mp h
      obtain ⟨rfl, rfl⟩ := Build.yields_define.mp hd
      obtain ⟨he, rfl⟩ := Build.yields_pure.mp h
      cases he
      have hperm := Table.insert_perm_cons (a := (⟨a.defs.length⟩ : VarId))
        (Table.find?_eq_none_iff.mp hf)
      have hvalues : (s.observed.insert field ⟨a.defs.length⟩).values.Perm
          (⟨a.defs.length⟩ :: s.observed.values) := hperm.map fun entry : String × VarId => entry.2
      refine ⟨⟨Enlarged.of_definition (d := .observed (s.source.aliasName.getD "") field)
        (List.forall_mem_nil _) ?_ fun hl => ⟨⟨hl.aliases, hl.names⟩, hl.groups⟩,
        rfl, rfl, rfl, rfl⟩, ?_⟩
      · rw [Stage.defines, Stage.defines]
        refine (hvalues.append_right _).append_right _ |>.trans ?_
        exact (List.perm_append_singleton _ _).symm
      · refine List.mem_append_left _ (List.mem_append_left _ ?_)
        exact hvalues.mem_iff.mpr List.mem_cons_self

/-! ## Resolving for the joining stage -/

theorem defines_deliverAlso {u : Query} {x : VarId} :
    (u.withStage (·.deliverAlso x)).defines = u.defines := by
  cases u
  rfl

/-- A variable that the stage may deliver is marked after resolving. -/
theorem Resolved.deliverAlso {u : Query} (h : Resolved a a' q u) (hv : v ∈ u.defines)
    (hg : ∀ keys gs, q.stage.shape = .group keys gs → v ∈ keys ∨ v ∈ gs.map (·.var)) :
    Enlarged a a' q (u.withStage (·.deliverAlso v)) ∧
      v ∈ (u.withStage (·.deliverAlso v)).defines := by
  rw [defines_deliverAlso]
  refine ⟨h.toEnlarged.trans (enlarged_deliverAlso ?_), hv⟩
  rw [h.shape]
  exact hg

theorem Resolved.var_mem_defines {keys : List VarId} {gs : List Aggregate} {g : Aggregate}
    (h : Resolved a a' q q') (hs : q.stage.shape = .group keys gs) (hg : g ∈ gs) :
    g.var ∈ q'.defines := by
  have hshape := h.shape.trans hs
  cases q' with
  | node t ks =>
      refine mem_defines_node.mpr (Or.inl (List.mem_append_right _ ?_))
      rw [stage_node] at hshape
      rw [hshape]
      exact List.mem_map_of_mem hg

section

variable {input : String → Build (Query × VarId)}

theorem marked_of_yields (h : (do
      let (u, x) ← input name
      return (u.withStage (·.deliverAlso x), x) : Build (Query × VarId)).Yields a (q', v) a') :
    ∃ u, (input name).Yields a (u, v) a' ∧ q' = u.withStage (·.deliverAlso v) := by
  obtain ⟨⟨u, x⟩, c, hi, h⟩ := Build.yields_bind.mp h
  obtain ⟨he, rfl⟩ := Build.yields_pure.mp h
  cases he
  exact ⟨u, hi, rfl⟩

theorem checked_of_yields {p : VarId → Bool} {e : Error} (h : (do
      let (u, x) ← input name
      if p x then return (u.withStage (·.deliverAlso x), x)
      else throw e : Build (Query × VarId)).Yields a (q', v) a') :
    ∃ u, (input name).Yields a (u, v) a' ∧ q' = u.withStage (·.deliverAlso v) ∧ p v := by
  obtain ⟨⟨u, x⟩, c, hi, h⟩ := Build.yields_bind.mp h
  dsimp only at h
  split at h
  · next hp =>
      obtain ⟨he, rfl⟩ := Build.yields_pure.mp h
      cases he
      exact ⟨u, hi, rfl, hp⟩
  · exact (Build.not_yields_throw h).elim

theorem found_of_yields {u : Query} {found : Option Aggregate} {e : Error} (h : (match found with
      | some g => pure (u.withStage (·.deliverAlso g.var), g.var)
      | none => throw e : Build (Query × VarId)).Yields a (q', v) a') :
    found.map (·.var) = some v ∧ q' = u.withStage (·.deliverAlso v) ∧ a' = a := by
  cases found with
  | none => exact (Build.not_yields_throw h).elim
  | some g =>
      obtain ⟨he, rfl⟩ := Build.yields_pure.mp h
      cases he
      exact ⟨rfl, rfl, rfl⟩

/-- What is delivered is passed on by the stage, after resolving at most one name. -/
theorem passed_of_deliver (h : (q.deliver input name).Yields a (q', v) a') :
    ∃ u known, q' = u.withStage (·.deliverAlso v) ∧
      q.stage.passed? (List.lookup · known) name = some v ∧
      (u = q ∧ a' = a ∧ known = [] ∨ ∃ n x, (input n).Yields a (u, x) a' ∧ known = [(n, x)]) := by
  have hself : ∀ (n : String) (x : VarId), List.lookup n [(n, x)] = some x := by simp
  rw [deliver] at h
  simp only [Stage.passed?]
  cases hs : q.stage.shape with
  | group keys gs =>
      rw [hs] at h
      dsimp only at h ⊢
      cases hname : Name.aggregate? name with
      | none =>
          rw [hname] at h
          obtain ⟨u, hi, rfl, hk⟩ := checked_of_yields h
          refine ⟨u, [(name, v)], rfl, ?_, Or.inr ⟨name, v, hi, rfl⟩⟩
          simp only [hself, Option.filter_some, hk, if_true]
      | some r =>
          obtain ⟨how, operand⟩ := r
          rw [hname] at h
          cases operand with
          | none =>
              obtain ⟨_, d, hp, h⟩ := Build.yields_bind.mp h
              obtain ⟨rfl, rfl⟩ := Build.yields_pure.mp hp
              obtain ⟨hfind, rfl, rfl⟩ := found_of_yields h
              exact ⟨q, [], rfl, hfind, Or.inl ⟨rfl, rfl, rfl⟩⟩
          | some n =>
              obtain ⟨⟨u, x⟩, c, hi, h⟩ := Build.yields_bind.mp h
              obtain ⟨_, d, hp, h⟩ := Build.yields_bind.mp h
              obtain ⟨rfl, rfl⟩ := Build.yields_pure.mp hp
              obtain ⟨hfind, rfl, rfl⟩ := found_of_yields h
              refine ⟨u, [(n, x)], rfl, ?_, Or.inr ⟨n, x, hi, rfl⟩⟩
              simp only [hself, Option.bind_some]
              exact hfind
  | select selected =>
      rw [hs] at h
      obtain ⟨u, hi, rfl, hk⟩ := checked_of_yields h
      refine ⟨u, [(name, v)], rfl, ?_, Or.inr ⟨name, v, hi, rfl⟩⟩
      simp only [hself, Option.filter_some, hk, if_true]
  | unfinished | filter keep =>
      rw [hs] at h
      obtain ⟨u, hi, rfl⟩ := marked_of_yields h
      exact ⟨u, [(name, v)], rfl, hself name v, Or.inr ⟨name, v, hi, rfl⟩⟩

end

/-- Whoever delivers a name marks a variable, after resolving at most one name for the own
stage: the variable that this leads to, which is a key if the stage groups, or an aggregate
of the stage. -/
theorem deliver_cases {input : String → Build (Query × VarId)}
    (h : (q.deliver input name).Yields a (q', v) a') :
    ∃ u, q' = u.withStage (·.deliverAlso v) ∧
      ((∃ name, (input name).Yields a (u, v) a' ∧
          ∀ keys gs, q.stage.shape = .group keys gs → v ∈ keys) ∨
        (u = q ∧ a' = a ∨ ∃ name x, (input name).Yields a (u, x) a') ∧
          ∃ keys gs, q.stage.shape = .group keys gs ∧ v ∈ gs.map (·.var)) := by
  obtain ⟨u, known, rfl, hpassed, hknown⟩ := passed_of_deliver h
  have hresolved : ∀ {name}, List.lookup name known = some v →
      (input name).Yields a (u, v) a' := by
    intro name hlookup
    rcases hknown with ⟨_, _, rfl⟩ | ⟨n, x, hi, rfl⟩
    · cases hlookup
    · rw [List.lookup_cons] at hlookup
      split at hlookup
      · next heq =>
          cases hlookup
          exact beq_iff_eq.mp heq ▸ hi
      · cases hlookup
  refine ⟨u, rfl, ?_⟩
  rw [Stage.passed?] at hpassed
  split at hpassed
  · next keys gs hs =>
      have hvar : ∀ {p}, (gs.find? p).map (·.var) = some v → v ∈ gs.map (·.var) := by
        intro p hp
        obtain ⟨g, hfind, rfl⟩ := Option.map_eq_some_iff.mp hp
        exact List.mem_map_of_mem (List.mem_of_find?_eq_some hfind)
      have hu : u = q ∧ a' = a ∨ ∃ name x, (input name).Yields a (u, x) a' := by
        rcases hknown with ⟨hu, ha, _⟩ | ⟨n, x, hi, _⟩
        · exact Or.inl ⟨hu, ha⟩
        · exact Or.inr ⟨n, x, hi⟩
      split at hpassed
      · exact Or.inr ⟨hu, keys, gs, hs, hvar hpassed⟩
      · obtain ⟨w, _, hfind⟩ := Option.bind_eq_some_iff.mp hpassed
        exact Or.inr ⟨hu, keys, gs, hs, hvar hfind⟩
      · obtain ⟨hlookup, hk⟩ := Option.filter_eq_some_iff.mp hpassed
        refine Or.inl ⟨name, hresolved hlookup, fun keys gs hg => ?_⟩
        rw [hs] at hg
        cases hg
        exact List.contains_iff_mem.mp hk
  · next selected hs =>
      obtain ⟨hlookup, _⟩ := Option.filter_eq_some_iff.mp hpassed
      exact Or.inl ⟨name, hresolved hlookup, fun keys gs hg => nomatch hs.symm.trans hg⟩
  · next hs => exact Or.inl ⟨name, hresolved hpassed, fun keys gs hg => nomatch hs.symm.trans hg⟩
  · next hs => exact Or.inl ⟨name, hresolved hpassed, fun keys gs hg => nomatch hs.symm.trans hg⟩

/-- Resolving for the stage that joins a query, given how the query resolves for
itself. -/
theorem enlarged_deliver
    (ih : ∀ {name : String} {v : VarId} {a a' : Arena} {q' : Query},
      (q.input name).Yields a (q', v) a' → Resolved a a' q q' ∧ v ∈ q'.defines)
    (h : (q.deliver (fun name => q.input name) name).Yields a (q', v) a') :
    Enlarged a a' q q' ∧ v ∈ q'.defines := by
  obtain ⟨u, rfl, ⟨name, hi, hkeys⟩ | ⟨hu, keys, gs, hs, hv⟩⟩ := deliver_cases h
  · obtain ⟨hr, hm⟩ := ih hi
    exact hr.deliverAlso hm fun keys gs hg => Or.inl (hkeys keys gs hg)
  · have hr : Resolved a a' q u := by
      rcases hu with ⟨rfl, rfl⟩ | ⟨name, x, hi⟩
      · exact .refl
      · exact (ih hi).1
    obtain ⟨g, hg, rfl⟩ := List.mem_map.mp hv
    refine hr.deliverAlso (hr.var_mem_defines hs hg) fun _ _ hg => Or.inr ?_
    rw [hs] at hg
    cases hg
    exact hv

/-! ## Resolving for the own stage -/

section

variable {js js' before after : List (String × Query)} {aliasName rest : String} {u : Query}

theorem inputFrom_of_not_mem (h : aliasName ∉ Table.keys js) :
    inputFrom aliasName rest js = throw (unknownVariable (aliasName ++ "." ++ rest)) := by
  induction js with
  | nil => rw [inputFrom]
  | cons j js ih =>
      obtain ⟨k, q⟩ := j
      have hk : k ≠ aliasName := (List.ne_of_not_mem_cons h).symm
      rw [inputFrom, if_neg hk, ih (List.not_mem_of_not_mem_cons h)]
      rfl

/-- The first query that is joined under an alias resolves the rest of a path. -/
theorem inputFrom_append (h : aliasName ∉ Table.keys before) :
    inputFrom aliasName rest (before ++ (aliasName, u) :: after) = (do
      let (u, v) ← u.output rest
      return (before ++ (aliasName, u) :: after, v)) := by
  induction before with
  | nil =>
      rw [List.nil_append, inputFrom, if_pos rfl]
      rfl
  | cons j before ih =>
      obtain ⟨k, q⟩ := j
      have hk : k ≠ aliasName := (List.ne_of_not_mem_cons h).symm
      rw [List.cons_append, inputFrom, if_neg hk, ih (List.not_mem_of_not_mem_cons h)]
      simp only [bind_assoc, pure_bind, List.cons_append]

theorem inputFrom_eq (h : (inputFrom aliasName rest js).Yields a (js', v) a') :
    ∃ before u u' after, js = before ++ (aliasName, u) :: after ∧
      js' = before ++ (aliasName, u') :: after ∧ (u.output rest).Yields a (u', v) a' := by
  cases hfind : Table.find? aliasName js with
  | none =>
      rw [inputFrom_of_not_mem (Table.find?_eq_none_iff.mp hfind)] at h
      exact (Build.not_yields_throw h).elim
  | some u =>
      obtain ⟨before, after, rfl, hbefore⟩ := Table.exists_append_of_find? hfind
      rw [inputFrom_append hbefore] at h
      obtain ⟨⟨u', x⟩, b, hu, h⟩ := Build.yields_bind.mp h
      obtain ⟨he, rfl⟩ := Build.yields_pure.mp h
      cases he
      exact ⟨before, u, u', after, rfl, rfl, hu⟩

end

theorem resolved_input (h : (q.input name).Yields a (q', v) a') :
    Resolved a a' q q' ∧ v ∈ q'.defines := by
  induction q generalizing name v a a' q' with
  | node s js ih =>
      rw [input] at h
      split at h
      · next u hr =>
          obtain ⟨he, rfl⟩ := Build.yields_pure.mp h
          cases he
          have hlet := List.mem_append_right s.observed.values (Stage.mem_lets_of_bound hr)
          exact ⟨.refl, mem_defines_node.mpr (Or.inl (List.mem_append_left _ hlet))⟩
      · obtain ⟨⟨s', x⟩, b, ho, h⟩ := Build.yields_bind.mp h
        obtain ⟨he, rfl⟩ := Build.yields_pure.mp h
        cases he
        obtain ⟨hres, hm⟩ := resolved_observe ho
        exact ⟨hres, mem_defines_node.mpr (Or.inl hm)⟩
      · next aliasName rest _ =>
          obtain ⟨⟨js', x⟩, b, hj, h⟩ := Build.yields_bind.mp h
          obtain ⟨he, rfl⟩ := Build.yields_pure.mp h
          cases he
          obtain ⟨before, u, u', after, rfl, rfl, hu⟩ := inputFrom_eq hj
          have hmem : (aliasName, u) ∈ before ++ (aliasName, u) :: after :=
            List.mem_append_cons_self
          have hmem' : (aliasName, u') ∈ before ++ (aliasName, u') :: after :=
            List.mem_append_cons_self
          obtain ⟨he, hm⟩ := enlarged_deliver (ih _ hmem) hu
          exact ⟨⟨.of_join he, rfl, rfl, rfl, rfl⟩, defines_of_joined hmem' hm⟩
      · exact (Build.not_yields_throw h).elim

/-- Names are resolved one after another, and what the earlier ones led to stays
defined. -/
theorem resolved_inputs {names : List String} {vs : List VarId}
    (h : (q.inputs names).Yields a (q', vs) a') :
    Resolved a a' q q' ∧ ∀ v ∈ vs, v ∈ q'.defines := by
  induction names generalizing q a vs with
  | nil =>
      obtain ⟨he, rfl⟩ := Build.yields_pure.mp h
      cases he
      exact ⟨.refl, List.forall_mem_nil _⟩
  | cons name names ih =>
      obtain ⟨⟨u, v⟩, b, hi, h⟩ := Build.yields_bind.mp h
      obtain ⟨⟨u', ws⟩, c, hs, h⟩ := Build.yields_bind.mp h
      obtain ⟨he, rfl⟩ := Build.yields_pure.mp h
      cases he
      obtain ⟨hr, hm⟩ := resolved_input hi
      obtain ⟨hrs, hms⟩ := ih hs
      refine ⟨hr.trans hrs, List.forall_mem_cons.mpr ⟨hrs.defines_subset v hm, hms⟩⟩

end Query

end CausalTrace
