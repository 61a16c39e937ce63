import CausalTrace.Proofs.Optimizing

/-!
# Settled queries

A query is settled when none of its work can move and no joined query delivers what the
stage does not read. Optimizing gives a settled query back as it is and defines nothing.
-/

namespace CausalTrace

open Defining

namespace Query

variable {a b : Arena} {m : Moves} {tight pack : Bool} {s s' : Stage}
  {js js' : List (String × Query)}
  {l : String × VarId} {w : Condition} {q q' u u' : Query} {keys residual needed args : List VarId}
  {gs : List Aggregate}

/-! ## What joined queries take -/

theorem takesLet_iff : u.takesLet args = true ↔
    u.stage.shape.Flat ∧ ∀ v ∈ args, v ∈ u.stage.outputs := by
  refine ⟨takesLet_eq_true, ?_⟩
  rintro ⟨hflat, hargs⟩
  have hall : args.all u.stage.outputs.contains = true :=
    List.all_eq_true.mpr fun v hv => List.contains_iff_mem.mpr (hargs v hv)
  rcases hflat with hs | ⟨selected, hs⟩
  · rw [takesLet, hs]
    exact hall
  · rw [takesLet, hs]
    exact hall

theorem takesWhere_iff : u.takesWhere args = true ↔
    u.stage.shape.Flat ∧ (∀ v ∈ args, v ∈ u.stage.outputs) ∨
      ∃ keys gs, u.stage.shape = .group keys gs ∧ ∀ v ∈ args, v ∈ keys := by
  have hall : ∀ {vs : List VarId}, (∀ v ∈ args, v ∈ vs) → args.all vs.contains = true :=
    fun h => List.all_eq_true.mpr fun v hv => List.contains_iff_mem.mpr (h v hv)
  refine ⟨takesWhere_eq_true, ?_⟩
  rintro (⟨hs | ⟨selected, hs⟩, hargs⟩ | ⟨keys, gs, hs, hargs⟩)
  · rw [takesWhere, hs]
    exact hall hargs
  · rw [takesWhere, hs]
    exact hall hargs
  · rw [takesWhere, hs]
    exact hall hargs

/-- A joined query keeps a let out: it has one of that name, or does not deliver all that
the let reads. -/
def Bars (a : Arena) (u : Query) (l : String × VarId) : Prop :=
  l.1 ∈ u.stage.lets.map (·.1) ∨ u.takesLet (a.reads l.2) = false

theorem letTarget?_eq_none_iff :
    letTarget? a js l = none ↔ a.reads l.2 = [] ∨ ∀ j ∈ js, j.2.Bars a l := by
  rw [letTarget?]
  split
  · next h => exact ⟨fun _ => Or.inl (List.isEmpty_iff.mp h), fun _ => rfl⟩
  · next h =>
      rw [List.isEmpty_iff] at h
      rw [Option.map_eq_none_iff, List.find?_eq_none, or_iff_right h]
      refine forall₂_congr fun j _ => ?_
      rw [Bool.and_eq_true, Option.isNone_iff_eq_none, Stage.let?_eq_none_iff, Bars, not_and_or,
        not_not, Bool.not_eq_true]

theorem whereTarget?_eq_none_iff :
    whereTarget? js w = none ↔ w.args = [] ∨ ∀ j ∈ js, j.2.takesWhere w.args = false := by
  rw [whereTarget?]
  split
  · next h => exact ⟨fun _ => Or.inl (List.isEmpty_iff.mp h), fun _ => rfl⟩
  · next h =>
      rw [List.isEmpty_iff] at h
      rw [Option.map_eq_none_iff, List.find?_eq_none, or_iff_right h]
      refine forall₂_congr fun j _ => ?_
      rw [Bool.not_eq_true]

/-- What the second query takes, the first one takes as well. -/
structure Narrows (u u' : Query) : Prop where
  lets : ∀ args, u'.takesLet args = true → u.takesLet args = true
  wheres : ∀ args, u'.takesWhere args = true → u.takesWhere args = true

theorem Narrows.refl : Narrows u u := ⟨fun _ => id, fun _ => id⟩

theorem Narrows.trans (h : Narrows q u) (h' : Narrows u u') : Narrows q u' :=
  ⟨fun args ht => h.lets args (h'.lets args ht), fun args ht => h.wheres args (h'.wheres args ht)⟩

/-- A query that takes no more than a flat one is flat only if that is. -/
theorem Narrows.flat (h : Narrows u u') (hflat : u'.stage.shape.Flat) : u.stage.shape.Flat :=
  (takesLet_iff.mp (h.lets [] (takesLet_iff.mpr ⟨hflat, List.forall_mem_nil _⟩))).1

/-! ## Settled queries -/

/-- No let and no condition of a stage moves into a joined query. -/
structure Blocked (m : Moves) (a : Arena) (s : Stage) (js : List (String × Query)) : Prop where
  lets : m.lets = true → ∀ l ∈ s.lets, letTarget? a js l = none
  wheres : m.wheres = true → ∀ w ∈ s.wheres, whereTarget? js w = none

/-- Nothing can move anywhere in a query, and joined queries deliver what is needed only. -/
inductive Settled (m : Moves) (a : Arena) : Query → Prop where
  | node {s : Stage} {js : List (String × Query)} (blocked : Blocked m a s js)
      (shared : m.aggregates = true → ∀ keys gs, s.shape = .group keys gs →
        ∀ j ∈ js, ¬ j.2.stage.shape.Flat)
      (needed : ∀ j ∈ js, ∀ v ∈ j.2.stage.outputs, v ∈ s.needs a)
      (joined : ∀ j ∈ js, Settled m a j.2) : Settled m a (.node s js)

/-- A let that no joined query takes is taken by none that takes less and keeps the name. -/
theorem letTarget?_narrow (h : letTarget? a js l = none)
    (hjs : ∀ j' ∈ js', ∃ j ∈ js, Narrows j.2 j'.2 ∧
      (l.1 ∈ j.2.stage.lets.map (·.1) → l.1 ∈ j'.2.stage.lets.map (·.1))) :
    letTarget? a js' l = none := by
  rw [letTarget?_eq_none_iff] at h ⊢
  refine h.imp_right fun hbars j' hj' => ?_
  obtain ⟨j, hj, hnarrows, hname⟩ := hjs j' hj'
  refine (hbars j hj).imp hname fun hno => ?_
  rw [Bool.eq_false_iff] at hno ⊢
  exact fun ht => hno (hnarrows.lets _ ht)

theorem whereTarget?_narrow (h : whereTarget? js w = none)
    (hjs : ∀ j' ∈ js', ∃ j ∈ js, Narrows j.2 j'.2) : whereTarget? js' w = none := by
  rw [whereTarget?_eq_none_iff] at h ⊢
  refine h.imp_right fun hno j' hj' => ?_
  obtain ⟨j, hj, hnarrows⟩ := hjs j' hj'
  have hno := hno j hj
  rw [Bool.eq_false_iff] at hno ⊢
  exact fun ht => hno (hnarrows.wheres _ ht)

/-! ## More definitions -/

theorem letTarget?_of_extension (hp : a.defs <+: b.defs) (hk : a.Knows l.2) :
    letTarget? b js l = letTarget? a js l := by
  rw [letTarget?, letTarget?, Arena.reads_of_extension hp hk]

theorem needs_of_extension (hp : a.defs <+: b.defs) (hk : ∀ v ∈ s.lets.map (·.2), a.Knows v) :
    s.needs b = s.needs a := by
  have hreads : s.lets.flatMap (fun l => b.reads l.2) = s.lets.flatMap fun l => a.reads l.2 :=
    List.flatMap_congr fun l hl => Arena.reads_of_extension hp (hk l.2 (List.mem_map_of_mem hl))
  rw [Stage.needs, Stage.needs, hreads]

theorem Blocked.grow (h : Blocked m a s js) (hp : a.defs <+: b.defs)
    (hk : ∀ v ∈ s.lets.map (·.2), a.Knows v) : Blocked m b s js :=
  ⟨fun hm l hl => (letTarget?_of_extension hp (hk l.2 (List.mem_map_of_mem hl))).trans
    (h.lets hm l hl), h.wheres⟩

/-- A settled query stays so when the arena gets more definitions. -/
theorem Settled.grow (h : Settled m a q) (hs : Sound a tight pack q) (hp : a.defs <+: b.defs) :
    Settled m b q := by
  induction q generalizing pack with
  | node s js ih =>
      obtain ⟨hblocked, hshared, hneeded, hjoined⟩ := h
      refine .node (hblocked.grow hp hs.known_lets) hshared ?_ ?_
      · rw [needs_of_extension hp hs.known_lets]
        exact hneeded
      · exact fun j hj => ih j hj (hjoined j hj) (hs.joined hj)

/-! ## Nothing happens to a settled query -/

theorem exhaust_of_none {step : Query → Option (String × Query)} {reached : Ascending String}
    (h : step q = none) (n : Nat) : exhaust step n q reached = (q, reached) := by
  cases n with
  | zero => rfl
  | succ n => rw [exhaust, h]

theorem pushOneLet_eq_none_iff :
    (node s js).pushOneLet a = none ↔ ∀ l ∈ s.lets, letTarget? a js l = none := by
  rw [pushOneLet, Option.map_eq_none_iff, movableLet?, List.findSome?_eq_none_iff]
  exact forall₂_congr fun l _ => Option.map_eq_none_iff

theorem movableWhere?_eq_none_iff {ws : List Condition} :
    movableWhere? js ws = none ↔ ∀ w ∈ ws, whereTarget? js w = none := by
  induction ws with
  | nil => exact ⟨fun _ => List.forall_mem_nil _, fun _ => rfl⟩
  | cons w ws ih =>
      rw [movableWhere?, List.forall_mem_cons]
      split
      · next aliasName hw =>
          rw [hw]
          constructor
          · intro h
            cases h
          · rintro ⟨h, _⟩
            cases h
      · next hw => rw [Option.map_eq_none_iff, ih, and_iff_right hw]

theorem pushOneWhere_eq_none_iff :
    (node s js).pushOneWhere = none ↔ ∀ w ∈ s.wheres, whereTarget? js w = none := by
  rw [pushOneWhere, Option.map_eq_none_iff]
  exact movableWhere?_eq_none_iff

theorem Blocked.pushDown_eq (h : Blocked m a s js) :
    pushDown m a (node s js) = (node s js, []) := by
  have hlets : (if m.lets then exhaust (Query.pushOneLet a) (node s js).stage.lets.length
      (node s js) [] else (node s js, [])) = (node s js, []) := by
    split
    · next hm => exact exhaust_of_none (pushOneLet_eq_none_iff.mpr (h.lets hm)) _
    · rfl
  rw [pushDown, hlets]
  dsimp only
  split
  · next hm => exact exhaust_of_none (pushOneWhere_eq_none_iff.mpr (h.wheres hm)) _
  · rfl

theorem leads_mapM_self {again : Query → Defining Query}
    (h : ∀ j ∈ js, (again j.2).Leads a fun u b => u = j.2 ∧ b = a) :
    Leads (js.mapM fun j => do return (j.1, ← again j.2)) a fun js' b => js' = js ∧ b = a := by
  induction js with
  | nil => exact leads_pure ⟨rfl, rfl⟩
  | cons j js ih =>
      obtain ⟨hj, hjs⟩ := List.forall_mem_cons.mp h
      rw [List.mapM_cons]
      have hone : Leads (do return (j.1, ← again j.2)) a fun r b => r = j ∧ b = a :=
        hj.bind fun u b hu => leads_pure ⟨by rw [hu.1], hu.2⟩
      refine hone.bind ?_
      rintro _ _ ⟨rfl, rfl⟩
      refine (ih hjs).bind ?_
      rintro _ _ ⟨rfl, rfl⟩
      exact leads_pure ⟨rfl, rfl⟩

/-- Without a flat joined query no share is taken. -/
theorem leads_shareAll_self (h : ∀ j ∈ js, ¬ j.2.stage.shape.Flat) :
    (shareAll keys residual gs js).Leads a fun r b => r = ([], gs) ∧ b = a := by
  induction js with
  | nil => exact leads_pure ⟨rfl, rfl⟩
  | cons j js ih =>
      obtain ⟨hj, hjs⟩ := List.forall_mem_cons.mp h
      rw [shareAll, if_neg fun htakes => hj (flat_of_takesShare htakes)]
      exact ih hjs

theorem leads_pushAggregates_self {again : Query → Defining Query}
    (h : ∀ keys gs, s.shape = .group keys gs → ∀ j ∈ js, ¬ j.2.stage.shape.Flat) :
    (pushAggregates again (node s js)).Leads a fun q b => q = node s js ∧ b = a := by
  have hstay : Leads (pure (node s js)) a fun q b => q = node s js ∧ b = a := leads_pure ⟨rfl, rfl⟩
  rw [pushAggregates]
  split
  · next keys gs hs =>
      refine (leads_get (Q := fun r b => r = a ∧ b = a) ⟨rfl, rfl⟩).bind ?_
      rintro r b ⟨rfl, rfl⟩
      refine (leads_shareAll_self (h keys gs hs)).bind ?_
      rintro _ _ ⟨rfl, rfl⟩
      have hsame : (node s js).withStage (fun t => { t with shape := .group keys gs }) =
          node s js := by
        rw [← hs]
        rfl
      exact leads_pure ⟨hsame, rfl⟩
  · exact hstay
  · exact hstay
  · exact hstay

theorem pruneTo_of_needed (h : ∀ v ∈ q.stage.outputs, v ∈ needed) : q.pruneTo a needed = q := by
  cases q with
  | node s js =>
      rw [pruneTo, if_pos]
      exact List.all_eq_true.mpr fun v hv => List.contains_iff_mem.mpr (h v hv)

theorem pruneJoins_of_needed (h : ∀ j ∈ js, ∀ v ∈ j.2.stage.outputs, v ∈ needed) :
    pruneJoins a needed js = js := by
  rw [pruneJoins_eq]
  refine (List.map_congr_left fun j hj => ?_).trans (List.map_id js)
  rw [pruneTo_of_needed (h j hj)]
  rfl

/-- Optimizing leaves a settled query as it is, at whatever depth, and defines nothing. -/
theorem Settled.leads_self (h : Settled m a q) (n : Nat) :
    (optimizeWithin m n q).Leads a fun q' b => q' = q ∧ b = a := by
  induction n generalizing q with
  | zero => exact leads_pure ⟨rfl, rfl⟩
  | succ n ih =>
      obtain @⟨s, js, hblocked, hshared, hneeded, hjoined⟩ := h
      rw [optimizeWithin]
      refine (leads_mapM_self fun j hj => ih (hjoined j hj)).bind ?_
      rintro js b ⟨rfl, rfl⟩
      refine (leads_get (Q := fun r c => r = b ∧ c = b) ⟨rfl, rfl⟩).bind ?_
      rintro r c ⟨rfl, rfl⟩
      rw [hblocked.pushDown_eq]
      have hfinish : Leads (do return (Query.node s js).prune (← get)) c fun q' b =>
          q' = Query.node s js ∧ b = c :=
        ⟨congrArg (Query.node s) (pruneJoins_of_needed hneeded), rfl⟩
      show Leads (do
        let q ← if m.aggregates then pushAggregates (optimizeWithin m n) (.node s js)
          else pure (.node s js)
        return q.prune (← get)) c _
      split
      · next hm =>
          refine (leads_pushAggregates_self (hshared hm)).bind ?_
          rintro _ _ ⟨rfl, rfl⟩
          exact hfinish
      · exact hfinish

end Query

end CausalTrace
