import CausalTrace.Proofs.Settled

/-!
# Optimizing settles queries

The optimizer leaves nothing to do. Lets that a joined query had before its stage moved
more into it cannot leave it, so a second visit moves only what has arrived, and no let of
the stage becomes movable by it. Flat queries below a grouping stage take their shares,
after which nothing can move into them that could not before.
-/

namespace CausalTrace

open Defining

/-! ## What a stage keeps -/

theorem Shape.not_flat_group {keys : List VarId} {gs : List Aggregate} :
    ¬ (Shape.group keys gs).Flat := by
  rintro (h | ⟨_, h⟩)
  · cases h
  · cases h

/-- A stage that delivers the same in the same shape; a grouping stage may have other
aggregates. -/
structure Stage.Resembles (s s' : Stage) : Prop where
  outputs : s'.outputs = s.outputs
  shape : s'.shape = s.shape ∨ ∃ keys gs gs', s.shape = .group keys gs ∧ s'.shape = .group keys gs'

namespace Stage.Resembles

variable {s t s' : Stage}

theorem refl : Resembles s s := ⟨rfl, Or.inl rfl⟩

theorem trans (h : Resembles s t) (h' : Resembles t s') : Resembles s s' := by
  refine ⟨h'.outputs.trans h.outputs, ?_⟩
  rcases h.shape, h'.shape with ⟨hs | ⟨keys, gs, gs', hs, ht⟩, hs' | ⟨ks, fs, fs', ht', hs'⟩⟩
  · exact Or.inl (hs'.trans hs)
  · exact Or.inr ⟨ks, fs, fs', hs ▸ ht', hs'⟩
  · exact Or.inr ⟨keys, gs, gs', hs, hs'.trans ht⟩
  · rw [ht] at ht'
    cases ht'
    exact Or.inr ⟨keys, gs, fs', hs, hs'⟩

end Stage.Resembles

namespace Query

variable {a b : Arena} {m : Moves} {tight pack : Bool} {s s' : Stage}
  {js js' before after : List (String × Query)} {aliasName : String} {l : String × VarId}
  {w : Condition} {q q' u u' : Query} {keys residual needed args : List VarId}
  {gs : List Aggregate} {n : Nat}

theorem narrows_of_resembles (h : u.stage.Resembles u'.stage) : Narrows u u' := by
  constructor
  · intro args ht
    obtain ⟨hflat, hargs⟩ := takesLet_iff.mp ht
    rw [h.outputs] at hargs
    rcases h.shape with hs | ⟨_, _, _, _, hs⟩
    · rw [hs] at hflat
      exact takesLet_iff.mpr ⟨hflat, hargs⟩
    · rw [hs] at hflat
      exact absurd hflat Shape.not_flat_group
  · intro args ht
    rw [takesWhere_iff, h.outputs] at ht
    rw [takesWhere_iff]
    rcases h.shape with hs | ⟨keys, gs, gs', hs, hs'⟩
    · rwa [hs] at ht
    · rcases ht with ⟨hflat, _⟩ | ⟨ks, fs, hks, hargs⟩
      · rw [hs'] at hflat
        exact absurd hflat Shape.not_flat_group
      · rw [hs'] at hks
        cases hks
        exact Or.inr ⟨keys, gs, hs, hargs⟩

/-! ## Stages while work moves down -/

@[simp]
theorem stage_updateJoin (f : Query → Query) : (q.updateJoin aliasName f).stage = q.stage := by
  cases q
  rfl

/-- One move of a let takes it from the stage. -/
theorem stage_pushOneLet (h : q.pushOneLet a = some (aliasName, q')) :
    ∃ l ∈ q.stage.lets, q'.stage = q.stage.withoutLet l := by
  obtain ⟨⟨l, name⟩, hl, he⟩ := Option.map_eq_some_iff.mp h
  cases he
  obtain ⟨k, hk, ht⟩ := List.exists_of_findSome?_eq_some hl
  obtain ⟨name, _, he⟩ := Option.map_eq_some_iff.mp ht
  cases he
  refine ⟨l, hk, ?_⟩
  rw [moveLet, stage_updateJoin, stage_withStage]
  rfl

/-- One move of a condition takes it from the stage. -/
theorem stage_pushOneWhere (h : q.pushOneWhere = some (aliasName, q')) :
    ∃ w left, q.stage.wheres.Perm (w :: left) ∧ q'.stage = { q.stage with wheres := left } := by
  obtain ⟨⟨w, name, left⟩, hm, he⟩ := Option.map_eq_some_iff.mp h
  cases he
  obtain ⟨hperm, _⟩ := movableWhere?_eq_some hm
  refine ⟨w, left, hperm, ?_⟩
  rw [stage_updateJoin, stage_withStage]

section

variable {step : Query → Option (String × Query)} {reached : Ascending String}

/-- What one step keeps, all steps keep. -/
theorem exhaust_induct {P : Query → Ascending String → Prop}
    (hstep : ∀ q aliasName q' reached, P q reached → step q = some (aliasName, q') →
      P q' (reached.insert aliasName)) (h : P q reached) (n : Nat) :
    P (exhaust step n q reached).1 (exhaust step n q reached).2 := by
  induction n generalizing q reached with
  | zero => exact h
  | succ n ih =>
      rw [exhaust]
      split
      · next hpush => exact ih (hstep _ _ _ _ h hpush)
      · exact h

/-- Steps that take something away run until none is left. -/
theorem step_exhaust {size : Query → Nat}
    (hstep : ∀ q aliasName q', step q = some (aliasName, q') → size q' < size q)
    (h : size q ≤ n) : step (exhaust step n q reached).1 = none := by
  induction n generalizing q reached with
  | zero =>
      rw [exhaust]
      cases hs : step q with
      | none => rfl
      | some r => exact absurd (hstep q r.1 r.2 hs) (by omega)
  | succ n ih =>
      rw [exhaust]
      split
      · next aliasName q' hpush =>
          have hless := hstep q aliasName q' hpush
          exact ih (by omega)
      · next hnone => exact hnone

end

theorem resembles_pushOneLet (h : q.pushOneLet a = some (aliasName, q')) :
    q.stage.Resembles q'.stage := by
  obtain ⟨l, _, hs⟩ := stage_pushOneLet h
  rw [hs]
  exact ⟨rfl, Or.inl rfl⟩

theorem resembles_pushOneWhere (h : q.pushOneWhere = some (aliasName, q')) :
    q.stage.Resembles q'.stage := by
  obtain ⟨w, left, _, hs⟩ := stage_pushOneWhere h
  rw [hs]
  exact ⟨rfl, Or.inl rfl⟩

theorem length_lets_pushOneLet (h : q.pushOneLet a = some (aliasName, q')) :
    q'.stage.lets.length < q.stage.lets.length := by
  obtain ⟨l, hl, hs⟩ := stage_pushOneLet h
  rw [hs]
  refine List.length_filter_lt_length_iff_exists.mpr ⟨l, hl, ?_⟩
  simp

theorem length_wheres_pushOneWhere (h : q.pushOneWhere = some (aliasName, q')) :
    q'.stage.wheres.length < q.stage.wheres.length := by
  obtain ⟨w, left, hperm, hs⟩ := stage_pushOneWhere h
  rw [hs, hperm.length_eq]
  exact Nat.lt_succ_self _

/-- What every move keeps, moving lets and conditions down keeps. -/
theorem pushDown_induct {P : Query → Ascending String → Prop}
    (hlet : m.lets = true → ∀ q aliasName q' reached, P q reached →
      q.pushOneLet a = some (aliasName, q') → P q' (reached.insert aliasName))
    (hwhere : m.wheres = true → ∀ q aliasName q' reached, P q reached →
      q.pushOneWhere = some (aliasName, q') → P q' (reached.insert aliasName)) (h : P q []) :
    P (q.pushDown m a).1 (q.pushDown m a).2 := by
  have hlets : P (if m.lets then exhaust (Query.pushOneLet a) q.stage.lets.length q []
      else (q, [])).1 (if m.lets then exhaust (Query.pushOneLet a) q.stage.lets.length q []
      else (q, [])).2 := by
    split
    · next hm => exact exhaust_induct (hlet hm) h _
    · exact h
  rw [pushDown]
  generalize (if m.lets then exhaust (Query.pushOneLet a) q.stage.lets.length q []
    else (q, [])) = r at hlets ⊢
  dsimp only
  split
  · next hm => exact exhaust_induct (hwhere hm) hlets _
  · exact hlets

theorem resembles_pushDown : q.stage.Resembles (q.pushDown m a).1.stage :=
  pushDown_induct (P := fun r _ => q.stage.Resembles r.stage)
    (fun _ _ _ _ _ h hpush => h.trans (resembles_pushOneLet hpush))
    (fun _ _ _ _ _ h hpush => h.trans (resembles_pushOneWhere hpush)) .refl

/-- A joined query bars as much after it took a condition. -/
theorem narrows_withWhere : Narrows u (u.withStage (·.withWhere w)) :=
  narrows_of_resembles (by
    rw [stage_withStage]
    exact ⟨rfl, Or.inl rfl⟩)

theorem lets_withWhere : (u.withStage (·.withWhere w)).stage.lets = u.stage.lets := by
  rw [stage_withStage]
  rfl

/-- Moving a condition makes no let movable. -/
theorem letTarget?_pushOneWhere (hs : Sound a tight pack q)
    (hpush : q.pushOneWhere = some (aliasName, q')) (h : letTarget? a q.joins l = none) :
    letTarget? a q'.joins l = none := by
  cases q with
  | node s js =>
      obtain ⟨w, left, before, u, after, rfl, _, rfl⟩ := pushOneWhere_eq_some hs.formed hpush
      refine letTarget?_narrow h fun j hj => ?_
      rw [joins_node, List.mem_append, List.mem_cons] at hj
      rcases hj with hj | rfl | hj
      · exact ⟨j, List.mem_append_left _ hj, .refl, fun hm => hm⟩
      · refine ⟨(aliasName, u), List.mem_append_cons_self, narrows_withWhere, ?_⟩
        rw [lets_withWhere]
        exact fun hm => hm
      · exact ⟨j, List.mem_append_right _ (List.mem_cons_of_mem _ hj), .refl, fun hm => hm⟩

/-- Lets that cannot move still cannot after all conditions have been moved. -/
theorem stuck_exhaust {reached : Ascending String} (hs : Sound a tight pack q)
    (h : ∀ l ∈ q.stage.lets, letTarget? a q.joins l = none) :
    ∀ l ∈ (exhaust Query.pushOneWhere n q reached).1.stage.lets,
      letTarget? a (exhaust Query.pushOneWhere n q reached).1.joins l = none := by
  have hboth : Sound a tight pack (exhaust Query.pushOneWhere n q reached).1 ∧
      ∀ l ∈ (exhaust Query.pushOneWhere n q reached).1.stage.lets,
        letTarget? a (exhaust Query.pushOneWhere n q reached).1.joins l = none := by
    refine exhaust_induct (P := fun r _ => Sound a tight pack r ∧
      ∀ l ∈ r.stage.lets, letTarget? a r.joins l = none) ?_ ⟨hs, h⟩ n
    rintro r name r' names ⟨hr, hstuck⟩ hpush
    obtain ⟨_, _, _, hstage⟩ := stage_pushOneWhere hpush
    refine ⟨(hr.pushOneWhere hpush).1, fun l hl => ?_⟩
    rw [hstage] at hl
    exact letTarget?_pushOneWhere hr hpush (hstuck l hl)
  exact hboth.2

/-- Afterwards no let and no condition can move. -/
theorem Sound.blocked_pushDown (h : Sound a tight pack q) :
    Blocked m a (q.pushDown m a).1.stage (q.pushDown m a).1.joins := by
  have hlets :
      Sound a tight pack (if m.lets then exhaust (Query.pushOneLet a) q.stage.lets.length q []
      else (q, [])).1 ∧ (m.lets = true → ((if m.lets then exhaust (Query.pushOneLet a)
        q.stage.lets.length q [] else (q, [])).1).pushOneLet a = none) := by
    split
    · exact ⟨(sound_exhaust (fun _ _ _ hs hpush => hs.pushOneLet hpush) h).1,
        fun _ => step_exhaust (fun _ _ _ => length_lets_pushOneLet) (Nat.le_refl _)⟩
    · next hm => exact ⟨h, fun ht => absurd ht hm⟩
  rw [Query.pushDown]
  generalize (if m.lets then exhaust (Query.pushOneLet a) q.stage.lets.length q []
    else (q, [])) = r at hlets ⊢
  obtain ⟨⟨s, js⟩, reached⟩ := r
  obtain ⟨hs, hnone⟩ := hlets
  dsimp only at hs hnone ⊢
  have hstuck : m.lets = true → ∀ l ∈ s.lets, letTarget? a js l = none := fun hm =>
    pushOneLet_eq_none_iff.mp (hnone hm)
  split
  · refine ⟨fun hm => stuck_exhaust hs (hstuck hm), fun _ => ?_⟩
    have hdone : (exhaust Query.pushOneWhere s.wheres.length (node s js) reached).1.pushOneWhere =
        none := step_exhaust (fun _ _ _ => length_wheres_pushOneWhere) (Nat.le_refl _)
    rw [← node_stage_joins (exhaust _ _ _ _).1] at hdone
    exact pushOneWhere_eq_none_iff.mp hdone
  · next hm => exact ⟨hstuck, fun ht => absurd ht hm⟩

/-! ## Lets that cannot leave -/

/-- Lets of a query that no joined query takes, and that read no other let of the query. -/
structure Firm (m : Moves) (a : Arena) (old : List (String × VarId)) (u : Query) : Prop where
  mem : ∀ l ∈ old, l ∈ u.stage.lets
  stuck : m.lets = true → ∀ l ∈ old, letTarget? a u.joins l = none
  apart : ∀ l ∈ u.stage.lets, l ∉ old → ∀ k ∈ old, l.2 ∉ a.reads k.2

variable {old : List (String × VarId)}

theorem Settled.firm (h : Settled m a u) : Firm m a u.stage.lets u := by
  obtain ⟨hblocked, _, _, _⟩ := h
  exact ⟨fun _ hl => hl, hblocked.lets, fun l hl hno => absurd hl hno⟩

theorem LetMoves.letTarget?_ne_none (hm : LetMoves a s u l) (hj : (aliasName, u) ∈ js) :
    letTarget? a js l ≠ none := by
  intro hnone
  rcases letTarget?_eq_none_iff.mp hnone with hnil | hbars
  · exact hm.some_reads hnil
  · rcases hbars _ hj with hname | hfalse
    · exact Stage.let?_eq_none_iff.mp hm.name hname
    · rw [takesLet_iff.mpr ⟨hm.flat, hm.reads⟩] at hfalse
      cases hfalse

/-- A let that does not read the one that arrives is barred as before. -/
theorem Bars.withLet {k : String × VarId} {needed : Bool} (h : u.Bars a k)
    (hl : l.2 ∉ a.reads k.2) : (u.withStage (·.withLet l needed)).Bars a k := by
  rw [Bars, stage_withStage]
  refine h.imp (fun hm => ?_) fun hno => ?_
  · show k.1 ∈ (u.stage.lets ++ [l]).map (·.1)
    rw [List.map_append]
    exact List.mem_append_left _ hm
  · rw [Bool.eq_false_iff, ne_eq, takesLet_iff] at hno ⊢
    rw [stage_withStage]
    rintro ⟨hflat, hreads⟩
    refine hno ⟨hflat, fun v hv => ?_⟩
    have hv' : v ∈ if needed then u.stage.outputs.insert l.2 else u.stage.outputs := hreads v hv
    split at hv'
    · exact (Ascending.mem_insert.mp hv').resolve_left fun he => hl (he ▸ hv)
    · exact hv'

/-- Of the lets of a query only others move into joined queries. -/
theorem Firm.pushOneLet (h : Firm m a old q) (hs : Sound a tight pack q) (hm : m.lets = true)
    (hpush : q.pushOneLet a = some (aliasName, q')) : Firm m a old q' := by
  cases q with
  | node s js =>
      obtain ⟨l, before, u, after, rfl, hmoves, rfl⟩ := pushOneLet_eq_some hs.formed hpush
      have hmem : (aliasName, u) ∈ before ++ (aliasName, u) :: after := List.mem_append_cons_self
      have hnot : l ∉ old := fun hl => hmoves.letTarget?_ne_none hmem (h.stuck hm l hl)
      have hnames := (hs.formed.lawful _ (self_mem_parts _)).names
      refine ⟨fun k hk => ?_, fun _ k hk => ?_, fun k hk => ?_⟩
      · refine List.mem_filter.mpr ⟨h.mem k hk, decide_eq_true fun he => hnot ?_⟩
        rwa [← List.inj_on_of_nodup_map hnames (h.mem k hk) hmoves.mem he]
      · refine letTarget?_eq_none_iff.mpr ((letTarget?_eq_none_iff.mp (h.stuck hm k hk)).imp_right
          fun hbars j hj => ?_)
        rw [joins_node, List.mem_append, List.mem_cons] at hj
        rcases hj with hj | rfl | hj
        · exact hbars j (List.mem_append_left _ hj)
        · exact (hbars _ hmem).withLet (h.apart l hmoves.mem hnot k hk)
        · exact hbars j (List.mem_append_right _ (List.mem_cons_of_mem _ hj))
      · exact h.apart k (List.mem_filter.mp hk).1

theorem Firm.pushOneWhere (h : Firm m a old q) (hs : Sound a tight pack q)
    (hpush : q.pushOneWhere = some (aliasName, q')) : Firm m a old q' := by
  obtain ⟨_, _, _, hstage⟩ := stage_pushOneWhere hpush
  have hlets : q'.stage.lets = q.stage.lets := by rw [hstage]
  refine ⟨?_, fun hm l hl => letTarget?_pushOneWhere hs hpush (h.stuck hm l hl), ?_⟩
  · rw [hlets]
    exact h.mem
  · rw [hlets]
    exact h.apart

theorem Firm.pushDown (h : Firm m a old q) (hs : Sound a tight pack q) :
    Firm m a old (q.pushDown m a).1 := by
  have hboth := pushDown_induct (P := fun r _ => Sound a tight pack r ∧ Firm m a old r)
    (fun hm _ _ _ _ hr hpush => ⟨(hr.1.pushOneLet hpush).1, hr.2.pushOneLet hr.1 hm hpush⟩)
    (fun _ _ _ _ _ hr hpush => ⟨(hr.1.pushOneWhere hpush).1, hr.2.pushOneWhere hr.1 hpush⟩) ⟨hs, h⟩
  exact hboth.2

theorem Firm.grow (h : Firm m a old u) (hs : Sound a tight pack u) (hp : a.defs <+: b.defs) :
    Firm m b old u := by
  have hknown : ∀ l ∈ old, a.Knows l.2 := by
    intro l hl
    have hm := List.mem_map_of_mem (f := (·.2)) (h.mem l hl)
    cases u
    exact hs.known_lets _ hm
  refine ⟨h.mem, fun hm l hl => ?_, fun l hl hno k hk => ?_⟩
  · rw [letTarget?_of_extension hp (hknown l hl)]
    exact h.stuck hm l hl
  · rw [Arena.reads_of_extension hp (hknown k hk)]
    exact h.apart l hl hno k hk

/-! ## The stage of an optimized query -/

theorem leads_foldlM_revisit_stage (again : Query → Defining Query) (reached : List String) :
    Leads (reached.foldlM (revisit again) q) a fun q' _ => q'.stage = q.stage := by
  induction reached generalizing q a with
  | nil => exact leads_pure rfl
  | cons aliasName reached ih =>
      have hone : (revisit again q aliasName).Leads a fun q' _ => q'.stage = q.stage := by
        rw [revisit]
        split
        · next u _ =>
            exact Leads.bind (R := fun _ _ => True) trivial fun u _ _ =>
              leads_pure (stage_updateJoin _)
        · exact leads_pure rfl
      rw [List.foldlM_cons]
      exact hone.bind fun q' b hq' => ih.mono fun r _ hr => hr.trans hq'

theorem leads_foldlM_rejoin_stage (again : Query → Defining Query)
    (shared : List (String × Query)) :
    Leads (shared.foldlM (rejoin again) q) a fun q' _ => q'.stage = q.stage := by
  induction shared generalizing q a with
  | nil => exact leads_pure rfl
  | cons j shared ih =>
      have hone : (rejoin again q j).Leads a fun q' _ => q'.stage = q.stage :=
        Leads.bind (R := fun _ _ => True) trivial fun u _ _ => leads_pure (stage_updateJoin _)
      rw [List.foldlM_cons]
      exact hone.bind fun q' b hq' => ih.mono fun r _ hr => hr.trans hq'

/-- Counting rows only adds lets. -/
theorem leads_countOne_lets (q : Query) (shared : List (String × Query)) (g : Aggregate) :
    (countOne q shared g).Leads a fun r _ =>
      ∃ more, r.1.stage = { q.stage with lets := q.stage.lets ++ more } := by
  have hstay : ∃ more, q.stage = { q.stage with lets := q.stage.lets ++ more } :=
    ⟨[], by rw [List.append_nil]⟩
  rw [countOne]
  split
  · refine Leads.bind (R := fun _ _ => True) trivial fun counted b _ => ?_
    exact Leads.bind (R := fun _ _ => True) trivial fun v _ _ =>
      leads_pure ⟨[(_, v)], stage_withStage _ _⟩
  · exact leads_pure hstay

theorem leads_countAll_lets (q : Query) (shared : List (String × Query)) (gs : List Aggregate) :
    (countAll q shared gs).Leads a fun r _ =>
      ∃ more, r.1.stage = { q.stage with lets := q.stage.lets ++ more } := by
  induction gs generalizing q shared a with
  | nil =>
      refine leads_pure ⟨[], ?_⟩
      rw [List.append_nil]
  | cons g gs ih =>
      rw [countAll]
      refine (leads_countOne_lets q shared g).bind ?_
      rintro ⟨q₁, shared₁, g₁⟩ b ⟨more, hmore⟩
      refine (ih q₁ shared₁).bind ?_
      rintro ⟨q₂, shared₂, gs₂⟩ b' ⟨more', hmore'⟩
      refine leads_pure ⟨more ++ more', hmore'.trans ?_⟩
      rw [hmore, List.append_assoc]

/-- A stage whose aggregates have been moved keeps its lets and conditions. -/
theorem leads_pushAggregates_stage (again : Query → Defining Query) (q : Query) :
    (pushAggregates again q).Leads a fun q' _ => q.stage.Resembles q'.stage ∧
      (∀ l ∈ q.stage.lets, l ∈ q'.stage.lets) ∧ q'.stage.wheres = q.stage.wheres := by
  have hstay : Leads (pure q) a fun q' _ => q.stage.Resembles q'.stage ∧
      (∀ l ∈ q.stage.lets, l ∈ q'.stage.lets) ∧ q'.stage.wheres = q.stage.wheres :=
    leads_pure ⟨.refl, fun _ hl => hl, rfl⟩
  rw [pushAggregates]
  split
  · next keys gs hs =>
      refine Leads.bind (R := fun _ _ => True) trivial fun _ _ _ => ?_
      refine Leads.bind (R := fun _ _ => True) trivial fun r b _ => ?_
      have hfinish : ∀ {q₁ : Query} {shared : List (String × Query)} {gs' : List Aggregate}
          {c : Arena}, (∃ more, q₁.stage = { q.stage with lets := q.stage.lets ++ more }) →
          Leads (shared.foldlM (rejoin again)
            (q₁.withStage fun t => { t with shape := .group keys gs' }))
            c fun q' _ => q.stage.Resembles q'.stage ∧ (∀ l ∈ q.stage.lets, l ∈ q'.stage.lets) ∧
              q'.stage.wheres = q.stage.wheres := by
        rintro q₁ shared gs' c ⟨more, hmore⟩
        refine (leads_foldlM_rejoin_stage again shared).mono fun q' _ hq' => ?_
        rw [hq', stage_withStage, hmore]
        exact ⟨⟨rfl, Or.inr ⟨keys, gs, gs', hs, rfl⟩⟩, fun l hl => List.mem_append_left _ hl, rfl⟩
      dsimp only
      split
      · exact hfinish ⟨[], by rw [List.append_nil]⟩
      · exact (leads_countAll_lets q r.1 r.2).bind fun r' c hmore => hfinish hmore
  · exact hstay
  · exact hstay
  · exact hstay

theorem stage_prune (q : Query) : (q.prune a).stage = q.stage := by
  cases q
  rfl

/-- An optimized query delivers the same, in the same shape. -/
theorem leads_resembles (m : Moves) (n : Nat) (q : Query) :
    (optimizeWithin m n q).Leads a fun q' _ => q.stage.Resembles q'.stage := by
  cases n with
  | zero => exact leads_pure .refl
  | succ n =>
      cases q with
      | node s js =>
          refine leads_phases (J := fun _ _ => True) (D := fun q _ _ => s.Resembles q.stage)
            (R := fun q _ => s.Resembles q.stage) (S := fun q _ => s.Resembles q.stage) trivial
            (fun js b _ => resembles_pushDown (q := node s js)) ?_ ?_ (fun _ _ _ hq => hq) ?_
          · intro q reached b hq
            exact (leads_foldlM_revisit_stage _ reached).mono fun q' _ hs => hs ▸ hq
          · intro _ q b hq
            exact (leads_pushAggregates_stage _ q).mono fun q' _ hs => hq.trans hs.1
          · intro q b hq
            rwa [stage_prune]

/-- Firm lets are still there when a query has been optimized again. -/
theorem leads_firm (h : Firm m a old u) (hs : Sound a tight pack u)
    (hjoined : ∀ j ∈ u.joins, Settled m a j.2) (n : Nat) :
    (optimizeWithin m n u).Leads a fun u' _ => ∀ l ∈ old, l ∈ u'.stage.lets := by
  cases n with
  | zero => exact leads_pure h.mem
  | succ n =>
      cases u with
      | node s js =>
          refine leads_phases (J := fun js' b => js' = js ∧ b = a)
            (D := fun q _ _ => ∀ l ∈ old, l ∈ q.stage.lets)
            (R := fun q _ => ∀ l ∈ old, l ∈ q.stage.lets)
            (S := fun q _ => ∀ l ∈ old, l ∈ q.stage.lets)
            (leads_mapM_self fun j hj => (hjoined j hj).leads_self n) ?_ ?_ ?_
            (fun _ _ _ hq => hq) ?_
          · rintro _ _ ⟨rfl, rfl⟩
            exact (h.pushDown hs).mem
          · intro q reached b hq
            exact (leads_foldlM_revisit_stage _ reached).mono fun q' _ hq' => hq' ▸ hq
          · intro _ q b hq
            exact (leads_pushAggregates_stage _ q).mono fun q' _ hq' l hl => hq'.2.1 l (hq l hl)
          · intro q b hq
            rwa [stage_prune]

end Query

end CausalTrace
