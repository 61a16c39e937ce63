import CausalTrace.Proofs.Compilable
import CausalTrace.Proofs.Settling

/-!
# Optimizing twice

Each phase of the optimizer leaves the joined queries settled and the lets and conditions
of the stage blocked, so the whole leads to a settled query, which optimizing once more
does not change.
-/

namespace CausalTrace

open Defining

namespace Query

variable {a b : Arena} {m : Moves} {tight pack : Bool} {s s' : Stage}
  {js js' before after origin : List (String × Query)} {aliasName : String} {l : String × VarId}
  {w : Condition} {q q' u u' : Query} {keys needed : List VarId} {names : List String}
  {gs : List Aggregate} {n : Nat} {pending : List String} {again : Query → Defining Query}

/-! ## Depth -/

theorem joinsDepth_le_iff : joinsDepth js ≤ n ↔ ∀ j ∈ js, j.2.depth ≤ n := by
  induction js with
  | nil => exact ⟨fun _ => List.forall_mem_nil _, fun _ => Nat.zero_le n⟩
  | cons j js ih => rw [joinsDepth, Nat.max_le, List.forall_mem_cons, ih]

theorem depth_le_iff : (node s js).depth ≤ n + 1 ↔ ∀ j ∈ js, j.2.depth ≤ n := by
  rw [depth, Nat.add_le_add_iff_right, joinsDepth_le_iff]

theorem depth_of_joins (h : u'.joins = u.joins) : u'.depth = u.depth := by
  cases u
  cases u'
  rw [depth, depth]
  exact congrArg (joinsDepth · + 1) h

theorem depth_pruneTo_le (h : q.depth ≤ n) : (q.pruneTo a needed).depth ≤ n := by
  induction q generalizing needed n with
  | node s js ih =>
      rcases pruneTo_node a s js needed with he | he
      · rwa [he]
      · rw [he]
        cases n with
        | zero => exact absurd h (Nat.not_succ_le_zero _)
        | succ n =>
            rw [depth_le_iff] at h
            rw [depth_le_iff, pruneJoins_eq]
            intro j hj
            obtain ⟨k, hk, rfl⟩ := List.mem_map.mp hj
            exact ih k hk (h k hk)

/-! ## Joined queries that are settled -/

/-- A sound query that is settled, of at most `n` levels. -/
structure Ready (m : Moves) (n : Nat) (a : Arena) (u : Query) : Prop where
  sound : Sound a false true u
  settled : Settled m a u
  depth : u.depth ≤ n

theorem Ready.grow (h : Ready m n a u) (hp : a.defs <+: b.defs) (ho : b.Ordered) : Ready m n b u :=
  ⟨h.sound.grow hp ho, h.settled.grow h.sound hp, h.depth⟩

/-- Steps that settle every sound query of at most `n` levels. -/
def Settles (m : Moves) (n : Nat) (again : Query → Defining Query) : Prop :=
  ∀ u a, Sound a false true u → u.depth ≤ n → (again u).Leads a fun u' b =>
    Ready m n b u' ∧ Refits a b u u' ∧ Narrows u u'

/-- One joined query after another is settled, and stays so. -/
theorem leads_mapM_settle (hagain : Settles m n again) (ho : a.Ordered)
    (hjs : ∀ j ∈ js, Sound a false true j.2 ∧ j.2.depth ≤ n) :
    Leads (js.mapM fun j => do return (j.1, ← again j.2)) a fun js' b =>
      (a.defs <+: b.defs ∧ b.Ordered) ∧ ∀ j ∈ js', Ready m n b j.2 := by
  induction js generalizing a with
  | nil => exact leads_pure ⟨⟨List.prefix_refl _, ho⟩, List.forall_mem_nil _⟩
  | cons j js ih =>
      obtain ⟨⟨hj, hdepth⟩, hjs⟩ := List.forall_mem_cons.mp hjs
      have hone : Leads (do return (j.1, ← again j.2)) a fun r b =>
          a.defs <+: b.defs ∧ Ready m n b r.2 :=
        (hagain j.2 a hj hdepth).bind fun u' b hu => leads_pure ⟨hu.2.1.grown.arena, hu.1⟩
      rw [List.mapM_cons]
      refine hone.bind fun r b ⟨hp, hr⟩ => ?_
      have hb := hr.sound.formed.ordered
      refine (ih hb fun k hk => ⟨(hjs k hk).1.grow hp hb, (hjs k hk).2⟩).bind ?_
      rintro js' c ⟨⟨hp', hc⟩, hjs'⟩
      exact leads_pure ⟨⟨hp.trans hp', hc⟩, List.forall_mem_cons.mpr ⟨hr.grow hp' hc, hjs'⟩⟩

/-! ## Visits to joined queries that work has moved into -/

/-- A joined query that may have got lets from its stage, where their names are not in use
any more. The lets it had before are firm. -/
def Awaits (m : Moves) (a : Arena) (names : List String) (u : Query) : Prop :=
  ∃ old, Firm m a old u ∧ (∀ j ∈ u.joins, Settled m a j.2) ∧
    ∀ l ∈ u.stage.lets, l ∈ old ∨ l.1 ∉ names

theorem Settled.awaits (h : Settled m a u) : Awaits m a names u := by
  refine ⟨u.stage.lets, h.firm, ?_, fun l hl => Or.inl hl⟩
  obtain ⟨_, _, _, hjoined⟩ := h
  exact hjoined

theorem Awaits.mono {names' : List String} (h : Awaits m a names u)
    (hn : ∀ x ∈ names', x ∈ names) : Awaits m a names' u := by
  obtain ⟨old, hfirm, hjoined, hlets⟩ := h
  exact ⟨old, hfirm, hjoined, fun l hl => (hlets l hl).imp_right fun hno hm => hno (hn _ hm)⟩

theorem Awaits.grow (h : Awaits m a names u) (hs : Sound a tight pack u) (hp : a.defs <+: b.defs) :
    Awaits m b names u := by
  obtain ⟨old, hfirm, hjoined, hlets⟩ := h
  refine ⟨old, hfirm.grow hs hp, fun j hj => ?_, hlets⟩
  cases u
  exact (hjoined j hj).grow (hs.joined hj) hp

/-- What lets of a sound query read, the query defines. -/
theorem Sound.reads_defined (h : Sound a tight pack u) (hl : l ∈ u.stage.lets) :
    ∀ v ∈ a.reads l.2, v ∈ u.defines := by
  intro v hv
  refine h.supplied.bound_defined v ?_
  cases u with
  | node s js =>
      obtain ⟨_, ⟨hown, _, _⟩⟩ := h
      exact hown.lets l.2 (List.mem_map_of_mem hl) v hv

theorem Awaits.withLet {needed : Bool} (h : Awaits m a (s.lets.map (·.1)) u)
    (hu : Sound a tight true u) (hl : l.2 ∉ u.defines) :
    Awaits m a ((s.withoutLet l).lets.map (·.1)) (u.withStage (·.withLet l needed)) := by
  obtain ⟨old, hfirm, hjoined, hlets⟩ := h
  have hstage : (u.withStage (·.withLet l needed)).stage.lets = u.stage.lets ++ [l] := by
    rw [stage_withStage]
    rfl
  refine ⟨old, ⟨fun k hk => ?_, ?_, fun k hk hno x hx => ?_⟩, ?_, fun k hk => ?_⟩
  · rw [hstage]
    exact List.mem_append_left _ (hfirm.mem k hk)
  · rw [joins_withStage]
    exact hfirm.stuck
  · rw [hstage] at hk
    rcases List.mem_append.mp hk with hk | hk
    · exact hfirm.apart k hk hno x hx
    · rw [List.mem_singleton.mp hk]
      exact fun hm => hl (hu.reads_defined (hfirm.mem x hx) _ hm)
  · rw [joins_withStage]
    exact hjoined
  · rw [hstage] at hk
    have hsub : k.1 ∈ (s.withoutLet l).lets.map (·.1) → k.1 ∈ s.lets.map (·.1) ∧ k.1 ≠ l.1 := by
      intro hm
      obtain ⟨x, hx, he⟩ := List.mem_map.mp hm
      obtain ⟨hx, hne⟩ := List.mem_filter.mp hx
      rw [← he]
      exact ⟨List.mem_map_of_mem hx, of_decide_eq_true hne⟩
    rcases List.mem_append.mp hk with hk | hk
    · exact (hlets k hk).imp_right fun hno hm => hno (hsub hm).1
    · exact Or.inr fun hm => (hsub hm).2 (by rw [List.mem_singleton.mp hk])

theorem Awaits.withWhere (h : Awaits m a names u) :
    Awaits m a names (u.withStage (·.withWhere w)) := by
  cases u
  obtain ⟨old, hfirm, hjoined, hlets⟩ := h
  exact ⟨old, ⟨hfirm.mem, hfirm.stuck, hfirm.apart⟩, hjoined, hlets⟩

/-- A query some of whose joined queries still have to be visited, after lets and conditions
have been moved into them. -/
structure Visiting (m : Moves) (n : Nat) (a : Arena) (pack : Bool) (pending : List String)
    (q : Query) : Prop where
  sound : Sound a false pack q
  depth : ∀ j ∈ q.joins, j.2.depth ≤ n
  awaits : ∀ j ∈ q.joins, Awaits m a (q.stage.lets.map (·.1)) j.2
  settled : ∀ j ∈ q.joins, j.1 ∉ pending → Settled m a j.2

/-- What holds of some joined queries, and of another one in place of one of them. -/
theorem forall_mem_replace {P : String × Query → Prop}
    (hold : ∀ j ∈ before ++ (aliasName, u) :: after, P j) (hnew : P (aliasName, u')) :
    ∀ j ∈ before ++ (aliasName, u') :: after, P j := by
  intro j hj
  rw [List.mem_append, List.mem_cons] at hj
  rcases hj with hj | rfl | hj
  · exact hold j (List.mem_append_left _ hj)
  · exact hnew
  · exact hold j (List.mem_append_right _ (List.mem_cons_of_mem _ hj))

theorem not_mem_insert {x y : String} {xs : Ascending String} (h : x ∉ Ascending.insert y xs) :
    x ≠ y ∧ x ∉ xs :=
  ⟨fun he => h (Ascending.mem_insert.mpr (Or.inl he)),
    fun hm => h (Ascending.mem_insert.mpr (Or.inr hm))⟩

theorem Visiting.pushOneLet {reached : Ascending String} (h : Visiting m n a pack reached q)
    (hpush : q.pushOneLet a = some (aliasName, q')) :
    Visiting m n a pack (reached.insert aliasName) q' := by
  have hsound := (h.sound.pushOneLet hpush).1
  cases q with
  | node s js =>
      obtain ⟨l, before, u, after, rfl, hmoves, rfl⟩ := pushOneLet_eq_some h.sound.formed hpush
      obtain ⟨hs, hdepth, hawaits, hsettled⟩ := h
      have hmem : (aliasName, u) ∈ before ++ (aliasName, u) :: after := List.mem_append_cons_self
      -- The others stay, while the stage has one name less.
      have hall : ∀ j ∈ before ++ (aliasName, u.withStage
          (·.withLet l (((s.withoutLet l).needs a).contains l.2))) :: after, j.2.depth ≤ n ∧
          Awaits m a ((s.withoutLet l).lets.map (·.1)) j.2 ∧
          (j.1 ∉ Ascending.insert aliasName reached → Settled m a j.2) := by
        refine forall_mem_replace (fun j hj => ⟨hdepth j hj, (hawaits j hj).mono fun x hx => ?_,
          fun hno => hsettled j hj (not_mem_insert hno).2⟩)
          ⟨?_, (hawaits _ hmem).withLet (hs.joined hmem)
            (hmoves.not_mem_defines hs.formed.distinct),
            fun hno => absurd rfl (not_mem_insert hno).1⟩
        · obtain ⟨k, hk, rfl⟩ := List.mem_map.mp hx
          exact List.mem_map_of_mem (List.mem_filter.mp hk).1
        · rw [depth_of_joins (joins_withStage _ u)]
          exact hdepth _ hmem
      exact ⟨hsound, fun j hj => (hall j hj).1, fun j hj => (hall j hj).2.1,
        fun j hj => (hall j hj).2.2⟩

theorem Visiting.pushOneWhere {reached : Ascending String} (h : Visiting m n a pack reached q)
    (hpush : q.pushOneWhere = some (aliasName, q')) :
    Visiting m n a pack (reached.insert aliasName) q' := by
  have hsound := (h.sound.pushOneWhere hpush).1
  cases q with
  | node s js =>
      obtain ⟨w, left, before, u, after, rfl, _, rfl⟩ := pushOneWhere_eq_some h.sound.formed hpush
      obtain ⟨hs, hdepth, hawaits, hsettled⟩ := h
      have hmem : (aliasName, u) ∈ before ++ (aliasName, u) :: after := List.mem_append_cons_self
      have hall : ∀ j ∈ before ++ (aliasName, u.withStage (·.withWhere w)) :: after,
          j.2.depth ≤ n ∧ Awaits m a (s.lets.map (·.1)) j.2 ∧
          (j.1 ∉ Ascending.insert aliasName reached → Settled m a j.2) := by
        refine forall_mem_replace (fun j hj => ⟨hdepth j hj, hawaits j hj,
          fun hno => hsettled j hj (not_mem_insert hno).2⟩)
          ⟨?_, (hawaits _ hmem).withWhere, fun hno => absurd rfl (not_mem_insert hno).1⟩
        rw [depth_of_joins (joins_withStage _ u)]
        exact hdepth _ hmem
      exact ⟨hsound, fun j hj => (hall j hj).1, fun j hj => (hall j hj).2.1,
        fun j hj => (hall j hj).2.2⟩

/-- Moving lets and conditions into settled queries leaves those to visit that were reached. -/
theorem visiting_pushDown (h : Sound a false pack q) (hjs : ∀ j ∈ q.joins, Ready m n a j.2) :
    Visiting m n a pack (q.pushDown m a).2 (q.pushDown m a).1 :=
  pushDown_induct (P := fun r reached => Visiting m n a pack reached r)
    (fun _ _ _ _ _ hr hpush => hr.pushOneLet hpush)
    (fun _ _ _ _ _ hr hpush => hr.pushOneWhere hpush)
    ⟨h, fun j hj => (hjs j hj).depth, fun j hj => (hjs j hj).settled.awaits,
      fun j hj _ => (hjs j hj).settled⟩

/-- A visit settles a joined query, and nothing becomes movable by it: a let whose name
barred another one is firm. -/
theorem Visiting.leads_revisit (hagain : Settles m n (optimizeWithin m n))
    (h : Visiting m n a pack (aliasName :: pending) q) (hb : Blocked m a q.stage q.joins) :
    (revisit (optimizeWithin m n) q aliasName).Leads a fun q' b =>
      Visiting m n b pack pending q' ∧ Blocked m b q'.stage q'.joins := by
  cases q with
  | node s js =>
      obtain ⟨hs, hdepth, hawaits, hsettled⟩ := h
      rw [revisit]
      split
      · next u hu =>
          obtain ⟨before, after, rfl⟩ := List.append_of_mem (Table.mem_of_find?_eq_some hu)
          have hmem : (aliasName, u) ∈ before ++ (aliasName, u) :: after :=
            List.mem_append_cons_self
          have haliases := (hs.formed.lawful _ (self_mem_parts _)).aliases
          have hsu := hs.joined hmem
          obtain ⟨old, hfirm, hjoined, hlets⟩ := hawaits _ hmem
          have hstep : (optimizeWithin m n u).Leads a fun u' b =>
              (Ready m n b u' ∧ Refits a b u u' ∧ Narrows u u') ∧ ∀ l ∈ old, l ∈ u'.stage.lets :=
            ⟨hagain u a hsu (hdepth _ hmem), leads_firm hfirm hsu hjoined n⟩
          refine hstep.bind ?_
          rintro u' b ⟨⟨hready, hfits, hnarrows⟩, hold⟩
          have hp := hfits.grown.arena
          have hupdate : (node s (before ++ (aliasName, u) :: after)).updateJoin aliasName
              (fun _ => u') = node s (before ++ (aliasName, u') :: after) := updateJoin_eq haliases
          rw [hupdate]
          refine leads_pure ⟨⟨(hs.refitJoin hready.sound hfits).1, ?_, ?_, ?_⟩, ?_,
            fun hm w hw => ?_⟩
          · exact forall_mem_replace hdepth hready.depth
          · exact forall_mem_replace (fun j hj => (hawaits j hj).grow (hs.joined hj) hp)
              hready.settled.awaits
          · intro j hj hno
            rw [joins_node, List.mem_append, List.mem_cons] at hj
            have hother : j ∈ before ++ after → Settled m b j.2 := fun hm => by
              have hj : j ∈ before ++ (aliasName, u) :: after := by
                rw [List.mem_append, List.mem_cons]
                exact (List.mem_append.mp hm).imp_right Or.inr
              have hne := alias_ne_of_ascending haliases j hm
              exact (hsettled j hj (List.not_mem_cons_of_ne_of_not_mem hne hno)).grow
                (hs.joined hj) hp
            rcases hj with hj | rfl | hj
            · exact hother (List.mem_append_left _ hj)
            · exact hready.settled
            · exact hother (List.mem_append_right _ hj)
          · intro hm l hl
            rw [letTarget?_of_extension hp (hs.known_lets l.2 (List.mem_map_of_mem hl))]
            refine letTarget?_narrow (hb.lets hm l hl)
              (forall_mem_replace (fun j hj => ⟨j, hj, .refl, fun hm => hm⟩)
                ⟨_, hmem, hnarrows, ?_⟩)
            intro hname
            obtain ⟨k, hk, he⟩ := List.mem_map.mp hname
            rcases hlets k hk with hk | hno
            · exact he ▸ List.mem_map_of_mem (hold k hk)
            · exact absurd (he ▸ List.mem_map_of_mem hl) hno
          · exact whereTarget?_narrow (hb.wheres hm w hw)
              (forall_mem_replace (fun j hj => ⟨j, hj, .refl⟩) ⟨_, hmem, hnarrows⟩)
      · next hnone =>
          refine leads_pure ⟨⟨hs, hdepth, hawaits, fun j hj hno => hsettled j hj ?_⟩, hb⟩
          refine List.not_mem_cons_of_ne_of_not_mem (fun he => ?_) hno
          exact Table.find?_eq_none_iff.mp hnone (he ▸ List.mem_map_of_mem hj)

/-- A query whose joined queries are settled, and from which no let and no condition moves
into them. -/
structure Visited (m : Moves) (n : Nat) (a : Arena) (pack : Bool) (q : Query) : Prop where
  sound : Sound a false pack q
  joined : ∀ j ∈ q.joins, Ready m n a j.2
  blocked : Blocked m a q.stage q.joins

theorem Visiting.leads_foldlM_revisit (hagain : Settles m n (optimizeWithin m n))
    (h : Visiting m n a pack pending q) (hb : Blocked m a q.stage q.joins) :
    Leads (pending.foldlM (revisit (optimizeWithin m n)) q) a fun q' b =>
      Visited m n b pack q' := by
  induction pending generalizing q a with
  | nil =>
      refine leads_pure ⟨h.sound, fun j hj => ⟨?_, h.settled j hj List.not_mem_nil, h.depth j hj⟩,
        hb⟩
      cases q
      exact h.sound.joined hj
  | cons aliasName pending ih =>
      rw [List.foldlM_cons]
      exact (h.leads_revisit hagain hb).bind fun q' b hq' => ih hq'.1 hq'.2

/-! ## Shares -/

theorem TookShare.narrows (h : TookShare keys u u') : Narrows u u' := by
  obtain ⟨hflat, _, gs, hs⟩ := h
  constructor
  · intro args ht
    have hflat' := (takesLet_iff.mp ht).1
    rw [hs] at hflat'
    exact absurd hflat' Shape.not_flat_group
  · intro args ht
    rw [takesWhere_iff, hs] at ht
    rcases ht with ⟨hflat', _⟩ | ⟨ks, fs, hks, hargs⟩
    · exact absurd hflat' Shape.not_flat_group
    · cases hks
      refine takesWhere_iff.mpr (Or.inl ⟨hflat, fun v hv => ?_⟩)
      exact List.contains_iff_mem.mp (List.mem_filter.mp (hargs v hv)).2

theorem TookShare.not_flat (h : TookShare keys u u') : ¬ u'.stage.shape.Flat := by
  obtain ⟨_, _, gs, hs⟩ := h
  rw [hs]
  exact Shape.not_flat_group

/-- A joined query after the shares have been taken: settled, no flat one, and taking no
more than one from before. -/
structure Shared (m : Moves) (n : Nat) (a : Arena) (origin : List (String × Query)) (u : Query) :
    Prop where
  ready : Ready m n a u
  grouped : ¬ u.stage.shape.Flat
  narrows : ∃ j ∈ origin, Narrows j.2 u

/-- The shares are settled one after another. -/
theorem leads_rejoin_settle (hagain : Settles m n again) {shared : List (String × Query)}
    (hplaced : Placed keys js shared js') (h : Sound a false pack (node s (before ++ js')))
    (hjs : ∀ j ∈ js, j ∈ origin ∧ Ready m n a j.2)
    (hbefore : ∀ j ∈ before, Shared m n a origin j.2) :
    Leads (shared.foldlM (rejoin again) (node s (before ++ js))) a fun q' b =>
      ∀ j ∈ q'.joins, Shared m n b origin j.2 := by
  induction hplaced generalizing a before with
  | nil =>
      refine leads_pure ?_
      rw [List.append_nil]
      exact hbefore
  | @skip j js shared js' hflat hplaced ih =>
      obtain ⟨⟨hmem, hready⟩, hjs⟩ := List.forall_mem_cons.mp hjs
      rw [List.append_cons] at h
      have hrest := ih h hjs fun k hk => by
        rcases List.mem_append.mp hk with hk | hk
        · exact hbefore k hk
        · rw [List.mem_singleton.mp hk]
          exact ⟨hready, hflat, j, hmem, .refl⟩
      simp only [List.append_assoc, List.singleton_append] at hrest
      exact hrest
  | @take aliasName u u' js shared js' htook hplaced ih =>
      obtain ⟨⟨hmem, hready⟩, hjs⟩ := List.forall_mem_cons.mp hjs
      have hsu' : Sound a false true u' := h.joined List.mem_append_cons_self
      have hdepth : u'.depth ≤ n :=
        Nat.le_trans (Nat.le_of_eq (depth_of_joins htook.joins)) hready.depth
      have hstep : (rejoin again (node s (before ++ (aliasName, u) :: js)) (aliasName, u')).Leads a
          fun q' b => ∃ u'', q' = node s (before ++ (aliasName, u'') :: js) ∧ Ready m n b u'' ∧
            Refits a b u' u'' ∧ Narrows u' u'' :=
        (hagain u' a hsu' hdepth).bind fun u'' b hu =>
          leads_pure ⟨u'', updateJoin_placed hplaced h.regular, hu⟩
      rw [List.foldlM_cons]
      refine hstep.bind ?_
      rintro _ b ⟨u'', rfl, hready'', hfits, hnarrows⟩
      have hp := hfits.grown.arena
      have ho := hready''.sound.formed.ordered
      have hs := (h.refitJoin hready''.sound hfits).1
      rw [List.append_cons] at hs
      have hrest := ih hs (fun k hk => ⟨(hjs k hk).1, (hjs k hk).2.grow hp ho⟩) fun k hk => by
        rcases List.mem_append.mp hk with hk | hk
        · exact ⟨(hbefore k hk).ready.grow hp ho, (hbefore k hk).grouped, (hbefore k hk).narrows⟩
        · rw [List.mem_singleton.mp hk]
          exact ⟨hready'', fun hflat => htook.not_flat (hnarrows.flat hflat), _, hmem,
            htook.narrows.trans hnarrows⟩
      simp only [List.append_assoc, List.singleton_append] at hrest
      exact hrest

/-- Moving aggregates leaves no flat query below a grouping stage, and nothing movable. -/
theorem Visited.leads_pushAggregates (hagain : Settles m n (optimizeWithin m n))
    (h : Visited m n a pack q) :
    (pushAggregates (optimizeWithin m n) q).Leads a fun q' b => Visited m n b pack q' ∧
      ∀ keys gs, q'.stage.shape = .group keys gs → ∀ j ∈ q'.joins, ¬ j.2.stage.shape.Flat := by
  have hrefitting : Refitting false (optimizeWithin m n) := fun u a hu =>
    leads_optimizeWithin (fun _ => rfl) n hu
  cases q with
  | node s js =>
      by_cases hgroup : ∃ keys gs, s.shape = .group keys gs
      · obtain ⟨keys, gs, hs⟩ := hgroup
        have hshared : (pushAggregates (optimizeWithin m n) (node s js)).Leads a fun q' b =>
            ∀ j ∈ q'.joins, Shared m n b js j.2 := by
          refine leads_shares h.sound hs fun {b s' js' shared gs'} hplaced hsound hfits => ?_
          have hsound₀ : Sound b false pack (node (s'.regrouped keys gs') ([] ++ js')) := hsound
          refine leads_rejoin_settle hagain hplaced hsound₀ (fun j hj => ⟨hj, ?_⟩)
            (List.forall_mem_nil _)
          exact (h.joined j hj).grow hfits.grown.arena hsound.formed.ordered
        have hall : (pushAggregates (optimizeWithin m n) (node s js)).Leads a fun q' b =>
            ((Sound b false pack q' ∧ Refits a b (node s js) q') ∧
              q'.stage.wheres = s.wheres) ∧ ∀ j ∈ q'.joins, Shared m n b js j.2 :=
          ⟨⟨leads_pushAggregates hrefitting h.sound,
            (leads_pushAggregates_stage _ (node s js)).2.2⟩, hshared⟩
        refine hall.mono ?_
        rintro q' b ⟨⟨⟨hsound, _⟩, hwheres⟩, hjoined⟩
        refine ⟨⟨hsound, fun j hj => (hjoined j hj).ready, fun _ l hl => ?_, fun hm w hw => ?_⟩,
          fun _ _ _ j hj => (hjoined j hj).grouped⟩
        · refine letTarget?_eq_none_iff.mpr (Or.inr fun j hj => Or.inr ?_)
          rw [Bool.eq_false_iff, ne_eq, takesLet_iff]
          exact fun ht => (hjoined j hj).grouped ht.1
        · rw [hwheres] at hw
          exact whereTarget?_narrow (h.blocked.wheres hm w hw) fun j hj => (hjoined j hj).narrows
      · have hnot : ∀ keys gs, s.shape ≠ .group keys gs := fun keys gs hs => hgroup ⟨keys, gs, hs⟩
        have hself : (pushAggregates (optimizeWithin m n) (node s js)).Leads a fun q' b =>
            q' = node s js ∧ b = a :=
          leads_pushAggregates_self fun keys gs hs => absurd hs (hnot keys gs)
        refine hself.mono ?_
        rintro _ _ ⟨rfl, rfl⟩
        exact ⟨h, fun keys gs hs => absurd hs (hnot keys gs)⟩

/-! ## Pruning -/

theorem stage_pruneTo (q : Query) (needed : List VarId) :
    (q.pruneTo a needed).stage = q.stage ∨ (q.pruneTo a needed).stage = q.stage.keeping needed := by
  cases q with
  | node s js =>
      rcases pruneTo_node a s js needed with h | h
      · exact Or.inl (by rw [h])
      · exact Or.inr (by rw [h]; rfl)

theorem lets_pruneTo (q : Query) : (q.pruneTo a needed).stage.lets = q.stage.lets := by
  rcases stage_pruneTo (a := a) q needed with h | h
  · rw [h]
  · rw [h]
    rfl

theorem shape_pruneTo (q : Query) : (q.pruneTo a needed).stage.shape = q.stage.shape := by
  rcases stage_pruneTo (a := a) q needed with h | h
  · rw [h]
  · rw [h]
    rfl

theorem outputs_pruneTo {v : VarId} (hv : v ∈ (q.pruneTo a needed).stage.outputs) :
    v ∈ q.stage.outputs ∧ v ∈ needed := by
  cases q with
  | node s js =>
      rw [pruneTo] at hv
      split at hv
      · next hall => exact ⟨hv, List.contains_iff_mem.mp (List.all_eq_true.mp hall v hv)⟩
      · exact Stage.mem_outputs_keeping.mp hv

theorem narrows_pruneTo (q : Query) : Narrows q (q.pruneTo a needed) := by
  constructor
  · intro args ht
    rw [takesLet_iff, shape_pruneTo] at ht
    exact takesLet_iff.mpr ⟨ht.1, fun v hv => (outputs_pruneTo (ht.2 v hv)).1⟩
  · intro args ht
    rw [takesWhere_iff, shape_pruneTo] at ht
    refine takesWhere_iff.mpr (ht.imp_left fun hflat => ⟨hflat.1, fun v hv => ?_⟩)
    exact (outputs_pruneTo (hflat.2 v hv)).1

/-- A query is settled when its stage is blocked and its joined queries, settled before,
deliver only what it needs. -/
theorem settled_pruneJoins (hb : Blocked m a s js)
    (hshared : m.aggregates = true → ∀ keys gs, s.shape = .group keys gs →
      ∀ j ∈ js, ¬ j.2.stage.shape.Flat)
    (hjs : ∀ j ∈ js, Settled m a (j.2.pruneTo a (s.needs a))) :
    Settled m a (node s (pruneJoins a (s.needs a) js)) := by
  rw [pruneJoins_eq]
  have hpruned : ∀ j' ∈ js.map fun j => (j.1, j.2.pruneTo a (s.needs a)), ∃ j ∈ js,
      Narrows j.2 j'.2 ∧ j'.2.stage.lets = j.2.stage.lets := by
    intro j' hj'
    obtain ⟨j, hj, rfl⟩ := List.mem_map.mp hj'
    exact ⟨j, hj, narrows_pruneTo j.2, lets_pruneTo j.2⟩
  refine .node ⟨fun hm l hl => ?_, fun hm w hw => ?_⟩ ?_ ?_ ?_
  · refine letTarget?_narrow (hb.lets hm l hl) fun j' hj' => ?_
    obtain ⟨j, hj, hnarrows, hlets⟩ := hpruned j' hj'
    rw [hlets]
    exact ⟨j, hj, hnarrows, fun hname => hname⟩
  · refine whereTarget?_narrow (hb.wheres hm w hw) fun j' hj' => ?_
    obtain ⟨j, hj, hnarrows, _⟩ := hpruned j' hj'
    exact ⟨j, hj, hnarrows⟩
  · intro hm keys gs hs j' hj' hflat
    obtain ⟨j, hj, hnarrows, _⟩ := hpruned j' hj'
    exact hshared hm keys gs hs j hj (hnarrows.flat hflat)
  · intro j' hj' v hv
    obtain ⟨j, hj, rfl⟩ := List.mem_map.mp hj'
    exact (outputs_pruneTo hv).2
  · intro j' hj'
    obtain ⟨j, hj, rfl⟩ := List.mem_map.mp hj'
    exact hjs j hj

/-- A settled query that has to deliver less is settled. -/
theorem Settled.pruneTo (h : Settled m a q) : Settled m a (q.pruneTo a needed) := by
  induction q generalizing needed with
  | node s js ih =>
      rcases pruneTo_node a s js needed with he | he
      · rwa [he]
      · rw [he]
        obtain ⟨hblocked, hshared, _, hjoined⟩ := h
        exact settled_pruneJoins ⟨hblocked.lets, hblocked.wheres⟩ hshared fun j hj =>
          ih j hj (hjoined j hj)

/-! ## Optimized queries are settled -/

/-- Optimizing a sound query leads to a settled one. -/
theorem leads_settled (h : Sound a false pack q) (hn : q.depth ≤ n) :
    (optimizeWithin m n q).Leads a fun q' b => Settled m b q' ∧ q'.depth ≤ n := by
  induction n generalizing q a pack with
  | zero =>
      cases q
      exact absurd hn (Nat.not_succ_le_zero _)
  | succ n ih =>
      -- One level down all three facts about optimized queries come together.
      have hagain : Settles m n (optimizeWithin m n) := by
        intro u a hu hdepth
        have hall : (optimizeWithin m n u).Leads a fun u' b =>
            ((Sound b false true u' ∧ Refits a b u u') ∧
            (Settled m b u' ∧ u'.depth ≤ n)) ∧ u.stage.Resembles u'.stage :=
          ⟨⟨leads_optimizeWithin (fun _ => rfl) n hu, ih hu hdepth⟩, leads_resembles m n u⟩
        refine hall.mono ?_
        rintro u' b ⟨⟨⟨hs, hr⟩, hsettled, hdepth'⟩, hresembles⟩
        exact ⟨⟨hs, hsettled, hdepth'⟩, hr, narrows_of_resembles hresembles⟩
      have hrefitting : Refitting false (optimizeWithin m n) := fun u a hu =>
        leads_optimizeWithin (fun _ => rfl) n hu
      cases q with
      | node s js =>
          have hdepth := depth_le_iff.mp hn
          have h' : Sound a false pack (node s ([] ++ js)) ∧
              Refits a a (node s js) (node s ([] ++ js)) := ⟨h, .refl⟩
          have hjoins : Leads (js.mapM fun j => do return (j.1, ← optimizeWithin m n j.2)) a
              fun js' b => (Sound b false pack (node s js') ∧ Refits a b (node s js) (node s js')) ∧
                ((a.defs <+: b.defs ∧ b.Ordered) ∧ ∀ j ∈ js', Ready m n b j.2) :=
            ⟨leads_mapM_keep (hrefitting.keeps a (node s js)) h',
              leads_mapM_settle hagain h.formed.ordered fun j hj => ⟨h.joined hj, hdepth j hj⟩⟩
          refine leads_phases (D := fun q reached b => Visiting m n b pack reached q ∧
              Blocked m b q.stage q.joins) (R := fun q b => Visited m n b pack q)
            (S := fun q b => Visited m n b pack q ∧ (m.aggregates = true → ∀ keys gs,
              q.stage.shape = .group keys gs → ∀ j ∈ q.joins, ¬ j.2.stage.shape.Flat))
            hjoins ?_ ?_ ?_ ?_ ?_
          · rintro js' b ⟨⟨hs, _⟩, _, hready⟩
            exact ⟨visiting_pushDown hs hready, hs.blocked_pushDown⟩
          · rintro q reached b ⟨hvisiting, hblocked⟩
            exact hvisiting.leads_foldlM_revisit hagain hblocked
          · intro _ q b hq
            exact (hq.leads_pushAggregates hagain).mono fun _ _ hq' => ⟨hq'.1, fun _ => hq'.2⟩
          · intro hm q b hq
            exact ⟨hq, fun ht => absurd (hm ▸ ht) Bool.false_ne_true⟩
          · rintro ⟨t, ks⟩ b ⟨hq, hshared⟩
            refine ⟨settled_pruneJoins hq.blocked hshared
              fun j hj => (hq.joined j hj).settled.pruneTo, ?_⟩
            show (node t (pruneJoins b (t.needs b) ks)).depth ≤ n + 1
            rw [depth_le_iff, pruneJoins_eq]
            intro j hj
            obtain ⟨k, hk, rfl⟩ := List.mem_map.mp hj
            exact depth_pruneTo_le (hq.joined k hk).depth

/-- Optimizing an optimized query gives it back, whatever kinds of work move: the same tree
over the same definitions, which compiles to the same advice. -/
theorem optimize_idempotent (hq : q.Built a) (ho : (q.optimize m).run a = (q', b)) :
    (q'.optimize m).run b = (q', b) ∧
      ∀ id, ((q'.optimize m).run b).1.compile ((q'.optimize m).run b).2 id = q'.compile b id := by
  have hsound : Sound a false false q := (hq.sound hq.scoped).loosen
  have hsettled := leads_settled (m := m) hsound (Nat.le_refl q.depth)
  have hrun : (optimizeWithin m q.depth q).run a = (q', b) := ho
  rw [Leads, hrun] at hsettled
  have hself := hsettled.1.leads_self q'.depth
  have hsame : (q'.optimize m).run b = (q', b) := Prod.ext hself.1 hself.2
  refine ⟨hsame, fun id => ?_⟩
  rw [hsame]

open Query.Sample in
theorem optimize_idempotent_totals :
    ((totals.optimize .all).run totalsArena).1 ≠ totals ∧
      (((totals.optimize .all).run totalsArena).1.optimize .all).run
        ((totals.optimize .all).run totalsArena).2 = (totals.optimize .all).run totalsArena := by
  have ho : (totals.optimize .all).run totalsArena =
      (((totals.optimize .all).run totalsArena).1, ((totals.optimize .all).run totalsArena).2) :=
    Prod.ext rfl rfl
  exact ⟨by decide +kernel, (optimize_idempotent built_totals ho).1.trans ho.symm⟩

end Query

end CausalTrace
