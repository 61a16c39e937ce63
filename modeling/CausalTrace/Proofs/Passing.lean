import CausalTrace.Proofs.Replay

/-!
# Passing tracepoints

An engine passes a tracepoint by running all plans woven into it. Plans of other
queries touch neither the bags nor the sink of a query, so over any passes the
query hands to its sink what its tree results in.
-/

namespace CausalTrace

/-! ## Sinks -/

/-- Rows may be added to a sink in parts. -/
theorem Gathered.add_add (g : Gathered) (rows more : List Row) :
    ((g.add rows).1.add more).1 = (g.add (rows ++ more)).1 := by
  cases g with
  | tuples arity before =>
      simp only [add, List.filter_append, List.append_assoc]
  | grouped g =>
      simp only [add, Groups.observeAll_fst, List.filterMap_append, Groups.merge, List.foldl_append]

theorem Gathered.add_nil (g : Gathered) : (g.add []).1 = g := by
  cases g with
  | tuples arity before => exact congrArg _ (List.append_nil _)
  | grouped g => rfl

namespace Engine

/-! ## Steps of a pass -/

variable {e : Engine} {b : Baggage} {p : Pass} {id : QueryId}

/-- One plan of a pass runs, on the engine and the baggage as they are. -/
def step (p : Pass) (state : Engine × Baggage) (s : Woven × Nat) : Engine × Baggage :=
  runOne p.surroundings p.tracepoint p.fields state s

/-- The request passes a tracepoint. -/
def pass (state : Engine × Baggage) (p : Pass) : Engine × Baggage :=
  (state.1.invoke p.surroundings p.tracepoint state.2 p.fields).2

theorem pass_eq (state : Engine × Baggage) (p : Pass) :
    pass state p = (state.1.woven.listed p.tracepoint).zipIdx.foldl (step p) state := rfl

theorem step_baggage (state : Engine × Baggage) (s : Woven × Nat) :
    (step p state s).2 = p.leave state.2 s :=
  Advice.run_leave ..

theorem step_sinks (state : Engine × Baggage) (s : Woven × Nat) :
    (step p state s).1.sinks = s.1.advice.filled state.1.sinks state.2 (s.1.fields.map p.value) :=
  Advice.run_filled ..

theorem step_woven (state : Engine × Baggage) (s : Woven × Nat) :
    (step p state s).1.woven = state.1.woven := rfl

theorem steps_baggage (state : Engine × Baggage) (steps : List (Woven × Nat)) :
    (steps.foldl (step p) state).2 = steps.foldl p.leave state.2 := by
  induction steps generalizing state with
  | nil => rfl
  | cons s steps ih =>
      rw [List.foldl_cons, List.foldl_cons, ih, step_baggage]

theorem steps_woven (state : Engine × Baggage) (steps : List (Woven × Nat)) :
    (steps.foldl (step p) state).1.woven = state.1.woven := by
  induction steps generalizing state with
  | nil => rfl
  | cons s steps ih => rw [List.foldl_cons, ih, step_woven]

theorem steps_numbering (state : Engine × Baggage) (steps : List (Woven × Nat)) :
    (steps.foldl (step p) state).1.numbering = state.1.numbering := by
  induction steps generalizing state with
  | nil => rfl
  | cons s steps ih =>
      rw [List.foldl_cons, ih]
      rfl

/-! ## Rows handed to a sink -/

/-- The rows that one plan hands to the sink of a query. -/
def handed (id : QueryId) (p : Pass) (b : Baggage) (w : Woven) : List Row :=
  if w.queryId = id then w.advice.emitted b (w.fields.map p.value) else []

/-- The rows that plans running one after another hand to the sink of a query. -/
def handedBy (id : QueryId) (p : Pass) : Engine × Baggage → List (Woven × Nat) → List Row
  | _, [] => []
  | state, s :: steps => handed id p state.2 s.1 ++ handedBy id p (step p state s) steps

/-- The rows that a query hands to its sink while a request passes tracepoints. -/
def emissions (id : QueryId) : Engine × Baggage → List Pass → List Row
  | _, [] => []
  | state, p :: passes =>
      handedBy id p state (state.1.woven.listed p.tracepoint).zipIdx
        ++ emissions id (pass state p) passes

theorem handedBy_append (state : Engine × Baggage) (before after : List (Woven × Nat)) :
    handedBy id p state (before ++ after) =
      handedBy id p state before ++ handedBy id p (before.foldl (step p) state) after := by
  induction before generalizing state with
  | nil => rfl
  | cons s before ih =>
      rw [List.cons_append, handedBy, ih, handedBy, List.append_assoc, List.foldl_cons]

/-! ## Plans of other queries -/

/-- A plan that touches neither a bag nor the sink of a query. -/
def Foreign (id : QueryId) (w : Woven) : Prop :=
  w.queryId ≠ id ∧
    match w.advice.target with
    | .pack bag => bag.id.query ≠ id
    | .emit sink => sink.outputId ≠ id

/-- Plans that leave the sink of a query as it is, and hand it nothing. -/
def Silent (id : QueryId) (w : Woven) : Prop :=
  match w.advice.target with
  | .pack _ => True
  | .emit sink => w.queryId ≠ id ∧ sink.outputId ≠ id

theorem Foreign.silent {w : Woven} (h : Foreign id w) : Silent id w := by
  obtain ⟨hq, ht⟩ := h
  rw [Silent]
  cases hw : w.advice.target with
  | pack bag => trivial
  | emit sink =>
      rw [hw] at ht
      exact ⟨hq, ht⟩

theorem find?_emit_of_ne {sinks : Sinks} {sink : SinkRef} {rows : List Row}
    (h : sink.outputId ≠ id) : (sinks.emit sink rows).1.live.find? id = sinks.live.find? id := by
  rw [Sinks.emit]
  split
  · split
    · exact Table.find?_insert_ne (Ne.symm h) _ _
    · rfl
  · rfl

theorem silent_steps {steps : List (Woven × Nat)} (h : ∀ s ∈ steps, Silent id s.1)
    (state : Engine × Baggage) :
    handedBy id p state steps = [] ∧
      (steps.foldl (step p) state).1.sinks.live.find? id = state.1.sinks.live.find? id := by
  induction steps generalizing state with
  | nil => exact ⟨rfl, rfl⟩
  | cons s steps ih =>
      obtain ⟨hs, hsteps⟩ := List.forall_mem_cons.mp h
      obtain ⟨hhanded, hfind⟩ := ih hsteps (step p state s)
      rw [handedBy, hhanded, List.append_nil, List.foldl_cons, hfind, step_sinks, handed,
        Advice.emitted, Advice.filled]
      rw [Silent] at hs
      cases ht : s.1.advice.target with
      | pack bag =>
          refine ⟨?_, rfl⟩
          split <;> rfl
      | emit sink =>
          rw [ht] at hs
          refine ⟨if_neg hs.1, ?_⟩
          simp only
          split
          · rfl
          · exact find?_emit_of_ne hs.2

/-- Other queries leave the bags of a query alone. -/
theorem foreign_steps {steps : List (Woven × Nat)} (h : ∀ s ∈ steps, Foreign id s.1)
    (b : Baggage) (n : Nat) : Bag.Same ⟨id, n⟩ b (steps.foldl p.leave b) := by
  induction steps generalizing b with
  | nil => exact .refl
  | cons s steps ih =>
      obtain ⟨hs, hsteps⟩ := List.forall_mem_cons.mp h
      refine Bag.Same.trans ?_ (ih hsteps _)
      rw [Pass.leave, Advice.leave]
      have ht := hs.2
      cases hw : s.1.advice.target with
      | pack bag =>
          rw [hw] at ht
          refine Bag.same_pack fun he => ht ?_
          rw [← he]
      | emit sink => exact .refl

end Engine

/-! ## Plans of the query itself -/

namespace Query

variable {a : Arena} {id other : QueryId}

mutual

theorem Deployed.silent {bag : Bag} : ∀ {u : Query} {start : Nat} {ws : List (String × Woven)},
    u.Deployed a id true (.pack bag) start ws → ∀ x ∈ ws, Engine.Silent other x.2
  | .node s js, start, ws, ⟨joined, w, hws, hd, _, ht⟩, x, hx => by
      rw [hws] at hx
      rcases List.mem_append.mp hx with hj | hw
      · exact JoinsDeployed.silent hd x hj
      · rw [List.mem_singleton.mp hw, Engine.Silent, ht]
        trivial

theorem JoinsDeployed.silent : ∀ {js : List (String × Query)} {start : Nat}
    {ws : List (String × Woven)}, JoinsDeployed a id start js ws →
    ∀ x ∈ ws, Engine.Silent other x.2
  | [], start, ws, hws, x, hx => by
      rw [JoinsDeployed] at hws
      rw [hws] at hx
      cases hx
  | (_, u) :: js, start, ws, ⟨first, later, hws, hd, hds⟩, x, hx => by
      rw [hws] at hx
      rcases List.mem_append.mp hx with hf | hl
      · exact Deployed.silent hd x hf
      · exact JoinsDeployed.silent hds x hl

end

end Query

theorem mem_wovenAt {t : String} {ws : List (String × Woven)} {w : Woven} (h : w ∈ wovenAt t ws) :
    ∃ x ∈ ws, x.2 = w := by
  obtain ⟨x, hx, rfl⟩ := List.mem_map.mp h
  exact ⟨x, (List.mem_filter.mp hx).1, rfl⟩

namespace Engine

/-! ## Whole passes -/

/-- An engine with the plans of a query, after some passes of a request: the bags of
the query hold what has arrived, and its sink what the query has resulted in. -/
structure Serves (a : Arena) (id : QueryId) (q : Query)
    (ws : List (String × Woven)) (sink : SinkRef)
    (passes : List Pass) (state : Engine × Baggage) : Prop where
  woven : ∀ t, ∃ others, state.1.woven.listed t = others ++ wovenAt t ws ∧
    ∀ w ∈ others, Foreign id w
  carried : Query.JoinsCarried a id state.2 passes 0 q.joins
  sink : state.1.sinks.live.find? id = some (sink.serial, (sink.fresh.add (q.results a passes)).1)

variable {a : Arena} {q : Query} {ws : List (String × Woven)} {sink : SinkRef} {passes : List Pass}
  {state : Engine × Baggage} {id : QueryId} {p : Pass}

/-- The root stage hands over what it admits in the pass. -/
theorem root_step {s : Stage} {js : List (String × Query)} {w : Woven} {steps : List (Woven × Nat)}
    (ho : a.Ordered) (hn : (Query.node s js).defines.Nodup) (hq : ∀ j ∈ js, j.2.Scoped a true)
    (hid : sink.outputId = id)
    (hw : w.Realizes a s (Query.bagsOf id 0 js) ⟨id, 0 + Query.joinsSize js⟩ false)
    (ht : w.advice.target = .emit sink)
    (hs : steps.map (·.1) = wovenAt p.tracepoint [(s.source.tracepoint.name, w)])
    (hc : Query.JoinsCarried a id state.2 (p :: passes) 0 js)
    (hsink : state.1.sinks.live.find? id =
      some (sink.serial, (sink.fresh.add ((Query.node s js).results a passes)).1)) :
    handedBy id p state steps =
        (s.arrivalsIn a (Query.joinsDeliver a js (p :: passes)) p).map s.resultRow ∧
      (steps.foldl (step p) state).2 = state.2 ∧
      (steps.foldl (step p) state).1.sinks.live.find? id =
        some (sink.serial, (sink.fresh.add ((Query.node s js).results a (p :: passes))).1) := by
  have hresults : (Query.node s js).results a (p :: passes) = (Query.node s js).results a passes ++
      (s.arrivalsIn a (Query.joinsDeliver a js (p :: passes)) p).map s.resultRow := by
    rw [Query.results, Query.arrivals_cons, List.map_append]
    rfl
  rw [hresults, Stage.arrivalsIn]
  rw [wovenAt_singleton] at hs
  by_cases hplace : s.source.tracepoint.name = p.tracepoint
  · rw [if_pos hplace] at hs
    obtain ⟨⟨w', i⟩, rfl, hw'⟩ := List.map_eq_singleton_iff.mp hs
    obtain rfl : w = w' := hw'.symm
    have hsurvivors := Query.survivors_eq ho hn hq hw hc
    have hdelivered : s.deliveredRow false = s.resultRow := rfl
    rw [hdelivered] at hsurvivors
    rw [if_pos hplace.symm, ← hsurvivors]
    refine ⟨?_, ?_, ?_⟩
    · rw [handedBy, handedBy, List.append_nil, handed, if_pos hw.queryId, Advice.emitted, ht]
    · rw [List.foldl_cons, List.foldl_nil, step_baggage, Pass.leave, Advice.leave, ht]
    · rw [List.foldl_cons, List.foldl_nil, step_sinks, Advice.filled, ht, ← Gathered.add_add]
      simp only
      split
      · next hempty => rw [List.isEmpty_iff.mp hempty, Gathered.add_nil, hsink]
      · rw [Sinks.emit, hid, hsink]
        simp only [if_true]
        exact Table.find?_insert_self ..
  · rw [if_neg hplace, List.map_eq_nil_iff] at hs
    subst hs
    rw [if_neg (Ne.symm hplace), List.map_nil, List.append_nil]
    exact ⟨rfl, rfl, hsink⟩

/-- One pass hands over the new results, and all stays in step. -/
theorem Serves.pass (ho : a.Ordered) (hn : q.defines.Nodup) (hq : q.Scoped a false)
    (hid : sink.outputId = id) (hd : q.Deployed a id false (.emit sink) 0 ws)
    (h : Serves a id q ws sink passes state) :
    q.results a (p :: passes) = q.results a passes ++
        handedBy id p state (state.1.woven.listed p.tracepoint).zipIdx ∧
      Serves a id q ws sink (p :: passes) (pass state p) := by
  cases q with
  | node s js =>
      cases hq with
      | node _ hjoined =>
          obtain ⟨joined, w, hws, hdeployed, hw, ht⟩ := hd
          obtain ⟨others, hlisted, hforeign⟩ := h.woven p.tracepoint
          have hsteps : (state.1.woven.listed p.tracepoint).zipIdx.map (·.1) =
              others ++ wovenAt p.tracepoint ws := by
            rw [List.zipIdx_map_fst, hlisted]
          rw [hws, wovenAt_append, ← List.append_assoc] at hsteps
          obtain ⟨before, last, hsplit, hbefore, hlast⟩ := List.map_eq_append_iff.mp hsteps
          obtain ⟨foreign, own, rfl, hothers, hown⟩ := List.map_eq_append_iff.mp hbefore
          have hforeignSteps : ∀ x ∈ foreign, Foreign id x.1 := fun x hx =>
            hforeign x.1 (hothers ▸ List.mem_map_of_mem hx)
          have hownSteps : ∀ x ∈ own, Silent id x.1 := by
            intro x hx
            have hm : x.1 ∈ wovenAt p.tracepoint joined := by
              rw [← hown]
              exact List.mem_map_of_mem hx
            obtain ⟨y, hy, he⟩ := mem_wovenAt hm
            rw [← he]
            exact hdeployed.silent y hy
          have hsilent : ∀ x ∈ foreign ++ own, Silent id x.1 := by
            intro x hx
            rcases List.mem_append.mp hx with hf | ho
            · exact (hforeignSteps x hf).silent
            · exact hownSteps x ho
          have hcarried : Query.JoinsCarried a id ((foreign ++ own).foldl (step p) state).2
              (p :: passes) 0 js := by
            rw [steps_baggage, List.foldl_append]
            have hc := h.carried.congr (c := foreign.foldl p.leave state.2) fun n _ _ =>
              foreign_steps hforeignSteps state.2 n
            exact (Query.joinsCarried_after_pass ho (List.nodup_append.mp hn).2.1
              hjoined hdeployed hc hown).1
          obtain ⟨hnone, hfind⟩ := silent_steps hsilent state
          have hsink := hfind.trans h.sink
          obtain ⟨hhanded, hbaggage, hfilled⟩ :=
            root_step ho hn hjoined hid hw ht hlast hcarried hsink
          have hresults : handedBy id p state (state.1.woven.listed p.tracepoint).zipIdx =
              (s.arrivalsIn a (Query.joinsDeliver a js (p :: passes)) p).map s.resultRow := by
            rw [hsplit, handedBy_append, hnone, List.nil_append, hhanded]
          refine ⟨?_, ?_, ?_, ?_⟩
          · rw [hresults, Query.results, Query.arrivals_cons, List.map_append]
            rfl
          · intro t
            rw [pass_eq, steps_woven]
            exact h.woven t
          · rw [pass_eq, hsplit, List.foldl_append, hbaggage]
            exact hcarried
          · rw [pass_eq, hsplit, List.foldl_append]
            exact hfilled

/-- Over any passes, what is handed over is what the query results in. -/
theorem Serves.run (ho : a.Ordered) (hn : q.defines.Nodup) (hq : q.Scoped a false)
    (hid : sink.outputId = id) (hd : q.Deployed a id false (.emit sink) 0 ws)
    (h : Serves a id q ws sink passes state) (ps : List Pass) :
    q.results a (ps.reverse ++ passes) = q.results a passes ++ emissions id state ps ∧
      Serves a id q ws sink (ps.reverse ++ passes) (ps.foldl Engine.pass state) := by
  induction ps generalizing passes state with
  | nil =>
      rw [emissions, List.append_nil]
      exact ⟨rfl, h⟩
  | cons p ps ih =>
      obtain ⟨hone, hnext⟩ := h.pass (p := p) ho hn hq hid hd
      obtain ⟨hall, hlast⟩ := ih hnext
      rw [List.reverse_cons, List.append_assoc, List.singleton_append, List.foldl_cons]
      refine ⟨?_, hlast⟩
      rw [hall, hone, emissions, List.append_assoc]

end Engine

end CausalTrace
