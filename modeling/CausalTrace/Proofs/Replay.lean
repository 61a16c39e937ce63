import CausalTrace.Proofs.Delivery

/-!
# Running deployed queries

While a request passes tracepoints, the bag of every joined stage holds what has
arrived at the stage. One pass keeps this up, whatever versions it gives to the
entries it writes: the plans of joined stages run before those that unpack them.
-/

namespace CausalTrace

/-! ## One run -/

namespace Advice

/-- The rows that get through a run. -/
def survivors (w : Advice) (b : Baggage) (observed : Row) : List Row :=
  (w.candidates b observed).filterMap w.deliver?

/-- The rows that a run hands to a sink. -/
def emitted (w : Advice) (b : Baggage) (observed : Row) : List Row :=
  match w.target with
  | .pack _ => []
  | .emit _ => w.survivors b observed

/-- The baggage after a run. -/
def leave (w : Advice) (version : UInt64) (b : Baggage) (observed : Row) : Baggage :=
  match w.target with
  | .pack bag => (bag.pack version b (w.survivors b observed)).1
  | .emit _ => b

/-- The sinks after a run. -/
def filled (w : Advice) (sinks : Sinks) (b : Baggage) (observed : Row) : Sinks :=
  match w.target with
  | .pack _ => sinks
  | .emit sink =>
      if (w.survivors b observed).isEmpty then sinks
      else (sinks.emit sink (w.survivors b observed)).1

theorem pack_nil (bag : Bag) (version : UInt64) (b : Baggage) : (bag.pack version b []).1 = b := by
  rw [Bag.pack]
  cases bag.discipline with
  | tuples arity => rfl
  | one keep arity =>
      cases keep with
      | first =>
          simp only [List.find?_nil]
          split
          · next h => cases h
          · rfl
      | mostRecent => rfl
  | grouped keys kinds => rfl
  | disabled => rfl

theorem run_leave (w : Advice) (version : UInt64) (sinks : Sinks) (b : Baggage) (observed : Row) :
    (w.run version sinks b observed).2.2 = w.leave version b observed := by
  rw [run, leave]
  simp only
  rw [← survivors]
  split
  · next h =>
      rw [List.isEmpty_iff] at h
      cases w.target with
      | pack bag => exact (h ▸ pack_nil bag version b).symm
      | emit sink => rfl
  · cases w.target with
    | pack bag => rfl
    | emit sink => rfl

theorem run_filled (w : Advice) (version : UInt64) (sinks : Sinks) (b : Baggage) (observed : Row) :
    (w.run version sinks b observed).2.1 = w.filled sinks b observed := by
  rw [run, filled]
  simp only
  rw [← survivors]
  split <;> cases w.target <;> rfl

end Advice

/-! ## Bags in step with arrivals -/

namespace Query

mutual

/-- The bags of a joined query, its stages numbered from `start`, hold what has
arrived over some passes. -/
def Carried (a : Arena) (id : QueryId) (b : Baggage) (passes : List Pass) (start : Nat) :
    Query → Prop
  | .node s js => JoinsCarried a id b passes start js ∧
      (Bag.create ⟨id, start + joinsSize js⟩ s.packedBag true).Holds b
        ((arrivals a (.node s js) passes).map s.packedRow)

def JoinsCarried (a : Arena) (id : QueryId) (b : Baggage) (passes : List Pass) (start : Nat) :
    List (String × Query) → Prop
  | [] => True
  | (_, u) :: js => Carried a id b passes start u ∧ JoinsCarried a id b passes (start + u.size) js

end

variable {a : Arena} {id : QueryId} {b c : Baggage} {passes : List Pass} {start : Nat}

theorem size_node (s : Stage) (js : List (String × Query)) :
    (node s js).size = joinsSize js + 1 := by
  rw [size]

theorem id_create (own : BagId) (s : Stage) : (Bag.create own s.packedBag true).id = own := by
  rw [Stage.packedBag]
  cases s.shape <;> rfl

mutual

/-- Only the bags of the query matter. -/
theorem Carried.congr : ∀ {q : Query} {start : Nat}, Carried a id b passes start q →
    (∀ n, start ≤ n → n < start + q.size → Bag.Same ⟨id, n⟩ b c) → Carried a id c passes start q
  | .node s js, start, ⟨hjs, hown⟩, hs => by
      rw [size_node] at hs
      refine ⟨JoinsCarried.congr hjs fun n hl hu => hs n hl (by omega), hown.congr ?_⟩
      rw [id_create]
      exact hs _ (by omega) (by omega)

theorem JoinsCarried.congr : ∀ {js : List (String × Query)} {start : Nat},
    JoinsCarried a id b passes start js →
    (∀ n, start ≤ n → n < start + joinsSize js → Bag.Same ⟨id, n⟩ b c) →
    JoinsCarried a id c passes start js
  | [], _, _, _ => trivial
  | (_, u) :: js, start, ⟨hu, hjs⟩, hs => by
      rw [joinsSize] at hs
      exact ⟨Carried.congr hu fun n hl hr => hs n hl (by omega),
        JoinsCarried.congr hjs fun n hl hr => hs n (by omega) (by omega)⟩

end

mutual

/-- Before any pass, a baggage without entries of the query carries it. -/
theorem carried_of_empty (h : ∀ n, b.activeEntries ⟨id, n⟩ = [] ∧ b.archivedEntries ⟨id, n⟩ = []) :
    ∀ (q : Query) (start : Nat), Carried a id b [] start q
  | .node s js, start => by
      refine ⟨joinsCarried_of_empty h js start, Bag.holds_of_empty ?_ ?_⟩
      · rw [id_create]
        exact (h _).1
      · rw [id_create]
        exact (h _).2

theorem joinsCarried_of_empty
    (h : ∀ n, b.activeEntries ⟨id, n⟩ = [] ∧ b.archivedEntries ⟨id, n⟩ = []) :
    ∀ (js : List (String × Query)) (start : Nat), JoinsCarried a id b [] start js
  | [], _ => trivial
  | (_, u) :: js, start => ⟨carried_of_empty h u start, joinsCarried_of_empty h js _⟩

end

/-! ## What a stage makes of its bags -/

/-- The rows taken out of the bags of the joined queries. -/
theorem unpack_joins {js : List (String × Query)} (h : JoinsCarried a id b passes start js)
    (hn : (js.flatMap fun j => j.2.stage.unpackedBag.names).Nodup) :
    (bagsOf id start js).map (fun u =>
      ((Bag.create u.bagId u.bag true).unpack b).filter (·.length == u.bag.arity)) =
      (incomings a js passes).map fun i => i.envs.map (·.row i.names) := by
  induction js generalizing start with
  | nil => rfl
  | cons j js ih =>
      obtain ⟨aliasName, u⟩ := j
      obtain ⟨hu, hjs⟩ := h
      rw [List.flatMap_cons, List.nodup_append] at hn
      rw [bagsOf, List.map_cons, incomings, List.map_cons, List.map_cons, ih hjs hn.2.1]
      congr 1
      cases u with
      | node t ks =>
          have hrows : (Bag.create ((node t ks).bagOf id start) t.unpackedBag true).unpack b =
              (t.delivered ((node t ks).arrivals a passes)).map (·.row t.unpackedBag.names) := by
            rw [← Stage.create_packedBag]
            exact (Bag.Holds.unpack hu.2).trans (Stage.keeps_packedRows _ hn.1)
          show (Bag.unpack (Bag.create _ t.unpackedBag true) b).filter _ = _
          rw [hrows]
          refine List.filter_eq_self.mpr fun r hr => ?_
          obtain ⟨env, _, rfl⟩ := List.mem_map.mp hr
          exact beq_iff_eq.mpr Binding.length_row

/-- What gets through a run is what the stage admits in the pass. -/
theorem survivors_eq {s : Stage} {js : List (String × Query)} {own : BagId} {pack : Bool}
    {w : Woven} {p : Pass} (ho : a.Ordered) (hn : (node s js).defines.Nodup)
    (hq : ∀ j ∈ js, j.2.Scoped a true) (hw : w.Realizes a s (bagsOf id start js) own pack)
    (hc : JoinsCarried a id b (p :: passes) start js) :
    w.advice.survivors b (w.fields.map p.value) =
      ((meetings (joinsDeliver a js (p :: passes))).filterMap fun env =>
        s.arrive a ((s.observedOn p).beside env)).map (s.deliveredRow pack) := by
  have hkeys : (w.fields.map p.value).length = s.observed.values.length := by
    rw [hw.fields, List.length_map, Table.keys, Table.values, List.length_map, List.length_map]
  have hpadded : Advice.padded w.advice.spec.observe.length (w.fields.map p.value) =
      w.fields.map p.value := by
    rw [Advice.padded, hw.width, ← hkeys]
    exact List.take_left
  have hnames := hw.nodup
  rw [names_bagsOf, List.nodup_append] at hnames
  have hcandidates : w.advice.candidates b (w.fields.map p.value) =
      (meetings (joinsDeliver a js (p :: passes))).map fun env =>
        ((s.observedOn p).beside env).row (s.observed.values ++ (bagsOf id start js).flatMap
          (·.bag.names)) := by
    rw [Advice.candidates, hw.unpacks, List.map_map, hpadded, names_bagsOf]
    have hbags := unpack_joins hc hnames.2.1
    have htidy : ∀ b ∈ incomings a js (p :: passes), b.Tidy := tidy_incomings ho hq
    have hscope : ((incomings a js (p :: passes)).flatMap (·.scope)).Nodup := by
      rw [scope_incomings]
      exact (List.nodup_append.mp hn).2.1
    have hcombined := combinations_rows hscope htidy
    rw [← hbags, envs_incomings, names_incomings] at hcombined
    refine (congrArg (List.map _) hcombined).trans ?_
    rw [List.map_map]
    refine List.map_congr_left fun env hm => ?_
    have hwithin : env.Within (joinsDefine js) := by
      rw [← envs_incomings] at hm
      have h := meetings_within htidy env hm
      rwa [scope_incomings] at h
    have hleft : ∀ v ∈ js.flatMap fun j => j.2.stage.unpackedBag.names, s.observedOn p v = none :=
      fun v hv => Stage.observedOn_within p v fun ho => hnames.2.2 v ho v hv rfl
    have hright : ∀ v ∈ s.observed.values, env v = none := by
      intro v hv
      refine hwithin v fun hd => ?_
      exact (List.nodup_append.mp hn).2.2 v (Stage.mem_defines_iff.mpr (Or.inl hv)) v hd rfl
    rw [Binding.row_beside hleft hright, Stage.observedOn, Binding.row_ofRow hnames.1]
    · rw [hw.fields]
      rfl
    · rw [← hkeys, hw.fields]
  rw [Advice.survivors, hcandidates, List.filterMap_map, List.map_filterMap]
  exact List.filterMap_congr fun env _ => hw.deliver _

end Query

/-! ## One pass -/

/-- The plans woven into one tracepoint, in order. -/
def wovenAt (tracepoint : String) (ws : List (String × Woven)) : List Woven :=
  (ws.filter (·.1 = tracepoint)).map (·.2)

theorem wovenAt_append (t : String) (ws us : List (String × Woven)) :
    wovenAt t (ws ++ us) = wovenAt t ws ++ wovenAt t us := by
  rw [wovenAt, List.filter_append, List.map_append]
  rfl

theorem wovenAt_singleton (t place : String) (w : Woven) :
    wovenAt t [(place, w)] = if place = t then [w] else [] := by
  rw [wovenAt, List.filter_singleton]
  by_cases h : place = t <;> simp [h]

/-- The baggage after one of the plans of a pass, by its position. -/
def Pass.leave (p : Pass) (b : Baggage) (step : Woven × Nat) : Baggage :=
  step.1.advice.leave (p.surroundings.version step.2) b (step.1.fields.map p.value)

namespace Query

section

variable {a : Arena} {id : QueryId} {p : Pass} {passes : List Pass}

/-- The last step of a joined query packs what has arrived in the pass. -/
theorem carried_after_own {s : Stage} {js : List (String × Query)} {start : Nat} {b : Baggage}
    {w : Woven} {steps : List (Woven × Nat)} (ho : a.Ordered) (hn : (node s js).defines.Nodup)
    (hq : ∀ j ∈ js, j.2.Scoped a true)
    (hw : w.Realizes a s (bagsOf id start js) ⟨id, start + joinsSize js⟩ true)
    (ht : w.advice.target = .pack (Bag.create ⟨id, start + joinsSize js⟩ s.packedBag true))
    (hs : steps.map (·.1) = wovenAt p.tracepoint [(s.source.tracepoint.name, w)])
    (hjs : JoinsCarried a id b (p :: passes) start js)
    (hown : (Bag.create ⟨id, start + joinsSize js⟩ s.packedBag true).Holds b
      ((arrivals a (node s js) passes).map s.packedRow)) :
    Carried a id (steps.foldl p.leave b) (p :: passes) start (node s js) ∧
      ∀ other, other ≠ ⟨id, start + joinsSize js⟩ →
        Bag.Same other b (steps.foldl p.leave b) := by
  rw [wovenAt_singleton] at hs
  rw [Carried, arrivals_cons, List.map_append, Stage.arrivalsIn]
  by_cases hplace : s.source.tracepoint.name = p.tracepoint
  · rw [if_pos hplace] at hs
    obtain ⟨⟨w', i⟩, rfl, hw'⟩ := List.map_eq_singleton_iff.mp hs
    obtain rfl : w = w' := hw'.symm
    have hleave : [(w, i)].foldl p.leave b = ((Bag.create ⟨id, start + joinsSize js⟩ s.packedBag
        true).pack (p.surroundings.version i) b (w.advice.survivors b
        (w.fields.map p.value))).1 := by
      show w.advice.leave _ b _ = _
      rw [Advice.leave, ht]
    have hsame : ∀ other, other ≠ ⟨id, start + joinsSize js⟩ →
        Bag.Same other b ([(w, i)].foldl p.leave b) := by
      intro other hne
      rw [hleave]
      refine Bag.same_pack ?_
      rw [id_create]
      exact hne
    refine ⟨⟨hjs.congr fun n hl hr => hsame _ ?_, ?_⟩, hsame⟩
    · intro he
      have hseq : n = start + joinsSize js := congrArg BagId.seq he
      omega
    · rw [if_pos hplace.symm, hleave, survivors_eq ho hn hq hw hjs]
      exact hown.pack
  · rw [if_neg hplace, List.map_eq_nil_iff] at hs
    subst hs
    refine ⟨⟨hjs, ?_⟩, fun _ _ => .refl⟩
    rw [if_neg (Ne.symm hplace), List.map_nil, List.append_nil]
    exact hown

mutual

/-- A pass keeps the bags of a joined query in step, and leaves other bags alone. -/
theorem carried_after_pass : ∀ {u : Query} {start : Nat} {b : Baggage}
    {ws : List (String × Woven)} {steps : List (Woven × Nat)}, a.Ordered → u.defines.Nodup →
    u.Scoped a true →
    u.Deployed a id true (.pack (Bag.create (u.bagOf id start) u.stage.packedBag true)) start ws →
    Carried a id b passes start u → steps.map (·.1) = wovenAt p.tracepoint ws →
    Carried a id (steps.foldl p.leave b) (p :: passes) start u ∧
      ∀ other, (∀ n, start ≤ n → n < start + u.size → other ≠ ⟨id, n⟩) →
        Bag.Same other b (steps.foldl p.leave b)
  | .node s js, start, b, ws, steps, ho, hn, hq, ⟨joined, w, hws, hd, hw, ht⟩, ⟨hjs, hown⟩, hs => by
      have hjoined : ∀ j ∈ js, j.2.Scoped a true := by
        cases hq with
        | node _ hjoined => exact hjoined
      rw [hws, wovenAt_append, List.map_eq_append_iff] at hs
      obtain ⟨before, last, rfl, hbefore, hlast⟩ := hs
      have hnj : (joinsDefine js).Nodup := (List.nodup_append.mp hn).2.1
      obtain ⟨hafter, hframe⟩ := joinsCarried_after_pass ho hnj hjoined hd hjs hbefore
      have hown' := hown.congr (c := before.foldl p.leave b) (hframe _ (by
        intro n hl hr he
        rw [id_create] at he
        have hseq : start + joinsSize js = n := congrArg BagId.seq he
        omega))
      rw [List.foldl_append]
      obtain ⟨hcarried, hsame⟩ := carried_after_own ho hn hjoined hw ht hlast hafter hown'
      refine ⟨hcarried, fun other hother => ?_⟩
      rw [size_node] at hother
      refine (hframe other fun n hl hr => hother n hl (by omega)).trans (hsame other ?_)
      exact hother _ (by omega) (by omega)

theorem joinsCarried_after_pass : ∀ {js : List (String × Query)} {start : Nat} {b : Baggage}
    {ws : List (String × Woven)} {steps : List (Woven × Nat)}, a.Ordered → (joinsDefine js).Nodup →
    (∀ j ∈ js, j.2.Scoped a true) → JoinsDeployed a id start js ws →
    JoinsCarried a id b passes start js → steps.map (·.1) = wovenAt p.tracepoint ws →
    JoinsCarried a id (steps.foldl p.leave b) (p :: passes) start js ∧
      ∀ other, (∀ n, start ≤ n → n < start + joinsSize js → other ≠ ⟨id, n⟩) →
        Bag.Same other b (steps.foldl p.leave b)
  | [], start, b, ws, steps, _, _, _, hws, _, hs => by
      rw [JoinsDeployed] at hws
      subst hws
      rw [List.map_eq_nil_iff.mp hs]
      exact ⟨trivial, fun _ _ => .refl⟩
  | (aliasName, u) :: js, start, b, ws, steps, ho, hn, hq, ⟨first, later, hws, hd, hds⟩,
      ⟨hu, hjs⟩, hs => by
      obtain ⟨hqu, hqs⟩ := List.forall_mem_cons.mp hq
      rw [joinsDefine, List.nodup_append] at hn
      rw [hws, wovenAt_append, List.map_eq_append_iff] at hs
      obtain ⟨before, after, rfl, hbefore, hafter⟩ := hs
      obtain ⟨hu', hframe⟩ := carried_after_pass ho hn.1 hqu hd hu hbefore
      have hjs' := hjs.congr (c := before.foldl p.leave b) fun n hl hr => hframe _ (by
        intro m hl' hr' he
        have hseq : n = m := congrArg BagId.seq he
        omega)
      obtain ⟨hjs'', hframe'⟩ := joinsCarried_after_pass ho hn.2.1 hqs hds hjs' hafter
      rw [List.foldl_append]
      refine ⟨⟨hu'.congr fun n hl hr => hframe' _ ?_, hjs''⟩, fun other hother => ?_⟩
      · intro m hl' hr' he
        have hseq : n = m := congrArg BagId.seq he
        omega
      · rw [joinsSize] at hother
        exact (hframe other fun n hl hr => hother n hl (by omega)).trans
          (hframe' other fun n hl hr => hother n (by omega) (by omega))

end

end

end Query

end CausalTrace
