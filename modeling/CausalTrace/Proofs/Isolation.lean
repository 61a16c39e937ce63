import CausalTrace.Proofs.Worlds

/-!
# Queries do not interfere

A query sees the requests pass, fork and come back, and it sees its results collected. It does
not see other queries come and go, nor what their plans do. So in two histories in which it sees
the same, the same is collected for it.
-/

namespace CausalTrace

open Engine

/-! ## What a query sees -/

/-- A pass without the versions and the seconds that its plans are given. -/
def Pass.bare (p : Pass) : Pass :=
  { p with surroundings := { p.surroundings with version := fun _ => 0, seconds := fun _ => 0 } }

theorem Pass.value_of_bare {p p' : Pass} (h : p.bare = p'.bare) : p.value = p'.value := by
  have hbare : ∀ p : Pass, p.value = p.bare.value := fun _ => rfl
  rw [hbare, h, ← hbare]

/-- The version, if it is for an entry of the query. -/
def versionFor (id : QueryId) (d : QueryId × UInt64) : Option UInt64 :=
  if d.1 = id then some d.2 else none

/-- The sink of a query, and how it is reported on. -/
def Sinks.part (id : QueryId) (s : Sinks) : Option (Nat × Gathered) × Bool × Nat :=
  (s.live.find? id, s.reportEmpty, s.intervalMs)

namespace Sinks

variable {s s' : Sinks} {id : QueryId} {sink : SinkRef} {rows : List Row}

theorem part_emit_of_ne (h : sink.outputId ≠ id) : (s.emit sink rows).1.part id = s.part id := by
  have hfind : (s.emit sink rows).1.live.find? id = s.live.find? id := find?_emit_of_ne h
  rw [emit] at hfind ⊢
  rw [part, part, hfind]
  split
  · split <;> rfl
  · rfl

theorem part_emit_self (h : s.part sink.outputId = s'.part sink.outputId) :
    (s.emit sink rows).1.part sink.outputId = (s'.emit sink rows).1.part sink.outputId := by
  obtain ⟨hfind, hreport⟩ := Prod.mk.inj h
  rw [emit, emit, ← hfind]
  cases s.live.find? sink.outputId with
  | none => exact h
  | some found =>
      obtain ⟨serial, g⟩ := found
      dsimp only
      split
      · simp only [part, Table.find?_insert_self]
        exact congrArg _ hreport
      · exact h

end Sinks

/-! ## Plans of a pass -/

namespace Engine

/-- The state of a pass looks alike to a query. -/
structure Alike (id : QueryId) (state state' : Engine × Baggage) : Prop where
  sinks : state.1.sinks.part id = state'.1.sinks.part id
  bags : ∀ a : BagId, a.query = id → Bag.Same a state.2 state'.2

variable {id : QueryId} {state state' : Engine × Baggage} {x x' : Pass × Woven × Nat}

/-- The rows that get through a plan. -/
def through (state : Engine × Baggage) (x : Pass × Woven × Nat) : List Row :=
  x.2.1.advice.survivors state.2 (x.2.1.fields.map x.1.value)

theorem runPlan_sinks (state : Engine × Baggage) (x : Pass × Woven × Nat) :
    (runPlan state x).1.sinks = x.2.1.advice.filled state.1.sinks state.2
      (x.2.1.fields.map x.1.value) := step_sinks state x.2

theorem runPlan_of_emit {sink : SinkRef} (state : Engine × Baggage)
    (ht : x.2.1.advice.target = .emit sink) :
    (runPlan state x).1.sinks =
        (if (through state x).isEmpty then state.1.sinks
          else (state.1.sinks.emit sink (through state x)).1) ∧
      (runPlan state x).2 = state.2 := by
  rw [runPlan_sinks, Advice.filled, runPlan_snd, Pass.leave, Advice.leave, ht]
  exact ⟨rfl, rfl⟩

theorem runPlan_of_pack {bag : Bag} (state : Engine × Baggage)
    (ht : x.2.1.advice.target = .pack bag) :
    (runPlan state x).1.sinks = state.1.sinks ∧
      (runPlan state x).2 =
        (bag.pack (x.1.surroundings.version x.2.2) state.2 (through state x)).1 := by
  rw [runPlan_sinks, Advice.filled, runPlan_snd, Pass.leave, Advice.leave, ht]
  exact ⟨rfl, rfl⟩

/-- A plan of another query changes nothing. -/
theorem Alike.unseen (h : Alike id state state') (hx : x.2.1.Owned) (hid : x.2.1.queryId ≠ id) :
    Alike id (runPlan state x) state' ∧ (writes state x).filterMap (versionFor id) = [] := by
  have howner : x.2.1.advice.target.owner ≠ id := hx.target ▸ hid
  have hdrawn : (writes state x).filterMap (versionFor id) = [] := by
    rw [writes]
    split
    · rfl
    · exact List.filterMap_cons_none (if_neg howner)
  refine ⟨?_, hdrawn⟩
  cases ht : x.2.1.advice.target with
  | emit sink =>
      obtain ⟨hsinks, hbag⟩ := runPlan_of_emit state ht
      rw [ht] at howner
      refine ⟨?_, hbag ▸ h.bags⟩
      rw [hsinks, ← h.sinks]
      split
      · rfl
      · exact Sinks.part_emit_of_ne howner
  | pack bag =>
      obtain ⟨hsinks, hbag⟩ := runPlan_of_pack state ht
      rw [ht] at howner
      refine ⟨hsinks ▸ h.sinks, fun a ha => ?_⟩
      have hne : a ≠ bag.id := by
        rintro rfl
        exact howner ha
      rw [hbag]
      exact (Bag.same_pack hne).symm.trans (h.bags a ha)

/-- A plan of the query reads its own bags, so the same rows get through. -/
theorem Alike.through (h : Alike id state state') (hx : x.2.1.Owned) (hid : x.2.1.queryId = id)
    (hplan : x.2.1 = x'.2.1) (hbare : x.1.bare = x'.1.bare) :
    through state x = through state' x' := by
  have hbags :
      (x.2.1.advice.unpacks.map fun u => (u.bag.unpack state.2).filter (·.length == u.columns)) =
      x.2.1.advice.unpacks.map fun u => (u.bag.unpack state'.2).filter (·.length == u.columns) := by
    refine List.map_congr_left fun u hu => ?_
    rw [(h.bags u.bag.id ((hx.unpacks u hu).trans hid)).unpack]
  rw [Engine.through, Engine.through, ← hplan, ← Pass.value_of_bare hbare, Advice.survivors,
    Advice.survivors, Advice.candidates, Advice.candidates, hbags]

theorem Alike.emit {sink : SinkRef} (h : Alike sink.outputId state state')
    (ht : x.2.1.advice.target = .emit sink) (ht' : x'.2.1.advice.target = .emit sink)
    (hrows : Engine.through state x = Engine.through state' x') :
    Alike sink.outputId (runPlan state x) (runPlan state' x') ∧ writes state x = [] ∧
      writes state' x' = [] := by
  obtain ⟨hsinks, hbag⟩ := runPlan_of_emit state ht
  obtain ⟨hsinks', hbag'⟩ := runPlan_of_emit state' ht'
  refine ⟨⟨?_, fun a ha => ?_⟩, if_pos hbag, if_pos hbag'⟩
  · rw [hsinks, hsinks', ← hrows]
    split
    · exact h.sinks
    · exact Sinks.part_emit_self h.sinks
  · rw [hbag, hbag']
    exact h.bags a ha

/-- Either neither side writes, or both do, and then alike if both draw the same version. -/
theorem Alike.pack {bag : Bag} (h : Alike bag.id.query state state')
    (ht : x.2.1.advice.target = .pack bag) (ht' : x'.2.1.advice.target = .pack bag)
    (hrows : Engine.through state x = Engine.through state' x')
    (hdrawn : Concur ((writes state x).filterMap (versionFor bag.id.query))
      ((writes state' x').filterMap (versionFor bag.id.query))) :
    Alike bag.id.query (runPlan state x) (runPlan state' x') ∧
      (writes state x).filterMap (versionFor bag.id.query) =
        (writes state' x').filterMap (versionFor bag.id.query) := by
  obtain ⟨hsinks, hbag⟩ := runPlan_of_pack state ht
  obtain ⟨hsinks', hbag'⟩ := runPlan_of_pack state' ht'
  rw [← hrows] at hbag'
  have hsink : (runPlan state x).1.sinks.part bag.id.query =
      (runPlan state' x').1.sinks.part bag.id.query := by
    rw [hsinks, hsinks']
    exact h.sinks
  rcases Bag.pack_alike (h.bags bag.id rfl) (x.1.surroundings.version x.2.2)
    (x'.1.surroundings.version x'.2.2) (Engine.through state x) with ⟨hidle, hidle'⟩ | hwritten
  · rw [hidle] at hbag
    rw [hidle'] at hbag'
    refine ⟨⟨hsink, fun a ha => ?_⟩, ?_⟩
    · rw [hbag, hbag']
      exact h.bags a ha
    · rw [writes, writes, if_pos hbag, if_pos hbag']
  · rw [← hbag, ← hbag'] at hwritten
    have hfor : ∀ v, versionFor bag.id.query ((Target.pack bag).owner, v) = some v :=
      fun v => if_pos rfl
    rw [writes, writes, if_neg hwritten.left, if_neg hwritten.right, ht, ht'] at hdrawn ⊢
    rw [List.filterMap_cons_some (hfor _), List.filterMap_cons_some (hfor _)] at hdrawn ⊢
    have hversion := hdrawn.eq_of_singleton
    refine ⟨⟨hsink, fun a ha => ?_⟩, by rw [hversion]⟩
    by_cases hsame : a = bag.id
    · rw [hsame]
      exact hwritten.same hversion
    · rw [hbag, hbag']
      exact ((Bag.same_pack hsame).symm.trans (h.bags a ha)).trans (Bag.same_pack hsame)

/-- The same plan of the query does the same in both, if it draws the same version. -/
theorem Alike.seen (h : Alike id state state') (hx : x.2.1.Owned) (hid : x.2.1.queryId = id)
    (hplan : x.2.1 = x'.2.1) (hbare : x.1.bare = x'.1.bare)
    (hdrawn : Concur ((writes state x).filterMap (versionFor id))
      ((writes state' x').filterMap (versionFor id))) :
    Alike id (runPlan state x) (runPlan state' x') ∧
      (writes state x).filterMap (versionFor id) =
        (writes state' x').filterMap (versionFor id) := by
  have hrows := h.through hx hid hplan hbare
  have howner : x.2.1.advice.target.owner = id := hx.target.trans hid
  cases ht : x.2.1.advice.target with
  | emit sink =>
      rw [ht] at howner
      obtain rfl : sink.outputId = id := howner
      obtain ⟨hnext, hnone, hnone'⟩ := h.emit ht (hplan ▸ ht) hrows
      rw [hnone, hnone']
      exact ⟨hnext, rfl⟩
  | pack bag =>
      rw [ht] at howner
      obtain rfl : bag.id.query = id := howner
      exact h.pack ht (hplan ▸ ht) hrows hdrawn

/-- What a query sees of a plan: the plan and what it is given, if it is its own. -/
def seenPlan (id : QueryId) (x : Pass × Woven × Nat) : Option (Pass × Woven) :=
  if x.2.1.queryId = id then some (x.1.bare, x.2.1) else none

theorem unwinds_runPlan (id : QueryId) :
    Unwinds runPlan (seenPlan id) (fun _ xs => ∀ x ∈ xs, x.2.1.Owned)
    (fun state x => (writes state x).filterMap (versionFor id))
    (fun _ _ => ([] : List Unit)) (Alike id) where
  later h := (List.forall_mem_cons.mp h).2
  symm h := ⟨h.sinks.symm, fun a ha => (h.bags a ha).symm⟩
  unseen {state state' x xs} h hok hx := by
    have hid : x.2.1.queryId ≠ id := fun he => by
      rw [seenPlan, if_pos he] at hx
      cases hx
    obtain ⟨hnext, hnone⟩ := h.unseen (hok x List.mem_cons_self) hid
    exact ⟨hnext, hnone, rfl⟩
  seen {state state' x x' xs xs'} h hok _ hx hsame hdrawn := by
    have hid : x.2.1.queryId = id := by
      by_contra hne
      exact hx (if_neg hne)
    have hid' : x'.2.1.queryId = id := by
      by_contra hne
      exact hx (hsame.trans (if_neg hne))
    rw [seenPlan, seenPlan, if_pos hid, if_pos hid'] at hsame
    obtain ⟨hbare, hplan⟩ := Prod.mk.inj (Option.some.inj hsame)
    obtain ⟨hnext, heq⟩ := h.seen (hok x List.mem_cons_self) hid hplan hbare hdrawn
    exact ⟨hnext, heq, rfl⟩

theorem seenPlan_plansOf (id : QueryId) (e : Engine) (p : Pass) :
    (plansOf e p).filterMap (seenPlan id) =
      ((e.woven.listed p.tracepoint).filter (·.queryId = id)).map (p.bare, ·) := by
  have hown : ∀ xs : List Woven,
      xs.filterMap (fun x => if x.queryId = id then some (p.bare, x) else none) =
      (xs.filter (·.queryId = id)).map (p.bare, ·) := by
    intro xs
    induction xs with
    | nil => rfl
    | cons x xs ih =>
        rw [List.filterMap_cons, List.filter_cons, ih]
        by_cases hx : x.queryId = id <;> simp [hx]
  rw [← hown, plansOf, List.filterMap_map, ← List.zipIdx_map_fst 0 (e.woven.listed p.tracepoint),
    List.filterMap_map, List.zipIdx_map_fst]
  rfl

/-! ## What changes leave alone -/

/-- The plans and the sink of a query are the same in two engines. -/
structure SameFor (id : QueryId) (e e' : Engine) : Prop where
  plans : ∀ t, (e.woven.listed t).filter (·.queryId = id) =
    (e'.woven.listed t).filter (·.queryId = id)
  sinks : e.sinks.part id = e'.sinks.part id

section

variable {e e' : Engine} {numbers standing : List QueryId}

theorem SameFor.symm (h : SameFor id e e') : SameFor id e' e :=
  ⟨fun t => (h.plans t).symm, h.sinks.symm⟩

theorem SameFor.trans {e'' : Engine} (h : SameFor id e e') (h' : SameFor id e' e'') :
    SameFor id e e'' :=
  ⟨fun t => (h.plans t).trans (h'.plans t), h.sinks.trans h'.sinks⟩

theorem Quiet.sameFor (h : Quiet e e') : SameFor id e' e :=
  ⟨fun _ => h.woven ▸ rfl, h.sinks ▸ rfl⟩

theorem part_of_resolve {enabled : Bool} {other : QueryId}
    {weaves : List WeaveSpec} {sinks sinks' : Sinks}
    {ws : List (String × Woven)} (h : resolve enabled other weaves sinks = .ok (ws, sinks'))
    (ho : ∀ w ∈ weaves, w.advice.output.owner = other) (hne : id ≠ other) :
    sinks'.part id = sinks.part id := by
  induction weaves generalizing sinks ws with
  | nil =>
      cases h
      rfl
  | cons w weaves ih =>
      obtain ⟨how, hos⟩ := List.forall_mem_cons.mp ho
      obtain ⟨⟨advice, next⟩, hc, h⟩ := bind_eq_ok_iff.mp h
      obtain ⟨⟨rest, last⟩, hr, he⟩ := bind_eq_ok_iff.mp h
      cases he
      rw [ih hr hos, (Advice.resolves_of_create hc).sinks]
      cases hout : w.advice.output with
      | pack bagId bag => rfl
      | emit outputId bag =>
          rw [hout] at how
          obtain rfl : outputId = other := how
          simp only [OutputSpec.target, Sinks.create, Sinks.part, Table.find?_insert_ne hne]

/-- A new query has plans and a sink of its own. -/
theorem Gains.sameFor {compiled : QueryAdvice} {ws : List (String × Woven)}
    (hg : Gains e e' compiled ws) (hid : id.val < e.numbering.next) : SameFor id e' e := by
  have hne : id ≠ compiled.queryId := by
    rintro rfl
    rw [hg.queryId] at hid
    exact Nat.lt_irrefl _ hid
  refine ⟨fun t => ?_, part_of_resolve hg.resolved hg.own.output hne⟩
  have hothers : (wovenAt t ws).filter (·.queryId = id) = [] := by
    refine List.filter_eq_nil_iff.mpr fun x hx hown => ?_
    obtain ⟨plan, hplan, himpl⟩ := exists_of_forall₂ (implements_wovenAt hg.resolved t) hx
    obtain ⟨w, _, rfl⟩ := List.mem_map.mp hplan
    exact hne ((of_decide_eq_true hown).symm.trans himpl.queryId)
  rw [hg.woven, listed_weave, List.filter_append, hothers, List.append_nil]

theorem sameFor_uninstall (h : Books.Kept ⟨e, numbers, standing⟩) {out : QueryId} (hne : id ≠ out) :
    SameFor id (e.uninstall out).2 e := by
  rcases uninstall_cases out e with ⟨_, hsame⟩ | ⟨_, _, hwoven, hsinks, _⟩
  · rw [hsame]
    exact Quiet.refl.sameFor
  · constructor
    · intro t
      rw [hwoven, listed_unweave (Ascending.Sorted.nodup h.places), List.filter_filter]
      refine List.filter_congr fun x _ => ?_
      by_cases hx : x.queryId = id
      · simp [hx, hne]
      · simp [hx]
    · rw [hsinks, Sinks.destroy, Sinks.part, Sinks.part, Table.find?_erase_ne hne]

/-- A change about other queries. -/
theorem sameFor_apply (h : Books.Kept ⟨e, numbers, standing⟩) (hid : id ∈ numbers) {c : Change}
    (hc : c.leaves id = true) : SameFor id (e.apply c) e := by
  have hinstall : ∀ q, SameFor id (e.install q).2 e := by
    intro q
    rcases install_cases (q := q) h.next_not_live with ⟨_, _, hquiet⟩ | ⟨_, _, _, hg⟩
    · exact hquiet.sameFor
    · exact hg.sameFor (h.used id hid)
  cases c with
  | addTracepoint t => exact ⟨fun _ => rfl, rfl⟩
  | parse name text => exact ⟨fun _ => rfl, rfl⟩
  | build steps => exact ⟨fun _ => rfl, rfl⟩
  | optimize q => exact quiet_optimize.sameFor
  | compile q => exact quiet_compile.sameFor
  | install q => exact hinstall q
  | installNamed name =>
      rcases installNamed_cases name e with ⟨q, hsame⟩ | ⟨_, hsame⟩
      · rw [apply, hsame]
        exact hinstall q
      · rw [apply, hsame]
        exact Quiet.refl.sameFor
  | uninstall out => exact sameFor_uninstall h (of_decide_eq_true hc)

/-- Nothing is left of a query that is taken out. -/
theorem uninstall_self (h : Books.Kept ⟨e, numbers, standing⟩) (id : QueryId) :
    (∀ t, ((e.uninstall id).2.woven.listed t).filter (·.queryId = id) = []) ∧
      (e.uninstall id).2.sinks.part id = (none, (e.sinks.part id).2) := by
  rcases uninstall_cases id e with ⟨hnone, hsame⟩ | ⟨_, _, hwoven, hsinks, _⟩
  · have hstanding : id ∉ standing := fun hm => hnone (h.installed ▸ hm)
    rw [hsame]
    constructor
    · intro t
      refine List.filter_eq_nil_iff.mpr fun x hx hown => hstanding ?_
      exact (h.mem_woven_iff id).mp ⟨t, x, hx, of_decide_eq_true hown⟩
    · have hlive : e.sinks.live.keys = standing := h.live
      rw [Sinks.part, Table.find?_eq_none_iff.mpr (hlive ▸ hstanding)]
  · constructor
    · intro t
      rw [hwoven, listed_unweave (Ascending.Sorted.nodup h.places), List.filter_filter]
      exact List.filter_eq_nil_iff.mpr fun x _ => by simp
    · rw [hsinks, Sinks.destroy, Sinks.part, Table.find?_erase_self]
      rfl

/-- What is collected for a query depends on its sink only, and so does the sink after that. -/
theorem collect_part {s s' : Sinks} (hs : s.live.keys.Nodup) (hs' : s'.live.keys.Nodup)
    (h : s.part id = s'.part id) (timestampMs : Nat) :
    (s.collect timestampMs).1.filter (·.outputId = id) =
      (s'.collect timestampMs).1.filter (·.outputId = id) ∧
      (s.collect timestampMs).2.part id = (s'.collect timestampMs).2.part id := by
  obtain ⟨hfind, hreport⟩ := Prod.mk.inj h
  obtain ⟨hempty, hinterval⟩ := Prod.mk.inj hreport
  rw [Sinks.collect, Sinks.collect]
  constructor
  · dsimp only
    rw [Table.filter_filterMap_key hs ?_ id, Table.filter_filterMap_key hs' ?_ id,
      hfind, hempty, hinterval]
    all_goals
      rintro p r hr
      split at hr
      · cases hr
      · cases hr
        rfl
  · simp only [Sinks.part, Table.find?_mapValues, hfind, hempty, hinterval]

end

end Engine

/-! ## Histories -/

namespace World

variable {id : QueryId} {w w' : World} {m m' : Move} {moves : List Move}

/-- A query does not see other queries come and go. -/
def Move.visible (id : QueryId) : Move → Bool
  | .change c => !c.leaves id
  | _ => true

/-- What happens, without what plans are given in a pass. -/
def Move.bare : Move → Move
  | .invoke i p => .invoke i p.bare
  | m => m

/-- What a query sees of what happens. -/
def seen (id : QueryId) (m : Move) : Option Move := if m.visible id then some m.bare else none

def reports (id : QueryId) (w : World) : Move → List (List Results)
  | .collect timestampMs => [(w.engine.collect timestampMs).1.filter (·.outputId = id)]
  | _ => []

/-- What is collected for a query in a history, time after time. -/
def collected (id : QueryId) (w : World) (moves : List Move) : List (List Results) :=
  outputs after (reports id) w moves

/-- The versions that the entries of a query get in a history, one after another. -/
def versionsFor (id : QueryId) (w : World) (moves : List Move) : List UInt64 :=
  (w.history moves).filterMap (versionFor id)

/-- Two worlds look alike to a query. -/
structure Agree (id : QueryId) (w w' : World) : Prop where
  engine : SameFor id w.engine w'.engine
  bags : ∀ i (a : BagId), a.query = id → Bag.Same a (w.bags i) (w'.bags i)

theorem Agree.refl : Agree id w w := ⟨Quiet.refl.sameFor, fun _ _ _ => .refl⟩

theorem Agree.symm (h : Agree id w w') : Agree id w' w :=
  ⟨h.engine.symm, fun i a ha => (h.bags i a ha).symm⟩

theorem Agree.put (h : Agree id w w') {b b' : Baggage}
    (hb : ∀ a : BagId, a.query = id → Bag.Same a b b')
    (i : Nat) : Agree id (w.put i b) (w'.put i b') := by
  refine ⟨h.engine, fun j a ha => ?_⟩
  by_cases hj : j = i
  · rw [hj, put_self, put_self]
    exact hb a ha
  · rw [put_ne hj, put_ne hj]
    exact h.bags j a ha

/-- A version of the query is archived in bags of the query only, and so in both worlds. -/
theorem Agree.archived (h : Agree id w w') (hs : w.Sound id) {a : BagId}
    (ha : a.query = id) {v : UInt64}
    {i j k : Nat} (hv : (w.bags k).Has a v)
    (hfound : ∃ o, ∃ x ∈ (w.bags i).archivedEntries o ++ (w.bags j).archivedEntries o,
      x.version = v) :
    ∃ o, ∃ x ∈ (w'.bags i).archivedEntries o ++ (w'.bags j).archivedEntries o, x.version = v := by
  obtain ⟨o, x, hx, hxv⟩ := hfound
  have hhas : (w.bags i).Has o v ∨ (w.bags j).Has o v := by
    rcases List.mem_append.mp hx with hx | hx
    · exact .inl ⟨x, Baggage.mem_entries.mpr (.inl hx), hxv⟩
    · exact .inr ⟨x, Baggage.mem_entries.mpr (.inl hx), hxv⟩
  have ho : o.query = id := by
    by_contra hne
    exact hhas.elim (hs.apart k i a o v ha hne hv) (hs.apart k j a o v ha hne hv)
  rw [(h.bags i o ho).2, (h.bags j o ho).2] at hx
  exact ⟨o, x, hx, hxv⟩

theorem Agree.join (h : Agree id w w') (hs : w.Sound id) (hs' : w'.Sound id) (i j : Nat) {a : BagId}
    (ha : a.query = id) :
    Bag.Same a ((w.bags i).join (w.bags j)) ((w'.bags i).join (w'.bags j)) := by
  refine Baggage.same_join (hs.keyed i) (hs.keyed j) (hs'.keyed i) (hs'.keyed j)
    (h.bags i a ha) (h.bags j a ha) fun v hv => ?_
  obtain ⟨k, hk⟩ : ∃ k, (w.bags k).Has a v := hv.elim (⟨i, ·⟩) (⟨j, ·⟩)
  have hk' : (w'.bags k).Has a v := by
    rw [Baggage.Has, ← (h.bags k a ha).entries]
    exact hk
  rw [Baggage.mem_archive_join (hs.keyed i) (hs.keyed j),
    Baggage.mem_archive_join (hs'.keyed i) (hs'.keyed j)]
  exact ⟨h.archived hs ha hk, h.symm.archived hs' ha hk'⟩

theorem bare_cases (h : m.bare = m'.bare) :
    (∃ i p p', m = .invoke i p ∧ m' = .invoke i p' ∧ p.bare = p'.bare) ∨
      m = m' ∧ ∀ i p, m ≠ .invoke i p := by
  cases m with
  | invoke i p =>
      cases m' with
      | invoke i' p' =>
          injection h with hi hp
          exact .inl ⟨i, p, p', rfl, hi ▸ rfl, hp⟩
      | _ => cases h
  | _ =>
      cases m' with
      | invoke i' p' => cases h
      | _ => exact .inr ⟨h, nofun⟩

theorem uninstall_of_visible {c : Change} (h : (Move.change c).visible id) : c = .uninstall id := by
  cases c with
  | uninstall out =>
      have hout : id = out := by simpa [Move.visible, Change.leaves] using h
      rw [hout]
  | _ => cases h

/-- Plans of a pass that look the same do the same for the query. -/
theorem Agree.invoke (h : Agree id w w') (hs : w.Sound id)
    (hs' : w'.Sound id) {i : Nat} {p p' : Pass} (hp : p.bare = p'.bare)
    (hdrawn : Concur ((w.drawn (.invoke i p)).filterMap (versionFor id))
      ((w'.drawn (.invoke i p')).filterMap (versionFor id))) :
    Agree id (w.after (.invoke i p)) (w'.after (.invoke i p')) ∧
      (w.drawn (.invoke i p)).filterMap (versionFor id) =
        (w'.drawn (.invoke i p')).filterMap (versionFor id) := by
  obtain ⟨_, _, _, hkept⟩ := hs.kept
  obtain ⟨_, _, _, hkept'⟩ := hs'.kept
  have howned : ∀ {e : Engine} {numbers standing : List QueryId},
      Books.Kept ⟨e, numbers, standing⟩ →
      ∀ q : Pass, ∀ x ∈ plansOf e q, x.2.1.Owned := by
    intro e numbers standing hk q x hx
    obtain ⟨y, hy, rfl⟩ := List.mem_map.mp hx
    exact hk.owned (List.fst_mem_of_mem_zipIdx hy)
  have htracepoint : p.tracepoint = p'.tracepoint := by
    show p.bare.tracepoint = p'.bare.tracepoint
    rw [hp]
  have hseen : (plansOf w.engine p).filterMap (seenPlan id) =
      (plansOf w'.engine p').filterMap (seenPlan id) := by
    rw [seenPlan_plansOf, seenPlan_plansOf, hp, htracepoint, h.engine.plans]
  have hstart : Engine.Alike id (w.engine, w.bags i) (w'.engine, w'.bags i) :=
    ⟨h.engine.sinks, h.bags i⟩
  simp only [drawn, ← outputs_filterMap] at hdrawn ⊢
  obtain ⟨hlast, hsame, _⟩ :=
    (unwinds_runPlan id).run hstart (howned hkept p) (howned hkept' p') hseen hdrawn
  rw [← pass_eq_foldl (w.engine, w.bags i) p, ← pass_eq_foldl (w'.engine, w'.bags i) p'] at hlast
  refine ⟨?_, hsame⟩
  have hengine : SameFor id (pass (w.engine, w.bags i) p).1 (pass (w'.engine, w'.bags i) p').1 := by
    refine ⟨fun t => ?_, hlast.sinks⟩
    rw [(calm_pass p (w.engine, w.bags i)).woven, (calm_pass p' (w'.engine, w'.bags i)).woven]
    exact h.engine.plans t
  have hbefore : Agree id ⟨(pass (w.engine, w.bags i) p).1, w.bags⟩
      ⟨(pass (w'.engine, w'.bags i) p').1, w'.bags⟩ :=
    ⟨hengine, h.bags⟩
  exact hbefore.put hlast.bags i

theorem Agree.collect (h : Agree id w w') (hs : w.Sound id)
    (hs' : w'.Sound id) (timestampMs : Nat) :
    Agree id (w.after (.collect timestampMs)) (w'.after (.collect timestampMs)) ∧
      w.reports id (.collect timestampMs) = w'.reports id (.collect timestampMs) := by
  obtain ⟨_, _, _, hkept⟩ := hs.kept
  obtain ⟨_, _, _, hkept'⟩ := hs'.kept
  have hnodup : w.engine.sinks.live.keys.Nodup := Ascending.Sorted.nodup (hkept.live ▸ hkept.sorted)
  have hnodup' : w'.engine.sinks.live.keys.Nodup :=
    Ascending.Sorted.nodup (hkept'.live ▸ hkept'.sorted)
  obtain ⟨hresults, hpart⟩ := collect_part hnodup hnodup' h.engine.sinks timestampMs
  exact ⟨⟨⟨h.engine.plans, hpart⟩, h.bags⟩, congrArg (fun r => [r]) hresults⟩

/-- What looks the same takes worlds that look alike to worlds that do. -/
theorem Agree.after (h : Agree id w w') (hs : w.Sound id) (hs' : w'.Sound id) (hm : m.visible id)
    (hbare : m.bare = m'.bare)
    (hdrawn : Concur ((w.drawn m).filterMap (versionFor id))
      ((w'.drawn m').filterMap (versionFor id))) :
    Agree id (w.after m) (w'.after m') ∧
      (w.drawn m).filterMap (versionFor id) = (w'.drawn m').filterMap (versionFor id) ∧
      w.reports id m = w'.reports id m' := by
  rcases bare_cases hbare with ⟨i, p, p', rfl, rfl, hp⟩ | ⟨rfl, hne⟩
  · obtain ⟨hnext, hsame⟩ := h.invoke hs hs' hp hdrawn
    exact ⟨hnext, hsame, rfl⟩
  · cases m with
    | invoke i p => exact absurd rfl (hne i p)
    | change c =>
        obtain rfl := uninstall_of_visible hm
        obtain ⟨_, _, _, hkept⟩ := hs.kept
        obtain ⟨_, _, _, hkept'⟩ := hs'.kept
        obtain ⟨hplans, hpart⟩ := uninstall_self hkept id
        obtain ⟨hplans', hpart'⟩ := uninstall_self hkept' id
        refine ⟨⟨⟨fun t => (hplans t).trans (hplans' t).symm, ?_⟩, h.bags⟩, rfl, rfl⟩
        show (w.engine.uninstall id).2.sinks.part id = (w'.engine.uninstall id).2.sinks.part id
        rw [hpart, hpart', h.engine.sinks]
    | begin i => exact ⟨h.put (fun _ _ => .refl) i, rfl, rfl⟩
    | split i copy =>
        have harchived :
            ∀ a : BagId, a.query = id → Bag.Same a (w.bags i).split (w'.bags i).split := fun a ha =>
          Baggage.same_archiveActive (hs.keyed i) (hs'.keyed i) (h.bags i a ha)
        exact ⟨(h.put harchived i).put harchived copy, rfl, rfl⟩
    | archive i =>
        refine ⟨h.put (fun a ha => ?_) i, rfl, rfl⟩
        exact Baggage.same_archiveActive (hs.keyed i) (hs'.keyed i) (h.bags i a ha)
    | join i other =>
        exact ⟨(h.put (fun _ _ => .refl) other).put (fun a ha => h.join hs hs' i other ha) i,
          rfl, rfl⟩
    | collect timestampMs =>
        obtain ⟨hnext, hsame⟩ := h.collect hs hs' timestampMs
        exact ⟨hnext, rfl, hsame⟩

/-- What is not seen changes nothing for the query. -/
theorem Agree.unseen (h : Agree id w w') (hs : w.Sound id) (hm : ¬ m.visible id) :
    Agree id (w.after m) w' ∧ (w.drawn m).filterMap (versionFor id) = [] ∧ w.reports id m = [] := by
  cases m with
  | change c =>
      have hleaves : c.leaves id = true := by simpa [Move.visible] using hm
      obtain ⟨_, _, hid, hkept⟩ := hs.kept
      exact ⟨⟨(sameFor_apply hkept hid hleaves).trans h.engine, h.bags⟩, rfl, rfl⟩
  | _ => exact absurd rfl hm

theorem unwinds_after (id : QueryId) :
    Unwinds World.after (seen id) (fun w moves => w.Sound id ∧ w.Unused moves)
    (fun w m => (w.drawn m).filterMap (versionFor id)) (reports id) (Agree id) where
  later h := ⟨h.1.after h.2, h.2.after h.1.keyed⟩
  symm h := h.symm
  unseen {w w' m moves} h hok hm := by
    refine h.unseen hok.1 fun hvisible => ?_
    rw [seen, if_pos hvisible] at hm
    cases hm
  seen {w w' m m' moves moves'} h hok hok' hm hsame hdrawn := by
    have hvisible : m.visible id := by
      by_contra hnone
      exact hm (if_neg hnone)
    have hvisible' : m'.visible id := by
      by_contra hnone
      exact hm (hsame.trans (if_neg hnone))
    rw [seen, seen, if_pos hvisible, if_pos hvisible'] at hsame
    exact h.after hok.1 hok'.1 hvisible (Option.some.inj hsame) hdrawn

/-- Installed queries do not interfere. Let one be installed, and let all versions be told apart.
Take two histories in which the same requests pass the same tracepoints, fork, come back and are
collected, while other queries come and go at any time, and let the entries of the query get the
same versions one after another. Then the same results are collected for it. -/
theorem collected_eq {config : Config} {past : List Deed}
    (hw : w.engine = (Books.ofDeeds config past).engine) (hid : id ∈ w.engine.installed.keys)
    (hbags : ∀ i, (w.bags i).Reachable) (hapart : w.Apart id) (hfresh : w.Fresh moves)
    (hfresh' : w.Fresh moves') (hseen : moves.filterMap (seen id) = moves'.filterMap (seen id))
    (hversions : Concur (w.versionsFor id moves) (w.versionsFor id moves')) :
    w.collected id moves = w.collected id moves' := by
  have hsound : w.Sound id := by
    have hkept := Books.kept_ofDeeds config past
    rw [hw, hkept.installed] at hid
    refine ⟨⟨_, (Books.ofDeeds config past).standing, hkept.noted.subset hid, ?_⟩,
      fun i => ?_, hapart⟩
    · rw [hw]
      exact hkept
    · have hregular := (hbags i).regular
      exact ⟨hregular.active.keys, hregular.archive.keys⟩
  rw [versionsFor, versionsFor, history, history, ← outputs_filterMap,
    ← outputs_filterMap] at hversions
  exact ((unwinds_after id).run .refl ⟨hsound, hfresh.unused⟩ ⟨hsound,
    hfresh'.unused⟩ hseen hversions).2.2

namespace Sample

/-- A pass whose plans are given versions in a row. -/
def pass (first : UInt64) (tracepoint : String) (fields : Table String Value) : Pass :=
  ⟨⟨fun _ => none, fun n => first + n.toUInt64, fun _ => 0⟩, tracepoint, fields⟩

/-- The same query is installed twice. -/
def installing : List Deed :=
  [.change (.build (Engine.Sample.joined.select ["l.user", "o.item"])),
    .change (.install Engine.Sample.buyers), .change (.install Engine.Sample.buyers)]

def twice : World where
  engine := (Books.ofDeeds ⟨false, true, false, 1000⟩ installing).engine
  bags _ := .empty

/-- Two branches, in each of which somebody logs in. -/
def branches : List Move :=
  [.split 0 1, .invoke 0 (pass 10 "login" [("user", .str "ann")]),
    .invoke 1 (pass 20 "login" [("user", .str "bob")]), .join 0 1,
    .invoke 0 (pass 30 "order" [("item", .int 3)]), .collect 5]

/-- The first query is taken out on the way, and a third one comes and goes. -/
def meanwhile : List Move :=
  [.split 0 1, .invoke 0 (pass 10 "login" [("user", .str "ann")]), .change (.uninstall ⟨1⟩),
    .change (.install Engine.Sample.buyers), .invoke 1 (pass 21 "login" [("user", .str "bob")]),
    .join 0 1, .change (.uninstall ⟨3⟩), .invoke 0 (pass 40 "order" [("item", .int 3)]), .collect 5]

end Sample

open World.Sample Engine.Sample in
theorem collected_meanwhile : twice.collected ⟨2⟩ meanwhile =
    [[⟨⟨2⟩, 5, 1000, [[.str "ann", .int 3], [.str "bob", .int 3]], []⟩]] := by
  have hfresh : ∀ moves, ((twice.history moves).map (·.2)).Nodup → twice.Fresh moves :=
    fun _ hnodup =>
    ⟨hnodup, fun _ _ _ => ⟨List.not_mem_nil, List.not_mem_nil⟩⟩
  have hversions : twice.versionsFor ⟨2⟩ branches = twice.versionsFor ⟨2⟩ meanwhile := by
    decide +kernel
  have hstart : twice.engine = (Books.ofDeeds ⟨false, true, false, 1000⟩ installing).engine := by
    rw [twice]
  have hsame : twice.collected ⟨2⟩ branches = twice.collected ⟨2⟩ meanwhile :=
    collected_eq hstart (by decide +kernel) (fun _ => .empty)
      (fun _ _ _ _ _ _ _ h => absurd h Baggage.not_has_empty) (hfresh _ (by decide +kernel))
      (hfresh _ (by decide +kernel)) rfl (.of_eq hversions)
  exact hsame.symm.trans (by decide +kernel)

end World

end CausalTrace
