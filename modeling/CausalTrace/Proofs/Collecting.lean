import CausalTrace.Proofs.Bookkeeping

/-!
# What is collected for a query

The sinks of an engine stay in the order of their queries, and report as they were told to
when the engine started. So what is collected for a query depends on what its sink has
gathered, and of that only on the rows.
-/

namespace CausalTrace

/-- Sinks that report the same rows. -/
structure Gathered.Alike (g g' : Gathered) : Prop where
  isEmpty : g'.isEmpty = g.isEmpty
  tupleRows : g'.tupleRows = g.tupleRows
  groupRows : g'.groupRows = g.groupRows

namespace Sinks

/-- Whether and in which intervals sinks report. -/
def reporting (s : Sinks) : Bool × Nat := (s.reportEmpty, s.intervalMs)

theorem reporting_emit (s : Sinks) (ref : SinkRef) (rows : List Row) :
    (s.emit ref rows).1.reporting = s.reporting := by
  rw [emit]
  split
  · split
    · rfl
    · rfl
  · rfl

end Sinks

namespace Engine

variable {config : Config} {e : Engine} {q : Query} {id : QueryId}

/-! ## Sinks in order -/

/-- To install a query leaves the sinks, or drops one, or makes those of its plans. -/
theorem sinks_install : (e.install q).2.sinks = e.sinks ∨
    (∃ id, (e.install q).2.sinks = e.sinks.destroy id) ∨
    ∃ enabled id weaves ws, (∀ w ∈ weaves, w.advice.output.owner = id) ∧
      resolve enabled id weaves e.sinks = .ok (ws, (e.install q).2.sinks) := by
  have hsinks := compile_sinks (e := e) (q := q)
  rw [install]
  cases hc : e.compile q with
  | mk r e₁ =>
      rw [hc] at hsinks
      have hsinks : e₁.sinks = e.sinks := hsinks
      cases r with
      | error err => exact Or.inl hsinks
      | ok compiled =>
          obtain ⟨hid, howner⟩ := compile_eq_ok (congrArg (·.1) hc)
          simp only
          rw [hsinks]
          split
          · exact Or.inr (Or.inl ⟨_, rfl⟩)
          · next ws sinks hr => exact Or.inr (Or.inr ⟨_, _, _, ws, hid ▸ howner, hr⟩)

theorem sorted_live_install (hs : Ascending.Sorted e.sinks.live.keys) :
    Ascending.Sorted (e.install q).2.sinks.live.keys := by
  rcases sinks_install (e := e) (q := q) with hsame | ⟨id, hdropped⟩ |
    ⟨_, id, _, _, howner, hresolved⟩
  · exact hsame.symm ▸ hs
  · rw [hdropped, Sinks.destroy, Table.keys_erase]
    exact hs.sublist List.filter_sublist
  · rw [live_of_resolve hresolved howner hs]
    split
    · exact Ascending.sorted_insert id hs
    · exact hs

/-- The sinks of an engine are in the order of their queries. -/
theorem Reachable.sorted_live (h : Reachable config e) : Ascending.Sorted e.sinks.live.keys := by
  induction h with
  | start => exact List.Pairwise.nil
  | addTracepoint t _ ih => exact ih
  | parseQuery name text _ ih => exact ih
  | buildQuery steps _ ih => exact ih
  | optimize q _ ih => exact (compile_sinks (q := q)).symm ▸ ih
  | compile q _ ih => exact (compile_sinks (q := q)).symm ▸ ih
  | install q _ ih => exact sorted_live_install ih
  | @uninstall e id _ ih =>
      rcases uninstall_cases id e with ⟨_, hsame⟩ | ⟨_, _, _, hsinks, _⟩
      · exact hsame.symm ▸ ih
      · rw [hsinks, Sinks.destroy, Table.keys_erase]
        exact ih.sublist List.filter_sublist
  | @invoke e p b _ ih =>
      rw [(calm_pass p (e, b)).live ih]
      exact ih
  | @collect e timestampMs _ ih =>
      rw [(calm_collect e timestampMs).live ih]
      exact ih

theorem sorted_live_passes {state : Engine × Baggage}
    (hs : Ascending.Sorted state.1.sinks.live.keys)
    (passes : List Pass) : Ascending.Sorted (passes.foldl pass state).1.sinks.live.keys := by
  induction passes generalizing state with
  | nil => exact hs
  | cons p passes ih => exact ih ((calm_pass p state).live hs ▸ hs)

/-! ## How sinks report -/

theorem reporting_resolve {enabled : Bool} {weaves : List WeaveSpec} {sinks sinks' : Sinks}
    {ws : List (String × Woven)} (h : resolve enabled id weaves sinks = .ok (ws, sinks')) :
    sinks'.reporting = sinks.reporting := by
  induction weaves generalizing sinks ws with
  | nil =>
      cases h
      rfl
  | cons w weaves ih =>
      obtain ⟨⟨advice, next⟩, hc, h⟩ := bind_eq_ok_iff.mp h
      obtain ⟨⟨rest, last⟩, hr, he⟩ := bind_eq_ok_iff.mp h
      cases he
      rw [ih hr, (Advice.resolves_of_create hc).sinks]
      cases w.advice.output with
      | pack _ _ => rfl
      | emit _ _ => rfl

theorem reporting_install : (e.install q).2.sinks.reporting = e.sinks.reporting := by
  rcases sinks_install (e := e) (q := q) with hsame | ⟨_, hdropped⟩ | ⟨_, _, _, _, _, hresolved⟩
  · rw [hsame]
  · rw [hdropped]
    rfl
  · exact reporting_resolve hresolved

theorem reporting_pass (p : Pass) (state : Engine × Baggage) :
    (pass state p).1.sinks.reporting = state.1.sinks.reporting := by
  rw [pass_eq]
  generalize (state.1.woven.listed p.tracepoint).zipIdx = steps
  induction steps generalizing state with
  | nil => rfl
  | cons s steps ih =>
      rw [List.foldl_cons, ih, step_sinks, Advice.filled]
      split
      · rfl
      · split
        · rfl
        · exact Sinks.reporting_emit ..

theorem reporting_passes (state : Engine × Baggage) (passes : List Pass) :
    (passes.foldl pass state).1.sinks.reporting = state.1.sinks.reporting := by
  induction passes generalizing state with
  | nil => rfl
  | cons p passes ih => exact (ih _).trans (reporting_pass p state)

/-! ## Collecting -/

/-- What is collected for a query after a request has passed some tracepoints. -/
def collectedFor (id : QueryId) (e : Engine) (passes : List Pass) (timestampMs : Nat) :
    List Results :=
  ((passes.foldl pass (e, .empty)).1.collect timestampMs).1.filter (·.outputId = id)

/-- Of sinks that have gathered alike the same is collected. -/
theorem collect_alike {s s' : Sinks} {g g' : Gathered} (hs : Ascending.Sorted s.live.keys)
    (hs' : Ascending.Sorted s'.live.keys) (hreport : s'.reporting = s.reporting)
    (hfind : (s.live.find? id).map (·.2) = some g) (hfind' : (s'.live.find? id).map (·.2) = some g')
    (h : Gathered.Alike g g') (timestampMs : Nat) :
    (s'.collect timestampMs).1.filter (·.outputId = id) =
      (s.collect timestampMs).1.filter (·.outputId = id) := by
  obtain ⟨⟨serial, _⟩, hfound, rfl⟩ := Option.map_eq_some_iff.mp hfind
  obtain ⟨⟨serial', _⟩, hfound', rfl⟩ := Option.map_eq_some_iff.mp hfind'
  obtain ⟨hempty, hinterval⟩ := Prod.mk.inj hreport
  obtain ⟨hnone, htuples, hgroups⟩ := h
  rw [Sinks.collect, Sinks.collect]
  dsimp only at hnone htuples hgroups ⊢
  rw [Table.filter_filterMap_key hs.nodup ?_ id, Table.filter_filterMap_key hs'.nodup ?_ id, hfound,
    hfound', Option.bind_some, Option.bind_some, hempty, hinterval, hnone, htuples, hgroups]
  all_goals
    rintro p r hr
    split at hr
    · cases hr
    · cases hr
      rfl

end Engine

end CausalTrace
