import CausalTrace.Proofs.Correctness
import CausalTrace.Proofs.Generations
import CausalTrace.Proofs.Handover
import CausalTrace.Proofs.Narrowing
import CausalTrace.Proofs.Resolvable

/-!
# The books of an engine

An engine keeps its queries in three places: a table of those installed, the plans woven into
each tracepoint, and the sinks. Every change leaves all three as they are, adds one query to
each, or takes one out of each. So they agree at any time, whatever an engine is asked to do.
-/

namespace CausalTrace

/-! ## Growing at the end -/

section

variable {κ α : Type} [Ord κ]

theorem Table.insert_last [Std.OrientedOrd κ] {k : κ} (a : α) :
    ∀ {t : Table κ α}, (∀ l ∈ t.keys, compare l k = .lt) → t.insert k a = t ++ [(k, a)]
  | [], _ => rfl
  | (l, b) :: t, h => by
      obtain ⟨hl, ht⟩ := List.forall_mem_cons.mp h
      rw [Table.insert, Std.OrientedCmp.gt_of_lt hl]
      exact congrArg ((l, b) :: ·) (insert_last a ht)

end

theorem Table.keys_mapValues {κ α β : Type} (f : α → β) (t : Table κ α) :
    (t.mapValues f).keys = t.keys := by
  simp [Table.mapValues, Table.keys]

theorem Table.erase_of_not_mem {κ α : Type} [DecidableEq κ] {k : κ}
    {t : Table κ α} (h : k ∉ t.keys) : t.erase k = t := by
  refine List.filter_eq_self.mpr fun p hp => decide_eq_true ?_
  rintro rfl
  exact h (List.mem_map_of_mem hp)

theorem Table.keys_erase {κ α : Type} [DecidableEq κ] (k : κ) (t : Table κ α) :
    (t.erase k).keys = t.keys.filter (· ≠ k) := by
  rw [Table.keys, Table.keys, List.filter_map]
  rfl

namespace Engine

/-! ## Resolving the plans of a query -/

/-- A woven plan is the resolved one of a weave of a query. -/
structure Implements (enabled : Bool) (plan : QueryId × WeaveSpec) (x : Woven) : Prop where
  queryId : x.queryId = plan.1
  adviceId : x.adviceId = plan.2.adviceId
  fields : x.fields = plan.2.fields
  created : ∃ sinks sinks', Advice.create plan.2.advice sinks enabled = .ok (x.advice, sinks')

/-- The weaves of installed queries at a tracepoint, by query. -/
def plansAt (installed : Table QueryId QueryAdvice) (t : String) : List (QueryId × WeaveSpec) :=
  installed.flatMap fun entry => (entry.2.weaves.filter (·.tracepoint = t)).map (entry.1, ·)

section

variable {enabled : Bool} {id : QueryId} {weaves : List WeaveSpec} {sinks sinks' : Sinks}
  {ws : List (String × Woven)}

theorem implements_of_resolve (h : resolve enabled id weaves sinks = .ok (ws, sinks')) :
    List.Forall₂ (fun w x => x.1 = w.tracepoint ∧ Implements enabled (id, w) x.2) weaves ws := by
  induction weaves generalizing sinks ws with
  | nil =>
      cases h
      exact .nil
  | cons w weaves ih =>
      obtain ⟨⟨advice, next⟩, hc, h⟩ := bind_eq_ok_iff.mp h
      obtain ⟨⟨rest, last⟩, hr, he⟩ := bind_eq_ok_iff.mp h
      cases he
      exact .cons ⟨rfl, rfl, rfl, rfl, _, _, hc⟩ (ih hr)

/-- Where a query weaves its plans, they stand in the order of its weaves. -/
theorem implements_wovenAt (h : resolve enabled id weaves sinks = .ok (ws, sinks')) (t : String) :
    List.Forall₂ (Implements enabled) ((weaves.filter (·.tracepoint = t)).map (id, ·))
      (wovenAt t ws) := by
  rw [wovenAt, List.forall₂_map_left_iff, List.forall₂_map_right_iff]
  have hfilter := List.rel_filter (p := fun w : WeaveSpec => decide (w.tracepoint = t))
    (q := fun x : String × Woven => decide (x.1 = t)) ?_ (implements_of_resolve h)
  · exact hfilter.imp fun _ _ hx => hx.2
  · intro w x hx
    simp only [decide_eq_true_eq, hx.1]

/-- A query that emits gets a sink, and no other sink is made for it. -/
theorem live_of_resolve (h : resolve enabled id weaves sinks = .ok (ws, sinks'))
    (ho : ∀ w ∈ weaves, w.advice.output.owner = id) (hs : Ascending.Sorted sinks.live.keys) :
    sinks'.live.keys =
      if weaves.any (·.emits) then Ascending.insert id sinks.live.keys else sinks.live.keys := by
  induction weaves generalizing sinks ws with
  | nil =>
      cases h
      rfl
  | cons w weaves ih =>
      obtain ⟨how, hos⟩ := List.forall_mem_cons.mp ho
      obtain ⟨⟨advice, next⟩, hc, h⟩ := bind_eq_ok_iff.mp h
      obtain ⟨⟨rest, last⟩, hr, he⟩ := bind_eq_ok_iff.mp h
      cases he
      have hnext := (Advice.resolves_of_create hc).sinks
      rw [List.any_cons, WeaveSpec.emits]
      cases hout : w.advice.output with
      | pack bagId bag =>
          rw [hout] at hnext
          obtain rfl : next = sinks := hnext
          exact ih hr hos hs
      | emit outputId bag =>
          rw [hout] at how hnext
          obtain rfl : outputId = id := how
          have hkeys : next.live.keys = Ascending.insert outputId sinks.live.keys := by
            rw [hnext]
            exact Table.keys_insert ..
          have hsorted := Ascending.sorted_insert outputId hs
          -- Another weave that emits finds the sink already there.
          have hagain := Ascending.insert_of_mem hsorted (Ascending.mem_insert.mpr (.inl rfl))
          rw [ih hr hos (hkeys ▸ hsorted), hkeys, hagain, ite_self, Bool.true_or, if_pos rfl]

end

/-! ## What is asked of an engine -/

/-- What is done about queries. -/
inductive Change where
  | addTracepoint (t : Tracepoint)
  | parse (name text : String)
  | build (steps : Build Query)
  | optimize (q : Query)
  | compile (q : Query)
  | install (q : Query)
  | installNamed (name : String)
  | uninstall (id : QueryId)

/-- The engine after a change. -/
def apply (e : Engine) : Change → Engine
  | .addTracepoint t => e.addTracepoint t
  | .parse name text => (e.parseQuery name text).2
  | .build steps => (e.buildQuery steps).2
  | .optimize q => (e.optimize q).2
  | .compile q => (e.compile q).2
  | .install q => (e.install q).2
  | .installNamed name => (e.installNamed name).2
  | .uninstall id => (e.uninstall id).2

/-- The number of the query that a change installs, if it does. -/
def installedBy (e : Engine) : Change → List QueryId
  | .install q => (e.install q).1.toOption.toList
  | .installNamed name => (e.installNamed name).1.toOption.toList
  | _ => []

/-- The number that a change hands out, if it does. -/
def handedOutBy (e : Engine) : Change → List QueryId
  | .compile q => ((e.compile q).1.toOption.map (·.queryId)).toList
  | c => e.installedBy c

/-- Whether a query is left standing by a change. -/
def Change.leaves (id : QueryId) : Change → Bool
  | .uninstall out => id ≠ out
  | _ => true

/-! ## What a change does -/

variable {e e' : Engine} {q : Query}

/-- Plans and sinks are as they were. Numbers may be used up. -/
structure Quiet (e e' : Engine) : Prop where
  config : e'.config = e.config
  installed : e'.installed = e.installed
  woven : e'.woven = e.woven
  sinks : e'.sinks = e.sinks
  next : e.numbering.next ≤ e'.numbering.next

theorem Quiet.refl : Quiet e e := ⟨rfl, rfl, rfl, rfl, Nat.le_refl _⟩

theorem quiet_optimize : Quiet e (e.optimize q).2 := by
  rw [optimize]
  split
  · exact ⟨rfl, rfl, rfl, rfl, Nat.le_refl _⟩
  · exact .refl

theorem quiet_compile : Quiet e (e.compile q).2 where
  config := compile_config
  installed := (quiet_optimize (q := q)).installed
  woven := compile_woven
  sinks := compile_sinks
  next := compile_next ▸ Nat.le_succ _

/-- The weaves of a query read and fill no bags or sinks but its own. One of them emits. -/
structure OwnWeaves (id : QueryId) (weaves : List WeaveSpec) : Prop where
  output : ∀ w ∈ weaves, w.advice.output.owner = id
  unpack : ∀ w ∈ weaves, ∀ u ∈ w.advice.unpack, u.bagId.query = id
  emits : ∃ w ∈ weaves, w.emits

theorem query_of_bagsOf {id : QueryId} {start : Nat} {js : List (String × Query)} :
    ∀ u ∈ Query.bagsOf id start js, u.bagId.query = id := by
  induction js generalizing start with
  | nil => exact List.forall_mem_nil _
  | cons j js ih => exact List.forall_mem_cons.mpr ⟨rfl, ih⟩

theorem ownWeaves_of_compileFrom {a : Arena} {id : QueryId} {c : Compiled}
    (h : q.compileFrom a id false 0 = .ok c) : OwnWeaves id c.weaves := by
  obtain ⟨hjoined, hown⟩ := Query.weaves_of_compileFrom h
  have hbags : ∀ {pack : Bool} {w : WeaveSpec} {p : Nat × Query}, Query.Weaves a id pack w p →
      ∀ u ∈ w.advice.unpack, u.bagId.query = id := by
    intro pack w p hw u hu
    have hm := List.mem_map_of_mem (f := (·.bagId)) hu
    rw [hw.bagIds] at hm
    obtain ⟨u', hu', he⟩ := List.mem_map.mp hm
    exact he ▸ query_of_bagsOf u' hu'
  refine ⟨Query.owner_of_compileFrom h, fun w hw => ?_, c.own, ?_, hown.emits⟩
  · rcases List.mem_append.mp hw with hw | hw
    · obtain ⟨p, _, hp⟩ := exists_of_forall₂ hjoined.flip hw
      exact hbags hp
    · rw [List.mem_singleton.mp hw]
      exact hbags hown
  · exact List.mem_concat_self

/-- A query has been compiled under a new number. -/
structure Compiles (e : Engine) (compiled : QueryAdvice) : Prop where
  queryId : compiled.queryId = ⟨e.numbering.next⟩
  own : OwnWeaves compiled.queryId compiled.weaves

theorem compiles_of_compile {compiled : QueryAdvice} (h : (e.compile q).1 = .ok compiled) :
    Compiles e compiled := by
  rw [compile_fst] at h
  obtain ⟨c, hc, he⟩ := bind_eq_ok_iff.mp h
  cases he
  exact ⟨rfl, ownWeaves_of_compileFrom hc⟩

/-- A query has been installed, with its plans behind those of others. -/
structure Gains (e e' : Engine) (compiled : QueryAdvice) (ws : List (String × Woven)) : Prop
    extends Compiles e compiled where
  config : e'.config = e.config
  resolved : resolve e.config.baggageEnabled compiled.queryId compiled.weaves e.sinks =
    .ok (ws, e'.sinks)
  installed : e'.installed = e.installed.insert compiled.queryId compiled
  woven : e'.woven = ws.foldl (fun t (place, w) => t.append place [w]) e.woven
  next : e'.numbering.next = e.numbering.next + 1

/-- An attempt to install a query does so, or leaves plans and sinks as they were. -/
theorem install_cases (hnew : ⟨e.numbering.next⟩ ∉ e.sinks.live.keys) :
    (∃ err, (e.install q).1 = .error err ∧ Quiet e (e.install q).2) ∨
      ∃ compiled ws, (e.install q).1 = .ok compiled.queryId ∧
        Gains e (e.install q).2 compiled ws := by
  have hcompile := quiet_compile (e := e) (q := q)
  have hnext := compile_next (e := e) (q := q)
  rw [install]
  cases hc : e.compile q with
  | mk r e₁ =>
      rw [hc] at hcompile hnext
      have hquiet : Quiet e e₁ := hcompile
      cases r with
      | error err => exact .inl ⟨err, rfl, hquiet⟩
      | ok compiled =>
          have hcompiled : Compiles e compiled := compiles_of_compile (congrArg (·.1) hc)
          simp only
          cases hr : resolve e₁.config.baggageEnabled compiled.queryId compiled.weaves e₁.sinks with
          | error err =>
              -- What was made on the way is dropped, and no sink of this number was there before.
              refine .inl ⟨err, rfl, hquiet.config, hquiet.installed, hquiet.woven, ?_, hquiet.next⟩
              have herase := Table.erase_of_not_mem hnew
              simp only [hquiet.sinks, Sinks.destroy, hcompiled.queryId, herase]
          | ok r =>
              obtain ⟨ws, sinks⟩ := r
              rw [hquiet.config, hquiet.sinks] at hr
              refine .inr ⟨compiled, ws, rfl, hcompiled, hquiet.config, hr, ?_, ?_, hnext⟩
              · simp only [hquiet.installed]
              · simp only [hquiet.woven]

theorem installNamed_cases (name : String) (e : Engine) :
    (∃ q, e.installNamed name = e.install q) ∨ ∃ err, e.installNamed name = (.error err, e) := by
  rw [installNamed]
  split
  · next q _ => exact .inl ⟨q, rfl⟩
  · exact .inr ⟨_, rfl⟩

/-- A query is taken out of the three places, or none was there. -/
theorem uninstall_cases (id : QueryId) (e : Engine) :
    (id ∉ e.installed.keys ∧ (e.uninstall id).2 = e) ∨
      (e.uninstall id).2.config = e.config ∧
      (e.uninstall id).2.installed = e.installed.erase id ∧
      (e.uninstall id).2.woven = unweave id e.woven ∧
      (e.uninstall id).2.sinks = e.sinks.destroy id ∧
      (e.uninstall id).2.numbering = e.numbering := by
  rw [uninstall]
  split
  · exact .inr ⟨rfl, rfl, rfl, rfl, rfl⟩
  · next h => exact .inl ⟨Table.contains_eq_false_iff.mp (Bool.eq_false_of_not_eq_true h), rfl⟩

theorem listed_unweave {woven : Table String (List Woven)} (h : woven.keys.Nodup)
    (id : QueryId) (t : String) :
    (unweave id woven).listed t = (woven.listed t).filter (·.queryId ≠ id) := by
  rw [unweave, Table.listed_filter_isEmpty (Table.keys_mapValues _ woven ▸ h), Table.listed,
    Table.find?_mapValues, Table.listed]
  cases woven.find? t <;> rfl

/-! ## What running plans does -/

/-- Queries and plans are as they were, and no sink is made or taken out. -/
structure Calm (e e' : Engine) : Prop where
  config : e'.config = e.config
  installed : e'.installed = e.installed
  woven : e'.woven = e.woven
  live : Ascending.Sorted e.sinks.live.keys → e'.sinks.live.keys = e.sinks.live.keys
  next : e.numbering.next ≤ e'.numbering.next

theorem Quiet.calm (h : Quiet e e') : Calm e e' :=
  ⟨h.config, h.installed, h.woven, fun _ => h.sinks ▸ rfl, h.next⟩

theorem Calm.trans {e'' : Engine} (h : Calm e e') (h' : Calm e' e'') : Calm e e'' where
  config := h'.config.trans h.config
  installed := h'.installed.trans h.installed
  woven := h'.woven.trans h.woven
  live hs := (h'.live (h.live hs ▸ hs)).trans (h.live hs)
  next := h.next.trans h'.next

theorem live_emit {s : Sinks} {ref : SinkRef} {rows : List Row}
    (hs : Ascending.Sorted s.live.keys) : (s.emit ref rows).1.live.keys = s.live.keys := by
  rw [Sinks.emit]
  split
  · next serial g hf =>
      split
      · have hm := List.mem_map_of_mem (f := (·.1)) (Table.mem_of_find?_eq_some hf)
        exact (Table.keys_insert ..).trans (Ascending.insert_of_mem hs hm)
      · rfl
  · rfl

theorem calm_step (p : Pass) (state : Engine × Baggage) (s : Woven × Nat) :
    Calm state.1 (step p state s).1 := by
  refine ⟨rfl, rfl, rfl, fun hs => ?_, Nat.le_refl _⟩
  rw [step_sinks, Advice.filled]
  split
  · rfl
  · split
    · rfl
    · exact live_emit hs

theorem calm_pass (p : Pass) (state : Engine × Baggage) : Calm state.1 (pass state p).1 := by
  rw [pass_eq]
  generalize (state.1.woven.listed p.tracepoint).zipIdx = steps
  induction steps generalizing state with
  | nil => exact Quiet.refl.calm
  | cons s steps ih => exact (calm_step p state s).trans (ih _)

theorem calm_collect (e : Engine) (timestampMs : Nat) : Calm e (e.collect timestampMs).2 := by
  refine ⟨rfl, rfl, rfl, fun _ => ?_, Nat.le_refl _⟩
  have hsinks : (e.collect timestampMs).2.sinks = (e.sinks.collect timestampMs).2 := rfl
  rw [hsinks, Sinks.collect, Table.keys_mapValues]

/-! ## Books -/

/-- What an engine goes through. -/
inductive Deed where
  | change (c : Change)
  | invoke (p : Pass) (b : Baggage)
  | collect (timestampMs : Nat)

/-- An engine, and what whoever uses it may have noted. -/
structure Books where
  engine : Engine
  /-- The numbers handed out, oldest first. -/
  numbers : List QueryId
  /-- The queries that were installed and not taken out since, in order of installation. -/
  standing : List QueryId

namespace Books

def start (config : Config) : Books := ⟨.start config, [], []⟩

def after (s : Books) : Deed → Books
  | .change c =>
      ⟨s.engine.apply c, s.numbers ++ s.engine.handedOutBy c,
        s.standing.filter (Change.leaves · c) ++ s.engine.installedBy c⟩
  | .invoke p b => { s with engine := (pass (s.engine, b) p).1 }
  | .collect timestampMs => { s with engine := (s.engine.collect timestampMs).2 }

/-- The books after all that an engine has gone through. -/
def ofDeeds (config : Config) (deeds : List Deed) : Books := deeds.foldl after (start config)

/-- The books agree with each other and with what was noted. -/
structure Kept (s : Books) : Prop where
  installed : s.engine.installed.keys = s.standing
  own : ∀ entry ∈ s.engine.installed, OwnWeaves entry.1 entry.2.weaves
  live : s.engine.sinks.live.keys = s.standing
  woven : ∀ t, List.Forall₂ (Implements s.engine.config.baggageEnabled)
    (plansAt s.engine.installed t) (s.engine.woven.listed t)
  places : Ascending.Sorted s.engine.woven.keys
  nonempty : ∀ entry ∈ s.engine.woven, entry.2 ≠ []
  /-- Numbers are handed out in order. -/
  ascending : s.numbers.Pairwise fun id id' => id.val < id'.val
  used : ∀ id ∈ s.numbers, id.val < s.engine.numbering.next
  noted : s.standing.Sublist s.numbers

variable {s : Books}

theorem kept_start (config : Config) : (start config).Kept where
  installed := rfl
  own := nofun
  live := rfl
  woven _ := .nil
  places := List.Pairwise.nil
  nonempty := nofun
  ascending := .nil
  used := nofun
  noted := .slnil

theorem Kept.used_standing (h : s.Kept) {id : QueryId} (hid : id ∈ s.standing) :
    id.val < s.engine.numbering.next := h.used id (h.noted.subset hid)

/-- The queries that stand are in the order of their numbers. -/
theorem Kept.sorted (h : s.Kept) : Ascending.Sorted s.standing := by
  refine (h.ascending.sublist h.noted).imp fun hlt => ?_
  rw [compare_queryId, Nat.compare_eq_lt]
  exact hlt

theorem Kept.calm (h : s.Kept) (hc : Calm s.engine e') : Kept ⟨e', s.numbers, s.standing⟩ where
  installed := hc.installed ▸ h.installed
  own := hc.installed ▸ h.own
  live := (hc.live (h.live ▸ h.sorted)).trans h.live
  woven t := by
    simp only [hc.installed, hc.woven, hc.config]
    exact h.woven t
  places := hc.woven ▸ h.places
  nonempty := hc.woven ▸ h.nonempty
  ascending := h.ascending
  used id hid := Nat.lt_of_lt_of_le (h.used id hid) hc.next
  noted := h.noted

theorem Kept.next_not_live (h : s.Kept) : ⟨s.engine.numbering.next⟩ ∉ s.engine.sinks.live.keys := by
  rw [h.live]
  exact fun hm => Nat.lt_irrefl _ (h.used_standing hm)

/-- The next number is above those handed out before. -/
theorem Kept.ascending_next (h : s.Kept) :
    List.Pairwise (fun id id' => id.val < id'.val) (s.numbers ++ [⟨s.engine.numbering.next⟩]) := by
  refine List.pairwise_append.mpr ⟨h.ascending, List.pairwise_singleton _ _,
    fun id hid id' hid' => ?_⟩
  rw [List.mem_singleton.mp hid']
  exact h.used id hid

theorem Kept.used_next (h : s.Kept) {next : Nat} (hnext : s.engine.numbering.next < next) :
    ∀ id ∈ s.numbers ++ [⟨s.engine.numbering.next⟩], id.val < next := by
  intro id hid
  rcases List.mem_append.mp hid with hid | hid
  · exact Nat.lt_trans (h.used id hid) hnext
  · rw [List.mem_singleton.mp hid]
    exact hnext

/-- A number that was not handed out before. -/
theorem Kept.number (h : s.Kept) (hc : Calm s.engine e')
    (hnext : s.engine.numbering.next < e'.numbering.next) :
    Kept ⟨e', s.numbers ++ [⟨s.engine.numbering.next⟩], s.standing⟩ :=
  { h.calm hc with
    ascending := h.ascending_next
    used := h.used_next hnext
    noted := h.noted.trans (List.sublist_append_left _ _) }

/-- Weaving keeps tracepoints in order, and every list has a plan. -/
theorem places_weave (ws : List (String × Woven)) {table : Table String (List Woven)}
    (hs : Ascending.Sorted table.keys) (hn : ∀ entry ∈ table, entry.2 ≠ []) :
    Ascending.Sorted (ws.foldl (fun t (place, w) => t.append place [w]) table).keys ∧
      ∀ entry ∈ ws.foldl (fun t (place, w) => t.append place [w]) table, entry.2 ≠ [] := by
  induction ws generalizing table with
  | nil => exact ⟨hs, hn⟩
  | cons x ws ih =>
      refine ih (Table.sorted_keys_insert hs _ _) fun entry hm => ?_
      rcases Table.mem_insert hm with rfl | hm
      · exact List.append_ne_nil_of_right_ne_nil _ (List.cons_ne_nil _ _)
      · exact hn entry hm

theorem places_unweave {table : Table String (List Woven)} (id : QueryId)
    (hs : Ascending.Sorted table.keys) :
    Ascending.Sorted (unweave id table).keys ∧ ∀ entry ∈ unweave id table, entry.2 ≠ [] := by
  constructor
  · have hsub : (unweave id table).keys.Sublist table.keys :=
      Table.keys_mapValues (fun ws => ws.filter (·.queryId ≠ id)) table ▸ List.filter_sublist.map _
    exact hs.sublist hsub
  · intro entry hm hnil
    have hfull := (List.mem_filter.mp hm).2
    rw [hnil] at hfull
    cases hfull

theorem plansAt_append (installed more : Table QueryId QueryAdvice) (t : String) :
    plansAt (installed ++ more) t = plansAt installed t ++ plansAt more t := List.flatMap_append

theorem plansAt_erase (id : QueryId) (installed : Table QueryId QueryAdvice) (t : String) :
    plansAt (installed.erase id) t = (plansAt installed t).filter (·.1 ≠ id) := by
  rw [plansAt, plansAt, List.filter_flatMap]
  induction installed with
  | nil => rfl
  | cons entry installed ih =>
      rw [Table.erase] at ih ⊢
      by_cases hid : entry.1 = id
      · rw [List.filter_cons_of_neg (by simpa using hid), ih, List.flatMap_cons]
        simp [List.filter_map, Function.comp_def, hid]
      · rw [List.filter_cons_of_pos (by simpa using hid), List.flatMap_cons, ih, List.flatMap_cons]
        simp [List.filter_map, Function.comp_def, hid]

/-- A new query comes last everywhere. -/
theorem Kept.gains {compiled : QueryAdvice} {ws : List (String × Woven)} (h : s.Kept)
    (hg : Gains s.engine e' compiled ws) :
    Kept ⟨e', s.numbers ++ [compiled.queryId], s.standing ++ [compiled.queryId]⟩ := by
  -- Numbers only grow, so all tables by number grow at their ends.
  have hlast : ∀ l ∈ s.standing, compare l compiled.queryId = .lt := by
    intro l hl
    rw [hg.queryId, compare_queryId, Nat.compare_eq_lt]
    exact h.used_standing hl
  have hinstalled : e'.installed = s.engine.installed ++ [(compiled.queryId, compiled)] := by
    rw [hg.installed, Table.insert_last compiled (h.installed ▸ hlast)]
  have hnext : s.engine.numbering.next < e'.numbering.next := hg.next ▸ Nat.lt_succ_self _
  have hplaces := places_weave ws h.places h.nonempty
  rw [← hg.woven] at hplaces
  constructor
  case installed =>
    rw [hinstalled, ← h.installed]
    exact List.map_append
  case own =>
    intro entry hm
    rw [hinstalled] at hm
    rcases List.mem_append.mp hm with hm | hm
    · exact h.own entry hm
    · rw [List.mem_singleton.mp hm]
      exact hg.own
  case live =>
    show e'.sinks.live.keys = _
    rw [live_of_resolve hg.resolved hg.own.output (h.live ▸ h.sorted), h.live,
      if_pos (List.any_eq_true.mpr hg.own.emits), Ascending.insert_last hlast]
  case woven =>
    intro t
    simp only [hinstalled, hg.woven, hg.config, listed_weave, plansAt_append]
    refine List.rel_append (h.woven t) ?_
    rw [plansAt, List.flatMap_singleton]
    exact implements_wovenAt hg.resolved t
  case places => exact hplaces.1
  case nonempty => exact hplaces.2
  case ascending => exact hg.queryId ▸ h.ascending_next
  case used => exact hg.queryId ▸ h.used_next hnext
  case noted => exact h.noted.append (List.Sublist.refl _)

/-- A query is taken out everywhere. -/
theorem Kept.uninstall (h : s.Kept) (id : QueryId) :
    Kept ⟨(s.engine.uninstall id).2, s.numbers, s.standing.filter (· ≠ id)⟩ := by
  rcases uninstall_cases id s.engine with ⟨hnone, hsame⟩ |
    ⟨hconfig, hinstalled, hwoven, hsinks, hnumbering⟩
  · have hstanding : s.standing.filter (· ≠ id) = s.standing := by
      refine List.filter_eq_self.mpr fun l hl => decide_eq_true ?_
      rintro rfl
      exact hnone (h.installed ▸ hl)
    rw [hsame, hstanding]
    exact h
  · have hplaces := places_unweave id h.places
    rw [← hwoven] at hplaces
    constructor
    case installed => rw [hinstalled, Table.keys_erase, h.installed]
    case own =>
      intro entry hm
      rw [hinstalled] at hm
      exact h.own entry (List.mem_filter.mp hm).1
    case live =>
      show (s.engine.uninstall id).2.sinks.live.keys = _
      rw [hsinks, Sinks.destroy, Table.keys_erase, h.live]
    case woven =>
      intro t
      simp only [hinstalled, hwoven, hconfig, plansAt_erase,
        listed_unweave (Ascending.Sorted.nodup h.places)]
      refine List.rel_filter ?_ (h.woven t)
      intro plan x hx
      simp only [hx.queryId]
    case places => exact hplaces.1
    case nonempty => exact hplaces.2
    case ascending => exact h.ascending
    case used =>
      simp only [hnumbering]
      exact h.used
    case noted => exact List.filter_sublist.trans h.noted

theorem after_change {c : Change} (hl : ∀ id, c.leaves id = true) : s.after (.change c) =
    ⟨s.engine.apply c, s.numbers ++ s.engine.handedOutBy c,
      s.standing ++ s.engine.installedBy c⟩ := by
  rw [after, List.filter_eq_self.mpr fun id _ => hl id]

/-- A change that hands out no number. -/
theorem Kept.idle {c : Change} (h : s.Kept) (hc : Calm s.engine (s.engine.apply c))
    (hl : ∀ id, c.leaves id = true) (hn : s.engine.handedOutBy c = [])
    (hi : s.engine.installedBy c = []) : (s.after (.change c)).Kept := by
  rw [after_change hl, hn, hi, List.append_nil, List.append_nil]
  exact h.calm hc

theorem Kept.compile (h : s.Kept) (q : Query) : (s.after (.change (.compile q))).Kept := by
  have hcalm := (quiet_compile (e := s.engine) (q := q)).calm
  cases hr : (s.engine.compile q).1 with
  | error err =>
      refine h.idle hcalm (fun _ => rfl) ?_ rfl
      rw [handedOutBy, hr]
      rfl
  | ok compiled =>
      have hnext : s.engine.numbering.next < (s.engine.compile q).2.numbering.next :=
        compile_next ▸ Nat.lt_succ_self _
      have hnumber : s.engine.handedOutBy (.compile q) = [⟨s.engine.numbering.next⟩] := by
        rw [handedOutBy, hr, ← (compiles_of_compile hr).queryId]
        rfl
      have hnone : s.engine.installedBy (.compile q) = [] := rfl
      rw [after_change fun _ => rfl, hnumber, hnone, List.append_nil]
      exact h.number hcalm hnext

theorem Kept.install (h : s.Kept) (q : Query) : (s.after (.change (.install q))).Kept := by
  rcases install_cases (q := q) h.next_not_live with ⟨err, hr, hquiet⟩ | ⟨compiled, ws, hr, hg⟩
  · have hnone : s.engine.installedBy (.install q) = [] := by
      rw [installedBy, hr]
      rfl
    exact h.idle hquiet.calm (fun _ => rfl) hnone hnone
  · have hnumber : s.engine.installedBy (.install q) = [compiled.queryId] := by
      rw [installedBy, hr]
      rfl
    have hout : s.engine.handedOutBy (.install q) = [compiled.queryId] := hnumber
    rw [after_change fun _ => rfl, hout, hnumber]
    exact h.gains hg

theorem Kept.installNamed (h : s.Kept) (name : String) :
    (s.after (.change (.installNamed name))).Kept := by
  rcases installNamed_cases name s.engine with ⟨q, hsame⟩ | ⟨err, hsame⟩
  · have hafter : s.after (.change (.installNamed name)) = s.after (.change (.install q)) := by
      rw [after_change fun _ => rfl, after_change fun _ => rfl]
      simp only [apply, handedOutBy, installedBy, hsame]
    rw [hafter]
    exact h.install q
  · have hnone : s.engine.installedBy (.installNamed name) = [] := by
      rw [installedBy, hsame]
      rfl
    refine h.idle ?_ (fun _ => rfl) hnone hnone
    rw [apply, hsame]
    exact Quiet.refl.calm

/-- Whatever is done to an engine, its books are kept. -/
theorem Kept.after (h : s.Kept) (deed : Deed) : (s.after deed).Kept := by
  cases deed with
  | invoke p b => exact h.calm (calm_pass p (s.engine, b))
  | collect timestampMs => exact h.calm (calm_collect s.engine timestampMs)
  | change c =>
      cases c with
      | addTracepoint t =>
          exact h.idle ⟨rfl, rfl, rfl, fun _ => rfl, Nat.le_refl _⟩ (fun _ => rfl) rfl rfl
      | parse name text =>
          exact h.idle ⟨rfl, rfl, rfl, fun _ => rfl, Nat.le_refl _⟩ (fun _ => rfl) rfl rfl
      | build steps =>
          exact h.idle ⟨rfl, rfl, rfl, fun _ => rfl, Nat.le_refl _⟩ (fun _ => rfl) rfl rfl
      | optimize q => exact h.idle quiet_optimize.calm (fun _ => rfl) rfl rfl
      | compile q => exact h.compile q
      | install q => exact h.install q
      | installNamed name => exact h.installNamed name
      | uninstall id =>
          have hafter : s.after (.change (.uninstall id)) =
              ⟨(s.engine.uninstall id).2, s.numbers, s.standing.filter (· ≠ id)⟩ := by
            simp [Books.after, handedOutBy, installedBy, apply, Change.leaves]
          rw [hafter]
          exact h.uninstall id

theorem kept_ofDeeds (config : Config) (deeds : List Deed) : (ofDeeds config deeds).Kept :=
  List.foldlRecOn deeds _ (motive := Kept) (kept_start config) fun _ h deed _ => h.after deed

/-- The queries with a plan in some tracepoint are those that stand. -/
theorem Kept.mem_woven_iff (h : s.Kept) (id : QueryId) :
    (∃ t, ∃ x ∈ s.engine.woven.listed t, x.queryId = id) ↔ id ∈ s.standing := by
  have hids : ∀ t, (plansAt s.engine.installed t).map (·.1) =
      (s.engine.woven.listed t).map (·.queryId) :=
    fun t => map_eq_of_forall₂ ((h.woven t).imp fun _ _ hx => hx.queryId.symm)
  rw [← h.installed]
  constructor
  · rintro ⟨t, hx⟩
    rw [← List.mem_map, ← hids] at hx
    obtain ⟨plan, hplan, rfl⟩ := List.mem_map.mp hx
    obtain ⟨entry, hentry, hm⟩ := List.mem_flatMap.mp hplan
    obtain ⟨w, _, rfl⟩ := List.mem_map.mp hm
    exact List.mem_map_of_mem hentry
  · intro hid
    obtain ⟨entry, hentry, rfl⟩ := List.mem_map.mp hid
    obtain ⟨w, hw, _⟩ := (h.own entry hentry).emits
    refine ⟨w.tracepoint, ?_⟩
    rw [← List.mem_map, ← hids]
    have hplan : (entry.1, w) ∈ plansAt s.engine.installed w.tracepoint :=
      List.mem_flatMap.mpr ⟨entry, hentry, List.mem_map_of_mem (List.mem_filter.mpr ⟨hw, by simp⟩)⟩
    exact List.mem_map_of_mem hplan

end Books

/-- Whatever an engine goes through, the queries that are installed, those with a sink and those
with a woven plan are the ones that were installed and not taken out since. The plans of a
tracepoint are those of these queries for it, in the order of installation, and without a plan
it has no list. No number is handed out twice. To install a query and to fail changes neither
the installed queries nor plans nor sinks. -/
theorem books_agree (config : Config) (deeds : List Deed) :
    let s := Books.ofDeeds config deeds
    s.engine.installed.keys = s.standing ∧
      s.engine.sinks.live.keys = s.standing ∧
      (∀ id, (∃ t, ∃ x ∈ s.engine.woven.listed t, x.queryId = id) ↔ id ∈ s.standing) ∧
      (∀ t, List.Forall₂ (Implements s.engine.config.baggageEnabled) (plansAt s.engine.installed t)
        (s.engine.woven.listed t)) ∧
      (∀ entry ∈ s.engine.woven, entry.2 = s.engine.woven.listed entry.1 ∧ entry.2 ≠ []) ∧
      s.numbers.Nodup ∧
      (∀ q err, (s.engine.install q).1 = .error err → Quiet s.engine (s.engine.install q).2) ∧
      ∀ name err, (s.engine.installNamed name).1 = .error err →
        Quiet s.engine (s.engine.installNamed name).2 := by
  intro s
  have h : s.Kept := Books.kept_ofDeeds config deeds
  have hfails : ∀ q err, (s.engine.install q).1 = .error err →
      Quiet s.engine (s.engine.install q).2 := by
    intro q err hr
    rcases install_cases (q := q) h.next_not_live with ⟨_, _, hquiet⟩ | ⟨compiled, ws, hok, _⟩
    · exact hquiet
    · rw [hok] at hr
      cases hr
  refine ⟨h.installed, h.live, h.mem_woven_iff, h.woven, fun entry hm => ⟨?_, h.nonempty entry hm⟩,
    ?_, hfails, fun name err hr => ?_⟩
  · rw [Table.listed, Table.find?_of_mem (Ascending.Sorted.nodup h.places) hm, Option.getD_some]
  · refine h.ascending.imp ?_
    rintro id _ hlt rfl
    exact Nat.lt_irrefl _ hlt
  · rcases installNamed_cases name s.engine with ⟨q, hsame⟩ | ⟨_, hsame⟩
    · rw [hsame] at hr ⊢
      exact hfails q err hr
    · rw [hsame]
      exact .refl

namespace Sample

/-- The sample is installed twice and compiled once more, and then the first one is taken out. -/
def replacing : List Deed :=
  [.change (.build (joined.select ["l.user", "o.item"])), .change (.install buyers),
    .invoke ⟨quiet, "login", [("user", .str "ann")]⟩ .empty, .change (.install Query.Sample.orders),
    .change (.install buyers), .collect 5, .change (.compile buyers), .change (.uninstall ⟨1⟩)]

end Sample

open Engine.Sample in
theorem books_agree_replacing :
    let s := Books.ofDeeds ⟨false, true, false, 1000⟩ replacing
    s.standing = [⟨3⟩] ∧ s.numbers = [⟨1⟩, ⟨3⟩, ⟨4⟩] ∧ s.engine.installed.keys = [⟨3⟩] ∧
      Quiet s.engine (s.engine.install Query.Sample.orders).2 := by
  intro s
  have hfails : (s.engine.install Query.Sample.orders).1.toOption = none := by decide +kernel
  obtain ⟨hinstalled, _, _, _, _, _, hquiet, _⟩ := books_agree ⟨false, true, false, 1000⟩ replacing
  refine ⟨by decide +kernel, by decide +kernel, hinstalled.trans (by decide +kernel), ?_⟩
  cases hr : (s.engine.install Query.Sample.orders).1 with
  | error err => exact hquiet _ err hr
  | ok id =>
      rw [hr] at hfails
      cases hfails

end Engine

end CausalTrace
