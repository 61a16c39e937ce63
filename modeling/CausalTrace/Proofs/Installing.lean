import CausalTrace.Proofs.Passing

/-!
# Installing queries

Whatever has happened to an engine, every plan woven into it belongs to a query of a
number handed out before, and delivers to the bags or the sink of that query. A newly
installed query is therefore on its own, and starts with empty bags and an empty sink.
-/

namespace CausalTrace

/-! ## Owners -/

/-- The query to whose bags or sink a plan delivers. -/
def OutputSpec.owner {ν : Type} : OutputSpec ν → QueryId
  | .pack id _ => id.query
  | .emit id _ => id

def Target.owner : Target → QueryId
  | .pack bag => bag.id.query
  | .emit sink => sink.outputId

theorem owner_target {ν : Type} (o : OutputSpec ν) (sinks : Sinks) (enabled : Bool) :
    (o.target sinks enabled).1.owner = o.owner := by
  cases o with
  | pack id bag =>
      cases enabled with
      | true => cases bag <;> rfl
      | false => rfl
  | emit id bag => rfl

/-- What a resolved plan has from the plan it was resolved from. -/
structure Advice.Resolves (enabled : Bool) (sinks : Sinks)
    (spec : AdviceSpec String) (advice : Advice) (sinks' : Sinks) : Prop where
  unpacks : advice.unpacks = spec.unpack.map fun u =>
    ⟨Bag.create u.bagId u.bag enabled, u.bag.arity⟩
  target : advice.target = (spec.output.target sinks enabled).1
  sinks : sinks' = (spec.output.target sinks enabled).2

theorem Advice.resolves_of_create {spec : AdviceSpec String} {sinks sinks' : Sinks} {enabled : Bool}
    {advice : Advice} (h : Advice.create spec sinks enabled = .ok (advice, sinks')) :
    Advice.Resolves enabled sinks spec advice sinks' := by
  rw [Advice.create] at h
  obtain ⟨_, _, h⟩ := bind_eq_ok_iff.mp h
  obtain ⟨_, _, h⟩ := bind_eq_ok_iff.mp h
  obtain ⟨_, _, h⟩ := bind_eq_ok_iff.mp h
  obtain ⟨_, _, h⟩ := bind_eq_ok_iff.mp h
  cases ho : spec.output with
  | pack id bag =>
      rw [ho] at h
      obtain ⟨_, _, h⟩ := bind_eq_ok_iff.mp h
      cases h
      exact ⟨rfl, by rw [ho]; rfl, by rw [ho]; rfl⟩
  | emit id bag =>
      rw [ho] at h
      obtain ⟨_, _, h⟩ := bind_eq_ok_iff.mp h
      cases h
      exact ⟨rfl, by rw [ho]; rfl, by rw [ho]; rfl⟩

theorem owner_of_create {spec : AdviceSpec String} {sinks sinks' : Sinks} {enabled : Bool}
    {advice : Advice} (h : Advice.create spec sinks enabled = .ok (advice, sinks')) :
    advice.target.owner = spec.output.owner := by
  rw [(Advice.resolves_of_create h).target, owner_target]

namespace Query

variable {a : Arena} {id : QueryId} {pack : Bool} {start : Nat}

theorem owner_weave {s : Stage} {unpack : List (UnpackSpec VarId)} {own : BagId}
    {plan : AdviceSpec VarId} (h : planStage a s unpack own pack = .ok plan) :
    (weave a s own plan).advice.output.owner = own.query := by
  obtain ⟨_, ls, hp⟩ := planStage_eq_ok h
  rw [weave, hp.plan_eq]
  cases pack <;> rfl

theorem owner_of_compileFrom {q : Query} {c : Compiled}
    (h : q.compileFrom a id pack start = .ok c) : ∀ w ∈ c.weaves, w.advice.output.owner = id := by
  intro w hw
  obtain ⟨s, unpack, own, pack, plan, hp, hid, rfl⟩ := exists_plan_of_mem_weaves h w hw
  rw [owner_weave hp, hid]

end Query

namespace Engine

/-! ## Plans of their queries -/

theorem owner_of_resolve {enabled : Bool} {id : QueryId} {weaves : List WeaveSpec}
    {sinks sinks' : Sinks} {ws : List (String × Woven)}
    (h : resolve enabled id weaves sinks = .ok (ws, sinks'))
    (ho : ∀ w ∈ weaves, w.advice.output.owner = id) :
    ∀ x ∈ ws, x.2.queryId = id ∧ x.2.advice.target.owner = id := by
  induction weaves generalizing sinks ws with
  | nil =>
      cases h
      exact List.forall_mem_nil _
  | cons w weaves ih =>
      obtain ⟨how, hos⟩ := List.forall_mem_cons.mp ho
      obtain ⟨⟨advice, next⟩, hc, h⟩ := bind_eq_ok_iff.mp h
      obtain ⟨⟨rest, last⟩, hr, he⟩ := bind_eq_ok_iff.mp h
      cases he
      refine List.forall_mem_cons.mpr ⟨⟨rfl, ?_⟩, ih hr hos⟩
      rw [owner_of_create hc, how]

/-- The plans of a query go to its bags and its sink, and its number is used up. -/
def Orderly (e : Engine) : Prop :=
  ∀ entry ∈ e.woven, ∀ w ∈ entry.2,
    w.advice.target.owner = w.queryId ∧ w.queryId.val < e.numbering.next

theorem Orderly.foreign {e : Engine} (h : e.Orderly) {t : String} {w : Woven}
    (hw : w ∈ e.woven.listed t) : Foreign ⟨e.numbering.next⟩ w := by
  obtain ⟨howner, hlt⟩ : w.advice.target.owner = w.queryId ∧ w.queryId.val < e.numbering.next := by
    rw [Table.listed] at hw
    cases hf : e.woven.find? t with
    | none =>
        rw [hf] at hw
        cases hw
    | some ws =>
        rw [hf] at hw
        exact h _ (Table.mem_of_find?_eq_some hf) w hw
  have hne : w.queryId ≠ ⟨e.numbering.next⟩ := by
    intro he
    rw [he] at hlt
    exact Nat.lt_irrefl _ hlt
  refine ⟨hne, ?_⟩
  cases ht : w.advice.target with
  | pack bag =>
      rw [ht] at howner
      intro he
      exact hne (howner.symm.trans he)
  | emit sink =>
      rw [ht] at howner
      intro he
      exact hne (howner.symm.trans he)

/-- An engine that has come about from a new one. -/
inductive Reachable (config : Config) : Engine → Prop where
  | start : Reachable config (.start config)
  | addTracepoint {e : Engine} (t : Tracepoint) :
      Reachable config e → Reachable config (e.addTracepoint t)
  | parseQuery {e : Engine} (name text : String) :
      Reachable config e → Reachable config (e.parseQuery name text).2
  | buildQuery {e : Engine} {α : Type} (steps : Build α) :
      Reachable config e → Reachable config (e.buildQuery steps).2
  | optimize {e : Engine} (q : Query) : Reachable config e → Reachable config (e.optimize q).2
  | compile {e : Engine} (q : Query) : Reachable config e → Reachable config (e.compile q).2
  | install {e : Engine} (q : Query) : Reachable config e → Reachable config (e.install q).2
  | uninstall {e : Engine} (id : QueryId) :
      Reachable config e → Reachable config (e.uninstall id).2
  | invoke {e : Engine} (p : Pass) (b : Baggage) :
      Reachable config e → Reachable config (pass (e, b) p).1
  | collect {e : Engine} (timestampMs : Nat) :
      Reachable config e → Reachable config (e.collect timestampMs).2

/-- Every plan is one of before, or one of those woven in. -/
theorem mem_weave {ws : List (String × Woven)}
    {table : Table String (List Woven)} {P : Woven → Prop}
    (ht : ∀ entry ∈ table, ∀ w ∈ entry.2, P w) (hw : ∀ x ∈ ws, P x.2) :
    ∀ entry ∈ ws.foldl (fun t (place, w) => t.append place [w]) table, ∀ w ∈ entry.2, P w := by
  induction ws generalizing table with
  | nil => exact ht
  | cons x ws ih =>
      obtain ⟨hx, hws⟩ := List.forall_mem_cons.mp hw
      refine ih ?_ hws
      intro entry hm w hmem
      rcases Table.mem_insert hm with rfl | hm
      · rcases List.mem_append.mp hmem with hl | hs
        · rw [Table.listed] at hl
          cases hf : table.find? x.1 with
          | none =>
              rw [hf] at hl
              cases hl
          | some us =>
              rw [hf] at hl
              exact ht _ (Table.mem_of_find?_eq_some hf) w hl
        · rw [List.mem_singleton.mp hs]
          exact hx
      · exact ht entry hm w hmem

theorem mem_unweave {id : QueryId} {table : Table String (List Woven)} {P : Woven → Prop}
    (ht : ∀ entry ∈ table, ∀ w ∈ entry.2, P w) :
    ∀ entry ∈ unweave id table, ∀ w ∈ entry.2, P w := by
  intro entry hm w hw
  obtain ⟨old, hold, rfl⟩ := List.mem_map.mp (List.mem_filter.mp hm).1
  exact ht old hold w (List.mem_filter.mp hw).1

/-! ## Reachable engines -/

section

variable {config : Config} {e : Engine} {q : Query}

theorem optimize_keeps : (e.optimize q).2.woven = e.woven ∧
    (e.optimize q).2.numbering = e.numbering := by
  rw [optimize]
  split
  · exact ⟨rfl, rfl⟩
  · exact ⟨rfl, rfl⟩

theorem optimize_off (hc : e.config.optimizeQueries = false) : e.optimize q = (q, e) := by
  rw [optimize, hc]
  rfl

theorem compile_config : (e.compile q).2.config = e.config := by
  show (e.optimize q).2.config = e.config
  rw [optimize]
  split
  · rfl
  · rfl

theorem compile_sinks : (e.compile q).2.sinks = e.sinks := by
  show (e.optimize q).2.sinks = e.sinks
  rw [optimize]
  split
  · rfl
  · rfl

theorem compile_fst : (e.compile q).1 =
    (e.optimize q).1.compile (e.optimize q).2.catalog.arena ⟨e.numbering.next⟩ := by
  rw [← (optimize_keeps (q := q)).2]
  rfl

theorem compile_woven : (e.compile q).2.woven = e.woven :=
  optimize_keeps.1

theorem compile_next : (e.compile q).2.numbering.next = e.numbering.next + 1 :=
  congrArg (·.next + 1) (optimize_keeps (q := q)).2

theorem Orderly.of_woven_eq {e' : Engine} (h : e.Orderly) (hw : e'.woven = e.woven)
    (hn : e.numbering.next ≤ e'.numbering.next) : e'.Orderly := by
  intro entry hm w hmem
  rw [hw] at hm
  obtain ⟨howner, hlt⟩ := h entry hm w hmem
  exact ⟨howner, Nat.lt_of_lt_of_le hlt hn⟩

theorem owner_of_compile {a : Arena} {id : QueryId} {compiled : QueryAdvice}
    (h : q.compile a id = .ok compiled) :
    compiled.queryId = id ∧ ∀ w ∈ compiled.weaves, w.advice.output.owner = id := by
  obtain ⟨c, hc, he⟩ := bind_eq_ok_iff.mp h
  cases he
  exact ⟨rfl, Query.owner_of_compileFrom hc⟩

theorem compile_eq_ok {compiled : QueryAdvice} (h : (e.compile q).1 = .ok compiled) :
    compiled.queryId = ⟨e.numbering.next⟩ ∧
      ∀ w ∈ compiled.weaves, w.advice.output.owner = ⟨e.numbering.next⟩ := by
  rw [compile_fst] at h
  exact owner_of_compile h

theorem Orderly.install (h : e.Orderly) : (e.install q).2.Orderly := by
  have hnext : e.numbering.next ≤ (e.compile q).2.numbering.next := by
    rw [compile_next]
    exact Nat.le_succ _
  have hcompiled : (e.compile q).2.Orderly := h.of_woven_eq compile_woven hnext
  rw [Engine.install]
  cases hc : e.compile q with
  | mk r e₁ =>
      rw [hc] at hcompiled
      cases r with
      | error err => exact hcompiled
      | ok compiled =>
          have hok : (e.compile q).1 = .ok compiled := by rw [hc]
          obtain ⟨hid, howner⟩ := compile_eq_ok hok
          have hlt : compiled.queryId.val < e₁.numbering.next := by
            have hn : e₁.numbering.next = e.numbering.next + 1 := by
              rw [← compile_next (q := q), hc]
            rw [hid, hn]
            exact Nat.lt_succ_self _
          simp only
          split
          · exact hcompiled.of_woven_eq rfl (Nat.le_refl _)
          · next ws sinks hr =>
              refine mem_weave hcompiled fun x hx => ?_
              rw [hid] at hr hlt
              obtain ⟨hq, ht⟩ := owner_of_resolve hr howner x hx
              rw [hq, ht]
              exact ⟨rfl, hlt⟩

theorem Reachable.orderly (h : Reachable config e) : e.Orderly := by
  induction h with
  | start => exact List.forall_mem_nil _
  | addTracepoint t _ ih => exact ih.of_woven_eq rfl (Nat.le_refl _)
  | parseQuery name text _ ih => exact ih.of_woven_eq rfl (Nat.le_refl _)
  | buildQuery steps _ ih => exact ih.of_woven_eq rfl (Nat.le_refl _)
  | optimize q _ ih =>
      rw [Engine.optimize]
      split
      · exact ih.of_woven_eq rfl (Nat.le_refl _)
      · exact ih
  | compile q _ ih =>
      refine ih.of_woven_eq compile_woven ?_
      rw [compile_next]
      exact Nat.le_succ _
  | install q _ ih => exact ih.install
  | uninstall id _ ih =>
      rw [Engine.uninstall]
      split
      · exact mem_unweave ih
      · exact ih
  | @invoke e p b _ ih =>
      refine ih.of_woven_eq ?_ ?_
      · rw [pass_eq, steps_woven]
      · have hn := steps_numbering (p := p) (e, b) (e.woven.listed p.tracepoint).zipIdx
        exact Nat.le_of_eq (congrArg (·.next) hn).symm
  | collect timestampMs _ ih => exact ih.of_woven_eq rfl (Nat.le_refl _)

end

/-! ## A query just installed -/

theorem listed_weave (t : String) (ws : List (String × Woven)) (table : Table String (List Woven)) :
    (ws.foldl (fun t (place, w) => t.append place [w]) table).listed t =
      table.listed t ++ wovenAt t ws := by
  induction ws generalizing table with
  | nil => exact (List.append_nil _).symm
  | cons x ws ih =>
      have hcons : wovenAt t (x :: ws) = wovenAt t [x] ++ wovenAt t ws := wovenAt_append t [x] ws
      rw [List.foldl_cons, ih, hcons, ← List.append_assoc]
      congr 1
      show (table.append x.1 [x.2]).listed t = _ ++ wovenAt t [(x.1, x.2)]
      rw [wovenAt_singleton]
      by_cases h : x.1 = t
      · rw [if_pos h, ← h, Table.listed_append_self]
      · rw [if_neg h, List.append_nil, Table.listed_append_ne (Ne.symm h)]

section

variable {e e' : Engine} {q : Query} {id : QueryId}

/-- What has happened when a query is installed. -/
theorem install_eq_ok (h : e.install q = (.ok id, e')) :
    id = ⟨e.numbering.next⟩ ∧
      ∃ c ws, (e.optimize q).1.compileFrom (e.optimize q).2.catalog.arena id false 0 = .ok c ∧
        resolve (e.compile q).2.config.baggageEnabled id c.weaves (e.compile q).2.sinks =
          .ok (ws, e'.sinks) ∧
        e'.woven = ws.foldl (fun t (place, w) => t.append place [w]) e.woven := by
  have hwoven := compile_woven (e := e) (q := q)
  have hfst := compile_fst (e := e) (q := q)
  rw [install] at h
  cases hc : e.compile q with
  | mk r e₁ =>
      rw [hc] at h hwoven hfst
      cases r with
      | error err => cases h
      | ok compiled =>
          obtain ⟨c, hcompiled, he⟩ := bind_eq_ok_iff.mp hfst.symm
          cases he
          simp only at h
          split at h
          · cases h
          · next ws sinks hr =>
              cases h
              exact ⟨rfl, c, ws, hcompiled, hr, by rw [← hwoven]⟩

/-- A query just installed, optimized or not, has empty bags and an empty sink, and no other plan
touches them. -/
theorem Serves.of_install (hreach : e.Orderly) (hb : e.config.baggageEnabled = true)
    (ho : (e.optimize q).2.catalog.arena.Ordered) (hn : (e.optimize q).1.defines.Nodup)
    (h : e.install q = (.ok id, e')) :
    ∃ ws sink, sink.outputId = id ∧ sink.fresh = Gathered.start (e.optimize q).1.stage.emittedBag ∧
      (e.optimize q).1.Scoped (e.optimize q).2.catalog.arena false ∧
      (e.optimize q).1.Deployed (e.optimize q).2.catalog.arena id false (.emit sink) 0 ws ∧
      Serves (e.optimize q).2.catalog.arena id (e.optimize q).1 ws sink [] (e', .empty) := by
  obtain ⟨hid, c, ws, hcompiled, hr, hwoven⟩ := install_eq_ok h
  rw [compile_config, compile_sinks, hb] at hr
  obtain ⟨hd, hs⟩ := Query.deployed_of_resolve ho hn hcompiled hr
  refine ⟨ws, (e.sinks.create id (e.optimize q).1.stage.emittedBag).1, rfl, rfl,
    Query.scoped_of_compileFrom hcompiled, hd, ?_, ?_, ?_⟩
  · intro t
    refine ⟨e.woven.listed t, ?_, fun w hw => hid ▸ hreach.foreign hw⟩
    rw [hwoven, listed_weave]
  · exact Query.joinsCarried_of_empty (fun n => ⟨rfl, rfl⟩) _ _
  · have hresults : ∀ (a : Arena) (q : Query), q.results a [] = [] := by
      intro a q
      cases q
      rfl
    rw [hresults, Gathered.add_nil, hs]
    exact Table.find?_insert_self ..

end

end Engine

end CausalTrace
