import CausalTrace.Proofs.Correctness
import CausalTrace.Proofs.Moving

/-!
# Pushing down preserves results

However many lets and conditions move from the root of a query into the queries it
joins, the query can still be compiled and installed, and it hands the same rows to its
sink.
-/

namespace CausalTrace

namespace Query

variable {a : Arena} {q u q' : Query} {aliasName : String}

/-- A query from which lets and conditions of the first stage have been pushed down. -/
inductive Pushed (a : Arena) (q : Query) : Query → Prop where
  | refl : Pushed a q q
  | pushLet {u q' : Query} {aliasName : String} :
      Pushed a q u → u.pushOneLet a = some (aliasName, q') → Pushed a q q'
  | pushWhere {u q' : Query} {aliasName : String} :
      Pushed a q u → u.pushOneWhere = some (aliasName, q') → Pushed a q q'

/-- What holds of a query that is in scope, and does what another query does. -/
structure Mimics (a : Arena) (q q' : Query) : Prop where
  formed : Formed (Lawful true) a q'
  inScope : q'.Scoped a false
  unambiguous : q.Unambiguous → q'.Unambiguous
  arrivals : ∀ passes, q'.arrivals a passes = q.arrivals a passes
  shape : q'.stage.shape = q.stage.shape
  outputs : q'.stage.outputs = q.stage.outputs

theorem Mimics.refl (hf : WellFormed a q) (hs : q.Scoped a false) : Mimics a q q where
  formed := hf
  inScope := hs
  unambiguous := id
  arrivals _ := rfl
  shape := rfl
  outputs := rfl

theorem Mimics.trans (h : Mimics a q u) (h' : Mimics a u q') : Mimics a q q' where
  formed := h'.formed
  inScope := h'.inScope
  unambiguous := h'.unambiguous ∘ h.unambiguous
  arrivals passes := (h'.arrivals passes).trans (h.arrivals passes)
  shape := h'.shape.trans h.shape
  outputs := h'.outputs.trans h.outputs

/-- One step with a let. -/
theorem mimics_pushOneLet (hf : WellFormed a q) (hs : q.Scoped a false)
    (h : q.pushOneLet a = some (aliasName, q')) : Mimics a q q' := by
  cases q with
  | node s js =>
      obtain ⟨l, before, u, after, rfl, hm, rfl⟩ := pushOneLet_eq_some hf h
      have hsupplied := (scoped_iff_supplied.mp hs).1
      have hu : u.Supplied a true := by
        obtain ⟨_, _, hjoined⟩ := hsupplied
        exact hjoined _ List.mem_append_cons_self
      have hformed : WellFormed a (node (s.withoutLet l) (before ++ (_, u.withStage
          (·.withLet l (((s.withoutLet l).needs a).contains l.2))) :: after)) := hm.formed hf
      exact ⟨hformed, scoped_iff_supplied.mpr ⟨hm.supplied hf List.contains_iff_mem.mpr hsupplied,
        passes_of_tight hformed⟩, hm.unambiguous hf hu, hm.arrivals hf hs, rfl, rfl⟩

/-- One step with a condition. -/
theorem mimics_pushOneWhere (hf : WellFormed a q) (hs : q.Scoped a false)
    (h : q.pushOneWhere = some (aliasName, q')) : Mimics a q q' := by
  cases q with
  | node s js =>
      obtain ⟨w, left, before, u, after, rfl, hm, rfl⟩ := pushOneWhere_eq_some hf h
      have hsupplied := (scoped_iff_supplied.mp hs).1
      have hformed := hm.formed hf
      exact ⟨hformed, scoped_iff_supplied.mpr ⟨hm.supplied hsupplied, passes_of_tight hformed⟩,
        unambiguous_whereMoved, hm.arrivals hf hs, rfl, rfl⟩

/-- Any number of steps. -/
theorem Pushed.mimics (h : Pushed a q q') (hf : WellFormed a q) (hs : q.Scoped a false) :
    Mimics a q q' := by
  induction h with
  | refl => exact .refl hf hs
  | pushLet _ hstep ih => exact ih.trans (mimics_pushOneLet ih.formed ih.inScope hstep)
  | pushWhere _ hstep ih => exact ih.trans (mimics_pushOneWhere ih.formed ih.inScope hstep)

theorem Mimics.results (h : Mimics a q q') (passes : List Pass) :
    q'.results a passes = q.results a passes := by
  rw [Query.results, Query.results, h.arrivals]
  refine List.map_congr_left fun env _ => ?_
  rw [Stage.resultRow, Stage.resultRow, h.shape, h.outputs]

end Query

namespace Engine

variable {config : Config} {e e' : Engine} {q q' : Query} {id : QueryId}

/-- A query whose lets and conditions have been pushed down compiles if the original
does, can be installed in its place, and hands the same rows to its sink. -/
theorem emissions_of_pushed (hreach : Reachable config e)
    (hoptimize : config.optimizeQueries = false)
    (hbaggage : config.baggageEnabled = true) (hq : q.Built e.catalog.arena)
    (hp : q.Pushed e.catalog.arena q') :
    (∀ id, (∃ c, q.compile e.catalog.arena id = .ok c) →
      ∃ c, q'.compile e.catalog.arena id = .ok c) ∧
    ∀ id e', e.install q = (.ok id, e') → ∃ e'', e.install q' = (.ok id, e'') ∧
      ∀ passes, emissions id (e'', .empty) passes = emissions id (e', .empty) passes := by
  rw [← hreach.config_eq] at hoptimize hbaggage
  have hf := hq.wellFormed
  refine ⟨fun id hc => ?_, fun id e' h => ?_⟩
  · have hs := (Query.compile_isOk_iff hf.ordered).mp hc
    exact (Query.compile_isOk_iff hf.ordered).mpr (hp.mimics hf hs).inScope
  · obtain rfl := (install_eq_ok h).1
    obtain ⟨hs, hunambiguous⟩ := (install_isOk_iff hoptimize hf.ordered).mp ⟨e', h⟩
    have hmimics := hp.mimics hf hs
    obtain ⟨e'', h'⟩ := (install_isOk_iff hoptimize hf.ordered).mpr
      ⟨hmimics.inScope, hmimics.unambiguous hunambiguous⟩
    refine ⟨e'', h', fun passes => ?_⟩
    rw [(emissions_of_formed hreach.orderly hoptimize hbaggage hf h passes).1,
      (emissions_of_formed hreach.orderly hoptimize hbaggage hmimics.formed h' passes).1]
    exact hmimics.results _

namespace Sample

/-- A login as it is joined, observing and delivering its user. -/
def arriving : Query :=
  .node ⟨⟨none, login⟩, [("user", ⟨0⟩)], [], [], [], [⟨0⟩], .unfinished⟩ []

/-- Orders with a share of every login before them but one. -/
def shares : Query :=
  .node ⟨⟨some "o", order⟩, [("item", ⟨2⟩)], [], [("share", ⟨1⟩)], [⟨"{} != 3", [⟨0⟩]⟩],
    [⟨1⟩, ⟨2⟩], .select [⟨1⟩, ⟨2⟩]⟩ [("l", arriving)]

/-- The same with the share and the condition at the login. -/
def pushedShares : Query :=
  .node ⟨⟨some "o", order⟩, [("item", ⟨2⟩)], [], [], [], [⟨1⟩, ⟨2⟩], .select [⟨1⟩, ⟨2⟩]⟩
    [("l", .node ⟨⟨none, login⟩, [("user", ⟨0⟩)], [], [("share", ⟨1⟩)], [⟨"{} != 3", [⟨0⟩]⟩],
      [⟨0⟩, ⟨1⟩], .unfinished⟩ [])]

def sharesArena : Arena :=
  ⟨[.observed "" "user", .computed "share" "12 / {}" [⟨0⟩], .observed "o" "item"]⟩

/-- The first of them while nothing but the share is asked for. -/
def asked : Query :=
  .node ⟨⟨some "o", order⟩, [], [], [("share", ⟨1⟩)], [], [], .unfinished⟩ [("l", arriving)]

def askedArena : Arena := ⟨[.observed "" "user", .computed "share" "12 / {}" [⟨0⟩]]⟩

theorem built_shares : shares.Built sharesArena := by
  have hnamed : Query.named "o" order = .ok (.watch ⟨some "o", order⟩) := rfl
  have hjoin : (Query.joinTracepoint (.watch ⟨some "o", order⟩) "l" login none).Yields .empty
      joined .empty := rfl
  -- The queries in between are spelled out, so that each step is evaluated alone.
  have hlet : (joined.addLet "share" "12 / {}" ["l.user"]).Yields .empty asked askedArena := rfl
  have hwhere : (asked.addWhere "{} != 3" ["l.user"]).Yields askedArena
      (asked.withStage fun s => { s with wheres := [⟨"{} != 3", [⟨0⟩]⟩] }) askedArena := rfl
  have hselect : ((asked.withStage fun s => { s with wheres := [⟨"{} != 3", [⟨0⟩]⟩] }).select
      ["share", "o.item"]).Yields askedArena shares sharesArena := rfl
  exact ((((Query.Built.named hnamed).joinTracepoint hjoin).addLet hlet).addWhere hwhere).select
    hselect

theorem pushed_shares : shares.Pushed sharesArena pushedShares := by
  obtain ⟨aliasName, q, hlet, aliasName', hwhere⟩ : ∃ aliasName q,
      shares.pushOneLet sharesArena = some (aliasName, q) ∧ ∃ aliasName',
        q.pushOneWhere = some (aliasName', pushedShares) := ⟨_, _, rfl, _, rfl⟩
  exact .pushWhere (.pushLet .refl hlet) hwhere

def asking : Build Query := do
  let q ← joined.addLet "share" "12 / {}" ["l.user"]
  let q ← q.addWhere "{} != 3" ["l.user"]
  q.select ["share", "o.item"]

/-- An engine in which the shares have been built. -/
def sharing : Engine := ((Engine.start ⟨false, true, false, 1000⟩).buildQuery asking).2

/-- For the first user there is no share, for the last one it is not asked for. -/
def logins : List Pass :=
  [⟨quiet, "login", [("user", .int 0)]⟩, ⟨quiet, "login", [("user", .int 4)]⟩,
    ⟨quiet, "login", [("user", .int 3)]⟩, ⟨quiet, "order", [("item", .int 7)]⟩]

end Sample

open Engine.Sample in
theorem emissions_pushedShares :
    emissions ⟨1⟩ ((sharing.install pushedShares).2, .empty) logins = [[.int 3, .int 7]] := by
  have hreach : Reachable ⟨false, true, false, 1000⟩ sharing := .buildQuery asking .start
  have harena : sharing.catalog.arena = sharesArena := by decide +kernel
  have hinstall : (sharing.install shares).1 = .ok ⟨1⟩ := by decide +kernel
  obtain ⟨_, hsame⟩ := emissions_of_pushed hreach rfl rfl (harena ▸ built_shares)
    (harena ▸ pushed_shares)
  have hpair : sharing.install shares = (.ok ⟨1⟩, (sharing.install shares).2) := by
    rw [← hinstall]
  obtain ⟨e'', h, hrun⟩ := hsame _ _ hpair
  rw [h, hrun]
  decide +kernel

end Engine

end CausalTrace
