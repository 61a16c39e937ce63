import CausalTrace.Proofs.Isolation

/-!
# Happened before

A stage joins what other stages stored before. The bag of a joined stage is filled by one plan,
that of this stage, so what another plan takes out of it was stored by an earlier invocation, or
by that plan in the same one. The latter takes place only where both watch one tracepoint: there
the plan of the joined stage runs first.
-/

namespace CausalTrace

open Engine

/-! ## Plans of stages -/

namespace Query

variable {a : Arena} {id : QueryId} {start : Nat} {q : Query}

/-- The tracepoint that the stage of a query watches. -/
def place (q : Query) : String := q.stage.source.tracepoint.name

/-- A stage unpacks the bags of the queries that it joins, one after another. -/
theorem forall₂_bagsOf (id : QueryId) (start : Nat) (js : List (String × Query)) :
    List.Forall₂ (fun b j => ∃ st, b = j.2.bagOf id st ∧ (st, j.2) ∈ joinsNumbered start js)
      ((bagsOf id start js).map (·.bagId)) js := by
  induction js generalizing start with
  | nil => exact .nil
  | cons j js ih =>
      refine .cons ⟨start, rfl, List.mem_append_left _ (self_mem_numbered _ _)⟩ ((ih _).imp ?_)
      rintro b k ⟨st, hb, hk⟩
      exact ⟨st, hb, List.mem_append_right _ hk⟩

theorem Weaves.place {pack : Bool} {w : WeaveSpec} {p : Nat × Query} (h : Weaves a id pack w p) :
    w.tracepoint = p.2.place := by
  obtain ⟨plan, _, rfl⟩ := h
  rfl

/-- What a plan packs goes to its own bag. -/
theorem Weaves.output {pack : Bool} {w : WeaveSpec} {p : Nat × Query}
    {b : BagId} {bag : BagSpec String} (h : Weaves a id pack w p)
    (ho : w.advice.output = .pack b bag) : b = p.2.bagOf id p.1 := by
  obtain ⟨plan, hp, rfl⟩ := h
  rw [weave, AdviceSpec.rename, (planned hp).2] at ho
  cases pack with
  | true =>
      cases ho
      rfl
  | false => cases ho

/-- Every weave of a compiled query is that of a numbered part. -/
theorem exists_weaves_of_compile {c : QueryAdvice} {w : WeaveSpec} (h : q.compile a id = .ok c)
    (hw : w ∈ c.weaves) : ∃ pack p, p ∈ q.numbered 0 ∧ Weaves a id pack w p := by
  obtain ⟨compiled, hc, he⟩ := bind_eq_ok_iff.mp h
  cases he
  obtain ⟨i, hi⟩ := List.mem_iff_getElem?.mp hw
  obtain ⟨p, hp, hwp⟩ := weaves_getElem? hc hi
  exact ⟨_, p, List.mem_of_getElem? hp, hwp⟩

end Query

/-- A woven plan is that of the stage of a numbered part. -/
structure Woven.Enacts (id : QueryId) (x : Woven) (p : Nat × Query) : Prop where
  adviceId : x.adviceId = p.2.bagOf id p.1
  packs : ∀ bag, x.advice.target = .pack bag → bag.id = p.2.bagOf id p.1
  unpacks : x.advice.unpacks.map (·.bag.id) = (Query.bagsOf id p.1 p.2.joins).map (·.bagId)

namespace Engine

variable {e : Engine} {q : Query} {a : Arena} {id : QueryId} {c : QueryAdvice}

theorem Implements.enacts {enabled pack : Bool} {w : WeaveSpec} {x : Woven} {p : Nat × Query}
    (hx : Implements enabled (id, w) x) (hw : Query.Weaves a id pack w p) : x.Enacts id p := by
  obtain ⟨sinks, sinks', hcreate⟩ := hx.created
  have hresolves := Advice.resolves_of_create hcreate
  refine ⟨hx.adviceId.trans hw.adviceId, fun bag ht => ?_, ?_⟩
  · rw [hresolves.target] at ht
    cases ho : w.advice.output with
    | pack b spec =>
        rw [ho] at ht
        cases ht
        rw [Bag.id_create]
        exact hw.output ho
    | emit outputId spec =>
        rw [ho] at ht
        cases ht
  · rw [hresolves.unpacks, ← hw.bagIds, List.map_map]
    exact List.map_congr_left fun u _ => Bag.id_create ..

/-! ## Installed queries -/

/-- What is installed has been compiled from a query under its number. -/
def Genuine (e : Engine) : Prop :=
  ∀ entry ∈ e.installed, ∃ a q, Query.compile a entry.1 q = .ok entry.2

theorem Genuine.install (h : e.Genuine) (q : Query) : (e.install q).2.Genuine := by
  have hsame : (e.compile q).2.installed = e.installed := quiet_compile.installed
  rw [Engine.install]
  cases hc : e.compile q with
  | mk r e₁ =>
      rw [hc] at hsame
      have hquiet : e₁.Genuine := fun entry hm => h entry (hsame ▸ hm)
      cases r with
      | error err => exact hquiet
      | ok compiled =>
          dsimp only
          cases resolve e₁.config.baggageEnabled compiled.queryId compiled.weaves e₁.sinks with
          | error err => exact hquiet
          | ok woven =>
              intro entry hm
              rcases Table.mem_insert hm with rfl | hm
              · have hok : (e.compile q).1 = .ok compiled := congrArg (·.1) hc
                rw [(compiles_of_compile hok).queryId]
                exact ⟨_, _, compile_fst.symm.trans hok⟩
              · exact hquiet entry hm

theorem Genuine.apply (h : e.Genuine) (c : Change) : (e.apply c).Genuine := by
  cases c with
  | addTracepoint t => exact h
  | parse name text => exact h
  | build steps => exact h
  | optimize q => exact fun entry hm => h entry ((quiet_optimize (q := q)).installed ▸ hm)
  | compile q => exact fun entry hm => h entry ((quiet_compile (q := q)).installed ▸ hm)
  | install q => exact h.install q
  | installNamed name =>
      rw [Engine.apply]
      rcases installNamed_cases name e with ⟨q, hsame⟩ | ⟨err, hsame⟩
      · rw [hsame]
        exact h.install q
      · rw [hsame]
        exact h
  | uninstall out =>
      rw [Engine.apply]
      rcases uninstall_cases out e with ⟨_, hsame⟩ | ⟨_, hinstalled, _⟩
      · rw [hsame]
        exact h
      · exact fun entry hm => h entry (List.mem_of_mem_filter (hinstalled ▸ hm))

theorem genuine_ofDeeds (config : Config) (deeds : List Deed) :
    (Books.ofDeeds config deeds).engine.Genuine := by
  refine List.foldlRecOn deeds _ (motive := fun s : Books => s.engine.Genuine)
    nofun fun s h deed _ => ?_
  cases deed with
  | change c => exact h.apply c
  | invoke p b => exact fun entry hm => h entry ((calm_pass p (s.engine, b)).installed ▸ hm)
  | collect timestampMs =>
      exact fun entry hm => h entry ((calm_collect s.engine timestampMs).installed ▸ hm)

/-- The plans of a query at a tracepoint are those of its stages that watch it. -/
theorem Books.Kept.exists_enacted {s : Books} (h : s.Kept) {t : String} {x : Woven}
    (hc : (x.queryId, c) ∈ s.engine.installed) (hq : q.compile a x.queryId = .ok c)
    (hx : x ∈ s.engine.woven.listed t) :
    ∃ p ∈ q.numbered 0, p.2.place = t ∧ x.Enacts x.queryId p := by
  obtain ⟨plan, hplan, himpl⟩ := exists_of_forall₂ (h.woven t) hx
  obtain ⟨entry, hentry, hm⟩ := List.mem_flatMap.mp hplan
  obtain ⟨w, hw, rfl⟩ := List.mem_map.mp hm
  obtain ⟨hw, ht⟩ := List.mem_filter.mp hw
  have hid : entry = (x.queryId, c) := by
    have hkeys : s.engine.installed.keys.Nodup := Ascending.Sorted.nodup (h.installed ▸ h.sorted)
    exact List.inj_on_of_nodup_map hkeys hentry hc himpl.queryId.symm
  subst hid
  obtain ⟨pack, p, hp, hwp⟩ := Query.exists_weaves_of_compile hq hw
  exact ⟨p, hp, hwp.place.symm.trans (of_decide_eq_true ht), himpl.enacts hwp⟩

/-- A plan that packs into the bag of a stage watches what the stage watches. -/
theorem Books.Kept.place_of_packs {s : Books} (h : s.Kept) {t : String} {x : Woven} {bag : Bag}
    {p : Nat × Query} (hc : (id, c) ∈ s.engine.installed) (hq : q.compile a id = .ok c)
    (hx : x ∈ s.engine.woven.listed t) (ht : x.advice.target = .pack bag) (hp : p ∈ q.numbered 0)
    (hbag : bag.id = p.2.bagOf id p.1) : p.2.place = t := by
  have howner : x.queryId = id := by
    rw [← (h.owned hx).target, ht, Target.owner, hbag]
    rfl
  subst howner
  obtain ⟨r, hr, hplace, henacts⟩ := h.exists_enacted hc hq hx
  have hsame : p = r :=
    Query.eq_of_bagOf_eq x.queryId hp hr (hbag.symm.trans (henacts.packs bag ht))
  rw [hsame, hplace]

/-- The entries of a plan belong to the joins of its stage, one after another. If the bag of one of
them is filled at the same tracepoint, then the joined stage watches it as well. -/
theorem Books.Kept.exists_joining {s : Books} (h : s.Kept) {t : String} {x : Woven}
    (hc : (id, c) ∈ s.engine.installed) (hq : q.compile a id = .ok c)
    (hx : x ∈ s.engine.woven.listed t) (hid : x.queryId = id) :
    ∃ r, q.inTurn[x.adviceId.seq]? = some r ∧ r.place = t ∧
      List.Forall₂
        (fun (u : Unpacking) (j : String × Query) => ∀ z ∈ s.engine.woven.listed t, ∀ bag,
          z.advice.target = .pack bag → bag.id = u.bag.id → j.2.place = t)
        x.advice.unpacks r.joins := by
  subst hid
  obtain ⟨⟨st, r⟩, hr, hplace, henacts⟩ := h.exists_enacted hc hq hx
  obtain ⟨n, hn⟩ := List.mem_iff_getElem?.mp hr
  refine ⟨r, ?_, hplace, ?_⟩
  · rw [henacts.adviceId, Query.bagOf_getElem? _ hn, Query.inTurn, List.getElem?_map, hn]
    rfl
  · have hbags := Query.forall₂_bagsOf x.queryId st r.joins
    rw [← henacts.unpacks, List.forall₂_map_left_iff] at hbags
    refine hbags.imp ?_
    rintro u j ⟨st', hu, hj⟩ z hz bag ht hbag
    exact h.place_of_packs hc hq hz ht (Query.numbered_trans hr hj) (hbag.trans hu)

/-! ## What a pass stores -/

/-- The entry that a plan stores, with its bag, if it stores one. -/
def stores (state : Engine × Baggage) (x : Pass × Woven × Nat) : List (BagId × Entry) :=
  match x.2.1.advice.target with
  | .pack bag =>
      (((runPlan state x).2.entries bag.id).filter fun y => y ∉ state.2.entries bag.id).map
        (bag.id, ·)
  | .emit _ => []

variable {state : Engine × Baggage} {x : Pass × Woven × Nat} {xs : List (Pass × Woven × Nat)}
  {b : BagId} {y : Entry}

theorem mem_entries_runPlan (hy : y ∈ (runPlan state x).2.entries b) :
    y ∈ state.2.entries b ∨ (b, y) ∈ stores state x := by
  by_cases hold : y ∈ state.2.entries b
  · exact .inl hold
  · rcases runPlan_cases state x with hsame | ⟨bag, new, ht, _, hwrites⟩
    · exact .inl (hsame ▸ hy)
    · obtain ⟨rfl, rfl⟩ := (hwrites.mem_entries hy).resolve_left hold
      rw [stores, ht]
      exact .inr (List.mem_map_of_mem (List.mem_filter.mpr ⟨hy, decide_eq_true hold⟩))

theorem mem_entries_runPlans (hy : y ∈ (xs.foldl runPlan state).2.entries b) :
    y ∈ state.2.entries b ∨ (b, y) ∈ outputs runPlan stores state xs := by
  induction xs generalizing state with
  | nil => exact .inl hy
  | cons x xs ih =>
      rw [outputs, List.mem_append]
      rcases ih hy with hfirst | hlater
      · exact (mem_entries_runPlan hfirst).imp_right .inl
      · exact .inr (.inr hlater)

/-- What is stored in a bag is stored by a plan that packs into it. -/
theorem exists_packs_of_stores (h : (b, y) ∈ outputs runPlan stores state xs) :
    ∃ x ∈ xs, ∃ bag, x.2.1.advice.target = .pack bag ∧ bag.id = b := by
  induction xs generalizing state with
  | nil => cases h
  | cons x xs ih =>
      rcases List.mem_append.mp h with hown | hlater
      · rw [stores] at hown
        cases ht : x.2.1.advice.target with
        | emit sink =>
            rw [ht] at hown
            cases hown
        | pack bag =>
            rw [ht] at hown
            obtain ⟨_, _, he⟩ := List.mem_map.mp hown
            exact ⟨x, List.mem_cons_self, bag, ht, congrArg Prod.fst he⟩
      · obtain ⟨z, hz, hpacks⟩ := ih hlater
        exact ⟨z, List.mem_cons_of_mem _ hz, hpacks⟩

/-- Plans leave a bag alone if none of them packs into it. -/
theorem same_runPlans (h : ∀ x ∈ xs, ∀ bag, x.2.1.advice.target = .pack bag → bag.id ≠ b) :
    Bag.Same b state.2 (xs.foldl runPlan state).2 := by
  induction xs generalizing state with
  | nil => exact .refl
  | cons x xs ih =>
      obtain ⟨hx, hxs⟩ := List.forall_mem_cons.mp h
      refine Bag.Same.trans ?_ (ih hxs)
      cases ht : x.2.1.advice.target with
      | emit sink => exact (runPlan_of_emit state ht).2 ▸ .refl
      | pack bag => exact (runPlan_of_pack state ht).2 ▸ Bag.same_pack (hx bag ht).symm

/-- The rows that get through a plan depend on the bags that it unpacks only. -/
theorem through_congr {state' : Engine × Baggage}
    (h : ∀ u ∈ x.2.1.advice.unpacks, Bag.Same u.bag.id state.2 state'.2) :
    through state x = through state' x := by
  have hbags :
      (x.2.1.advice.unpacks.map fun u => (u.bag.unpack state.2).filter (·.length == u.columns)) =
      x.2.1.advice.unpacks.map fun u => (u.bag.unpack state'.2).filter (·.length == u.columns) :=
    List.map_congr_left fun u hu => congrArg _ (h u hu).unpack
  rw [through, through, Advice.survivors, Advice.survivors, Advice.candidates,
    Advice.candidates, hbags]

/-- In one invocation, a stage takes what was stored before it, and what the stages that it joins
have stored just now if they watch the same tracepoint. -/
theorem Books.Kept.unpacked {s : Books} (h : s.Kept) (hc : (id, c) ∈ s.engine.installed)
    (hq : q.compile a id = .ok c) {p : Pass} {before later : List (Pass × Woven × Nat)}
    (hplans : plansOf s.engine p = before ++ x :: later)
    (hid : x.2.1.queryId = id) (held : Baggage) :
    let state := before.foldl runPlan (s.engine, held)
    ∃ r, q.inTurn[x.2.1.adviceId.seq]? = some r ∧ r.place = p.tracepoint ∧
      List.Forall₂ (fun (u : Unpacking) (j : String × Query) => ∀ y ∈ state.2.entries u.bag.id,
          y ∈ held.entries u.bag.id ∨
            j.2.place = p.tracepoint ∧
              (u.bag.id, y) ∈ outputs runPlan stores (s.engine, held) before)
        x.2.1.advice.unpacks r.joins ∧
      ((∀ j ∈ r.joins, j.2.place ≠ p.tracepoint) →
        through state x = through (s.engine, held) x) := by
  intro state
  have hlisted : ∀ z ∈ before ++ x :: later, z.2.1 ∈ s.engine.woven.listed p.tracepoint := by
    rw [← hplans, plansOf]
    exact List.forall_mem_map.mpr fun z hz => List.fst_mem_of_mem_zipIdx hz
  have hearlier : ∀ z ∈ before, z.2.1 ∈ s.engine.woven.listed p.tracepoint := fun z hz =>
    hlisted z (List.mem_append_left _ hz)
  obtain ⟨r, hr, hplace, hjoins⟩ := h.exists_joining hc hq (hlisted x List.mem_append_cons_self) hid
  refine ⟨r, hr, hplace, hjoins.imp fun u j hmeets y hy => ?_,
    fun hapart => through_congr fun u hu => ?_⟩
  · refine (mem_entries_runPlans hy).imp_right fun hstored => ⟨?_, hstored⟩
    obtain ⟨z, hz, bag, ht, hbag⟩ := exists_packs_of_stores hstored
    exact hmeets z.2.1 (hearlier z hz) bag ht hbag
  · obtain ⟨j, hj, hmeets⟩ := exists_of_forall₂ hjoins.flip hu
    refine (same_runPlans fun z hz bag ht hbag => hapart j hj ?_).symm
    exact hmeets z.2.1 (hearlier z hz) bag ht hbag

end Engine

/-! ## What a history stores -/

namespace World

/-- An engine with a past, before any request has set out. -/
def start (config : Config) (past : List Deed) : World where
  engine := (Books.ofDeeds config past).engine
  bags _ := .empty

def stored (w : World) : Move → List (BagId × Entry)
  | .invoke i p => outputs runPlan stores (w.engine, w.bags i) (plansOf w.engine p)
  | _ => []

/-- The entries that the invocations of a history store, with their bags. -/
def log (w : World) (moves : List Move) : List (BagId × Entry) := outputs after stored w moves

variable {w : World} {moves : List Move} {a : BagId} {x : Entry} {i : Nat}

theorem mem_stored_of_mem_entries (h : ∀ i, (w.bags i).Keyed) (m : Move)
    (hx : x ∈ ((w.after m).bags i).entries a) :
    (∃ j, x ∈ (w.bags j).entries a) ∨ (a, x) ∈ w.stored m := by
  rcases mem_entries_after h m i hx with hold | ⟨j, p, rfl, hj⟩
  · exact .inl hold
  · exact (mem_entries_runPlans hj).imp_left (⟨j, ·⟩)

/-- Whatever happens, baggage holds nothing but what invocations have stored in it. -/
theorem mem_log_of_mem_entries (h : ∀ i, (w.bags i).Keyed)
    (hx : x ∈ ((moves.foldl after w).bags i).entries a) :
    (∃ j, x ∈ (w.bags j).entries a) ∨ (a, x) ∈ w.log moves := by
  induction moves generalizing w with
  | nil => exact .inl ⟨i, hx⟩
  | cons m moves ih =>
      rw [log, outputs, List.mem_append]
      rcases ih (keyed_after h m) hx with ⟨j, hj⟩ | hlater
      · exact (mem_stored_of_mem_entries h m hj).imp_right .inl
      · exact .inr (.inr hlater)

/-- An engine does nothing in a world that it could not do elsewhere. -/
theorem exists_deeds {config : Config} {past : List Deed}
    (h : w.engine = (Books.ofDeeds config past).engine)
    (moves : List Move) :
    ∃ deeds, (moves.foldl after w).engine = (Books.ofDeeds config deeds).engine := by
  induction moves generalizing w past with
  | nil => exact ⟨past, h⟩
  | cons m moves ih =>
      have hdeed : ∀ deed, (w.after m).engine = ((Books.ofDeeds config past).after deed).engine →
          ∃ deeds, (moves.foldl after (w.after m)).engine =
            (Books.ofDeeds config deeds).engine := by
        intro deed hnext
        have hlonger : (w.after m).engine = (Books.ofDeeds config (past ++ [deed])).engine := by
          rw [hnext, Books.ofDeeds, Books.ofDeeds, List.foldl_append]
          rfl
        exact ih hlonger
      cases m with
      | change c => exact hdeed (.change c) (congrArg (Engine.apply · c) h)
      | invoke i p =>
          exact hdeed (.invoke p (w.bags i)) (congrArg (fun e => (pass (e, w.bags i) p).1) h)
      | collect timestampMs =>
          exact hdeed (.collect timestampMs) (congrArg (fun e => (e.collect timestampMs).2) h)
      | begin i | split i copy | archive i | join i other => exact ih h

/-- Every installed query was compiled from some tree. Each of its stages takes only what earlier
invocations have stored for the stages that it joins, and what these have stored just before it in
the same one. The latter takes place only between stages that watch one tracepoint: the rows of a
stage that joins stages elsewhere are those of the baggage as it was before the invocation. -/
theorem unpacked_earlier {config : Config} {past : List Deed} {id : QueryId} {c : QueryAdvice}
    (hw : w = moves.foldl after (start config past)) (hc : (id, c) ∈ w.engine.installed) :
    (∃ a q, Query.compile a id q = .ok c) ∧
      ∀ a q, Query.compile a id q = .ok c → ∀ i p before x later,
        plansOf w.engine p = before ++ x :: later → x.2.1.queryId = id →
          let state := before.foldl runPlan (w.engine, w.bags i)
          ∃ r, q.inTurn[x.2.1.adviceId.seq]? = some r ∧ r.place = p.tracepoint ∧
            List.Forall₂ (fun u j => ∀ y ∈ state.2.entries u.bag.id,
                (u.bag.id, y) ∈ (start config past).log moves ∨
                  j.2.place = p.tracepoint ∧
                    (u.bag.id, y) ∈ outputs runPlan stores (w.engine, w.bags i) before)
              x.2.1.advice.unpacks r.joins ∧
            ((∀ j ∈ r.joins, j.2.place ≠ p.tracepoint) →
              through state x = through (w.engine, w.bags i) x) := by
  subst hw
  obtain ⟨deeds, hdeeds⟩ := exists_deeds (w := start config past) rfl moves
  have hkept : Books.Kept ⟨(moves.foldl after (start config past)).engine,
      (Books.ofDeeds config deeds).numbers, (Books.ofDeeds config deeds).standing⟩ := by
    have hofDeeds := Books.kept_ofDeeds config deeds
    rw [hdeeds]
    exact hofDeeds
  refine ⟨genuine_ofDeeds config deeds (id, c) (hdeeds ▸ hc),
    fun a q hq i p before x later hplans hid => ?_⟩
  obtain ⟨r, hr, hplace, hentries, hrows⟩ := hkept.unpacked hc hq hplans hid _
  refine ⟨r, hr, hplace, hentries.imp fun u j hfound y hy => (hfound y hy).imp_left fun hheld => ?_,
    hrows⟩
  -- What was held before the invocation was stored since the requests set out.
  exact (mem_log_of_mem_entries (fun _ => Baggage.keyed_empty) hheld).resolve_left nofun

namespace Sample

def step : Tracepoint := ⟨"step", ["item"]⟩

/-- A step, somebody who logs in after it, and a step after that. -/
def turns : Query :=
  .node ⟨⟨some "b", step⟩, [("item", ⟨2⟩)], [("c", "a.c")], [], [], [⟨0⟩, ⟨1⟩, ⟨2⟩],
    .select [⟨0⟩, ⟨1⟩, ⟨2⟩]⟩
    [("a", .node ⟨⟨none, Engine.Sample.login⟩, [("user", ⟨1⟩)], [], [], [], [⟨0⟩, ⟨1⟩], .unfinished⟩
      [("c", .node ⟨⟨none, step⟩, [("item", ⟨0⟩)], [], [], [], [⟨0⟩], .unfinished⟩ [])])]

/-- The joins of these before anything is selected. -/
def turning : Query :=
  .node { Stage.watch ⟨some "b", step⟩ with shorts := [("c", "a.c")] }
    [("a", .node (.watch ⟨none, Engine.Sample.login⟩) [("c", .unnamed step)])]

def turnsArena : Arena := ⟨[.observed "" "item", .observed "" "user", .observed "b" "item"]⟩

/-- An engine that has been asked to install the sample. -/
def installsTurns : List Deed :=
  [.change (.build (turning.select ["c.item", "a.user", "b.item"])), .change (.install turns)]

/-- The first step and the login. -/
def firstTurns : List Move :=
  [.invoke 0 (pass 10 "step" [("item", .str "tea")]),
    .invoke 0 (pass 20 "login" [("user", .str "ann")])]

def turned : World := firstTurns.foldl after (start ⟨false, true, false, 1000⟩ installsTurns)

def lastTurn : Pass := pass 30 "step" [("item", .str "rum")]

end Sample

open World.Sample Engine.Sample in
/-- The last step packs its item for later ones, and only then a row is emitted, without it. -/
theorem unpacked_earlier_turns : ∃ y x, plansOf turned.engine lastTurn = [y, x] ∧
    (runPlan (turned.engine, turned.bags 0) y).2 ≠ turned.bags 0 ∧
    through (runPlan (turned.engine, turned.bags 0) y) x =
      [[.str "tea", .str "ann", .str "rum"]] := by
  obtain ⟨c, hcompile⟩ := exists_of_isOk (by decide +kernel : (turns.compile turnsArena ⟨1⟩).isOk)
  have hinstalled : turned.engine.installed.find? ⟨1⟩ = some c := by
    have hfound : turned.engine.installed.find? ⟨1⟩ = (turns.compile turnsArena ⟨1⟩).toOption := by
      decide +kernel
    rw [hfound, hcompile]
    rfl
  have hlength : (plansOf turned.engine lastTurn).length = 2 := by decide +kernel
  obtain ⟨y, x, hplans⟩ := List.length_eq_two.mp hlength
  have hfacts : (plansOf turned.engine lastTurn).map (fun z => (z.2.1.queryId, z.2.1.adviceId.seq,
      decide ((runPlan (turned.engine, turned.bags 0) z).2 = turned.bags 0),
      through (turned.engine, turned.bags 0) z)) =
      [(⟨1⟩, 0, false, [[.str "rum"]]),
        (⟨1⟩, 2, true, [[.str "tea", .str "ann", .str "rum"]])] := by
    decide +kernel
  rw [hplans] at hfacts
  simp only [List.map_cons, List.map_nil, List.cons.injEq, Prod.mk.injEq,
    decide_eq_false_iff_not] at hfacts
  obtain ⟨⟨_, _, hpacks, _⟩, ⟨hid, hseq, _, hrow⟩, _⟩ := hfacts
  have hmem : (⟨1⟩, c) ∈ turned.engine.installed := Table.mem_of_find?_eq_some hinstalled
  have hturned : turned = firstTurns.foldl after (start ⟨false, true, false, 1000⟩ installsTurns) :=
    rfl
  obtain ⟨_, hall⟩ := unpacked_earlier hturned hmem
  obtain ⟨r, hr, _, _, hearlier⟩ := hall turnsArena turns hcompile 0 lastTurn [y] x [] hplans hid
  have hroot : turns.inTurn[2]? = some turns := by decide +kernel
  rw [hseq, hroot] at hr
  obtain rfl := Option.some.inj hr
  have helsewhere : ∀ j ∈ turns.joins, j.2.place ≠ lastTurn.tracepoint := by decide +kernel
  have hsame := hearlier helsewhere
  rw [List.foldl_cons, List.foldl_nil] at hsame
  exact ⟨y, x, hplans, hpacks, hsame.trans hrow⟩

namespace Sample

/-- Two steps, one before the other. -/
def pairs : Query :=
  .node ⟨⟨some "b", step⟩, [("item", ⟨1⟩)], [], [], [], [⟨0⟩, ⟨1⟩], .select [⟨0⟩, ⟨1⟩]⟩
    [("a", .node ⟨⟨none, step⟩, [("item", ⟨0⟩)], [], [], [], [⟨0⟩], .unfinished⟩ [])]

/-- An engine that has been asked to install them. -/
def installsPairs : List Deed :=
  let joined := Query.node (.watch ⟨some "b", step⟩) [("a", .unnamed step)]
  [.change (.build (joined.select ["a.item", "b.item"])), .change (.install pairs)]

def paired : World := start ⟨false, true, false, 1000⟩ installsPairs

end Sample

open World.Sample Engine.Sample in
/-- Where a stage and the one it joins watch the same tracepoint, an event happens before itself:
nothing has been stored yet, and the first step gets a row that has its own item on both sides. -/
theorem exists_unpacked_meanwhile : ∃ y x, plansOf paired.engine lastTurn = [y, x] ∧
    through (paired.engine, paired.bags 0) x = [] ∧
    through (runPlan (paired.engine, paired.bags 0) y) x = [[.str "rum", .str "rum"]] := by
  have hlength : (plansOf paired.engine lastTurn).length = 2 := by decide +kernel
  obtain ⟨y, x, hplans⟩ := List.length_eq_two.mp hlength
  have hbefore : (plansOf paired.engine lastTurn).map (through (paired.engine, paired.bags 0)) =
      [[[.str "rum"]], []] := by decide +kernel
  have hmeanwhile : (plansOf paired.engine lastTurn).head?.map (fun y =>
      (plansOf paired.engine lastTurn).map (through (runPlan (paired.engine, paired.bags 0) y))) =
      some [[[.str "rum"]], [[.str "rum", .str "rum"]]] := by decide +kernel
  rw [hplans] at hbefore hmeanwhile
  simp only [List.map_cons, List.map_nil, List.head?_cons, Option.map_some, Option.some.injEq,
    List.cons.injEq] at hbefore hmeanwhile
  exact ⟨y, x, hplans, hbefore.2.1, hmeanwhile.2.1⟩

end World

end CausalTrace
