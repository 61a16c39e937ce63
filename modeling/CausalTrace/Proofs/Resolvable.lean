import CausalTrace.Proofs.Compilable
import CausalTrace.Proofs.Installable
import CausalTrace.Proofs.Neat

/-!
# Which plans can be resolved

The plans of a compiled query read nothing that is not bound. They bind a name twice only
where a joined grouping stage repeats a key: what it packs has one column for each time the
key is given, and the stage that joins it binds them all.
-/

namespace CausalTrace

namespace Query

variable {a b : Arena} {tight pack : Bool} {s : Stage} {js : List (String × Query)} {q r u : Query}

/-- Keys come in or are computed, so a stage makes none of them itself. -/
theorem Sound.not_shape_of_key (h : Sound a tight pack u) {v : VarId}
    (hv : v ∈ u.stage.shape.keys) : v ∉ u.stage.shape.defines := by
  cases u with
  | node s js =>
      obtain ⟨hown, _, _⟩ := h.supplied
      intro hd
      rcases List.mem_append.mp (hown.uses _ (Stage.mem_uses_of_key hv)) with hi | hl
      · exact h.incoming_not_shape _ hi hd
      · exact h.lets_not_shape _ hl hd

/-- A joined stage delivers its variables once each, unless it repeats a key. -/
theorem Sound.nodup_names_iff (h : Sound a tight true u) (hn : u.stage.Neat false) :
    u.stage.unpackedBag.names.Nodup ↔ u.stage.shape.keys.Nodup := by
  cases u with
  | node s js =>
      have houtputs : List.Nodup s.outputs := hn.outputs.nodup
      have hflat : s.shape.keys = [] → s.unpackedBag.names = s.outputs →
          (s.unpackedBag.names.Nodup ↔ s.shape.keys.Nodup) := by
        intro hk ho
        rw [hk, ho]
        exact iff_of_true houtputs List.nodup_nil
      rw [stage_node]
      cases hs : s.shape with
      | unfinished | select selected | filter keep =>
          rw [← hs]
          exact hflat (by rw [hs]; rfl) (by rw [Stage.unpackedBag, hs]; rfl)
      | group keys gs =>
          have hdefines := (List.nodup_append.mp h.formed.distinct).1
          have hvars : (gs.map (·.var)).Nodup := by
            rw [Stage.defines, hs] at hdefines
            exact (List.nodup_append.mp hdefines).2.1
          simp only [Stage.unpackedBag, hs, BagSpec.names, Stage.packedKeys, Stage.packedAggregates,
            List.map_map, Shape.keys]
          constructor
          · exact fun hnames => (List.nodup_append.mp (List.nodup_append.mp hnames).1).1
          · intro hkeys
            refine List.nodup_append.mpr
              ⟨List.nodup_append.mpr ⟨hkeys, houtputs.filter _, ?_⟩, ?_, ?_⟩
            · rintro v hv _ hw rfl
              have hno := (List.mem_filter.mp hw).2
              simp [hv] at hno
            · exact (List.Sublist.map Aggregate.var List.filter_sublist).nodup hvars
            · rintro v hv w hw rfl
              obtain ⟨g, hg, rfl⟩ := List.mem_map.mp hw
              have hg := (List.mem_filter.mp hg).1
              rcases List.mem_append.mp hv with hk | ho
              · refine h.not_shape_of_key (by rw [stage_node, hs]; exact hk) ?_
                rw [stage_node, hs]
                exact List.mem_map_of_mem hg
              · have hno := (List.mem_filter.mp ho).2
                simp only [Bool.and_eq_true, Bool.not_eq_true',
                  List.any_eq_false, beq_iff_eq] at hno
                exact hno.2 g hg rfl

/-- A stage binds every variable once if each of the joined queries delivers its variables
once. -/
theorem Sound.nodup_bound_iff (h : Sound a tight pack (node s js)) :
    (node s js).bound.Nodup ↔ ∀ j ∈ js, j.2.stage.unpackedBag.names.Nodup := by
  have hdefined : ∀ j ∈ js, ∀ v ∈ j.2.stage.unpackedBag.names, v ∈ j.2.defines := fun j hj =>
    (h.joined hj).supplied.delivers_defined
  obtain ⟨hstage, hjoins, hapart⟩ := List.nodup_append.mp h.formed.distinct
  rw [joinsDefine_eq] at hjoins hapart
  rw [Stage.defines] at hstage hapart
  have hown := (List.nodup_append.mp hstage).1
  have hnot : ∀ v ∈ s.observed.values ++ s.lets.map (·.2), ∀ j ∈ js,
      v ∉ j.2.stage.unpackedBag.names := fun v hv j hj hn =>
    hapart v (List.mem_append_left _ hv) v (List.mem_flatMap.mpr ⟨j, hj, hdefined j hj v hn⟩) rfl
  have hperm : (node s js).bound.Perm (s.observed.values ++ s.lets.map (·.2) ++
      js.flatMap fun j => j.2.stage.unpackedBag.names) := by
    rw [bound, incoming, stage_node, joins_node, List.append_assoc, List.append_assoc]
    exact List.perm_append_comm.append_left _
  rw [hperm.nodup_iff, List.nodup_append, List.nodup_flatMap]
  constructor
  · exact fun hall => hall.2.1.1
  · refine fun hnames => ⟨hown, ⟨hnames, ?_⟩, ?_⟩
    · refine (List.nodup_flatMap.mp hjoins).2.imp_of_mem fun {j k} hj hk hd => ?_
      exact fun v hv hw => hd (hdefined j hj v hv) (hdefined k hk v hw)
    · rintro v hv w hw rfl
      obtain ⟨j, hj, hn⟩ := List.mem_flatMap.mp hw
      exact hnot v hv j hj hn

/-- A sound query binds no variable twice if no joined grouping stage repeats a key. -/
theorem Sound.unambiguous_iff (h : Sound a tight pack q) (hn : q.Neat false) :
    q.Unambiguous ↔ ∀ j ∈ q.joins, ∀ p ∈ j.2.parts, p.stage.shape.keys.Nodup := by
  induction q generalizing pack with
  | node s js ih =>
      rw [unambiguous_node, h.nodup_bound_iff, joins_node, ← forall₂_and]
      refine forall₂_congr fun j hj => ?_
      have hsound := h.joined hj
      have hneat : j.2.Neat false := hn.joined hj
      rw [hsound.nodup_names_iff hneat.stage, ih j hj hsound hneat]
      obtain ⟨name, u⟩ := j
      cases u with
      | node t ks =>
          constructor
          · rintro ⟨hown, hjoined⟩ p hp
            rcases mem_parts_node.mp hp with rfl | ⟨k, hk, hp⟩
            · exact hown
            · exact hjoined k hk p hp
          · refine fun hall => ⟨hall _ (self_mem_parts _), fun k hk p hp => hall p ?_⟩
            exact mem_parts_node.mpr (Or.inr ⟨k, hk, hp⟩)

/-- The plans of a query that was built, optimized or not, can be resolved as soon as it
compiles, unless a joined grouping stage of it repeats a key. Optimizing makes no stage
repeat a key if none did. -/
theorem create_iff_of_compile {id : QueryId} {c : QueryAdvice} (hq : q.Built a)
    (hr : (r, b) = (q, a) ∨ ∃ m, (r, b) = (q.optimize m).run a) (hc : r.compile b id = .ok c) :
    ((∀ w ∈ c.weaves, ∀ sinks enabled, ∃ x, Advice.create w.advice sinks enabled = .ok x) ↔
        ∀ j ∈ r.joins, ∀ p ∈ j.2.parts, p.stage.shape.keys.Nodup) ∧
      ((∀ p ∈ q.parts, p.stage.shape.keys.Nodup) → ∀ p ∈ r.parts, p.stage.shape.keys.Nodup) := by
  have hsound : Sound b false false r ∧ r.Neat false ∧ (q.Neat true → r.Neat true) := by
    have hstart := (hq.sound hq.scoped).loosen
    rcases hr with he | ⟨m, he⟩
    · cases he
      exact ⟨hstart, hq.neat, fun hd => hd⟩
    · have hneat : ∀ {distinct : Bool}, q.Neat distinct → r.Neat distinct := fun h =>
        (leads_neat q.depth h).of_run he.symm
      have hleads := leads_optimizeWithin (m := m) (fun _ => rfl) q.depth hstart
      exact ⟨(hleads.of_run he.symm).1, hneat hq.neat, hneat⟩
  obtain ⟨hs, hn, hkeep⟩ := hsound
  obtain ⟨compiled, hcompiled, hce⟩ := bind_eq_ok_iff.mp hc
  cases hce
  refine ⟨?_,
    fun hd p hp => (hkeep (fun p hp => ⟨(hq.neat p hp).outputs, fun _ => hd p hp⟩) p hp).keys rfl⟩
  rw [← hs.unambiguous_iff hn, ← nodup_weaves_iff hcompiled]
  refine forall₂_congr fun w hw => ?_
  obtain ⟨s, unpack, own, pack, plan, hp, _, rfl⟩ := exists_plan_of_mem_weaves hcompiled w hw
  constructor
  · intro hall
    obtain ⟨x, hx⟩ := hall (.start false 0) true
    exact Advice.nodup_of_create hx
  · exact fun hnodup sinks enabled => (create_isOk_iff hp).mpr hnodup

namespace Sample

def login : Tracepoint := ⟨"login", ["user"]⟩

def order : Tracepoint := ⟨"order", ["item"]⟩

/-- The users that logged in, with the key given twice. -/
def users : Query :=
  .node ⟨⟨some "l", login⟩, [("user", ⟨0⟩)], [], [], [], [⟨0⟩], .group [⟨0⟩, ⟨0⟩] []⟩ []

/-- The items that were ordered, once for each user that logged in before. -/
def orders : Query :=
  .node ⟨⟨some "o", order⟩, [("item", ⟨1⟩)], [], [], [], [⟨1⟩], .select [⟨1⟩]⟩ [("u", users)]

def usersArena : Arena := ⟨[.observed "l" "user"]⟩

def ordersArena : Arena := ⟨[.observed "l" "user", .observed "o" "item"]⟩

theorem built_orders : orders.Built ordersArena := by
  have hlogin : Query.named "l" login = .ok (.watch ⟨some "l", login⟩) := rfl
  have hgroup : (Query.groupBy (.watch ⟨some "l", login⟩) ["l.user", "l.user"]).Yields .empty
      users usersArena := by decide +kernel
  have horder : Query.named "o" order = .ok (.watch ⟨some "o", order⟩) := rfl
  have hjoin : (Query.join (.watch ⟨some "o", order⟩) "u" users none).Yields usersArena
      (.node (.watch ⟨some "o", order⟩) [("u", users)]) usersArena := rfl
  have hselect : (Query.select (.node (.watch ⟨some "o", order⟩) [("u", users)]) ["o.item"]).Yields
      usersArena orders ordersArena := by decide +kernel
  have hwatch := (Query.Built.named horder).grow (d := .observed "l" "user") (List.forall_mem_nil _)
  exact (hwatch.join ((Query.Built.named hlogin).groupBy hgroup) hjoin).select hselect

end Sample

open Query.Sample

theorem create_iff_of_compile_totals :
    ∃ c, totals.compile totalsArena ⟨1⟩ = .ok c ∧
      ∀ w ∈ c.weaves, ∀ sinks enabled, ∃ x, Advice.create w.advice sinks enabled = .ok x := by
  obtain ⟨c, hc⟩ := exists_of_isOk compile_totals
  have hcreate := create_iff_of_compile built_totals (Or.inl rfl) hc
  exact ⟨c, hc, hcreate.1.mpr (by decide)⟩

/-- A query may compile although one of its plans cannot be resolved: a key that is given
twice is bound twice. -/
theorem compile_orders_not_create :
    orders.Built ordersArena ∧ ∃ c, orders.compile ordersArena ⟨1⟩ = .ok c ∧
      ∃ w ∈ c.weaves, ∀ sinks enabled x, Advice.create w.advice sinks enabled ≠ .ok x := by
  have hcompiles : (orders.compile ordersArena ⟨1⟩).isOk := by decide +kernel
  obtain ⟨c, hc⟩ := exists_of_isOk hcompiles
  obtain ⟨compiled, hcompiled, hce⟩ := bind_eq_ok_iff.mp hc
  cases hce
  have hambiguous : ¬ orders.Unambiguous :=
    fun h => absurd (h orders (self_mem_parts _)) (by decide)
  have htwice : ∃ w ∈ compiled.weaves, ¬ w.advice.bound.Nodup := by
    by_contra hnone
    refine hambiguous ((nodup_weaves_iff hcompiled).mp fun w hw => ?_)
    by_contra hno
    exact hnone ⟨w, hw, hno⟩
  obtain ⟨w, hw, hno⟩ := htwice
  exact ⟨built_orders, _, hc, w, hw, fun sinks enabled x hx => hno (Advice.nodup_of_create hx)⟩

end Query

end CausalTrace
