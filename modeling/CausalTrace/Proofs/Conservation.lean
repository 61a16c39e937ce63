import CausalTrace.Proofs.Compilable
import CausalTrace.Proofs.Optimizing

/-!
# Optimizing loses no work

Of every query that was built the optimizer keeps the tree of stages, and all work of the
stages: each let and each condition is found once more where it was or further upstream.
Only products of counts are added, and a stage that keeps one row is given nothing.
-/

namespace CausalTrace

namespace Query

variable {a b : Arena} {tight pack : Bool} {q q' : Query} {js : List (String × Query)}

/-! ## Lets are told apart -/

/-- Lets are among the variables that a query defines. -/
theorem map_placed_lets_le (q : Query) :
    (q.placed (·.lets)).map (fun x => x.2.2) ≤ (q.defines : Multiset VarId) := by
  induction q with
  | node s js ih =>
      have hjoined :
          (joinsPlaced (·.lets) js).map (fun x => x.2.2) ≤ (joinsDefine js : Multiset VarId) := by
        induction js with
        | nil => exact le_refl _
        | cons j js ihjs =>
            obtain ⟨hj, hjs⟩ := List.forall_mem_cons.mp ih
            rw [joinsPlaced_cons, Multiset.map_add, Multiset.map_map,
              joinsDefine, ← Multiset.coe_add]
            exact add_le_add hj (ihjs hjs)
      have hown : (here s.lets).map (fun x => x.2.2) ≤ (s.defines : Multiset VarId) := by
        unfold here
        rw [Multiset.map_coe, List.map_map, Stage.defines]
        exact ((List.sublist_append_right _ _).trans (List.sublist_append_left _ _)).subperm
      rw [placed_node, Multiset.map_add, defines, ← Multiset.coe_add]
      exact add_le_add hown hjoined

theorem Sound.nodup_lets (h : Sound a tight pack q) :
    ((q.placed (·.lets)).map (fun x => x.2.2)).Nodup :=
  Multiset.nodup_of_le (map_placed_lets_le q) (Multiset.coe_nodup.mpr h.formed.distinct)

/-! ## Conservation -/

/-- Optimizing a query that was built moves its work and loses none of it, whatever kinds of
work may move. -/
theorem optimize_relocates (hq : q.Built a) (m : Moves) (ho : (q.optimize m).run a = (q', b)) :
    List.Forall₂ (fun x y => y.1 = x.1 ∧ y.2.source = x.2.source ∧ y.2.observed = x.2.observed ∧
      y.2.shorts = x.2.shorts) q.sites q'.sites ∧
    Multiset.Rel Upstream (q.placed (·.wheres)) (q'.placed (·.wheres)) ∧
    (∃ moved added, q'.placed (·.lets) = moved + added ∧
      Multiset.Rel Upstream (q.placed (·.lets)) moved ∧ ∀ x ∈ added, CountProduct a b x.2) ∧
    ((q.placed (·.lets)).map (fun x => x.2.2)).Nodup ∧
    ((q'.placed (·.lets)).map (fun x => x.2.2)).Nodup ∧
    List.Forall₂ (fun x y => ∀ keep, (x.2.shape = .filter keep ↔ y.2.shape = .filter keep) ∧
      (x.2.shape = .filter keep → y.2.lets.Subperm x.2.lets ∧ y.2.wheres.Subperm x.2.wheres))
      q.sites q'.sites := by
  have hsound := hq.sound hq.scoped
  obtain ⟨hq', hfits⟩ :=
    (leads_optimizeWithin (m := m) (fun _ => rfl) q.depth hsound.loosen).of_run ho
  obtain ⟨hsites, hwheres, added, hadded, hlets⟩ := hfits.relocates
  refine ⟨?_, hwheres, ?_, hsound.nodup_lets, hq'.nodup_lets, ?_⟩
  · exact hsites.imp fun x y ⟨hpath, hs⟩ => ⟨hpath, hs.source, hs.observed, hs.shorts⟩
  · obtain ⟨moved, new, hmoved, hnew, hall⟩ := Multiset.rel_add_left.mp hlets
    refine ⟨moved, new, hall, hmoved, fun x hx => ?_⟩
    -- What is new upstream comes from one of the lets that were added.
    obtain ⟨y, hy, hup⟩ := Multiset.exists_mem_of_rel_of_mem (Multiset.rel_flip.mpr hnew) hx
    obtain ⟨l, hl, rfl⟩ := List.mem_map.mp hy
    have hsame : l = x.2 := hup.1
    exact hsame ▸ hadded l hl
  · exact hsites.imp fun x y ⟨_, hs⟩ keep => ⟨(hs.filters keep).symm, hs.takes keep⟩

namespace Sample

/-- Requests of sessions, counted by limits, with a let and a condition about the session. -/
def counted (lets : List (String × VarId)) (wheres : List Condition) (outputs : Ascending VarId)
    (limit : Table String VarId) (shape : Shape) (user : Table String VarId)
    (delivered : Ascending VarId) : Query :=
  .node ⟨⟨some "r", request⟩, limit, [], lets, wheres, outputs, shape⟩
    [("s", .node ⟨⟨none, session⟩, user, [], [], [], delivered, .unfinished⟩ [])]

/-- A let and a condition that can move, and a count. -/
def perLimit : Query :=
  counted [("twice", ⟨1⟩)] [⟨"{} != 1", [⟨0⟩]⟩] [⟨2⟩, ⟨3⟩] [("limit", ⟨2⟩)]
    (.group [⟨2⟩] [⟨⟨3⟩, .count, none⟩]) [("user", ⟨0⟩)] [⟨0⟩]

def perLimitArena : Arena :=
  ⟨[.observed "" "user", .computed "twice" "{}{}" [⟨0⟩, ⟨0⟩], .observed "r" "limit",
    .aggregated .count none]⟩

theorem built_perLimit : perLimit.Built perLimitArena := by
  have hnamed : Query.named "r" request = .ok (.watch ⟨some "r", request⟩) := rfl
  have hjoin : (Query.joinTracepoint (.watch ⟨some "r", request⟩) "s" session none).Yields .empty
      (counted [] [] [] [] .unfinished [] []) .empty := rfl
  have hlet :
      ((counted [] [] [] [] .unfinished [] []).addLet "twice" "{}{}" ["s.user", "s.user"]).Yields
      .empty (counted [("twice", ⟨1⟩)] [] [] [] .unfinished [("user", ⟨0⟩)] [⟨0⟩])
      ⟨perLimitArena.defs.take 2⟩ := by decide +kernel
  have hwhere :
      ((counted [("twice", ⟨1⟩)] [] [] [] .unfinished [("user", ⟨0⟩)] [⟨0⟩]).addWhere "{} != 1"
      ["s.user"]).Yields ⟨perLimitArena.defs.take 2⟩
      (counted [("twice", ⟨1⟩)] [⟨"{} != 1", [⟨0⟩]⟩] [] [] .unfinished [("user", ⟨0⟩)] [⟨0⟩])
      ⟨perLimitArena.defs.take 2⟩ := by decide +kernel
  have hgroup : ((counted [("twice", ⟨1⟩)] [⟨"{} != 1", [⟨0⟩]⟩] [] [] .unfinished [("user", ⟨0⟩)]
      [⟨0⟩]).groupBy ["r.limit"]).Yields ⟨perLimitArena.defs.take 2⟩
      (counted [("twice", ⟨1⟩)] [⟨"{} != 1", [⟨0⟩]⟩] [⟨2⟩] [("limit", ⟨2⟩)] (.group [⟨2⟩] [])
        [("user", ⟨0⟩)] [⟨0⟩]) ⟨perLimitArena.defs.take 3⟩ := by decide +kernel
  have hcount :
      ((counted [("twice", ⟨1⟩)] [⟨"{} != 1", [⟨0⟩]⟩] [⟨2⟩] [("limit", ⟨2⟩)] (.group [⟨2⟩] [])
        [("user", ⟨0⟩)] [⟨0⟩]).count).Yields ⟨perLimitArena.defs.take 3⟩
        perLimit perLimitArena := by
    decide +kernel
  exact (((((Query.Built.named hnamed).joinTracepoint hjoin).addLet hlet).addWhere hwhere).groupBy
    hgroup).count hcount

end Sample

open Query.Sample in
theorem optimize_relocates_perLimit :
    let r := (perLimit.optimize .all).run perLimitArena
    Multiset.Rel Upstream (perLimit.placed (·.wheres)) (r.1.placed (·.wheres)) ∧
      r.1.placed (·.wheres) = {(["s"], ⟨"{} != 1", [⟨0⟩]⟩)} ∧
      r.1.placed (·.lets) = {(["s"], ("twice", ⟨1⟩)), ([], ("counts", ⟨5⟩))} := by
  intro r
  have ho : (perLimit.optimize .all).run perLimitArena = (r.1, r.2) := Prod.mk.eta.symm
  exact ⟨(optimize_relocates built_perLimit .all ho).2.1, by decide +kernel, by decide +kernel⟩

end Query

end CausalTrace
