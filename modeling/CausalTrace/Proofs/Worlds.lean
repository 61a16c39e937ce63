import CausalTrace.Proofs.Bookkeeping
import CausalTrace.Proofs.Footprints
import CausalTrace.Proofs.Reachable
import CausalTrace.Proofs.Unwinding

/-!
# An engine and its requests

Requests carry baggage past the tracepoints of one engine, fork and come back, while queries come
and go. Each plan reads and fills the bags and the sink of its own query only. If every entry
gets a new version, then no version is ever found in bags of two queries.
-/

namespace CausalTrace

/-! ## Plans keep to their queries -/

/-- A plan reads and fills no bags and sinks but those of its query. -/
structure Woven.Owned (x : Woven) : Prop where
  target : x.advice.target.owner = x.queryId
  unpacks : ∀ u ∈ x.advice.unpacks, u.bag.id.query = x.queryId

theorem Bag.id_create {ν : Type} (id : BagId) (spec : BagSpec ν) (enabled : Bool) :
    (Bag.create id spec enabled).id = id := by
  cases enabled with
  | false => rfl
  | true => cases spec <;> rfl

namespace Engine

theorem OwnWeaves.owned {id : QueryId} {weaves : List WeaveSpec} {w : WeaveSpec}
    {enabled : Bool} {x : Woven} (h : OwnWeaves id weaves) (hw : w ∈ weaves)
    (hx : Implements enabled (id, w) x) : x.Owned := by
  obtain ⟨sinks, sinks', hc⟩ := hx.created
  constructor
  · rw [owner_of_create hc, h.output w hw, hx.queryId]
  · intro u hu
    rw [(Advice.resolves_of_create hc).unpacks] at hu
    obtain ⟨u', hu', rfl⟩ := List.mem_map.mp hu
    rw [Bag.id_create, h.unpack w hw u' hu', hx.queryId]

theorem Books.Kept.owned {s : Books} (h : s.Kept) {t : String} {x : Woven}
    (hx : x ∈ s.engine.woven.listed t) : x.Owned := by
  obtain ⟨plan, hplan, himpl⟩ := exists_of_forall₂ (h.woven t) hx
  obtain ⟨entry, hentry, hm⟩ := List.mem_flatMap.mp hplan
  obtain ⟨w, hw, rfl⟩ := List.mem_map.mp hm
  exact (h.own entry hentry).owned (List.mem_of_mem_filter hw) himpl

/-! ## Plans of a pass -/

/-- One plan of a pass runs. -/
def runPlan (state : Engine × Baggage) (x : Pass × Woven × Nat) : Engine × Baggage :=
  step x.1 state x.2

/-- The plans that run in a pass, with their positions. -/
def plansOf (e : Engine) (p : Pass) : List (Pass × Woven × Nat) :=
  (e.woven.listed p.tracepoint).zipIdx.map (p, ·)

theorem pass_eq_foldl (state : Engine × Baggage) (p : Pass) :
    pass state p = (plansOf state.1 p).foldl runPlan state := by
  rw [pass_eq, plansOf, List.foldl_map]
  rfl

/-- The version of the entry that a plan writes, if it writes one, and the query it is for. -/
def writes (state : Engine × Baggage) (x : Pass × Woven × Nat) : List (QueryId × UInt64) :=
  if (runPlan state x).2 = state.2 then []
  else [(x.2.1.advice.target.owner, x.1.surroundings.version x.2.2)]

variable {state : Engine × Baggage} {x : Pass × Woven × Nat} {xs : List (Pass × Woven × Nat)}
  {id : BagId} {v : UInt64}

theorem runPlan_snd (state : Engine × Baggage) (x : Pass × Woven × Nat) :
    (runPlan state x).2 = x.1.leave state.2 x.2 := step_baggage state x.2

/-- A plan writes at most one entry, into a bag of its query. -/
theorem runPlan_cases (state : Engine × Baggage) (x : Pass × Woven × Nat) :
    (runPlan state x).2 = state.2 ∨ ∃ bag new, x.2.1.advice.target = .pack bag ∧
      new.version = x.1.surroundings.version x.2.2 ∧
        state.2.Writes (runPlan state x).2 bag.id new := by
  rw [runPlan_snd, Pass.leave, Advice.leave]
  cases ht : x.2.1.advice.target with
  | emit sink => exact .inl rfl
  | pack bag =>
      refine (bag.pack_cases _ state.2 _).imp_right ?_
      rintro ⟨new, hv, hw⟩
      exact ⟨bag, new, rfl, hv, hw⟩

theorem has_runPlan (h : (runPlan state x).2.Has id v) :
    state.2.Has id v ∨ (id.query, v) ∈ writes state x := by
  rw [writes]
  split
  · next hsame => exact .inl (hsame ▸ h)
  · next hne =>
      obtain ⟨bag, new, ht, hversion, hwrites⟩ := (runPlan_cases state x).resolve_left hne
      obtain ⟨y, hy, rfl⟩ := h
      refine (hwrites.mem_entries hy).imp (⟨y, ·, rfl⟩) ?_
      rintro ⟨rfl, rfl⟩
      rw [ht, hversion]
      exact List.mem_singleton_self _

theorem has_runPlans (h : (xs.foldl runPlan state).2.Has id v) :
    state.2.Has id v ∨ (id.query, v) ∈ outputs runPlan writes state xs := by
  induction xs generalizing state with
  | nil => exact .inl h
  | cons x xs ih =>
      rw [outputs, List.mem_append]
      rcases ih h with hlater | hlater
      · exact (has_runPlan hlater).imp_right .inl
      · exact .inr (.inr hlater)

theorem keyed_runPlans (h : state.2.Keyed) : (xs.foldl runPlan state).2.Keyed := by
  refine List.foldlRecOn xs runPlan (motive := fun state => state.2.Keyed) h fun state hs x _ => ?_
  rcases runPlan_cases state x with hsame | ⟨_, _, _, _, hwrites⟩
  · rw [hsame]
    exact hs
  · exact ⟨hwrites.sorted hs.active, hwrites.sorted' hs.archive⟩

end Engine

/-! ## Worlds -/

open Engine

/-- An engine, and the baggage of the requests under way, which are numbered. -/
structure World where
  engine : Engine
  bags : Nat → Baggage

namespace World

/-- What happens in a world. -/
inductive Move where
  | change (c : Change)
  /-- A request starts out without baggage. -/
  | begin (i : Nat)
  | invoke (i : Nat) (p : Pass)
  /-- A copy of the baggage goes its own way. -/
  | split (i copy : Nat)
  | archive (i : Nat)
  /-- The other baggage comes back and is no more. -/
  | join (i other : Nat)
  | collect (timestampMs : Nat)

def put (w : World) (i : Nat) (b : Baggage) : World := { w with bags := Function.update w.bags i b }

def after (w : World) : Move → World
  | .change c => { w with engine := w.engine.apply c }
  | .begin i => w.put i .empty
  | .invoke i p => put ⟨(pass (w.engine, w.bags i) p).1, w.bags⟩ i (pass (w.engine, w.bags i) p).2
  | .split i copy => (w.put i (w.bags i).split).put copy (w.bags i).split
  | .archive i => w.put i (w.bags i).archiveActive
  | .join i other => (w.put other .empty).put i ((w.bags i).join (w.bags other))
  | .collect timestampMs => { w with engine := (w.engine.collect timestampMs).2 }

/-- The versions of the entries that are written, each with the query it is for. -/
def drawn (w : World) : Move → List (QueryId × UInt64)
  | .invoke i p => outputs runPlan writes (w.engine, w.bags i) (plansOf w.engine p)
  | _ => []

/-- The versions drawn in a history. -/
def history (w : World) (moves : List Move) : List (QueryId × UInt64) := outputs after drawn w moves

/-- Every entry gets a version that no other entry has or gets. -/
def Fresh (w : World) (moves : List Move) : Prop :=
  ((w.history moves).map (·.2)).Nodup ∧ ∀ d ∈ w.history moves, ∀ i, (w.bags i).Fresh d.2

variable {w : World} {m : Move} {moves : List Move} {i : Nat} {a : BagId}
  {v : UInt64} {id : QueryId}

@[simp] theorem put_self (b : Baggage) : (w.put i b).bags i = b := Function.update_self ..

@[simp] theorem put_ne {j : Nat} (h : j ≠ i) (b : Baggage) : (w.put i b).bags j = w.bags j :=
  Function.update_of_ne h ..

/-- What is true of all baggage stays so when it is true of what is put. -/
theorem forall_put {P : Baggage → Prop} {b : Baggage} (h : ∀ j, P (w.bags j)) (hb : P b) (i : Nat) :
    ∀ j, P ((w.put i b).bags j) := by
  intro j
  by_cases hj : j = i
  · rw [hj, put_self]
    exact hb
  · rw [put_ne hj]
    exact h j

theorem keyed_after (h : ∀ i, (w.bags i).Keyed) (m : Move) : ∀ i, ((w.after m).bags i).Keyed := by
  cases m with
  | change c => exact h
  | begin i => exact forall_put h Baggage.keyed_empty i
  | invoke i p =>
      refine forall_put h ?_ i
      rw [pass_eq_foldl]
      exact keyed_runPlans (h i)
  | split i copy => exact forall_put (forall_put h (h i).archiveActive i) (h i).archiveActive copy
  | archive i => exact forall_put h (h i).archiveActive i
  | join i other => exact forall_put (forall_put h Baggage.keyed_empty other) ((h i).join _) i
  | collect timestampMs => exact h

/-- Only invocations write entries. -/
theorem mem_entries_after {x : Entry} (h : ∀ i, (w.bags i).Keyed) (m : Move) (i : Nat)
    (hx : x ∈ ((w.after m).bags i).entries a) : (∃ j, x ∈ (w.bags j).entries a) ∨
      ∃ j p, m = .invoke j p ∧
        x ∈ ((plansOf w.engine p).foldl runPlan (w.engine, w.bags j)).2.entries a := by
  let Found : Prop := (∃ j, x ∈ (w.bags j).entries a) ∨
    ∃ j p, m = .invoke j p ∧
      x ∈ ((plansOf w.engine p).foldl runPlan (w.engine, w.bags j)).2.entries a
  have hold : ∀ j, x ∈ (w.bags j).entries a → Found := fun j hj => .inl ⟨j, hj⟩
  have hempty : x ∈ Baggage.empty.entries a → Found := nofun
  have harchived : ∀ j, x ∈ (w.bags j).archiveActive.entries a → Found := fun j hj =>
    hold j (Baggage.mem_entries_of_archiveActive (h j) hj)
  show Found
  revert hx
  cases m with
  | change c => exact hold i
  | begin j => exact forall_put (P := fun b => x ∈ b.entries a → Found) hold hempty j i
  | invoke j p =>
      refine forall_put (P := fun b => x ∈ b.entries a → Found) hold (fun hj => ?_) j i
      rw [pass_eq_foldl] at hj
      exact .inr ⟨j, p, rfl, hj⟩
  | split j copy =>
      refine forall_put (P := fun b => x ∈ b.entries a → Found) ?_ (harchived j) copy i
      exact forall_put (P := fun b => x ∈ b.entries a → Found) hold (harchived j) j
  | archive j => exact forall_put (P := fun b => x ∈ b.entries a → Found) hold (harchived j) j i
  | join j other =>
      refine forall_put (P := fun b => x ∈ b.entries a → Found) ?_ (fun hj => ?_) j i
      · exact forall_put (P := fun b => x ∈ b.entries a → Found) hold hempty other
      · exact (Baggage.mem_entries_of_join (h j) (h other) hj).elim (hold j) (hold other)
  | collect timestampMs => exact hold i

/-- An entry of some baggage was there before, or was written with a version just drawn. -/
theorem has_after (h : ∀ i, (w.bags i).Keyed) (m : Move) (i : Nat)
    (hv : ((w.after m).bags i).Has a v) : (∃ j, (w.bags j).Has a v) ∨ (a.query, v) ∈ w.drawn m := by
  obtain ⟨x, hx, hversion⟩ := hv
  rcases mem_entries_after h m i hx with ⟨j, hj⟩ | ⟨j, p, rfl, hj⟩
  · exact .inl ⟨j, x, hj, hversion⟩
  · exact (has_runPlans ⟨x, hj, hversion⟩).imp_left (⟨j, ·⟩)

/-! ## Worlds that are sound -/

/-- The version of an entry is not found in the bags of another query. -/
def Apart (id : QueryId) (w : World) : Prop :=
  ∀ i j a o v, a.query = id → o.query ≠ id → (w.bags i).Has a v → ¬ (w.bags j).Has o v

/-- The books are kept, the number of the query has been handed out, and its versions are its
own. -/
structure Sound (id : QueryId) (w : World) : Prop where
  kept : ∃ numbers standing, id ∈ numbers ∧ Books.Kept ⟨w.engine, numbers, standing⟩
  keyed : ∀ i, (w.bags i).Keyed
  apart : w.Apart id

/-- The versions drawn in a history are new and different. -/
def Unused (w : World) (moves : List Move) : Prop :=
  ((w.history moves).map (·.2)).Nodup ∧ ∀ d ∈ w.history moves, ∀ i a, ¬ (w.bags i).Has a d.2

theorem Fresh.unused (h : w.Fresh moves) : w.Unused moves := by
  refine ⟨h.1, fun d hd i a hhas => ?_⟩
  obtain ⟨x, hx, hv⟩ := hhas
  obtain ⟨hactive, harchive⟩ := h.2 d hd i
  rcases Baggage.mem_entries.mp hx with hx | hx
  · exact harchive (hv ▸ Generation.mem_versions_listed hx)
  · exact hactive (hv ▸ Generation.mem_versions_listed hx)

theorem kept_after (h : ∃ numbers standing, id ∈ numbers ∧ Books.Kept ⟨w.engine, numbers, standing⟩)
    (m : Move) : ∃ numbers standing, id ∈ numbers ∧
      Books.Kept ⟨(w.after m).engine, numbers, standing⟩ := by
  obtain ⟨numbers, standing, hid, hkept⟩ := h
  cases m with
  | change c => exact ⟨_, _, List.mem_append_left _ hid, hkept.after (.change c)⟩
  | invoke i p => exact ⟨_, _, hid, hkept.after (.invoke p (w.bags i))⟩
  | collect timestampMs => exact ⟨_, _, hid, hkept.after (.collect timestampMs)⟩
  | begin i | split i copy | archive i | join i other => exact ⟨_, _, hid, hkept⟩

theorem history_cons (w : World) (m : Move) (moves : List Move) :
    w.history (m :: moves) = w.drawn m ++ (w.after m).history moves := rfl

theorem Sound.after (h : w.Sound id) (hu : w.Unused (m :: moves)) : (w.after m).Sound id := by
  refine ⟨kept_after h.kept m, keyed_after h.keyed m, ?_⟩
  rw [Unused, history_cons] at hu
  obtain ⟨hnodup, hnew⟩ := hu
  intro i j a o v ha ho hia hjo
  rcases has_after h.keyed m i hia with ⟨i', hia⟩ | hdrawn <;>
    rcases has_after h.keyed m j hjo with ⟨j', hjo⟩ | hdrawn'
  · exact h.apart i' j' a o v ha ho hia hjo
  · exact hnew _ (List.mem_append_left _ hdrawn') i' a hia
  · exact hnew _ (List.mem_append_left _ hdrawn) j' o hjo
  · -- Both were written just now, and with one version that is one entry.
    rw [List.map_append] at hnodup
    have hinj := List.inj_on_of_nodup_map (List.nodup_append.mp hnodup).1 hdrawn hdrawn' rfl
    exact ho (ha ▸ (congrArg (·.1) hinj).symm)

theorem Unused.after (h : w.Unused (m :: moves)) (hk : ∀ i, (w.bags i).Keyed) :
    (w.after m).Unused moves := by
  rw [Unused, history_cons] at h
  obtain ⟨hnodup, hnew⟩ := h
  rw [List.map_append, List.nodup_append] at hnodup
  refine ⟨hnodup.2.1, fun d hd i a hhas => ?_⟩
  rcases has_after hk m i hhas with ⟨j, hj⟩ | hdrawn
  · exact hnew d (List.mem_append_right _ hd) j a hj
  · exact hnodup.2.2 _ (List.mem_map_of_mem hdrawn) _ (List.mem_map_of_mem hd) rfl

end World

end CausalTrace
