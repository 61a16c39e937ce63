import CausalTrace.Proofs.Branching
import Mathlib.Data.List.MinMax
import Mathlib.Data.Prod.Lex

/-!
# Histories of packs

A run brings about packs, each in a branch that has a past of its own. What a pack writes
depends on that branch: the clock, and whether the bag keeps anything. Seen from any past of
a run, the packs accepted there stay the same however the run goes on.
-/

namespace CausalTrace

/-! ## Packs that happened -/

/-- A pack together with the branch it happened in, as that was before. -/
structure Packing where
  before : Branch
  event : Event

namespace Packing

/-- The clock of the entry it writes, if it writes one. -/
def clock (p : Packing) : Nat := p.before.baggage.nextClock p.event.bag.id

/-- How many rows the bag kept. -/
def kept (p : Packing) : Nat :=
  (p.event.bag.pack p.event.version p.before.baggage p.event.rows).2

/-- The bag kept some row. -/
def Accepted (p : Packing) : Prop := p.kept ≠ 0

instance : DecidablePred Accepted := fun p => inferInstanceAs (Decidable (p.kept ≠ 0))

/-- Packs are ranked as their entries are: by clock, then by version. -/
def rank (p : Packing) : ℕ ×ₗ ℕ := toLex (p.clock, p.event.version.toNat)

/-- The packs into a bag that were accepted on the way to some past. -/
def accepted (ps : List Packing) (id : BagId) (past : Finset Event) : List Packing :=
  ps.filter fun p => p.event.bag.id = id ∧ p.event ∈ past ∧ p.Accepted

variable {p : Packing} {ps qs : List Packing} {id : BagId} {past : Finset Event}

theorem mem_accepted :
    p ∈ accepted ps id past ↔ p ∈ ps ∧ p.event.bag.id = id ∧ p.event ∈ past ∧ p.Accepted := by
  simp [accepted]

theorem accepted_append :
    accepted (ps ++ qs) id past = accepted ps id past ++ accepted qs id past :=
  List.filter_append ..

theorem accepted_eq_nil (h : ∀ p ∈ ps, p.event ∉ past) : accepted ps id past = [] := by
  refine List.filter_eq_nil_iff.mpr fun p hp => ?_
  simp [h p hp]

end Packing

/-! ## Histories of runs -/

namespace Branches

variable {bs : Branches} {actions more : List Action} {action : Action} {p : Packing} {id : BagId}
  {past : Finset Event}

/-- The pack that an action is, if its branch is alive. -/
def packing? (bs : Branches) : Action → Option Packing
  | .pack i e => (bs i).map (⟨·, e⟩)
  | .split _ _ => none
  | .archive _ => none
  | .join _ _ => none

/-- The packs that some actions bring about, one after another. -/
def historyFrom (bs : Branches) : List Action → List Packing
  | [] => []
  | action :: actions => (bs.packing? action).toList ++ (bs.step action).historyFrom actions

/-- The packs of a run. -/
def history (actions : List Action) : List Packing := start.historyFrom actions

theorem historyFrom_append : bs.historyFrom (actions ++ more) =
    bs.historyFrom actions ++ (actions.foldl step bs).historyFrom more := by
  induction actions generalizing bs with
  | nil => rfl
  | cons action actions ih =>
      show _ ++ (bs.step action).historyFrom (actions ++ more) = _
      rw [ih, ← List.append_assoc]
      rfl

theorem history_append :
    history (actions ++ more) = history actions ++ (run actions).historyFrom more :=
  historyFrom_append

theorem packing?_eq_some (h : bs.packing? action = some p) :
    ∃ i, action = .pack i p.event ∧ bs i = some p.before := by
  cases action with
  | pack i e =>
      obtain ⟨br, hbr, rfl⟩ := Option.map_eq_some_iff.mp h
      exact ⟨i, rfl, hbr⟩
  | split i j => cases h
  | archive i => cases h
  | join i j => cases h

/-- Every pack of a run has happened after some of the actions. -/
theorem exists_of_mem_history (h : p ∈ history actions) : ∃ earlier i later,
    actions = earlier ++ .pack i p.event :: later ∧ run earlier i = some p.before := by
  induction actions using List.reverseRecOn with
  | nil => cases h
  | append_singleton actions action ih =>
      rw [history_append, List.mem_append] at h
      rcases h with h | h
      · obtain ⟨earlier, i, later, rfl, hi⟩ := ih h
        exact ⟨earlier, i, later ++ [action], by simp, hi⟩
      · have hsome : (run actions).packing? action = some p := by
          simpa [historyFrom] using h
        obtain ⟨i, rfl, hi⟩ := packing?_eq_some hsome
        exact ⟨actions, i, [], rfl, hi⟩

theorem event_mem_packs (h : p ∈ bs.historyFrom actions) : p.event ∈ packs actions := by
  induction actions generalizing bs with
  | nil => cases h
  | cons action actions ih =>
      rw [packs_cons, List.mem_append]
      rcases List.mem_append.mp h with h | h
      · obtain ⟨i, rfl, _⟩ := packing?_eq_some (Option.mem_toList.mp h)
        exact .inl (List.mem_singleton_self _)
      · exact .inr (ih h)

/-- Packs that draw new versions are not among those before. -/
theorem not_mem_packs_of_fresh {e : Event}
    (hfresh : ((packs (actions ++ more)).map (·.version)).Nodup)
    (he : e ∈ packs actions) : e ∉ packs more := by
  rw [packs_append] at hfresh
  exact fun he' => version_not_mem_of_append hfresh he' (List.mem_map_of_mem he)

/-- What happens later is in no past of before. -/
theorem accepted_later (hfresh : ((packs (actions ++ more)).map (·.version)).Nodup)
    (hpast : ∀ e ∈ past, e ∈ packs actions) :
    Packing.accepted (history (actions ++ more)) id past =
      Packing.accepted (history actions) id past := by
  have hnone : Packing.accepted ((run actions).historyFrom more) id past = [] := by
    apply Packing.accepted_eq_nil
    exact fun p hp he => not_mem_packs_of_fresh hfresh (hpast _ he) (event_mem_packs hp)
  rw [history_append, Packing.accepted_append, hnone, List.append_nil]

theorem nodup_versions_earlier (hfresh : ((packs (actions ++ more)).map (·.version)).Nodup) :
    ((packs actions).map (·.version)).Nodup := by
  rw [packs_append] at hfresh
  exact nodup_versions_of_append hfresh

/-- A pack has been decided on in a run that ended with its branch, where the packs accepted
before are those of the whole run. -/
theorem exists_earlier (hfresh : ((packs actions).map (·.version)).Nodup)
    (h : p ∈ history actions) :
    ∃ earlier i, packs earlier ⊆ packs actions ∧ ((packs earlier).map (·.version)).Nodup ∧
      run earlier i = some p.before ∧ ∀ id, Packing.accepted (history actions) id p.before.past =
        Packing.accepted (history earlier) id p.before.past := by
  obtain ⟨earlier, i, later, rfl, hi⟩ := exists_of_mem_history h
  have hearlier := nodup_versions_earlier hfresh
  refine ⟨earlier, i, ?_, hearlier, hi, fun id => ?_⟩
  · rw [packs_append]
    exact List.subset_append_left _ _
  · exact accepted_later hfresh fun e he => (sound_run earlier hearlier).past hi e he

/-- Two packs of a run with one version are the same event. -/
theorem event_eq_of_version (hfresh : ((packs actions).map (·.version)).Nodup) {q : Packing}
    (hp : p ∈ history actions) (hq : q ∈ history actions)
    (hv : p.event.version = q.event.version) : p.event = q.event :=
  List.inj_on_of_nodup_map hfresh (event_mem_packs hp) (event_mem_packs hq) hv

end Branches

end CausalTrace
