import CausalTrace.Proofs.Histories
import CausalTrace.Proofs.Wire
import Mathlib.Data.Finset.Card

/-!
# Branches that can be sent

Every baggage of a run is in proper form, its clocks are at most the number of packs of its
past, and its values have been packed or are integers. So what is sent of it reads back as
the same baggage, as long as the packs of its past are fewer than a clock can count.
-/

namespace CausalTrace

/-! ## Proper form of one pack -/

namespace Generation

variable {g : Generation} {id : BagId} {es : List Entry}

theorem Proper.insert (h : g.Proper) (hne : es ≠ []) (hes : Entry.Ordered es) :
    Proper (Table.insert id es g) where
  keys := Table.sorted_keys_insert h.keys id es
  full p hp := by
    rcases Table.mem_insert hp with rfl | hp
    · exact hne
    · exact h.full p hp
  ordered p hp := by
    rcases Table.mem_insert hp with rfl | hp
    · exact hes
    · exact h.ordered p hp

theorem Proper.erase (h : g.Proper) (id : BagId) : Proper (Table.erase id g) where
  keys := h.keys.sublist (List.filter_sublist.map _)
  full p hp := h.full p (List.mem_of_mem_filter hp)
  ordered p hp := h.ordered p (List.mem_of_mem_filter hp)

theorem proper_nil : Proper [] := ⟨List.Pairwise.nil, nofun, nofun⟩

end Generation

namespace Baggage

variable {b : Baggage} {bag : Bag} {version : UInt64} {rows : List Row}

theorem proper_empty : empty.Proper := ⟨Generation.proper_nil, Generation.proper_nil, nofun⟩

/-- The new entry of a bag comes after all others. -/
theorem Proper.ordered_push (h : b.Proper) (id : BagId) (version : UInt64) (rs : List Row) :
    Entry.Ordered (b.activeEntries id ++ [b.nextEntry id version rs]) := by
  refine List.pairwise_append.mpr ⟨h.active.listed id, List.pairwise_singleton _ _, ?_⟩
  intro x hx y hy
  rw [List.mem_singleton.mp hy]
  have hlt : x.clock < b.nextClock id := clock_lt_nextClock (mem_entries.mpr (.inr hx))
  exact Prod.Lex.toLex_lt_toLex.mpr (.inl hlt)

theorem Proper.pack (h : b.Proper) (ht : (bag.pack version b rows).1.Tidy) :
    (bag.pack version b rows).1.Proper := by
  have hsingle : ∀ rs, Entry.Ordered [b.nextEntry bag.id version rs] := fun _ =>
    List.pairwise_singleton _ _
  have hgenerations : (bag.pack version b rows).1.active.Proper ∧
      (bag.pack version b rows).1.archive.Proper := by
    rcases bag.pack_forms version b rows with he | ⟨rs, _, he | he | he⟩
    · rw [he]
      exact ⟨h.active, h.archive⟩
    · rw [he]
      exact ⟨h.active.insert (by simp) (h.ordered_push bag.id version rs), h.archive⟩
    · rw [he]
      exact ⟨h.active.insert (List.cons_ne_nil _ _) (hsingle rs), h.archive⟩
    · rw [he]
      exact ⟨h.active.insert (List.cons_ne_nil _ _) (hsingle rs), h.archive.erase bag.id⟩
  refine ⟨hgenerations.1, hgenerations.2, fun v hv hv' => ?_⟩
  obtain ⟨i, x, hx, rfl⟩ := (Generation.mem_versions (Ascending.Sorted.nodup ht.active)).mp hv
  obtain ⟨j, y, hy, he⟩ := (Generation.mem_versions (Ascending.Sorted.nodup ht.archive)).mp hv'
  exact ht.apart hx hy he.symm

theorem Tidy.proper_archiveActive (h : b.Tidy) : b.archiveActive.Proper where
  active := Generation.proper_nil
  archive := Generation.proper_normalize (Table.sorted_keys_appendAll h.archive _)
  apart := nofun

end Baggage

/-! ## Everything a branch holds -/

/-- The rows of a pack and the identifier of its bag can be sent. -/
structure Event.Sendable (e : Event) : Prop where
  id : e.bag.id.Fits
  values : ∀ row ∈ e.rows, ∀ v ∈ row, v.ReadsBack

namespace Branch

variable {br other : Branch} {e : Event}

/-- The baggage is in proper form and all it holds can be sent, clocks as far as they are
not larger than the number of packs before. -/
structure Sendable (br : Branch) : Prop where
  proper : br.baggage.Proper
  ids : ∀ id, ∀ x ∈ br.baggage.entries id, id.Fits
  clocks : ∀ id, ∀ x ∈ br.baggage.entries id, x.clock ≤ br.past.card
  values : ∀ id, ∀ x ∈ br.baggage.entries id, ∀ row ∈ x.rows, ∀ v ∈ row, v.ReadsBack

/-- An entry after a pack has been there or is the one that was written. -/
theorem mem_entries_pack {id : BagId} {x : Entry} (hx : x ∈ (br.pack e).baggage.entries id) :
    x ∈ br.baggage.entries id ∨ id = e.bag.id ∧ x.clock = br.baggage.nextClock e.bag.id ∧
      ∀ v, Occurs v x.rows → (∃ n, v = .int n) ∨ Occurs v e.rows ∨
        ∃ y ∈ br.baggage.entries e.bag.id, Occurs v y.rows := by
  have hrows : ∀ {rs : List Row}, (∀ v, Occurs v rs → (∃ n, v = .int n) ∨ Occurs v e.rows ∨
      Occurs v (Bag.allRows (br.baggage.activeEntries e.bag.id))) →
      ∀ v, Occurs v rs → (∃ n, v = .int n) ∨ Occurs v e.rows ∨
        ∃ y ∈ br.baggage.entries e.bag.id, Occurs v y.rows := by
    intro rs h v hv
    refine (h v hv).imp_right (Or.imp_right ?_)
    rintro ⟨row, hrow, hv⟩
    obtain ⟨y, hy, hrow⟩ := List.mem_flatMap.mp hrow
    exact ⟨y, Baggage.mem_entries.mpr (.inr hy), row, hrow, hv⟩
  have hx : x ∈ (e.bag.pack e.version br.baggage e.rows).1.entries id := hx
  rcases e.bag.pack_forms e.version br.baggage e.rows with he | ⟨rs, hvalues, he | he | he⟩ <;>
    rw [he] at hx
  · exact .inl hx
  · refine ((Baggage.writes_push rs).mem_entries hx).imp_right ?_
    rintro ⟨hid, rfl⟩
    exact ⟨hid, rfl, hrows hvalues⟩
  · refine ((Baggage.writes_replaceActive rs).mem_entries hx).imp_right ?_
    rintro ⟨hid, rfl⟩
    exact ⟨hid, rfl, hrows hvalues⟩
  · refine ((Baggage.writes_supersede rs).mem_entries hx).imp_right ?_
    rintro ⟨hid, rfl⟩
    exact ⟨hid, rfl, hrows hvalues⟩

theorem Sendable.pack (h : br.Sendable) (he : e.Sendable) (hnew : e ∉ br.past)
    (ht : (br.pack e).baggage.Tidy) : (br.pack e).Sendable := by
  have hcard : (br.pack e).past.card = br.past.card + 1 := Finset.card_insert_of_notMem hnew
  refine ⟨h.proper.pack ht, fun id x hx => ?_, fun id x hx => ?_, fun id x hx row hrow v hv => ?_⟩
  · rcases mem_entries_pack hx with hx | ⟨rfl, _, _⟩
    · exact h.ids id x hx
    · exact he.id
  · rw [hcard]
    rcases mem_entries_pack hx with hx | ⟨_, hclock, _⟩
    · exact (h.clocks id x hx).trans (Nat.le_succ _)
    · rw [hclock]
      exact Baggage.nextClock_le_iff.mpr (h.clocks e.bag.id)
  · rcases mem_entries_pack hx with hx | ⟨_, _, hvalues⟩
    · exact h.values id x hx row hrow v hv
    · rcases hvalues v ⟨row, hrow, hv⟩ with ⟨n, rfl⟩ | ⟨row', hrow', hv⟩ | ⟨y, hy, row', hrow', hv⟩
      · exact Value.readsBack_of_kind nofun
      · exact he.values row' hrow' v hv
      · exact h.values e.bag.id y hy row' hrow' v hv

theorem Sendable.archive (h : br.Sendable) (ht : br.baggage.Tidy) : br.archive.Sendable where
  proper := ht.proper_archiveActive
  ids id x hx := h.ids id x ((Baggage.mem_entries_archiveActive ht).mp hx)
  clocks id x hx := h.clocks id x ((Baggage.mem_entries_archiveActive ht).mp hx)
  values id x hx := h.values id x ((Baggage.mem_entries_archiveActive ht).mp hx)

theorem Sendable.join (h : br.Sendable) (h' : other.Sendable)
    (hm : br.baggage.Mergeable other.baggage) : (br.join other).Sendable := by
  have hleft : br.past.card ≤ (br.join other).past.card :=
    Finset.card_le_card Finset.subset_union_left
  have hright : other.past.card ≤ (br.join other).past.card :=
    Finset.card_le_card Finset.subset_union_right
  refine ⟨.join hm, fun id x hx => ?_, fun id x hx => ?_, fun id x hx => ?_⟩
  · exact ((Baggage.mem_entries_join hm).mp hx).elim (h.ids id x) (h'.ids id x)
  · rcases (Baggage.mem_entries_join hm).mp hx with hx | hx
    · exact (h.clocks id x hx).trans hleft
    · exact (h'.clocks id x hx).trans hright
  · exact ((Baggage.mem_entries_join hm).mp hx).elim (h.values id x) (h'.values id x)

/-- The baggage of a branch survives being sent. -/
theorem Sendable.ofWire?_toWire (h : br.Sendable) (ht : br.baggage.Tidy)
    (hpast : br.past.card < Json.bound64) :
    Baggage.ofWire? br.baggage.toWire = some br.baggage := by
  refine Baggage.ofWire?_toWire h.proper ht.versions fun id x hx => ?_
  exact ⟨h.ids id x hx, Nat.lt_of_le_of_lt (h.clocks id x hx) hpast, h.values id x hx⟩

end Branch

/-! ## Runs -/

namespace Branches

variable {actions : List Action}

/-- If all that is packed can be sent, so can the baggage of every branch. -/
theorem sendable_run (actions : List Action) (hfresh : ((packs actions).map (·.version)).Nodup)
    (hsend : ∀ e ∈ packs actions, e.Sendable) : ∀ i br, run actions i = some br → br.Sendable := by
  induction actions using List.reverseRecOn with
  | nil =>
      intro i br hi
      rw [eq_of_start hi]
      exact ⟨Baggage.proper_empty, nofun, nofun, nofun⟩
  | append_singleton actions action ih =>
      have hbefore := nodup_versions_earlier hfresh
      have hsound := sound_run actions hbefore
      have hafter := sound_run (actions ++ [action]) hfresh
      rw [packs_append] at hsend
      have ih := ih hbefore fun e he => hsend e (List.mem_append_left _ he)
      intro i br hi
      have ht := hafter.tidy hi
      cases arises_of_step (run_concat actions action ▸ hi) with
      | kept h _ => exact ih i br h
      | @packed br e ha h _ =>
          subst ha
          have hpack : e ∈ packs [.pack i e] := List.mem_singleton_self e
          refine (ih i br h).pack (hsend e (List.mem_append_right _ hpack)) (fun he => ?_) ht
          exact not_mem_packs_of_fresh hfresh (hsound.past h e he) hpack
      | @archived k br h _ => exact (ih k br h).archive (hsound.tidy h)
      | @joined j br other hne h h' _ _ =>
          exact (ih i br h).join (ih j other h') (hsound.mergeable h h')

end Branches

end CausalTrace
