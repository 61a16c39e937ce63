import CausalTrace.Proofs.Branching

/-!
# What an operation reads and leaves

Packing and unpacking read no bag but the one they are for, and archiving treats each bag on its
own. Joining does not quite: what is archived in any bag is not ACTIVE in another one. All of
them keep entries as they are, and only a pack writes a new one, of the version drawn for it.
-/

namespace CausalTrace

/-! ## Packing and unpacking -/

namespace Bag

variable {bag : Bag} {id : BagId} {b c : Baggage} {v v' : UInt64}

theorem Same.symm (h : Same id b c) : Same id c b := ⟨h.1.symm, h.2.symm⟩

theorem Same.entries (h : Same id b c) : b.entries id = c.entries id := by
  rw [Baggage.entries, Baggage.entries, h.1, h.2]

theorem Same.nextEntry (h : Same id b c) (v : UInt64) (rs : List Row) :
    b.nextEntry id v rs = c.nextEntry id v rs := by
  rw [Baggage.nextEntry, Baggage.nextEntry, Baggage.nextClock, Baggage.nextClock, h.entries]

theorem Same.unpack (h : Same bag.id b c) : bag.unpack b = bag.unpack c := by
  rw [Bag.unpack, Bag.unpack, h.1, h.2, h.entries]

/-- An entry of the next clock is not there yet. -/
theorem ne_of_next {x : Entry} (hx : x ∈ c.activeEntries id)
    (hclock : x.clock = b.nextClock id) : c ≠ b := by
  rintro rfl
  exact Nat.lt_irrefl _ (hclock ▸ Baggage.clock_lt_nextClock (Baggage.mem_entries.mpr (.inr hx)))

/-- Two baggages that are changed in one bag, alike up to the version of the entry. -/
structure Written (id : BagId) (v v' : UInt64) (b c b' c' : Baggage) : Prop where
  left : b' ≠ b
  right : c' ≠ c
  same : v = v' → Same id b' c'

theorem written_push (h : Same id b c) (rs : List Row) :
    Written id v v' b c (b.push id v rs) (c.push id v' rs) where
  left := ne_of_next (by rw [activeEntries_push]; exact List.mem_concat_self) rfl
  right := ne_of_next (by rw [activeEntries_push]; exact List.mem_concat_self) rfl
  same := by
    rintro rfl
    refine ⟨?_, h.2⟩
    rw [activeEntries_push, activeEntries_push, h.1, h.nextEntry]

theorem written_replaceActive (h : Same id b c) (rs : List Row) :
    Written id v v' b c (b.replaceActive id v rs) (c.replaceActive id v' rs) where
  left := ne_of_next (by rw [activeEntries_replaceActive]; exact List.mem_singleton_self _) rfl
  right := ne_of_next (by rw [activeEntries_replaceActive]; exact List.mem_singleton_self _) rfl
  same := by
    rintro rfl
    refine ⟨?_, h.2⟩
    rw [activeEntries_replaceActive, activeEntries_replaceActive, h.nextEntry]

theorem written_supersede (h : Same id b c) (rs : List Row) :
    Written id v v' b c (b.supersede id v rs) (c.supersede id v' rs) where
  left := ne_of_next (by rw [activeEntries_supersede]; exact List.mem_singleton_self _) rfl
  right := ne_of_next (by rw [activeEntries_supersede]; exact List.mem_singleton_self _) rfl
  same := by
    rintro rfl
    refine ⟨?_, ?_⟩
    · rw [activeEntries_supersede, activeEntries_supersede, h.nextEntry]
    · rw [archivedEntries_supersede, archivedEntries_supersede]

/-- How a pack changes its bag. -/
inductive Change where
  | none
  | push (rows : List Row)
  | replaceActive (rows : List Row)
  | supersede (rows : List Row)

def Change.apply (id : BagId) (version : UInt64) (b : Baggage) : Change → Baggage
  | .none => b
  | .push rows => b.push id version rows
  | .replaceActive rows => b.replaceActive id version rows
  | .supersede rows => b.supersede id version rows

/-- The change that a pack makes and the number of rows that it keeps depend on the rows and on the
entries of its bag. -/
theorem pack_eq_apply (bag : Bag) (b : Baggage) (rows : List Row) : ∃ (x : Change) (n : Nat),
    ∀ c, Same bag.id b c → ∀ version, bag.pack version c rows = (x.apply bag.id version c, n) := by
  unfold pack
  cases bag.discipline with
  | tuples arity =>
      cases hvalid : rows.filter (·.length == arity) with
      | nil => exact ⟨.none, 0, fun c _ version => by simp [hvalid, Change.apply]⟩
      | cons r rs =>
          exact ⟨.push (r :: rs), rs.length + 1, fun c _ version => by simp [hvalid, Change.apply]⟩
  | one keep arity =>
      cases keep with
      | first =>
          cases hchosen : chosen? .first arity (b.entries bag.id) with
          | some x =>
              exact ⟨.none, 0, fun c h version => by simp [← h.entries, hchosen, Change.apply]⟩
          | none =>
              cases hfound : rows.find? (·.length == arity) with
              | none =>
                  exact ⟨.none, 0, fun c h version => by simp [hfound, Change.apply]⟩
              | some r =>
                  exact ⟨.push [r], 1, fun c h version => by
                    simp [← h.entries, hchosen, hfound, Change.apply]⟩
      | mostRecent =>
          cases hlast : (rows.filter (·.length == arity)).getLast? with
          | none => exact ⟨.none, 0, fun c _ version => by simp [hlast, Change.apply]⟩
          | some r => exact ⟨.supersede [r], 1, fun c _ version => by simp [hlast, Change.apply]⟩
  | grouped keys kinds =>
      let batch := (Groups.empty keys kinds).observeAll rows
      let before := (Groups.empty keys kinds).combineRows (allRows (b.activeEntries bag.id))
      by_cases hempty : batch.1.groups.isEmpty = true
      · exact ⟨.none, 0, fun c _ version => if_pos hempty⟩
      · refine ⟨.replaceActive (before.combineRows batch.1.rows).rows,
          batch.2, fun c h version => ?_⟩
        rw [← h.1]
        exact if_neg hempty
  | disabled => exact ⟨.none, 0, fun _ _ _ => rfl⟩

/-- Packing the same rows where a bag is the same changes nothing on either side, or writes
alike on both. -/
theorem pack_alike (h : Same bag.id b c) (v v' : UInt64) (rows : List Row) :
    ((bag.pack v b rows).1 = b ∧ (bag.pack v' c rows).1 = c) ∨
      Written bag.id v v' b c (bag.pack v b rows).1 (bag.pack v' c rows).1 := by
  obtain ⟨x, n, hpack⟩ := pack_eq_apply bag b rows
  rw [hpack b .refl, hpack c h]
  cases x with
  | none => exact .inl ⟨rfl, rfl⟩
  | push rows => exact .inr (written_push h rows)
  | replaceActive rows => exact .inr (written_replaceActive h rows)
  | supersede rows => exact .inr (written_supersede h rows)

end Bag

/-! ## Archiving and joining -/

namespace Entry

variable {es : List Entry} {seen seen' : List UInt64} {v : UInt64}

/-- Which entries are left out depends on their own versions only. -/
theorem distinct_congr (h : ∀ x ∈ es, x.version ∈ seen ↔ x.version ∈ seen') :
    distinct seen es = distinct seen' es := by
  induction es generalizing seen seen' with
  | nil => rfl
  | cons e es ih =>
      obtain ⟨he, hes⟩ := List.forall_mem_cons.mp h
      rw [distinct, distinct]
      by_cases hseen : e.version ∈ seen
      · rw [if_pos (List.contains_iff_mem.mpr hseen),
          if_pos (List.contains_iff_mem.mpr (he.mp hseen))]
        exact ih hes
      · rw [if_neg (fun hc => hseen (List.contains_iff_mem.mp hc)),
          if_neg (fun hc => hseen (he.mpr (List.contains_iff_mem.mp hc)))]
        refine congrArg (e :: ·) (ih fun x hx => ?_)
        rw [List.mem_cons, List.mem_cons, hes x hx]

theorem distinct_sublist : (distinct seen es).Sublist es := by
  induction es generalizing seen with
  | nil => exact .slnil
  | cons e es ih =>
      rw [distinct]
      split
      · exact ih.cons e
      · exact ih.cons_cons e

/-- Of all the entries of a version one is kept. -/
theorem exists_mem_distinct (h : ∃ x ∈ es, x.version = v) (hseen : v ∉ seen) :
    ∃ x ∈ distinct seen es, x.version = v := by
  induction es generalizing seen with
  | nil =>
      obtain ⟨_, hx, _⟩ := h
      cases hx
  | cons e es ih =>
      rw [distinct]
      by_cases he : e.version = v
      · rw [if_neg (fun hc => hseen (he ▸ List.contains_iff_mem.mp hc))]
        exact ⟨e, List.mem_cons_self, he⟩
      · obtain ⟨x, hx, hv⟩ := h
        have hes : ∃ x ∈ es, x.version = v :=
          ⟨x, (List.mem_cons.mp hx).resolve_left (by rintro rfl; exact he hv), hv⟩
        split
        · exact ih hes hseen
        · have hseen' : v ∉ e.version :: seen :=
            List.not_mem_cons_of_ne_of_not_mem (Ne.symm he) hseen
          obtain ⟨y, hy, hyv⟩ := ih hes hseen'
          exact ⟨y, List.mem_cons_of_mem _ hy, hyv⟩

end Entry

namespace Baggage

variable {b c : Baggage} {id : BagId} {v : UInt64}

/-- An entry of a bag has this version. -/
def Has (b : Baggage) (id : BagId) (v : UInt64) : Prop := ∃ x ∈ b.entries id, x.version = v

theorem keyed_empty : empty.Keyed := ⟨.nil, .nil⟩

theorem not_has_empty : ¬ empty.Has id v := fun ⟨_, hx, _⟩ => nomatch hx

/-- Archiving writes no entries. -/
theorem mem_entries_of_archiveActive {x : Entry} (hb : b.Keyed)
    (hx : x ∈ b.archiveActive.entries id) : x ∈ b.entries id := by
  have hall : b.archiveActive.entries id = b.archiveActive.archivedEntries id := List.append_nil _
  rw [hall, archivedEntries_archiveActive hb, (Entry.sort_perm _).mem_iff] at hx
  exact Entry.distinct_sublist.subset hx

/-- Joining writes no entries. -/
theorem mem_entries_of_join {x : Entry} (hb : b.Keyed) (hc : c.Keyed)
    (hx : x ∈ (b.join c).entries id) : x ∈ b.entries id ∨ x ∈ c.entries id := by
  simp only [mem_entries]
  rcases mem_entries.mp hx with hx | hx
  · rw [archivedEntries_join hb hc, (Entry.sort_perm _).mem_iff] at hx
    exact (List.mem_append.mp (Entry.distinct_sublist.subset hx)).imp .inl .inl
  · rw [activeEntries_join hb hc, (Entry.sort_perm _).mem_iff] at hx
    exact (List.mem_append.mp (Entry.distinct_sublist.subset hx)).imp .inr .inr

theorem mem_archive_join (hb : b.Keyed) (hc : c.Keyed) : v ∈ (b.join c).archive.versions ↔
    ∃ id, ∃ x ∈ b.archivedEntries id ++ c.archivedEntries id, x.version = v := by
  rw [Generation.mem_versions (Ascending.Sorted.nodup (hb.join c).archive)]
  refine exists_congr fun id => ?_
  show (∃ x ∈ (b.join c).archivedEntries id, _) ↔ _
  rw [archivedEntries_join hb hc]
  constructor
  · rintro ⟨x, hx, hv⟩
    exact ⟨x, Entry.distinct_sublist.subset ((Entry.sort_perm _).mem_iff.mp hx), hv⟩
  · intro h
    obtain ⟨x, hx, hv⟩ := Entry.exists_mem_distinct h (List.not_mem_nil (a := v))
    exact ⟨x, (Entry.sort_perm _).mem_iff.mpr hx, hv⟩

theorem same_archiveActive (hb : b.Keyed) (hc : c.Keyed) (h : Bag.Same id b c) :
    Bag.Same id b.archiveActive c.archiveActive := by
  refine ⟨rfl, ?_⟩
  rw [archivedEntries_archiveActive hb, archivedEntries_archiveActive hc, h.entries]

/-- The bags of a joined baggage depend on those of its parts, and on what is archived of the
versions in these. -/
theorem same_join {b' c' : Baggage} (hb : b.Keyed) (hc : c.Keyed) (hb' : b'.Keyed) (hc' : c'.Keyed)
    (h : Bag.Same id b b') (h' : Bag.Same id c c')
    (hv : ∀ v, b.Has id v ∨ c.Has id v →
      (v ∈ (b.join c).archive.versions ↔ v ∈ (b'.join c').archive.versions)) :
    Bag.Same id (b.join c) (b'.join c') := by
  constructor
  · rw [activeEntries_join hb hc, activeEntries_join hb' hc', ← h.1, ← h'.1]
    refine congrArg Entry.sort (Entry.distinct_congr fun x hx => hv _ ?_)
    rcases List.mem_append.mp hx with hx | hx
    · exact .inl ⟨x, mem_entries.mpr (.inr hx), rfl⟩
    · exact .inr ⟨x, mem_entries.mpr (.inr hx), rfl⟩
  · rw [archivedEntries_join hb hc, archivedEntries_join hb' hc', h.2, h'.2]

end Baggage

end CausalTrace
