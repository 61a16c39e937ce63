import CausalTrace.Proofs.Bags
import Mathlib.Data.Prod.Lex

/-!
# Entries across generations

Archiving and joining put the entries of two generations together, each version once
and in order. What a bag holds afterwards is read off here, up to order.
-/

namespace CausalTrace

instance : Std.TransOrd QueryId := by
  have h : (compare : QueryId → QueryId → Ordering) = compareOn (·.val) :=
    funext fun a => funext fun b => compare_queryId a b
  unfold Std.TransOrd
  rw [h]
  infer_instance

instance : Std.TransOrd BagId := by
  have h : (compare : BagId → BagId → Ordering) =
      compareLex (compareOn (·.query)) (compareOn (·.seq)) :=
    funext fun a => funext fun b => compare_bagId a b
  unfold Std.TransOrd
  rw [h]
  infer_instance

/-! ## Tables with distinct keys -/

namespace Table

variable {κ α : Type} [DecidableEq κ] {k : κ}

theorem listed_of_not_mem {t : Table κ (List α)} (h : k ∉ t.keys) : t.listed k = [] := by
  rw [listed, find?_eq_none_iff.mpr h]
  rfl

/-- Leaving out empty lists changes nothing that is listed. -/
theorem listed_filter_isEmpty {t : Table κ (List α)} (ht : t.keys.Nodup) :
    Table.listed (t.filter (!·.2.isEmpty)) k = t.listed k := by
  induction t with
  | nil => rfl
  | cons p t ih =>
      obtain ⟨k', as⟩ := p
      obtain ⟨hk', ht⟩ := List.nodup_cons.mp ht
      have ih := ih ht
      simp only [listed] at ih ⊢
      by_cases hk : k' = k
      · subst hk
        cases as with
        | nil =>
            have hnone : Table.find? k' t = none := find?_eq_none_iff.mpr hk'
            rw [hnone] at ih
            simpa [find?] using ih
        | cons a as => simp [find?]
      · cases as with
        | nil => simpa [find?, hk] using ih
        | cons a as => simpa [find?, hk] using ih

variable [Ord κ] [Std.LawfulEqOrd κ]

theorem listed_appendAll {t u : Table κ (List α)} (hu : u.keys.Nodup) :
    (t.appendAll u).listed k = t.listed k ++ u.listed k := by
  induction u generalizing t with
  | nil => exact (List.append_nil _).symm
  | cons p u ih =>
      obtain ⟨k', as⟩ := p
      obtain ⟨hk', hu⟩ := List.nodup_cons.mp hu
      have hstep : (t.appendAll ((k', as) :: u)).listed k =
          (t.append k' as).listed k ++ Table.listed u k := ih hu
      rw [hstep]
      by_cases hk : k' = k
      · subst hk
        have hnone : Table.listed u k' = [] := listed_of_not_mem hk'
        have hself : Table.listed ((k', as) :: u) k' = as := by simp [listed, find?]
        rw [listed_append_self, hnone, hself, List.append_nil]
      · have hother : Table.listed ((k', as) :: u) k = Table.listed u k := by
          simp [listed, find?, hk]
        rw [listed_append_ne (Ne.symm hk), hother]

variable [Std.TransOrd κ]

omit [DecidableEq κ] in
theorem sorted_keys_insert {t : Table κ α} (h : Ascending.Sorted t.keys) (k : κ) (a : α) :
    Ascending.Sorted (t.insert k a).keys := by
  rw [keys_insert]
  exact Ascending.sorted_insert k h

theorem sorted_keys_appendAll {t : Table κ (List α)} (h : Ascending.Sorted t.keys)
    (u : Table κ (List α)) : Ascending.Sorted (t.appendAll u).keys := by
  induction u generalizing t with
  | nil => exact h
  | cons p u ih => exact ih (sorted_keys_insert h _ _)

end Table

/-! ## Entries in order -/

namespace Entry

variable {es : List Entry} {seen : List UInt64} {x y : Entry}

/-- Entries are ranked by clock, then by version. -/
def rank (e : Entry) : ℕ ×ₗ ℕ := toLex (e.clock, e.version.toNat)

theorem before_iff : x.before y = true ↔ x.rank < y.rank := by
  unfold before rank
  rw [Prod.Lex.toLex_lt_toLex]
  simp [UInt64.lt_iff_toNat_lt]

theorem version_eq_of_rank (h : x.rank = y.rank) : x.version = y.version :=
  UInt64.toNat_inj.mp (congrArg Prod.snd (toLex.injective h))

theorem place_perm (e : Entry) (es : List Entry) : (place e es).Perm (e :: es) := by
  induction es with
  | nil => exact .refl _
  | cons f fs ih =>
      rw [place]
      split
      · exact (ih.cons f).trans (.swap e f fs)
      · exact .refl _

theorem sort_perm (es : List Entry) : (sort es).Perm es := by
  induction es with
  | nil => exact .refl _
  | cons e es ih => exact (place_perm e (sort es)).trans (ih.cons e)

/-- Among entries that their versions tell apart nothing but the versions given is left out. -/
theorem mem_distinct (h : ∀ y ∈ es, ∀ z ∈ es, y.version = z.version → y = z) :
    x ∈ distinct seen es ↔ x ∈ es ∧ x.version ∉ seen := by
  induction es generalizing seen with
  | nil => simp [distinct]
  | cons e es ih =>
      have ih : ∀ seen, x ∈ distinct seen es ↔ x ∈ es ∧ x.version ∉ seen := fun _ =>
        ih fun y hy z hz => h y (List.mem_cons_of_mem _ hy) z (List.mem_cons_of_mem _ hz)
      by_cases hseen : e.version ∈ seen
      · rw [distinct, if_pos (List.contains_iff_mem.mpr hseen), ih]
        constructor
        · rintro ⟨hm, hn⟩
          exact ⟨List.mem_cons_of_mem _ hm, hn⟩
        · rintro ⟨hm, hn⟩
          refine ⟨(List.mem_cons.mp hm).resolve_left ?_, hn⟩
          rintro rfl
          exact hn hseen
      · rw [distinct, if_neg (fun hc => hseen (List.contains_iff_mem.mp hc)), List.mem_cons, ih]
        constructor
        · rintro (rfl | ⟨hm, hn⟩)
          · exact ⟨List.mem_cons_self, hseen⟩
          · exact ⟨List.mem_cons_of_mem _ hm, fun hs => hn (List.mem_cons_of_mem _ hs)⟩
        · rintro ⟨hm, hn⟩
          by_cases hv : x.version = e.version
          · exact Or.inl (h x hm e List.mem_cons_self hv)
          · have hne : x ≠ e := fun he => hv (congrArg (·.version) he)
            refine Or.inr ⟨(List.mem_cons.mp hm).resolve_left hne, fun hs => ?_⟩
            exact (List.mem_cons.mp hs).elim hv hn

theorem not_mem_versions_distinct (h : x ∈ distinct seen es) : x.version ∉ seen := by
  induction es generalizing seen with
  | nil => cases h
  | cons e es ih =>
      rw [distinct] at h
      split at h
      · exact ih h
      · next hseen =>
          rcases List.mem_cons.mp h with rfl | h
          · exact fun hm => hseen (List.contains_iff_mem.mpr hm)
          · exact fun hm => ih h (List.mem_cons_of_mem _ hm)

theorem nodup_versions_distinct : ((distinct seen es).map (·.version)).Nodup := by
  induction es generalizing seen with
  | nil => exact List.nodup_nil
  | cons e es ih =>
      rw [distinct]
      split
      · exact ih
      · rw [List.map_cons, List.nodup_cons]
        refine ⟨fun hm => ?_, ih⟩
        obtain ⟨x, hx, he⟩ := List.mem_map.mp hm
        exact not_mem_versions_distinct hx (he ▸ List.mem_cons_self)

end Entry

/-! ## Generations -/

namespace Generation

variable {g : Generation} {id : BagId} {without : List UInt64}

theorem listed_normalize (hg : g.keys.Nodup) :
    (normalize without g).listed id = Entry.sort (Entry.distinct without (g.listed id)) := by
  have hkeys : (g.mapValues fun es => Entry.sort (Entry.distinct without es)).keys = g.keys := by
    simp [Table.mapValues, Table.keys, Function.comp_def]
  have hmap : normalize without g = (g.mapValues fun es =>
      Entry.sort (Entry.distinct without es)).filter (!·.2.isEmpty) := rfl
  rw [hmap, Table.listed_filter_isEmpty (hkeys ▸ hg), Table.listed, Table.find?_mapValues,
    Table.listed]
  cases g.find? id <;> rfl

theorem sorted_keys_normalize (hg : Ascending.Sorted g.keys) :
    Ascending.Sorted (normalize without g).keys := by
  refine List.Pairwise.sublist ?_ hg
  have hkeys : g.keys = (g.map fun p =>
      (p.1, Entry.sort (Entry.distinct without p.2))).map (·.1) := by
    simp [Table.keys, Function.comp_def]
  rw [hkeys]
  exact List.filter_sublist.map _

theorem mem_versions (hg : g.keys.Nodup) {v : UInt64} :
    v ∈ g.versions ↔ ∃ id, ∃ x ∈ g.listed id, x.version = v := by
  simp only [versions, List.mem_flatMap, List.mem_map]
  constructor
  · rintro ⟨⟨id, es⟩, hp, x, hx, hv⟩
    refine ⟨id, x, ?_, hv⟩
    rw [Table.listed, Table.find?_of_mem hg hp]
    exact hx
  · rintro ⟨id, x, hx, hv⟩
    cases hf : g.find? id with
    | none =>
        rw [Table.listed, hf] at hx
        cases hx
    | some es =>
        rw [Table.listed, hf] at hx
        exact ⟨(id, es), Table.mem_of_find?_eq_some hf, x, hx, hv⟩

end Generation

/-! ## Baggage -/

namespace Baggage

variable {b c : Baggage} {id : BagId} {x : Entry}

/-- Two baggages mean the same entry of the same bag by a version. -/
def Agree (b c : Baggage) : Prop :=
  ∀ i j, ∀ x ∈ b.entries i, ∀ y ∈ c.entries j, x.version = y.version → i = j ∧ x = y

/-- No ACTIVE entry of `b` is found in `c`. -/
def Owns (b c : Baggage) : Prop :=
  ∀ i j, ∀ x ∈ b.activeEntries i, ∀ y ∈ c.entries j, x.version ≠ y.version

/-- The bags of both generations are in order. -/
structure Keyed (b : Baggage) : Prop where
  active : Ascending.Sorted b.active.keys
  archive : Ascending.Sorted b.archive.keys

/-- Baggage in proper form: bags in order, no version twice. -/
structure Tidy (b : Baggage) : Prop where
  active : Ascending.Sorted b.active.keys
  archive : Ascending.Sorted b.archive.keys
  versions : ∀ id, ((b.entries id).map (·.version)).Nodup
  agree : b.Agree b

theorem Tidy.keyed (h : b.Tidy) : b.Keyed := ⟨h.active, h.archive⟩

theorem Agree.symm (h : b.Agree c) : c.Agree b := fun i j x hx y hy hv =>
  have ⟨hid, he⟩ := h j i y hy x hx hv.symm
  ⟨hid.symm, he.symm⟩

theorem mem_entries : x ∈ b.entries id ↔ x ∈ b.archivedEntries id ∨ x ∈ b.activeEntries id :=
  List.mem_append

theorem tidy_empty : empty.Tidy :=
  ⟨.nil, .nil, fun _ => List.nodup_nil, fun _ _ _ hx => nomatch hx⟩

/-- An entry of proper baggage is either ACTIVE or archived. -/
theorem Tidy.apart (h : b.Tidy) {i j : BagId} {y : Entry} (hx : x ∈ b.activeEntries i)
    (hy : y ∈ b.archivedEntries j) : x.version ≠ y.version := by
  intro hv
  obtain ⟨rfl, rfl⟩ := h.agree i j x (mem_entries.mpr (.inr hx)) y (mem_entries.mpr (.inl hy)) hv
  have hn := h.versions i
  rw [entries, List.map_append, List.nodup_append] at hn
  exact hn.2.2 _ (List.mem_map_of_mem hy) _ (List.mem_map_of_mem hx) rfl

/-! ### Clocks -/

/-- The next clock is one more than the largest one that is seen. -/
theorem nextClock_le_iff {n : Nat} : b.nextClock id ≤ n + 1 ↔ ∀ x ∈ b.entries id, x.clock ≤ n := by
  have hfold : ∀ (es : List Entry) (c : Nat),
      es.foldl (fun c e => max c e.clock) c ≤ n ↔ c ≤ n ∧ ∀ x ∈ es, x.clock ≤ n := by
    intro es
    induction es with
    | nil => simp
    | cons e es ih =>
        intro c
        rw [List.foldl_cons, ih, List.forall_mem_cons, Nat.max_le, and_assoc]
  unfold nextClock
  rw [Nat.add_le_add_iff_right, hfold]
  exact and_iff_right (Nat.zero_le n)

theorem clock_lt_nextClock (hx : x ∈ b.entries id) : x.clock < b.nextClock id :=
  Nat.lt_succ_of_le (nextClock_le_iff.mp (Nat.le_refl _) x hx)

/-! ### Archiving -/

theorem Keyed.archiveActive (h : b.Keyed) : b.archiveActive.Keyed where
  active := .nil
  archive := Generation.sorted_keys_normalize (Table.sorted_keys_appendAll h.archive _)

theorem archivedEntries_archiveActive (h : b.Keyed) :
    b.archiveActive.archivedEntries id = Entry.sort (Entry.distinct [] (b.entries id)) := by
  have hkeys := Ascending.Sorted.nodup (Table.sorted_keys_appendAll h.archive b.active)
  show (Generation.normalize [] (b.archive.appendAll b.active)).listed id = _
  rw [Generation.listed_normalize hkeys, Table.listed_appendAll (Ascending.Sorted.nodup h.active)]
  rfl

theorem Agree.told_apart (h : b.Agree c) : ∀ y ∈ b.entries id, ∀ z ∈ c.entries id,
    y.version = z.version → y = z := fun y hy z hz hv => (h id id y hy z hz hv).2

theorem mem_entries_archiveActive (h : b.Tidy) :
    x ∈ b.archiveActive.entries id ↔ x ∈ b.entries id := by
  have hnone : b.archiveActive.activeEntries id = [] := rfl
  rw [mem_entries, hnone, archivedEntries_archiveActive h.keyed, (Entry.sort_perm _).mem_iff,
    Entry.mem_distinct h.agree.told_apart]
  simp

theorem Tidy.archiveActive (h : b.Tidy) : b.archiveActive.Tidy where
  active := h.keyed.archiveActive.active
  archive := h.keyed.archiveActive.archive
  versions id := by
    have hall : b.archiveActive.entries id = b.archiveActive.archivedEntries id := List.append_nil _
    rw [hall, archivedEntries_archiveActive h.keyed, ((Entry.sort_perm _).map _).nodup_iff]
    exact Entry.nodup_versions_distinct
  agree i j x hx y hy := h.agree i j x ((mem_entries_archiveActive h).mp hx) y
    ((mem_entries_archiveActive h).mp hy)

/-! ### Joining -/

/-- Two baggages can be merged: they are in proper form and mean the same by a version. -/
structure Mergeable (b c : Baggage) : Prop where
  left : b.Tidy
  right : c.Tidy
  agree : b.Agree c

/-- Two branches can be joined: what is ACTIVE in one is not even found in the other. -/
structure Joinable (b c : Baggage) : Prop extends Mergeable b c where
  owns : b.Owns c
  owned : c.Owns b

theorem Keyed.join (h : b.Keyed) (c : Baggage) : (b.join c).Keyed where
  active := Generation.sorted_keys_normalize (Table.sorted_keys_appendAll h.active _)
  archive := Generation.sorted_keys_normalize (Table.sorted_keys_appendAll h.archive _)

theorem archivedEntries_join (hb : b.Keyed) (hc : c.Keyed) : (b.join c).archivedEntries id =
    Entry.sort (Entry.distinct [] (b.archivedEntries id ++ c.archivedEntries id)) := by
  have hkeys := Ascending.Sorted.nodup (Table.sorted_keys_appendAll hb.archive c.archive)
  show (Generation.normalize [] (b.archive.appendAll c.archive)).listed id = _
  rw [Generation.listed_normalize hkeys, Table.listed_appendAll (Ascending.Sorted.nodup hc.archive)]
  rfl

theorem activeEntries_join (hb : b.Keyed) (hc : c.Keyed) : (b.join c).activeEntries id =
    Entry.sort (Entry.distinct (b.join c).archive.versions
      (b.activeEntries id ++ c.activeEntries id)) := by
  have hkeys := Ascending.Sorted.nodup (Table.sorted_keys_appendAll hb.active c.active)
  show (Generation.normalize _ (b.active.appendAll c.active)).listed id = _
  rw [Generation.listed_normalize hkeys, Table.listed_appendAll (Ascending.Sorted.nodup hc.active)]
  rfl

/-- A version means one entry wherever it is found. -/
theorem Mergeable.same_entry (h : b.Mergeable c) {i j : BagId} {x y : Entry}
    (hx : x ∈ b.entries i ∨ x ∈ c.entries i) (hy : y ∈ b.entries j ∨ y ∈ c.entries j)
    (hv : x.version = y.version) : i = j ∧ x = y := by
  rcases hx with hx | hx <;> rcases hy with hy | hy
  · exact h.left.agree i j x hx y hy hv
  · exact h.agree i j x hx y hy hv
  · exact h.agree.symm i j x hx y hy hv
  · exact h.right.agree i j x hx y hy hv

theorem mem_archivedEntries_join (h : b.Mergeable c) : x ∈ (b.join c).archivedEntries id ↔
    x ∈ b.archivedEntries id ∨ x ∈ c.archivedEntries id := by
  have hin : ∀ y ∈ b.archivedEntries id ++ c.archivedEntries id,
      y ∈ b.entries id ∨ y ∈ c.entries id := fun y hy =>
    (List.mem_append.mp hy).imp (fun hy => mem_entries.mpr (.inl hy))
      fun hy => mem_entries.mpr (.inl hy)
  rw [archivedEntries_join h.left.keyed h.right.keyed, (Entry.sort_perm _).mem_iff,
    Entry.mem_distinct fun y hy z hz hv => (h.same_entry (hin y hy) (hin z hz) hv).2,
    List.mem_append]
  simp

theorem mem_versions_join (h : b.Mergeable c) (hx : x ∈ b.entries id ∨ x ∈ c.entries id) :
    x.version ∈ (b.join c).archive.versions ↔
      x ∈ b.archivedEntries id ∨ x ∈ c.archivedEntries id := by
  rw [Generation.mem_versions (Ascending.Sorted.nodup (h.left.keyed.join c).archive),
    ← mem_archivedEntries_join h]
  constructor
  · rintro ⟨j, y, hy, hv⟩
    have hy : y ∈ (b.join c).archivedEntries j := hy
    have hfound : y ∈ b.entries j ∨ y ∈ c.entries j := by
      apply ((mem_archivedEntries_join h).mp hy).imp
      · exact fun hy => mem_entries.mpr (.inl hy)
      · exact fun hy => mem_entries.mpr (.inl hy)
    obtain ⟨rfl, rfl⟩ := h.same_entry hfound hx hv
    exact hy
  · exact fun hx => ⟨id, x, hx, rfl⟩

/-- What is archived in one baggage is not ACTIVE in the merged one. -/
theorem mem_activeEntries_join (h : b.Mergeable c) : x ∈ (b.join c).activeEntries id ↔
    (x ∈ b.activeEntries id ∨ x ∈ c.activeEntries id) ∧
      x ∉ b.archivedEntries id ∧ x ∉ c.archivedEntries id := by
  have hin : ∀ y ∈ b.activeEntries id ++ c.activeEntries id,
      y ∈ b.entries id ∨ y ∈ c.entries id := fun y hy =>
    (List.mem_append.mp hy).imp (fun hy => mem_entries.mpr (.inr hy))
      fun hy => mem_entries.mpr (.inr hy)
  rw [activeEntries_join h.left.keyed h.right.keyed, (Entry.sort_perm _).mem_iff,
    Entry.mem_distinct fun y hy z hz hv => (h.same_entry (hin y hy) (hin z hz) hv).2,
    ← List.mem_append]
  refine and_congr_right fun hx => ?_
  rw [mem_versions_join h (hin x hx), not_or]

theorem mem_entries_join (h : b.Mergeable c) :
    x ∈ (b.join c).entries id ↔ x ∈ b.entries id ∨ x ∈ c.entries id := by
  simp only [mem_entries, mem_archivedEntries_join h, mem_activeEntries_join h]
  tauto

/-- Of two branches that can be joined, nothing that is ACTIVE has been archived. -/
theorem Joinable.mem_activeEntries (h : b.Joinable c) : x ∈ (b.join c).activeEntries id ↔
    x ∈ b.activeEntries id ∨ x ∈ c.activeEntries id := by
  rw [mem_activeEntries_join h.toMergeable]
  apply and_iff_left_of_imp
  rintro (hx | hx)
  · exact ⟨fun hy => h.left.apart hx hy rfl,
      fun hy => h.owns _ _ x hx x (mem_entries.mpr (.inl hy)) rfl⟩
  · exact ⟨fun hy => h.owned _ _ x hx x (mem_entries.mpr (.inl hy)) rfl,
      fun hy => h.right.apart hx hy rfl⟩

theorem Tidy.join (h : b.Mergeable c) : (b.join c).Tidy where
  active := (h.left.keyed.join c).active
  archive := (h.left.keyed.join c).archive
  versions id := by
    rw [entries, List.map_append, List.nodup_append]
    refine ⟨?_, ?_, ?_⟩
    · rw [archivedEntries_join h.left.keyed h.right.keyed, ((Entry.sort_perm _).map _).nodup_iff]
      exact Entry.nodup_versions_distinct
    · rw [activeEntries_join h.left.keyed h.right.keyed, ((Entry.sort_perm _).map _).nodup_iff]
      exact Entry.nodup_versions_distinct
    · intro v hv w hw he
      obtain ⟨y, hy, rfl⟩ := List.mem_map.mp hv
      obtain ⟨x, hx, rfl⟩ := List.mem_map.mp hw
      have hfound : ∀ {z}, z ∈ (b.join c).entries id → z ∈ b.entries id ∨ z ∈ c.entries id :=
        (mem_entries_join h).mp
      obtain ⟨_, rfl⟩ := h.same_entry (hfound (mem_entries.mpr (.inl hy)))
        (hfound (mem_entries.mpr (.inr hx))) he
      have hgone := ((mem_activeEntries_join h).mp hx).2
      exact ((mem_archivedEntries_join h).mp hy).elim hgone.1 hgone.2
  agree i j x hx y hy := h.same_entry ((mem_entries_join h).mp hx) ((mem_entries_join h).mp hy)

end Baggage

end CausalTrace
