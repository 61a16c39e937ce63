import CausalTrace.Proofs.Generations
import Mathlib.Data.List.Sort
import Mathlib.Data.Set.Defs

/-!
# Merging in any order

Baggage in proper form is determined by the entries it holds in each generation. Merging
some baggages that mean the same by a version gives the proper form of a union: archived is
what is archived in one of them, ACTIVE what is ACTIVE in one of them and archived in none.
So neither the order of the merges matters nor how often a baggage takes part.
-/

namespace CausalTrace

/-! ## Lists of entries in order -/

namespace Entry

variable {e : Entry} {es fs : List Entry}

/-- Strictly ascending by clock and version. -/
def Ordered (es : List Entry) : Prop := es.Pairwise (·.rank < ·.rank)

instance : DecidablePred Ordered := fun es =>
  inferInstanceAs (Decidable (es.Pairwise (·.rank < ·.rank)))

theorem ordered_place (h : Ordered es) (hnew : ∀ x ∈ es, x.version ≠ e.version) :
    Ordered (place e es) := by
  induction es with
  | nil => exact List.pairwise_singleton _ _
  | cons f fs ih =>
      obtain ⟨hf, hfs⟩ := List.pairwise_cons.mp h
      obtain ⟨hfe, hnew⟩ := List.forall_mem_cons.mp hnew
      rw [place]
      split
      · next hbefore =>
          refine List.pairwise_cons.mpr ⟨fun x hx => ?_, ih hfs hnew⟩
          rcases List.mem_cons.mp ((place_perm e fs).mem_iff.mp hx) with rfl | hx
          · exact before_iff.mp hbefore
          · exact hf x hx
      · next hbefore =>
          have hef : e.rank < f.rank := by
            rw [before_iff, not_lt] at hbefore
            exact lt_of_le_of_ne hbefore fun hr => hfe (version_eq_of_rank hr).symm
          refine List.pairwise_cons.mpr ⟨fun x hx => ?_, h⟩
          rcases List.mem_cons.mp hx with rfl | hx
          · exact hef
          · exact hef.trans (hf x hx)

theorem ordered_sort (h : (es.map (·.version)).Nodup) : Ordered (sort es) := by
  induction es with
  | nil => exact List.Pairwise.nil
  | cons e es ih =>
      obtain ⟨he, hes⟩ := List.nodup_cons.mp h
      apply ordered_place (ih hes)
      intro x hx hv
      exact he (List.mem_map.mpr ⟨x, (sort_perm es).mem_iff.mp hx, hv⟩)

/-- A list in order is determined by its members. -/
theorem Ordered.ext (hes : Ordered es) (hfs : Ordered fs) (h : ∀ x, x ∈ es ↔ x ∈ fs) : es = fs := by
  have hirrefl : Std.Irrefl fun x y : Entry => x.rank < y.rank := ⟨fun x => lt_irrefl x.rank⟩
  have hanti : Std.Antisymm fun x y : Entry => x.rank < y.rank :=
    ⟨fun _ _ hxy hyx => absurd hxy hyx.asymm⟩
  exact hes.eq_of_mem_iff hfs h

/-- Entries in order that their versions tell apart have different versions. -/
theorem Ordered.nodup_versions (h : Ordered es)
    (hsame : ∀ x ∈ es, ∀ y ∈ es, x.version = y.version → x = y) : (es.map (·.version)).Nodup := by
  refine List.pairwise_map.mpr (h.imp_of_mem fun {x y} hx hy hlt hv => ?_)
  exact absurd hlt (hsame x hx y hy hv ▸ lt_irrefl _)

end Entry

/-! ## Tables in order -/

namespace Table

variable {κ α : Type} [DecidableEq κ] {t u : Table κ (List α)} {k : κ}

theorem mem_keys_iff (h : ∀ p ∈ t, p.2 ≠ []) : k ∈ t.keys ↔ t.listed k ≠ [] := by
  rw [listed]
  cases hf : t.find? k with
  | none => simpa using find?_eq_none_iff.mp hf
  | some as =>
      have hp := mem_of_find?_eq_some hf
      exact iff_of_true (List.mem_map_of_mem (f := (·.1)) hp) (h _ hp)

theorem eq_map_listed (h : t.keys.Nodup) : t = t.keys.map fun k => (k, t.listed k) := by
  rw [keys, List.map_map]
  refine ((List.map_congr_left fun p hp => ?_).trans (List.map_id t)).symm
  rw [Function.comp_apply, listed, find?_of_mem h hp]
  rfl

/-- A table in order without empty lists is determined by what it lists. -/
theorem ext_of_listed [Ord κ] [Std.LawfulEqOrd κ] [Std.TransOrd κ]
    (ht : Ascending.Sorted t.keys) (hu : Ascending.Sorted u.keys)
    (hfull : ∀ p ∈ t, p.2 ≠ []) (hfull' : ∀ p ∈ u, p.2 ≠ [])
    (h : ∀ k, t.listed k = u.listed k) : t = u := by
  have hirrefl : Std.Irrefl fun k l : κ => compare k l = .lt :=
    ⟨fun k hk => by rw [Std.ReflOrd.compare_self] at hk; cases hk⟩
  have hanti : Std.Antisymm fun k l : κ => compare k l = .lt :=
    ⟨fun k l hkl hlk => by rw [Std.OrientedCmp.gt_of_lt hkl] at hlk; cases hlk⟩
  have hkeys : t.keys = u.keys := List.Pairwise.eq_of_mem_iff ht hu fun k => by
    rw [mem_keys_iff hfull, mem_keys_iff hfull', h]
  rw [eq_map_listed (Ascending.Sorted.nodup ht), eq_map_listed (Ascending.Sorted.nodup hu), hkeys]
  exact List.map_congr_left fun k _ => by rw [h]

end Table

/-! ## Proper form -/

namespace Generation

variable {g : Generation} {id : BagId} {without : List UInt64}

/-- A generation in proper form: the bags in order, each with some entries in order. -/
structure Proper (g : Generation) : Prop where
  keys : Ascending.Sorted g.keys
  full : ∀ p ∈ g, p.2 ≠ []
  ordered : ∀ p ∈ g, Entry.Ordered p.2

theorem Proper.listed (h : g.Proper) (id : BagId) : Entry.Ordered (g.listed id) := by
  rw [Table.listed]
  cases hf : g.find? id with
  | none => exact List.Pairwise.nil
  | some es => exact h.ordered _ (Table.mem_of_find?_eq_some hf)

theorem proper_normalize (h : Ascending.Sorted g.keys) : (normalize without g).Proper where
  keys := sorted_keys_normalize h
  full p hp := by
    simpa using (List.mem_filter.mp hp).2
  ordered p hp := by
    obtain ⟨q, _, rfl⟩ := List.mem_map.mp (List.mem_of_mem_filter hp)
    exact Entry.ordered_sort Entry.nodup_versions_distinct

theorem not_mem_versions_normalize {v : UInt64} (h : v ∈ (normalize without g).versions) :
    v ∉ without := by
  obtain ⟨p, hp, hv⟩ := List.mem_flatMap.mp h
  obtain ⟨q, _, rfl⟩ := List.mem_map.mp (List.mem_of_mem_filter hp)
  obtain ⟨x, hx, rfl⟩ := List.mem_map.mp hv
  exact Entry.not_mem_versions_distinct ((Entry.sort_perm _).mem_iff.mp hx)

end Generation

namespace Baggage

variable {b c : Baggage} {id : BagId} {x : Entry}

/-- Both generations are in proper form, and no ACTIVE version is an archived one. -/
structure Proper (b : Baggage) : Prop where
  active : b.active.Proper
  archive : b.archive.Proper
  apart : ∀ v ∈ b.active.versions, v ∉ b.archive.versions

theorem Proper.not_archived (h : b.Proper) (hx : x ∈ b.activeEntries id) :
    x ∉ b.archivedEntries id := fun hy =>
  h.apart x.version
    ((Generation.mem_versions (Ascending.Sorted.nodup h.active.keys)).mpr ⟨id, x, hx, rfl⟩)
    ((Generation.mem_versions (Ascending.Sorted.nodup h.archive.keys)).mpr ⟨id, x, hy, rfl⟩)

theorem Proper.tidy (h : b.Proper) (hagree : b.Agree b) : b.Tidy where
  active := h.active.keys
  archive := h.archive.keys
  versions id := by
    have hsame : ∀ x ∈ b.entries id, ∀ y ∈ b.entries id, x.version = y.version → x = y :=
      hagree.told_apart
    rw [entries, List.map_append, List.nodup_append]
    refine ⟨?_, ?_, ?_⟩
    · exact (h.archive.listed id).nodup_versions fun x hx y hy =>
        hsame x (mem_entries.mpr (.inl hx)) y (mem_entries.mpr (.inl hy))
    · exact (h.active.listed id).nodup_versions fun x hx y hy =>
        hsame x (mem_entries.mpr (.inr hx)) y (mem_entries.mpr (.inr hy))
    · intro v hv w hw he
      obtain ⟨x, hx, rfl⟩ := List.mem_map.mp hv
      obtain ⟨y, hy, rfl⟩ := List.mem_map.mp hw
      obtain rfl := hsame x (mem_entries.mpr (.inl hx)) y (mem_entries.mpr (.inr hy)) he
      exact h.not_archived hy hx
  agree := hagree

/-- Baggage in proper form is determined by the entries of each generation. -/
theorem Proper.ext (hb : b.Proper) (hc : c.Proper)
    (hactive : ∀ id x, x ∈ b.activeEntries id ↔ x ∈ c.activeEntries id)
    (harchive : ∀ id x, x ∈ b.archivedEntries id ↔ x ∈ c.archivedEntries id) : b = c := by
  have hsame : ∀ {g h : Generation}, g.Proper → h.Proper →
      (∀ id x, x ∈ g.listed id ↔ x ∈ h.listed id) → g = h := fun hg hh hmem =>
    Table.ext_of_listed hg.keys hh.keys hg.full hh.full fun id =>
      (hg.listed id).ext (hh.listed id) (hmem id)
  cases b
  cases c
  congr 1
  · exact hsame hb.active hc.active hactive
  · exact hsame hb.archive hc.archive harchive

/-- Whatever is gathered is in proper form. -/
theorem proper_gather {active archive : Generation} (hactive : Ascending.Sorted active.keys)
    (harchive : Ascending.Sorted archive.keys) : (gather active archive).Proper where
  active := Generation.proper_normalize hactive
  archive := Generation.proper_normalize harchive
  apart _ hv := Generation.not_mem_versions_normalize hv

theorem Proper.join (h : b.Mergeable c) : (b.join c).Proper :=
  proper_gather (Table.sorted_keys_appendAll h.left.active _)
    (Table.sorted_keys_appendAll h.left.archive _)

end Baggage

/-! ## Merging -/

/-- A way to merge baggages two by two. -/
inductive Merging where
  | single (b : Baggage)
  | merge (m n : Merging)

namespace Merging

/-- The baggages that take part. -/
def parts : Merging → List Baggage
  | single b => [b]
  | merge m n => m.parts ++ n.parts

def result : Merging → Baggage
  | single b => b
  | merge m n => m.result.join n.result

/-- The result is the proper form of the union of all parts. -/
structure Unites (m : Merging) : Prop where
  proper : m.result.Proper
  archived : ∀ id x, x ∈ m.result.archivedEntries id ↔ ∃ b ∈ m.parts, x ∈ b.archivedEntries id
  active : ∀ id x, x ∈ m.result.activeEntries id ↔
    (∃ b ∈ m.parts, x ∈ b.activeEntries id) ∧ ∀ b ∈ m.parts, x ∉ b.archivedEntries id

variable {m n : Merging} {family : Set Baggage}

theorem Unites.exists_part (h : m.Unites) {id : BagId} {x : Entry} (hx : x ∈ m.result.entries id) :
    ∃ b ∈ m.parts, x ∈ b.entries id := by
  rcases Baggage.mem_entries.mp hx with hx | hx
  · obtain ⟨b, hb, hx⟩ := (h.archived id x).mp hx
    exact ⟨b, hb, Baggage.mem_entries.mpr (.inl hx)⟩
  · obtain ⟨b, hb, hx⟩ := ((h.active id x).mp hx).1
    exact ⟨b, hb, Baggage.mem_entries.mpr (.inr hx)⟩

theorem Unites.agree (hm : m.Unites) (hn : n.Unites)
    (h : ∀ b ∈ m.parts, ∀ c ∈ n.parts, b.Agree c) : m.result.Agree n.result := by
  intro i j x hx y hy
  obtain ⟨b, hb, hx⟩ := hm.exists_part hx
  obtain ⟨c, hc, hy⟩ := hn.exists_part hy
  exact h b hb c hc i j x hx y hy

theorem Unites.merge (hm : m.Unites) (hn : n.Unites)
    (h : m.result.Mergeable n.result) : (m.merge n).Unites where
  proper := Baggage.Proper.join h
  archived id x := by
    rw [result, Baggage.mem_archivedEntries_join h, hm.archived, hn.archived]
    simp only [parts, List.mem_append, or_and_right, exists_or]
  active id x := by
    have hnone : ∀ {k : Merging}, k.Unites → (x ∉ k.result.archivedEntries id ↔
        ∀ b ∈ k.parts, x ∉ b.archivedEntries id) := fun hk => by
      rw [hk.archived]
      simp
    rw [result, Baggage.mem_activeEntries_join h, hm.active, hn.active, hnone hm, hnone hn]
    simp only [parts, List.mem_append, or_imp, forall_and]
    refine and_congr_left fun hout => ?_
    rw [and_iff_left hout.1, and_iff_left hout.2]
    simp only [or_and_right, exists_or]

/-- Merging baggages that mean the same by a version unites them. -/
theorem unites (hproper : ∀ b ∈ family, b.Proper) (hagree : ∀ b ∈ family, ∀ c ∈ family, b.Agree c)
    (hparts : ∀ b ∈ m.parts, b ∈ family) : m.Unites := by
  induction m with
  | single b =>
      have hb := hproper b (hparts b (List.mem_singleton_self b))
      refine ⟨hb, ?_, ?_⟩
      · simp [result, parts]
      · simpa [result, parts] using fun id x hx => hb.not_archived hx
  | merge m n ihm ihn =>
      have hm : ∀ b ∈ m.parts, b ∈ family := fun b hb => hparts b (List.mem_append_left _ hb)
      have hn : ∀ b ∈ n.parts, b ∈ family := fun b hb => hparts b (List.mem_append_right _ hb)
      have ihm := ihm hm
      have ihn := ihn hn
      refine ihm.merge ihn ⟨ihm.proper.tidy ?_, ihn.proper.tidy ?_, ?_⟩
      · exact ihm.agree ihm fun b hb c hc => hagree b (hm b hb) c (hm c hc)
      · exact ihn.agree ihn fun b hb c hc => hagree b (hn b hb) c (hn c hc)
      · exact ihm.agree ihn fun b hb c hc => hagree b (hm b hb) c (hn c hc)

/-- Only which baggages take part matters for the result. -/
theorem Unites.result_eq (hm : m.Unites) (hn : n.Unites) (h : ∀ b, b ∈ m.parts ↔ b ∈ n.parts) :
    m.result = n.result := by
  apply hm.proper.ext hn.proper
  · intro id x
    simp only [hm.active, hn.active, h]
  · intro id x
    simp only [hm.archived, hn.archived, h]

end Merging

namespace Baggage

variable {family : Set Baggage}

/-- Among baggages in proper form that mean the same by a version, joining is a semilattice:
it is commutative, associative and idempotent, the results are in proper form again, and
however some of them are merged, the result depends only on which ones take part. -/
theorem join_semilattice (hproper : ∀ b ∈ family, b.Proper)
    (hagree : ∀ b ∈ family, ∀ c ∈ family, b.Agree c) :
    (∀ a ∈ family, ∀ b ∈ family, a.join b = b.join a) ∧
    (∀ a ∈ family, ∀ b ∈ family, ∀ c ∈ family, (a.join b).join c = a.join (b.join c)) ∧
    (∀ a ∈ family, a.join a = a) ∧
    (∀ m : Merging, (∀ b ∈ m.parts, b ∈ family) → m.result.Proper) ∧
    ∀ m n : Merging, (∀ b ∈ m.parts, b ∈ family) → (∀ b, b ∈ m.parts ↔ b ∈ n.parts) →
      m.result = n.result := by
  have hunites : ∀ {m : Merging}, (∀ b ∈ m.parts, b ∈ family) → m.Unites :=
    Merging.unites hproper hagree
  have hsame : ∀ m n : Merging, (∀ b ∈ m.parts, b ∈ family) →
      (∀ b, b ∈ m.parts ↔ b ∈ n.parts) → m.result = n.result := by
    intro m n hm h
    exact (hunites hm).result_eq (hunites fun b hb => hm b ((h b).mpr hb)) h
  refine ⟨?comm, ?assoc, ?idem, fun m hm => (hunites hm).proper, hsame⟩
  case comm =>
    intro a ha b hb
    apply hsame (.merge (.single a) (.single b)) (.merge (.single b) (.single a))
    · simp [Merging.parts, ha, hb]
    · simp [Merging.parts, or_comm]
  case assoc =>
    intro a ha b hb c hc
    apply hsame (.merge (.merge (.single a) (.single b)) (.single c))
      (.merge (.single a) (.merge (.single b) (.single c)))
    · simp [Merging.parts, ha, hb, hc]
    · simp [Merging.parts]
  case idem =>
    intro a ha
    apply hsame (.merge (.single a) (.single a)) (.single a)
    · simp [Merging.parts, ha]
    · simp [Merging.parts]

/-! ### Three branches -/

/-- All entries of baggage with their bags. -/
def stored (b : Baggage) : List (BagId × Entry) :=
  (b.archive ++ b.active).flatMap fun p => p.2.map (p.1, ·)

theorem mem_stored {b : Baggage} {id : BagId} {x : Entry} (h : x ∈ b.entries id) :
    (id, x) ∈ b.stored := by
  have hlisted : ∀ g : Generation, x ∈ g.listed id → ∃ p ∈ g, (id, x) ∈ p.2.map (p.1, ·) := by
    intro g hx
    rw [Table.listed] at hx
    cases hf : g.find? id with
    | none =>
        rw [hf] at hx
        cases hx
    | some es =>
        rw [hf] at hx
        exact ⟨_, Table.mem_of_find?_eq_some hf, List.mem_map_of_mem hx⟩
  rw [stored, List.flatMap_append, List.mem_append, List.mem_flatMap, List.mem_flatMap]
  exact (mem_entries.mp h).imp (hlisted _) (hlisted _)

theorem agree_of_stored {b c : Baggage}
    (h : ∀ p ∈ b.stored, ∀ q ∈ c.stored, p.2.version = q.2.version → p = q) : b.Agree c := by
  intro i j x hx y hy hv
  exact Prod.mk.inj (h _ (mem_stored hx) _ (mem_stored hy) hv)

instance (g : Generation) : Decidable g.Proper :=
  have : Decidable (Ascending.Sorted g.keys) :=
    inferInstanceAs (Decidable (g.keys.Pairwise fun i j => compare i j = .lt))
  decidable_of_iff (Ascending.Sorted g.keys ∧ (∀ p ∈ g, p.2 ≠ []) ∧ ∀ p ∈ g, Entry.Ordered p.2)
    ⟨fun h => ⟨h.1, h.2.1, h.2.2⟩, fun h => ⟨h.keys, h.full, h.ordered⟩⟩

instance (b : Baggage) : Decidable b.Proper :=
  -- Over the versions of the list; there are only so many versions at all, but too many to try.
  have : Decidable (∀ v ∈ b.active.versions, v ∉ b.archive.versions) := List.decidableBAll ..
  decidable_of_iff (b.active.Proper ∧ b.archive.Proper ∧
    ∀ v ∈ b.active.versions, v ∉ b.archive.versions)
    ⟨fun h => ⟨h.1, h.2.1, h.2.2⟩, fun h => ⟨h.active, h.archive, h.apart⟩⟩

namespace Sample

def teas : BagId := ⟨⟨1⟩, 0⟩

def milks : BagId := ⟨⟨1⟩, 1⟩

def first : Entry := ⟨1, 41, [[.str "tea", .int 1]]⟩

def second : Entry := ⟨2, 17, [[.str "tea", .int 2]]⟩

/-- Wrote a second entry after the first one was archived. -/
def writing : Baggage := ⟨[(teas, [second])], [(teas, [first])]⟩

/-- Has archived the second entry too. -/
def archiving : Baggage :=
  ⟨[(milks, [⟨1, 23, [[.str "milk", .int 4]]⟩])], [(teas, [first, second])]⟩

/-- Wrote beside the second entry, and still holds the first one as ACTIVE. -/
def straying : Baggage := ⟨[(teas, [first, ⟨2, 29, [[.str "tea", .int 8]]⟩])], []⟩

def trio : List Baggage := [writing, archiving, straying]

end Sample

open Baggage.Sample in
theorem join_trio : (writing.join archiving).join straying =
    straying.join (archiving.join (writing.join straying)) := by
  have hproper : ∀ b ∈ trio, b.Proper := by decide +kernel
  have hagree : ∀ b ∈ trio, ∀ c ∈ trio, ∀ p ∈ b.stored, ∀ q ∈ c.stored,
      p.2.version = q.2.version → p = q := by decide +kernel
  obtain ⟨_, _, _, _, hsame⟩ := @join_semilattice {b | b ∈ trio} hproper
    fun b hb c hc => agree_of_stored (hagree b hb c hc)
  apply hsame (.merge (.merge (.single writing) (.single archiving)) (.single straying))
    (.merge (.single straying) (.merge (.single archiving)
      (.merge (.single writing) (.single straying))))
  · simp [Merging.parts, trio]
  · simp [Merging.parts]
    tauto

end Baggage

end CausalTrace
