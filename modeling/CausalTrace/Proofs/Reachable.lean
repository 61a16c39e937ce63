import CausalTrace.Proofs.Floats
import CausalTrace.Proofs.Sending

/-!
# Whatever baggage goes through

Baggage starts empty or is read from a text, which may spell anything. Packing, archiving,
forking and joining then keep it in proper form: no list of entries is empty or out of order,
no version stands twice in one, and none is both ACTIVE and archived. So it reads back from its
wire form as the same baggage.
-/

namespace CausalTrace

/-! ## Regular generations -/

namespace Generation

variable {g : Generation} {id : BagId} {es : List Entry} {without : List UInt64} {v : UInt64}

/-- In proper form, and no list of entries has a version twice. -/
structure Regular (g : Generation) : Prop extends Proper g where
  distinct : ∀ p ∈ g, (p.2.map (·.version)).Nodup

theorem regular_nil : Regular [] := ⟨proper_nil, nofun⟩

theorem Regular.insert (h : g.Regular) (hne : es ≠ []) (hes : Entry.Ordered es)
    (hn : (es.map (·.version)).Nodup) : Regular (Table.insert id es g) := by
  refine ⟨h.toProper.insert hne hes, fun p hp => ?_⟩
  rcases Table.mem_insert hp with rfl | hp
  · exact hn
  · exact h.distinct p hp

theorem Regular.erase (h : g.Regular) (id : BagId) : Regular (Table.erase id g) :=
  ⟨h.toProper.erase id, fun p hp => h.distinct p (List.mem_of_mem_filter hp)⟩

theorem Regular.listed (h : g.Regular) (id : BagId) :
    ((Table.listed g id).map (·.version)).Nodup := by
  rw [Table.listed]
  cases hf : g.find? id with
  | none => exact List.nodup_nil
  | some es => exact h.distinct _ (Table.mem_of_find?_eq_some hf)

/-- Normalizing mends every list of entries. -/
theorem regular_normalize (h : Ascending.Sorted g.keys) : (normalize without g).Regular := by
  refine ⟨proper_normalize h, fun p hp => ?_⟩
  obtain ⟨q, _, rfl⟩ := List.mem_map.mp (List.mem_of_mem_filter hp)
  exact ((Entry.sort_perm _).map _).nodup_iff.mpr Entry.nodup_versions_distinct

theorem mem_versions_insert (h : v ∈ versions (Table.insert id es g)) :
    v ∈ es.map (·.version) ∨ v ∈ g.versions := by
  obtain ⟨p, hp, hv⟩ := List.mem_flatMap.mp h
  rcases Table.mem_insert hp with rfl | hp
  · exact .inl hv
  · exact .inr (List.mem_flatMap.mpr ⟨p, hp, hv⟩)

theorem mem_versions_erase (h : v ∈ versions (Table.erase id g)) : v ∈ g.versions := by
  obtain ⟨p, hp, hv⟩ := List.mem_flatMap.mp h
  exact List.mem_flatMap.mpr ⟨p, List.mem_of_mem_filter hp, hv⟩

theorem mem_versions_listed {x : Entry} (hx : x ∈ Table.listed g id) : x.version ∈ g.versions := by
  rw [Table.listed] at hx
  cases hf : g.find? id with
  | none =>
      rw [hf] at hx
      cases hx
  | some es =>
      rw [hf] at hx
      exact List.mem_flatMap.mpr ⟨_, Table.mem_of_find?_eq_some hf, List.mem_map_of_mem hx⟩

end Generation

namespace Baggage

variable {b c : Baggage} {bag : Bag} {id : BagId} {version : UInt64} {rows : List Row}

/-! ## Regular baggage -/

/-- Both generations are regular, and no ACTIVE version is an archived one. -/
structure Regular (b : Baggage) : Prop where
  active : b.active.Regular
  archive : b.archive.Regular
  apart : ∀ v ∈ b.active.versions, v ∉ b.archive.versions

theorem Regular.proper (h : b.Regular) : b.Proper :=
  ⟨h.active.toProper, h.archive.toProper, h.apart⟩

theorem regular_empty : empty.Regular := ⟨Generation.regular_nil, Generation.regular_nil, nofun⟩

/-- No version is found twice in a bag. -/
theorem Regular.nodup_versions (h : b.Regular) (id : BagId) :
    ((b.entries id).map (·.version)).Nodup := by
  rw [entries, List.map_append, List.nodup_append]
  refine ⟨h.archive.listed id, h.active.listed id, fun v hv w hw he => ?_⟩
  obtain ⟨x, hx, rfl⟩ := List.mem_map.mp hv
  obtain ⟨y, hy, rfl⟩ := List.mem_map.mp hw
  exact h.apart _ (Generation.mem_versions_listed hy) (he ▸ Generation.mem_versions_listed hx)

/-- A version that no entry has yet. -/
def Fresh (b : Baggage) (version : UInt64) : Prop :=
  version ∉ b.active.versions ∧ version ∉ b.archive.versions

instance : Decidable (b.Fresh version) := inferInstanceAs (Decidable (_ ∧ _))

/-- The entries of one bag are replaced by others, of which one is new. -/
theorem Regular.replace (h : b.Regular) (hnew : b.Fresh version) {es : List Entry}
    (hes : Entry.Ordered es) (hn : (es.map (·.version)).Nodup) (hne : es ≠ [])
    (hold : ∀ x ∈ es, x.version = version ∨ x ∈ b.activeEntries id) :
    Regular ⟨b.active.insert id es, b.archive⟩ := by
  refine ⟨h.active.insert hne hes hn, h.archive, fun v hv hv' => ?_⟩
  rcases Generation.mem_versions_insert hv with hv | hv
  · obtain ⟨x, hx, rfl⟩ := List.mem_map.mp hv
    rcases hold x hx with he | hx
    · exact hnew.2 (he ▸ hv')
    · exact h.apart _ (Generation.mem_versions_listed hx) hv'
  · exact h.apart v hv hv'

theorem Regular.push (h : b.Regular) (hnew : b.Fresh version) (id : BagId) (rows : List Row) :
    (b.push id version rows).Regular := by
  refine h.replace hnew (h.proper.ordered_push id version rows) ?_ (by simp) fun x hx => ?_
  · rw [List.map_append, List.nodup_append]
    refine ⟨h.active.listed id, List.nodup_singleton _, fun v hv w hw => ?_⟩
    obtain ⟨x, hx, rfl⟩ := List.mem_map.mp hv
    obtain rfl := List.mem_singleton.mp hw
    exact fun he => hnew.1 (he ▸ Generation.mem_versions_listed hx)
  · rcases List.mem_append.mp hx with hx | hx
    · exact .inr hx
    · exact .inl (List.mem_singleton.mp hx ▸ rfl)

theorem Regular.replaceActive (h : b.Regular) (hnew : b.Fresh version)
    (id : BagId) (rows : List Row) : (b.replaceActive id version rows).Regular := by
  refine h.replace hnew (List.pairwise_singleton _ _)
    (List.nodup_singleton _) (List.cons_ne_nil _ _) fun x hx => ?_
  exact .inl (List.mem_singleton.mp hx ▸ rfl)

theorem Regular.supersede (h : b.Regular) (hnew : b.Fresh version) (id : BagId) (rows : List Row) :
    (b.supersede id version rows).Regular := by
  have hreplaced := h.replaceActive hnew id rows
  exact ⟨hreplaced.active, h.archive.erase id,
    fun v hv hv' => hreplaced.apart v hv (Generation.mem_versions_erase hv')⟩

theorem Regular.pack (h : b.Regular) (hnew : b.Fresh version) :
    (bag.pack version b rows).1.Regular := by
  rcases bag.pack_forms version b rows with he | ⟨rs, _, he | he | he⟩ <;> rw [he]
  · exact h
  · exact h.push hnew bag.id rs
  · exact h.replaceActive hnew bag.id rs
  · exact h.supersede hnew bag.id rs

/-- Whatever is gathered is regular. -/
theorem regular_gather {active archive : Generation} (hactive : Ascending.Sorted active.keys)
    (harchive : Ascending.Sorted archive.keys) : (gather active archive).Regular where
  active := Generation.regular_normalize hactive
  archive := Generation.regular_normalize harchive
  apart _ hv := Generation.not_mem_versions_normalize hv

theorem Regular.archiveActive (h : b.Regular) : b.archiveActive.Regular where
  active := Generation.regular_nil
  archive := Generation.regular_normalize (Table.sorted_keys_appendAll h.archive.keys _)
  apart := nofun

theorem Regular.join (h : b.Regular) (c : Baggage) : (b.join c).Regular :=
  regular_gather (Table.sorted_keys_appendAll h.active.keys _)
    (Table.sorted_keys_appendAll h.archive.keys _)

/-- Any text that is read at all is read as regular baggage. -/
theorem regular_ofWire? {text : String} (h : ofWire? text = some b) : b.Regular := by
  have hsorted : ∀ (bags : List (BagId × List Entry × List Entry))
      (f : List Entry × List Entry → List Entry),
      Ascending.Sorted (bags.foldl (fun g p => Table.append p.1 (f p.2) g)
        ([] : Generation)).keys := by
    intro bags f
    have hnil : Ascending.Sorted (Table.keys ([] : Generation)) := List.Pairwise.nil
    refine List.foldlRecOn bags _ (motive := fun g => Ascending.Sorted (Table.keys g)) hnil ?_
    exact fun g hg p _ => Table.sorted_keys_insert hg _ _
  unfold ofWire? at h
  split at h
  · cases h
    exact regular_empty
  · obtain ⟨j, _, hj⟩ := Option.bind_eq_some_iff.mp h
    obtain ⟨bags, _, hb⟩ := Option.bind_eq_some_iff.mp hj
    cases hb
    exact regular_gather (hsorted bags (·.1)) (hsorted bags (·.2))

/-! ## Reachable baggage -/

/-- What baggage can come to be. It starts empty or is read from a text, and a pack draws a
version that no entry of the baggage has. -/
inductive Reachable : Baggage → Prop where
  | empty : Reachable empty
  | read {text : String} {b : Baggage} : ofWire? text = some b → Reachable b
  | pack {b : Baggage} {version : UInt64} (bag : Bag) (rows : List Row) :
      Reachable b → b.Fresh version → Reachable (bag.pack version b rows).1
  | archive {b : Baggage} : Reachable b → Reachable b.archiveActive
  | split {b : Baggage} : Reachable b → Reachable b.split
  | join {b c : Baggage} : Reachable b → Reachable c → Reachable (b.join c)

theorem Reachable.regular (h : b.Reachable) : b.Regular := by
  induction h with
  | empty => exact regular_empty
  | read hread => exact regular_ofWire? hread
  | pack _ _ _ hnew ih => exact ih.pack hnew
  | archive _ ih => exact ih.archiveActive
  | split _ ih => exact ih.archiveActive
  | join _ _ ih _ => exact ih.join _

/-- Whatever happens to baggage, it stays in proper form: in neither generation is a list of
entries empty, each ascends strictly by clock and version, none has a version twice, and no
version is both ACTIVE and archived. So baggage is empty exactly if it has no bag, and its bags
are those with entries. -/
theorem Reachable.well_kept (h : b.Reachable) :
    b.Regular ∧ (b.isEmpty = true ↔ b.bagIds = []) ∧ ∀ id, id ∈ b.bagIds ↔ b.entries id ≠ [] := by
  refine ⟨h.regular, ?_, fun id => ?_⟩
  · have hkeys : b.bagIds = [] ↔ b.active.keys ++ b.archive.keys = [] := by
      simp only [List.eq_nil_iff_forall_not_mem, bagIds, Ascending.mem_ofList]
    rw [hkeys]
    simp [isEmpty, Table.keys]
  · rw [mem_bagIds h.regular.proper, Ne, List.eq_nil_iff_forall_not_mem, not_forall_not]

namespace Sample

/-- Entries out of order, one of them twice, and one ACTIVE that is archived in another bag. -/
def untidy : String :=
  "[[[1,0],[[7,9,[[1]]],[2,5,[[2]]],[7,9,[[3]]]],[[3,4,[[4]]]]],[[1,1],[[1,4,[[5]]]],[]]]"

def tidied : Baggage :=
  ⟨[(⟨⟨1⟩, 0⟩, [⟨2, 5, [[.int 2]]⟩, ⟨7, 9, [[.int 1]]⟩])], [(⟨⟨1⟩, 0⟩, [⟨3, 4, [[.int 4]]⟩])]⟩

/-- The latest row replaces all that was read. -/
def replaced : Baggage :=
  (Bag.pack ⟨⟨⟨1⟩, 0⟩, .one .mostRecent 1⟩ 11 tidied [[.str "a \"b\"\n\t\\ é"],
    [.int Int64.minValue]]).1

/-- One branch still holds what the other one has replaced. -/
def rejoined : Baggage :=
  (Bag.pack ⟨⟨⟨1⟩, 2⟩, .tuples 2⟩ 12 (replaced.join tidied.split)
    [[.null, .bool true], [.str "", .int 7]]).1

theorem reachable_tidied : tidied.Reachable :=
  .read (show ofWire? untidy = some tidied by decide +kernel)

theorem reachable_rejoined : rejoined.Reachable := by
  refine .pack _ _ (.join (.pack _ _ reachable_tidied ?_) (.split reachable_tidied)) ?_
  · decide +kernel
  · decide +kernel

end Sample

open Baggage.Sample in
theorem well_kept_rejoined : rejoined.Regular ∧ (rejoined.isEmpty = true ↔ rejoined.bagIds = []) ∧
    ∀ id, id ∈ rejoined.bagIds ↔ rejoined.entries id ≠ [] := reachable_rejoined.well_kept

/-! ## There and back -/

/-- Identifiers and clocks have the widths that they are sent with. -/
def Fits (b : Baggage) : Prop := ∀ p ∈ b.stored, p.1.Fits ∧ p.2.clock < Json.bound64

/-- Every float is read back from the text that documents have for it. -/
def FloatsLast (b : Baggage) : Prop :=
  ∀ p ∈ b.stored, ∀ row ∈ p.2.rows, ∀ v ∈ row, v.kind = .float →
    (Json.parse v.toJson.render).bind Value.ofJson? = some v

instance : DecidablePred Fits := fun b =>
  inferInstanceAs (Decidable (∀ p ∈ b.stored, p.1.Fits ∧ p.2.clock < Json.bound64))

instance : DecidablePred FloatsLast := fun b =>
  inferInstanceAs (Decidable (∀ p ∈ b.stored, ∀ row ∈ p.2.rows, ∀ v ∈ row, v.kind = .float →
    (Json.parse v.toJson.render).bind Value.ofJson? = some v))

end Baggage

end CausalTrace
