import CausalTrace.Baggage.Wire
import CausalTrace.Proofs.Documents
import CausalTrace.Proofs.Merging

/-!
# Baggage read back

What is sent of baggage in proper form reads back as this baggage, provided that its values
are read back from documents and its numbers fit.
-/

namespace CausalTrace

/-! ## Values -/

namespace Value

/-- A document holds the value: it is well spelled and reads as the value. -/
structure ReadsBack (v : Value) : Prop where
  spelled : v.toJson.Spelled
  read : ofJson? v.toJson = some v

/-- Every value but a float reads back. -/
theorem readsBack_of_kind {v : Value} (h : v.kind ≠ .float) : v.ReadsBack := by
  cases v with
  | null => exact ⟨.null, rfl⟩
  | bool b => exact ⟨.bool b, rfl⟩
  | int n =>
      have hlow : Int64.minValue.toInt ≤ n.toInt := Int64.minValue_le_toInt n
      have hhigh : n.toInt ≤ Int64.maxValue.toInt := Int64.toInt_le n
      have hmax : Int64.maxValue.toInt < (Number.pow2 64 : Int) := by decide
      have hint : Json.numeric? (.ofInt n.toInt) = some (.int n.toInt) := by
        rw [Json.numeric?, Json.integer?_ofInt hlow (Int.lt_of_le_of_lt hhigh hmax)]
      refine ⟨Json.spelled_int _, ?_⟩
      simp [toJson, Json.int, ofJson?, hint, Number.fit?_toInt]
  | float x => exact absurd rfl h
  | str s => exact ⟨.str s, rfl⟩

end Value

namespace Row

variable {r : Row}

theorem spelled_toJson (h : ∀ v ∈ r, v.ReadsBack) : r.toJson.Spelled :=
  Json.spelled_map fun v hv => (h v hv).spelled

theorem ofJson?_toJson (h : ∀ v ∈ r, v.ReadsBack) : ofJson? r.toJson = some r :=
  Json.list?_map_self fun v hv => (h v hv).read

end Row

/-! ## Identifiers and entries -/

namespace BagId

variable {id : BagId}

/-- The parts of the identifier have the widths they are sent with. -/
def Fits (id : BagId) : Prop := id.query.val < Json.bound64 ∧ id.seq < Json.bound32

instance : Decidable id.Fits := inferInstanceAs (Decidable (_ ∧ _))

theorem spelled_toJson (id : BagId) : id.toJson.Spelled := by
  refine .obj fun f hf => ?_
  simp only [List.mem_cons, List.not_mem_nil, or_false] at hf
  rcases hf with rfl | rfl
  · exact Json.spelled_nat _
  · exact Json.spelled_nat _

theorem ofJson?_of_record {j q s : Json} {n m : Nat}
    (hrecord : j.record? ["query", "seq"] = some [some q, some s])
    (hquery : q.nat? Json.bound64 = some n) (hseq : s.nat? Json.bound32 = some m) :
    ofJson? j = some ⟨⟨n⟩, m⟩ := by
  unfold ofJson?
  simp only [hrecord, Option.bind_eq_bind, Option.bind_some, QueryId.ofJson?, hquery, hseq,
    Option.map_some]
  rfl

theorem ofJson?_toJson (h : id.Fits) : ofJson? id.toJson = some id := by
  have hrecord : id.toJson.record? ["query", "seq"] =
      some [some id.query.toJson, some (.nat id.seq)] := by
    simp [toJson, Json.record?, Json.slot?]
  exact ofJson?_of_record hrecord (Json.nat?_nat h.1 (Nat.le_refl _))
    (Json.nat?_nat h.2 Json.bound32_le_bound64)

end BagId

namespace Entry

variable {e : Entry} {es : List Entry}

/-- The clock fits, and the values read back. -/
structure Sendable (e : Entry) : Prop where
  clock : e.clock < Json.bound64
  values : ∀ row ∈ e.rows, ∀ v ∈ row, v.ReadsBack

theorem Sendable.spelled (h : e.Sendable) : e.toJson.Spelled := by
  refine .obj fun f hf => ?_
  simp only [List.mem_cons, List.not_mem_nil, or_false] at hf
  rcases hf with rfl | rfl | rfl
  · exact Json.spelled_nat _
  · exact Json.spelled_nat _
  · exact Json.spelled_map fun row hrow => Row.spelled_toJson (h.values row hrow)

theorem ofJson?_of_record {j c v rs : Json} {n m : Nat} {rows : List Row}
    (hrecord : j.record? ["clock", "version", "rows"] = some [some c, some v, some rs])
    (hclock : c.nat? Json.bound64 = some n) (hversion : v.nat? Json.bound64 = some m)
    (hrows : rs.list? Row.ofJson? = some rows) : ofJson? j = some ⟨n, UInt64.ofNat m, rows⟩ := by
  unfold ofJson?
  simp only [hrecord, Option.bind_eq_bind, Option.bind_some, hclock, hversion, hrows]
  rfl

theorem ofJson?_toJson (h : e.Sendable) : ofJson? e.toJson = some e := by
  have hrecord : e.toJson.record? ["clock", "version", "rows"] =
      some [some (.nat e.clock), some (.nat e.version.toNat),
        some (.arr (e.rows.map Row.toJson))] := by
    simp [toJson, Json.record?, Json.slot?]
  have hread := ofJson?_of_record hrecord (Json.nat?_nat h.clock (Nat.le_refl _))
    (Json.nat?_nat (Json.toNat_lt_bound64 e.version) (Nat.le_refl _))
    (Json.list?_map_self fun row hrow => Row.ofJson?_toJson (h.values row hrow))
  rwa [UInt64.ofNat_toNat] at hread

theorem listOfJson?_map (h : ∀ e ∈ es, e.Sendable) :
    listOfJson? (some (.arr (es.map toJson))) = some es :=
  Json.list?_map_self fun e he => ofJson?_toJson (h e he)

end Entry

/-! ## Baggage -/

namespace Table

variable {κ α : Type} [DecidableEq κ]

theorem listed_map {ks : List κ} {k : κ} {f : κ → List α} (hnone : k ∉ ks → f k = []) :
    Table.listed (ks.map fun k => (k, f k)) k = f k := by
  induction ks with
  | nil => exact (hnone List.not_mem_nil).symm
  | cons l ks ih =>
      by_cases hl : l = k
      · simp [listed, find?, hl]
      · have hrest : Table.listed (ks.map fun k => (k, f k)) k = f k :=
          ih fun hk => hnone (List.not_mem_cons_of_ne_of_not_mem (Ne.symm hl) hk)
        rw [← hrest]
        simp [listed, find?, hl]

end Table

namespace Baggage

variable {b : Baggage} {id : BagId}

/-- All that is written of baggage fits and reads back. -/
def Sendable (b : Baggage) : Prop := ∀ id, ∀ x ∈ b.entries id, id.Fits ∧ x.Sendable

theorem mem_bagIds (h : b.Proper) : id ∈ b.bagIds ↔ ∃ x, x ∈ b.entries id := by
  have hkeys : ∀ {g : Generation}, g.Proper → (id ∈ g.keys ↔ ∃ x, x ∈ g.listed id) := fun hg => by
    rw [Table.mem_keys_iff hg.full]
    simp [List.eq_nil_iff_forall_not_mem]
  unfold bagIds
  rw [Ascending.mem_ofList, List.mem_append, hkeys h.active, hkeys h.archive, ← exists_or]
  exact exists_congr fun x => or_comm.trans mem_entries.symm

theorem spelled_bagJson (h : ∀ x ∈ b.entries id, x.Sendable) : (b.bagJson id).Spelled := by
  have hgeneration : ∀ (name : String) (es : List Entry), (∀ x ∈ es, x ∈ b.entries id) →
      ∀ f ∈ generationJson name es, f.2.Spelled := by
    intro name es hes f hf
    unfold generationJson at hf
    split at hf
    · cases hf
    · rw [List.mem_singleton.mp hf]
      exact Json.spelled_map fun x hx => (h x (hes x hx)).spelled
  refine .obj fun f hf => ?_
  simp only [List.cons_append, List.mem_cons, List.mem_append] at hf
  rcases hf with rfl | hf | hf
  · exact BagId.spelled_toJson id
  · exact hgeneration _ _ (fun x hx => mem_entries.mpr (.inr hx)) f hf
  · exact hgeneration _ _ (fun x hx => mem_entries.mpr (.inl hx)) f hf

theorem bagOfJson?_of_record {j i : Json} {a h : Option Json} {es fs : List Entry}
    (hrecord : j.record? ["bag", "active", "archive"] = some [some i, a, h])
    (hid : BagId.ofJson? i = some id) (hactive : Entry.listOfJson? a = some es)
    (harchive : Entry.listOfJson? h = some fs) : bagOfJson? j = some (id, es, fs) := by
  unfold bagOfJson?
  simp only [hrecord, Option.bind_eq_bind, Option.bind_some, hid, hactive, harchive]
  rfl

/-- The field of a generation, as it is found in the record of its bag. -/
def generation? (es : List Entry) : Option Json :=
  if es.isEmpty then none else some (.arr (es.map Entry.toJson))

theorem listOfJson?_generation? {es : List Entry} (h : ∀ x ∈ es, x.Sendable) :
    Entry.listOfJson? (generation? es) = some es := by
  unfold generation?
  split
  · next hnone => rw [List.isEmpty_iff.mp hnone, Entry.listOfJson?]
  · exact Entry.listOfJson?_map h

theorem record?_bagJson : (b.bagJson id).record? ["bag", "active", "archive"] =
    some [some id.toJson, generation? (b.activeEntries id),
      generation? (b.archivedEntries id)] := by
  unfold bagJson generationJson generation?
  cases (b.activeEntries id).isEmpty <;> cases (b.archivedEntries id).isEmpty <;>
    simp [Json.record?, Json.slot?]

theorem bagOfJson?_bagJson (hid : id.Fits) (h : ∀ x ∈ b.entries id, x.Sendable) :
    bagOfJson? (b.bagJson id) = some (id, b.activeEntries id, b.archivedEntries id) := by
  apply bagOfJson?_of_record record?_bagJson (BagId.ofJson?_toJson hid)
  · exact listOfJson?_generation? fun x hx => h x (mem_entries.mpr (.inr hx))
  · exact listOfJson?_generation? fun x hx => h x (mem_entries.mpr (.inl hx))

/-- Proper baggage is gathered from the lists of its bags. -/
theorem gather_eq (h : b.Proper) (hversions : ∀ id, ((b.entries id).map (·.version)).Nodup)
    {active archive : Generation} (hactive : Ascending.Sorted active.keys)
    (harchive : Ascending.Sorted archive.keys) (ha : ∀ id, active.listed id = b.activeEntries id)
    (hr : ∀ id, archive.listed id = b.archivedEntries id) : gather active archive = b := by
  have hsame : ∀ id, ∀ x ∈ b.entries id, ∀ y ∈ b.entries id, x.version = y.version → x = y :=
    fun id _ hx _ hy => List.inj_on_of_nodup_map (hversions id) hx hy
  have harchived : ∀ id x, x ∈ (gather active archive).archivedEntries id ↔
      x ∈ b.archivedEntries id := by
    intro id x
    show x ∈ (Generation.normalize [] archive).listed id ↔ _
    rw [Generation.listed_normalize (Ascending.Sorted.nodup harchive), hr,
      (Entry.sort_perm _).mem_iff, Entry.mem_distinct fun y hy z hz =>
        hsame id y (mem_entries.mpr (.inl hy)) z (mem_entries.mpr (.inl hz))]
    simp
  have hproper := proper_gather hactive harchive
  refine hproper.ext h (fun id x => ?_) harchived
  show x ∈ (Generation.normalize (gather active archive).archive.versions active).listed id ↔ _
  rw [Generation.listed_normalize (Ascending.Sorted.nodup hactive), ha, (Entry.sort_perm _).mem_iff,
    Entry.mem_distinct fun y hy z hz => hsame id y (mem_entries.mpr (.inr hy)) z
      (mem_entries.mpr (.inr hz))]
  -- What is ACTIVE in proper baggage is not among the versions that are left out.
  refine and_iff_left_of_imp fun hx hv => ?_
  obtain ⟨j, y, hy, he⟩ :=
    (Generation.mem_versions (Ascending.Sorted.nodup hproper.archive.keys)).mp hv
  refine h.apart x.version ?_ ?_
  · exact (Generation.mem_versions (Ascending.Sorted.nodup h.active.keys)).mpr ⟨id, x, hx, rfl⟩
  · exact (Generation.mem_versions (Ascending.Sorted.nodup h.archive.keys)).mpr
      ⟨j, y, (harchived j y).mp hy, he⟩

theorem ofJson?_toJson (h : b.Proper) (hversions : ∀ id, ((b.entries id).map (·.version)).Nodup)
    (hsend : b.Sendable) : ofJson? b.toJson = some b := by
  have hfits : ∀ id ∈ b.bagIds, id.Fits := fun id hid => by
    obtain ⟨x, hx⟩ := (mem_bagIds h).mp hid
    exact (hsend id x hx).1
  have hbags : b.toJson.list? bagOfJson? =
      some (b.bagIds.map fun id => (id, b.activeEntries id, b.archivedEntries id)) :=
    Json.list?_map fun id hid => bagOfJson?_bagJson (hfits id hid) fun x hx => (hsend id x hx).2
  have hkeys : ∀ f : BagId → List Entry, Table.keys (b.bagIds.map fun id => (id, f id)) =
      b.bagIds := by
    intro f
    simp [Table.keys, Function.comp_def]
  have hnone : ∀ id, id ∉ b.bagIds → b.entries id = [] := by
    intro id hid
    rw [mem_bagIds h, not_exists] at hid
    exact List.eq_nil_iff_forall_not_mem.mpr hid
  -- Both generations are collected bag by bag into an empty table.
  have hcollect : ∀ f : BagId → List Entry, (∀ id, id ∉ b.bagIds → f id = []) →
      Ascending.Sorted (Table.appendAll [] (b.bagIds.map fun id => (id, f id))).keys ∧
      ∀ id, (Table.appendAll [] (b.bagIds.map fun id => (id, f id))).listed id = f id := by
    intro f hf
    have hsorted : Ascending.Sorted b.bagIds := Ascending.sorted_ofList _
    have hnil : Ascending.Sorted (Table.keys ([] : Generation)) := List.Pairwise.nil
    refine ⟨Table.sorted_keys_appendAll hnil _, fun id => ?_⟩
    rw [Table.listed_appendAll ((hkeys f).symm ▸ Ascending.Sorted.nodup hsorted),
      Table.listed_map (hf id)]
    rfl
  obtain ⟨hactive, ha⟩ :=
    hcollect b.activeEntries fun id hid => (List.append_eq_nil_iff.mp (hnone id hid)).2
  obtain ⟨harchive, hr⟩ := hcollect b.archivedEntries fun id hid =>
    (List.append_eq_nil_iff.mp (hnone id hid)).1
  have hgather := gather_eq h hversions hactive harchive ha hr
  simp only [Table.appendAll, List.foldl_map] at hgather
  unfold ofJson?
  simp only [hbags, Option.bind_eq_bind, Option.bind_some, List.foldl_map]
  exact congrArg some hgather

theorem spelled_toJson (hsend : b.Sendable) : b.toJson.Spelled :=
  Json.spelled_map fun id _ => spelled_bagJson fun x hx => (hsend id x hx).2

/-- What is sent of baggage is read back as the same baggage. -/
theorem ofWire?_toWire (h : b.Proper) (hversions : ∀ id, ((b.entries id).map (·.version)).Nodup)
    (hsend : b.Sendable) : ofWire? b.toWire = some b := by
  have hsome : b.toWire.isEmpty = false := by
    simp [toWire, toJson, Json.render, Json.chars]
  rw [ofWire?, hsome, toWire, Json.parse_render (spelled_toJson hsend)]
  exact ofJson?_toJson h hversions hsend

end Baggage

end CausalTrace
