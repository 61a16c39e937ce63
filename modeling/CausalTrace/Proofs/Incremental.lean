import CausalTrace.Emit
import CausalTrace.Proofs.Merging
import CausalTrace.Proofs.Passing
import CausalTrace.Proofs.Tallies
import Mathlib.Algebra.Order.Ring.Int

/-!
# Grouping step by step

The naive program groups all rows at once, over unbounded integers: it keeps the rows that
can be grouped, lists their keys in the order in which they are first seen, and counts, adds
up or compares what stands in the other columns. A bag of groups is packed batch by batch,
and what it holds is archived at any time in between; a sink of groups is fed batch by batch
and then collected. Both come to what the naive program says of all batches together.
-/

namespace CausalTrace

/-! ## Grouping at once -/

/-- The integer that a column of a row stands for. -/
def Row.numberAt (row : Row) (i : Nat) : Int := (row[i]?.bind Value.toInt64?).elim 0 Int64.toInt

/-- What an aggregation makes of a column of some rows. It wraps around only at the end. -/
def Aggregation.outright (how : Aggregation) (i : Nat) (rows : List Row) : Int64 :=
  match how with
  | .count => Int64.ofInt rows.length
  | .sum => Int64.ofInt (rows.map (·.numberAt i)).sum
  | .min => Int64.ofInt ((rows.map (·.numberAt i)).min?.getD 0)
  | .max => Int64.ofInt ((rows.map (·.numberAt i)).max?.getD 0)

namespace Groups

/-- A row can be grouped: it has all columns, with an integer wherever one is called for. -/
def groupable (keys : Nat) (kinds : List Aggregation) (row : Row) : Bool :=
  row.length == keys + kinds.length &&
    (kinds.zip (row.drop keys)).all fun (how, v) => how == .count || v.toInt64?.isSome

/-- Some rows grouped at once. -/
def outright (keys : Nat) (kinds : List Aggregation) (rows : List Row) : List Row :=
  let valid := rows.filter (groupable keys kinds)
  (firstMentions (valid.map (·.take keys))).map fun key =>
    key ++ kinds.mapIdx fun k how =>
      .int (how.outright (keys + k) (valid.filter (·.take keys = key)))

end Groups

theorem Groups.outright_nil (keys : Nat) (rows : List Row) :
    Groups.outright keys [] rows = firstMentions (rows.filter (·.length == keys)) := by
  have hvalid : rows.filter (Groups.groupable keys []) = rows.filter (·.length == keys) := by
    apply List.filter_congr
    simp [Groups.groupable]
  have hkeys : (rows.filter (·.length == keys)).map (·.take keys) =
      rows.filter (·.length == keys) := by
    refine (List.map_congr_left fun row hrow => ?_).trans (List.map_id _)
    exact List.take_of_length_le (beq_iff_eq.mp (List.mem_filter.mp hrow).2).le
  simp [Groups.outright, hvalid, hkeys]

/-! ## Totals are unique -/

namespace Aggregation

variable {how : Aggregation} {xs : List Int64} {r : Int64}

theorem eq_ofInt_of_modEq {n : Int} (h : r.toInt ≡ n [ZMOD 2 ^ 64]) : r = Int64.ofInt n := by
  have hmod : r.toInt % (Int64.size : Int) = n % (Int64.size : Int) := h
  apply Int64.toInt_inj.mp
  rw [Int64.toInt_ofInt, ← Int.emod_bmod, ← hmod, Int.emod_bmod, Int64.toInt_bmod_size]

theorem Totals.eq_sum (h : sum.Totals xs r) : r = Int64.ofInt (xs.map Int64.toInt).sum := by
  apply eq_ofInt_of_modEq
  simpa [Totals] using h

theorem Totals.eq_min (h : min.Totals xs r) :
    r = Int64.ofInt ((xs.map Int64.toInt).min?.getD 0) := by
  obtain ⟨hmem, hle⟩ := h
  have hmin : (xs.map Int64.toInt).min? = some r.toInt := by
    apply List.min?_eq_some_iff.mpr
    refine ⟨List.mem_map_of_mem hmem, fun n hn => ?_⟩
    obtain ⟨x, hx, rfl⟩ := List.mem_map.mp hn
    exact Int64.le_iff_toInt_le.mp (hle x hx)
  rw [hmin, Option.getD_some, Int64.ofInt_toInt]

theorem Totals.eq_max (h : max.Totals xs r) :
    r = Int64.ofInt ((xs.map Int64.toInt).max?.getD 0) := by
  obtain ⟨hmem, hle⟩ := h
  have hmax : (xs.map Int64.toInt).max? = some r.toInt := by
    apply List.max?_eq_some_iff.mpr
    refine ⟨List.mem_map_of_mem hmem, fun n hn => ?_⟩
    obtain ⟨x, hx, rfl⟩ := List.mem_map.mp hn
    exact Int64.le_iff_toInt_le.mp (hle x hx)
  rw [hmax, Option.getD_some, Int64.ofInt_toInt]

end Aggregation

namespace Groups

variable {keys k i : Nat} {kinds : List Aggregation} {how : Aggregation} {row : Row}
  {rows : List Row} {r x : Int64}

theorem isSome_contributions? {vs : Row} :
    (contributions? Aggregation.operand? kinds vs).isSome =
      (vs.length == kinds.length &&
        (kinds.zip vs).all fun (how, v) => how == .count || v.toInt64?.isSome) := by
  induction kinds generalizing vs with
  | nil => cases vs <;> rfl
  | cons how kinds ih =>
      cases vs with
      | nil => rfl
      | cons v vs =>
          have hcolumn : (how.operand? v).isSome = (how == .count || v.toInt64?.isSome) := by
            cases how <;> rfl
          have hstep : (contributions? Aggregation.operand? (how :: kinds) (v :: vs)).isSome =
              ((how.operand? v).isSome &&
                (contributions? Aggregation.operand? kinds vs).isSome) := by
            rw [contributions?]
            cases how.operand? v <;> cases contributions? Aggregation.operand? kinds vs <;> rfl
          rw [hstep, ih, hcolumn, List.zip_cons_cons, List.all_cons, Bool.and_left_comm]
          simp

theorem accepts_eq_groupable : accepts keys kinds = groupable keys kinds := by
  ext row
  rw [accepts_eq, part?, groupable]
  by_cases h : row.length = keys + kinds.length
  · have hwidth : (row.drop keys).length = kinds.length := by
      rw [List.length_drop]
      omega
    simp [h, isSome_contributions?, hwidth]
  · simp [h]

/-- A row that is accepted has an operand in every aggregated column. -/
theorem isSome_operandAt? (h : accepts keys kinds row) (hk : kinds[k]? = some how) :
    (operandAt? how (keys + k) row).isSome := by
  rw [accepts_eq] at h
  obtain ⟨p, hp⟩ := Option.isSome_iff_exists.mp h
  have hlt : k < p.2.length := by
    rw [(length_of_part? hp).2]
    exact (List.getElem?_eq_some_iff.mp hk).1
  rw [← (part?_operand hp).2 hk, List.getElem?_eq_getElem hlt]
  rfl

/-- The operands of a column are the integers it stands for, one from every row. -/
theorem map_toInt_operandAt? (hne : how ≠ .count)
    (h : ∀ row ∈ rows, (operandAt? how i row).isSome) :
    (rows.filterMap (operandAt? how i)).map Int64.toInt = rows.map (·.numberAt i) := by
  have hread : ∀ row, operandAt? how i row = row[i]?.bind Value.toInt64? := by
    intro row
    cases how with
    | count => exact absurd rfl hne
    | sum => rfl
    | min => rfl
    | max => rfl
  induction rows with
  | nil => rfl
  | cons row rows ih =>
      obtain ⟨hrow, hrows⟩ := List.forall_mem_cons.mp h
      obtain ⟨x, hx⟩ := Option.isSome_iff_exists.mp hrow
      have hnumber : row.numberAt i = x.toInt := by
        rw [Row.numberAt, ← hread, hx]
        rfl
      rw [List.filterMap_cons_some hx, List.map_cons, List.map_cons, ih hrows, hnumber]

/-- A total of the operands in a column is what the naive program computes. -/
theorem eq_outright_of_totals (h : ∀ row ∈ rows, (operandAt? how i row).isSome)
    (ht : how.Totals (rows.filterMap (operandAt? how i)) r) : r = how.outright i rows := by
  cases how with
  | count =>
      apply Aggregation.eq_ofInt_of_modEq
      rw [← List.filterMap_length_eq_length.mpr h]
      exact ht
  | sum =>
      rw [ht.eq_sum, map_toInt_operandAt? (by simp) h]
      rfl
  | min =>
      rw [ht.eq_min, map_toInt_operandAt? (by simp) h]
      rfl
  | max =>
      rw [ht.eq_max, map_toInt_operandAt? (by simp) h]
      rfl

/-- The keys of groups stand in the order in which they were first seen. -/
theorem map_take_rows_ofRows : (ofRows keys kinds rows).rows.map (·.take keys) =
    firstMentions ((rows.filter (accepts keys kinds)).map (·.take keys)) := by
  have hkeys : (rows.filterMap (part? Aggregation.operand? keys kinds)).map (·.1) =
      (rows.filter (accepts keys kinds)).map (·.take keys) := by
    induction rows with
    | nil => rfl
    | cons row rows ih =>
        rw [List.filter_cons, accepts_eq, List.filterMap_cons]
        cases hp : part? Aggregation.operand? keys kinds row with
        | none => exact ih
        | some p =>
            rw [Option.isSome_some, if_pos rfl, List.map_cons, List.map_cons,
              ih, (part?_operand hp).1]
  have hgroups : (ofRows keys kinds rows).groups.map (·.1) =
      firstMentions ((rows.filter (accepts keys kinds)).map (·.take keys)) := by
    rw [ofRows_eq, merge_nil, List.map_map, hkeys]
    exact List.map_id _
  rw [Groups.rows, List.map_map, ← hgroups]
  apply List.map_congr_left
  intro g hg
  exact List.take_left' (length_of_mem_ofRows hg).1

/-- Grouping rows one by one gives what the naive program gives. -/
theorem rows_ofRows (keys : Nat) (kinds : List Aggregation) (rows : List Row) :
    (ofRows keys kinds rows).rows = outright keys kinds rows := by
  have htallies := tallies_ofRows keys kinds rows
  unfold outright
  dsimp only
  rw [← accepts_eq_groupable, ← map_take_rows_ofRows, List.map_map]
  -- Every group is its key, followed by a total for each aggregation.
  refine ((List.map_congr_left fun g hg => ?_).trans (List.map_id _)).symm
  have hwidth := htallies.width g hg
  rw [Function.comp_apply, id_eq]
  apply List.ext_getElem?
  intro i
  by_cases hi : i < keys
  · rw [List.getElem?_append_left (by rw [List.length_take]; omega), List.getElem?_take_of_lt hi]
  · obtain ⟨k, rfl⟩ := Nat.exists_eq_add_of_le (Nat.le_of_not_lt hi)
    have hlength : (g.take keys).length = keys := by
      rw [List.length_take]
      omega
    rw [List.getElem?_append_right (by omega), hlength,
      Nat.add_sub_cancel_left, List.getElem?_mapIdx]
    cases hk : kinds[k]? with
    | none =>
        have hle := List.getElem?_eq_none_iff.mp hk
        rw [Option.map_none, List.getElem?_eq_none]
        omega
    | some how =>
        obtain ⟨r, hr, htotal⟩ := htallies.totals g hg k how hk
        rw [Option.map_some, hr, eq_outright_of_totals ?_ htotal]
        intro row hrow
        exact isSome_operandAt? (List.mem_filter.mp (List.mem_filter.mp hrow).1).2 hk

theorem combineRows_append (g : Groups) (rows more : List Row) :
    g.combineRows (rows ++ more) = (g.combineRows rows).combineRows more :=
  List.foldl_append

end Groups

/-! ## Batches into a bag -/

namespace Entry

variable {es : List Entry} {seen : List UInt64}

theorem distinct_of_nodup (h : (es.map (·.version)).Nodup) (hseen : ∀ e ∈ es, e.version ∉ seen) :
    distinct seen es = es := by
  induction es generalizing seen with
  | nil => rfl
  | cons e es ih =>
      obtain ⟨he, hes⟩ := List.nodup_cons.mp h
      obtain ⟨hnew, hseen⟩ := List.forall_mem_cons.mp hseen
      rw [distinct, if_neg (by simpa using hnew), ih hes]
      intro x hx hm
      rcases List.mem_cons.mp hm with hv | hm
      · exact he (List.mem_map.mpr ⟨x, hx, hv⟩)
      · exact hseen x hx hm

/-- Entries that are in order stay as they are. -/
theorem sort_of_ordered (h : Ordered es) : sort es = es := by
  induction es with
  | nil => rfl
  | cons e es ih =>
      obtain ⟨he, hes⟩ := List.pairwise_cons.mp h
      rw [sort, List.foldr_cons, ← sort, ih hes]
      cases es with
      | nil => rfl
      | cons f fs =>
          have hlt := he f List.mem_cons_self
          rw [place, if_neg]
          rw [before_iff]
          exact hlt.asymm

end Entry

/-- What a request does with a bag as long as it does not fork. -/
inductive Leg where
  | pack (version : UInt64) (rows : List Row)
  | archive

namespace Leg

/-- The batch that is packed, with the version drawn for it. -/
def batch? : Leg → Option (UInt64 × List Row)
  | .pack version rows => some (version, rows)
  | .archive => none

/-- The batches in the order in which they are packed. -/
def batches (legs : List Leg) : List (UInt64 × List Row) := legs.filterMap batch?

end Leg

namespace Bag

/-- The baggage after one leg, and what all packs so far have reported. -/
def follow (bag : Bag) (state : Baggage × List Nat) : Leg → Baggage × List Nat
  | .pack version rows =>
      let (b, kept) := bag.pack version state.1 rows
      (b, state.2 ++ [kept])
  | .archive => (state.1.archiveActive, state.2)

/-- The baggage that starts empty, after some legs, and what the packs have reported. -/
def walk (bag : Bag) (legs : List Leg) : Baggage × List Nat :=
  legs.foldl bag.follow (.empty, [])

/-- A bag of groups holds the groups of some rows in the order in which it took them in: those
of earlier batches in archived entries, those of later ones in its ACTIVE entry. -/
structure Layered (id : BagId) (keys : Nat) (kinds : List Aggregation) (versions : List UInt64)
    (b : Baggage) (earlier later : List Row) : Prop where
  keyed : b.Keyed
  rising : Entry.Ordered (b.entries id)
  known : ∀ x ∈ b.entries id, x.version ∈ versions
  nodup : ((b.entries id).map (·.version)).Nodup
  archived : (Groups.empty keys kinds).combineRows (allRows (b.archivedEntries id)) =
    Groups.ofRows keys kinds earlier
  active : allRows (b.activeEntries id) = (Groups.ofRows keys kinds later).rows

namespace Layered

variable {id : BagId} {keys : Nat} {kinds : List Aggregation} {versions : List UInt64}
  {b : Baggage} {earlier later more : List Row} {version : UInt64}

theorem start : Layered id keys kinds [] .empty [] [] where
  keyed := ⟨.nil, .nil⟩
  rising := .nil
  known := fun _ hx => nomatch hx
  nodup := .nil
  archived := rfl
  active := rfl

/-- Reading combines the groups of the earlier rows with those of the later ones. -/
theorem unpack (h : Layered id keys kinds versions b earlier later) :
    Bag.unpack ⟨id, .grouped keys kinds⟩ b =
      (Groups.ofRows keys kinds (earlier ++ later)).rows := by
  show ((Groups.empty keys kinds).combineRows (allRows (b.entries id))).rows = _
  rw [Baggage.entries, allRows_append, Groups.combineRows_append, h.archived, h.active,
    Groups.combineRows_ofRows]

/-- Archiving makes earlier rows of the later ones. -/
theorem archive (h : Layered id keys kinds versions b earlier later) :
    Layered id keys kinds versions b.archiveActive (earlier ++ later) [] := by
  have harchived : b.archiveActive.archivedEntries id = b.entries id := by
    rw [Baggage.archivedEntries_archiveActive h.keyed, Entry.distinct_of_nodup h.nodup (by simp),
      Entry.sort_of_ordered h.rising]
  have hentries : b.archiveActive.entries id = b.entries id := by
    rw [Baggage.entries, harchived]
    exact List.append_nil _
  constructor
  case keyed => exact h.keyed.archiveActive
  case rising => rw [hentries]; exact h.rising
  case known => rw [hentries]; exact h.known
  case nodup => rw [hentries]; exact h.nodup
  case archived =>
    rw [harchived, Baggage.entries, allRows_append, Groups.combineRows_append, h.archived, h.active,
      Groups.combineRows_ofRows]
  case active => rfl

/-- One entry, with a version that is new, comes after all archived ones. -/
theorem replace {rows : List Row} (h : Layered id keys kinds versions b earlier later)
    (hfresh : version ∉ versions) (hrows : rows = (Groups.ofRows keys kinds more).rows) :
    Layered id keys kinds (versions ++ [version])
      (b.replaceActive id version rows) earlier more := by
  have hactive :
      (b.replaceActive id version rows).activeEntries id = [b.nextEntry id version rows] :=
    activeEntries_replaceActive id rows
  have hentries : (b.replaceActive id version rows).entries id =
      b.archivedEntries id ++ [b.nextEntry id version rows] := by
    rw [Baggage.entries, hactive]
    rfl
  have hsub : ∀ x ∈ b.archivedEntries id, x ∈ b.entries id := fun x hx =>
    Baggage.mem_entries.mpr (.inl hx)
  constructor
  case keyed => exact ⟨Table.sorted_keys_insert h.keyed.active _ _, h.keyed.archive⟩
  case rising =>
    rw [hentries]
    refine List.pairwise_append.mpr ⟨?_, List.pairwise_singleton _ _, ?_⟩
    · exact h.rising.sublist (List.sublist_append_left _ _)
    · intro x hx y hy
      rw [List.mem_singleton.mp hy]
      exact Prod.Lex.toLex_lt_toLex.mpr (.inl (Baggage.clock_lt_nextClock (hsub x hx)))
  case known =>
    rw [hentries]
    intro x hx
    rcases List.mem_append.mp hx with hx | hx
    · exact List.mem_append_left _ (h.known x (hsub x hx))
    · rw [List.mem_singleton.mp hx]
      exact List.mem_concat_self
  case nodup =>
    rw [hentries, List.map_append]
    refine List.nodup_append.mpr ⟨?_, List.nodup_singleton _, ?_⟩
    · exact h.nodup.sublist ((List.sublist_append_left _ _).map _)
    · intro v hv w hw
      obtain ⟨x, hx, rfl⟩ := List.mem_map.mp hv
      have hnew : w = version := List.mem_singleton.mp hw
      rintro rfl
      exact hfresh (hnew ▸ h.known x (hsub x hx))
  case archived => exact h.archived
  case active =>
    rw [hactive, ← hrows]
    exact List.append_nil _

theorem weaken (h : Layered id keys kinds versions b earlier later) :
    Layered id keys kinds (versions ++ [version]) b earlier later :=
  { h with known := fun x hx => List.mem_append_left _ (h.known x hx) }

/-- Packing makes its rows later ones. -/
theorem pack (h : Layered id keys kinds versions b earlier later) (hfresh : version ∉ versions) :
    Layered id keys kinds (versions ++ [version])
      (Bag.pack ⟨id, .grouped keys kinds⟩ version b more).1 earlier (later ++ more) := by
  rw [Bag.pack]
  dsimp only
  rw [← Groups.ofRows]
  split
  · next hnone =>
      -- A batch without a valid row adds nothing to the groups.
      have hrows : (Groups.ofRows keys kinds more).rows = [] := by
        rw [Groups.rows, List.isEmpty_iff.mp hnone]
        rfl
      have hsame : Groups.ofRows keys kinds (later ++ more) = Groups.ofRows keys kinds later := by
        rw [← Groups.combineRows_ofRows, hrows]
        rfl
      exact { h.weaken with active := hsame ▸ h.active }
  · apply h.replace hfresh
    rw [h.active, Groups.combineRows_empty, Groups.combineRows_ofRows]

end Layered

variable {id : BagId} {keys : Nat} {kinds : List Aggregation} {legs : List Leg}

/-- A pack reports how many rows of its batch can be grouped. -/
theorem pack_grouped_snd (version : UInt64) (b : Baggage) (rows : List Row) :
    (Bag.pack ⟨id, .grouped keys kinds⟩ version b rows).2 =
      (rows.filter (Groups.groupable keys kinds)).length := by
  rw [Bag.pack, ← Groups.accepts_eq_groupable]
  dsimp only
  rw [← Groups.ofRows]
  split
  · next hnone =>
      have hrows : (Groups.ofRows keys kinds rows).rows = [] := by
        rw [Groups.rows, List.isEmpty_iff.mp hnone]
        rfl
      rw [Groups.rows_ofRows_eq_nil_iff.mp hrows]
      rfl
  · exact Groups.observeAll_snd _ _

theorem walk_concat (bag : Bag) (legs : List Leg) (leg : Leg) :
    bag.walk (legs ++ [leg]) = bag.follow (bag.walk legs) leg := by
  unfold walk
  rw [List.foldl_append]
  rfl

/-- After any legs the bag holds the batches that were packed, in their order. -/
theorem layered_walk (id : BagId) (keys : Nat) (kinds : List Aggregation)
    (hfresh : ((Leg.batches legs).map (·.1)).Nodup) :
    ∃ earlier later, earlier ++ later = (Leg.batches legs).flatMap (·.2) ∧
      Layered id keys kinds ((Leg.batches legs).map (·.1))
        (walk ⟨id, .grouped keys kinds⟩ legs).1 earlier later := by
  induction legs using List.reverseRecOn with
  | nil => exact ⟨[], [], rfl, .start⟩
  | append_singleton legs leg ih =>
      rw [Leg.batches, List.filterMap_append, ← Leg.batches] at hfresh ⊢
      rw [walk_concat]
      cases leg with
      | pack version rows =>
          rw [List.map_append] at hfresh ⊢
          obtain ⟨hbefore, -, hnew⟩ := List.nodup_append.mp hfresh
          obtain ⟨earlier, later, hrows, hlayered⟩ := ih hbefore
          refine ⟨earlier, later ++ rows, ?_, hlayered.pack fun hm => ?_⟩
          · rw [← List.append_assoc, hrows, List.flatMap_append]
            exact congrArg _ (List.append_nil rows).symm
          · exact hnew version hm version (List.mem_singleton_self version) rfl
      | archive =>
          rw [List.filterMap_cons_none rfl, List.filterMap_nil, List.append_nil] at hfresh ⊢
          obtain ⟨earlier, later, hrows, hlayered⟩ := ih hfresh
          exact ⟨earlier ++ later, [], (List.append_nil _).trans hrows, hlayered.archive⟩

/-- After any legs the bag reads as what grouping all batches at once gives. -/
theorem unpack_walk (hfresh : ((Leg.batches legs).map (·.1)).Nodup) :
    Bag.unpack ⟨id, .grouped keys kinds⟩ (walk ⟨id, .grouped keys kinds⟩ legs).1 =
      Groups.outright keys kinds ((Leg.batches legs).map (·.2)).flatten := by
  obtain ⟨earlier, later, hrows, hlayered⟩ := layered_walk id keys kinds hfresh
  rw [hlayered.unpack, hrows, Groups.rows_ofRows, List.flatMap_def]

theorem walk_snd (legs : List Leg) : (walk ⟨id, .grouped keys kinds⟩ legs).2 =
    ((Leg.batches legs).map (·.2)).map fun rows =>
      (rows.filter (Groups.groupable keys kinds)).length := by
  rw [List.map_map]
  induction legs using List.reverseRecOn with
  | nil => rfl
  | append_singleton legs leg ih =>
      rw [walk_concat, Leg.batches, List.filterMap_append, ← Leg.batches, List.map_append, ← ih]
      cases leg with
      | pack version rows => exact congrArg (_ ++ [·]) (pack_grouped_snd ..)
      | archive => exact (List.append_nil _).symm

end Bag

/-! ## Batches into a sink -/

namespace Sinks

variable {s : Sinks} {sink : SinkRef} {query : QueryId} {keys : Nat} {kinds : List Aggregation}

/-- The sinks after some batches for one of them, and what the emits have reported. -/
def emitAll (s : Sinks) (sink : SinkRef) (batches : List (List Row)) : Sinks × List Nat :=
  batches.foldl (fun (s, reports) rows =>
    let (s, kept) := s.emit sink rows
    (s, reports ++ [kept])) (s, [])

theorem emitAll_concat (s : Sinks) (sink : SinkRef) (batches : List (List Row)) (rows : List Row) :
    s.emitAll sink (batches ++ [rows]) =
      (((s.emitAll sink batches).1.emit sink rows).1,
        (s.emitAll sink batches).2 ++ [((s.emitAll sink batches).1.emit sink rows).2]) := by
  unfold emitAll
  rw [List.foldl_append]
  rfl

/-- The sink is within reach and has gathered the groups of some rows. -/
structure Gathers (s : Sinks) (sink : SinkRef) (keys : Nat) (kinds : List Aggregation)
    (rows : List Row) : Prop where
  sorted : Ascending.Sorted s.live.keys
  fresh : sink.fresh = .grouped (.empty keys kinds)
  found : s.live.find? sink.outputId = some (sink.serial, .grouped (Groups.ofRows keys kinds rows))

theorem gathers_create {ν : Type} (s : Sinks) (query : QueryId) (ks : List ν)
    (aggregates : List (AggregateSpec ν)) (hs : Ascending.Sorted s.live.keys) :
    (s.create query (.groupBy ks aggregates)).2.Gathers (s.create query (.groupBy ks aggregates)).1
      ks.length (aggregates.map (·.how)) [] :=
  ⟨Table.sorted_keys_insert hs _ _, rfl, Table.find?_insert_self ..⟩

/-- A batch that is emitted is gathered, and the rows of it that can be grouped are counted. -/
theorem Gathers.emit {rows : List Row} (h : s.Gathers sink keys kinds rows) (more : List Row) :
    (s.emit sink more).1.Gathers sink keys kinds (rows ++ more) ∧
      (s.emit sink more).2 = (more.filter (Groups.groupable keys kinds)).length := by
  have hadd : ((Gathered.grouped (Groups.ofRows keys kinds rows)).add more).1 =
      .grouped (Groups.ofRows keys kinds (rows ++ more)) :=
    Gathered.add_add (.grouped (.empty keys kinds)) rows more
  rw [Sinks.emit, h.found]
  dsimp only
  rw [if_pos rfl]
  constructor
  · refine ⟨Table.sorted_keys_insert h.sorted _ _, h.fresh, ?_⟩
    rw [Table.find?_insert_self, hadd]
  · rw [h.fresh, ← Groups.accepts_eq_groupable]
    exact Groups.observeAll_snd _ _

theorem Gathers.emitAll (h : s.Gathers sink keys kinds []) (batches : List (List Row)) :
    (s.emitAll sink batches).1.Gathers sink keys kinds batches.flatten ∧
      (s.emitAll sink batches).2 =
        batches.map fun rows => (rows.filter (Groups.groupable keys kinds)).length := by
  induction batches using List.reverseRecOn with
  | nil => exact ⟨h, rfl⟩
  | append_singleton batches rows ih =>
      obtain ⟨hgathers, hreports⟩ := ih
      obtain ⟨hnext, hcount⟩ := hgathers.emit rows
      rw [emitAll_concat, List.flatten_concat, List.map_append, hreports, hcount]
      exact ⟨hnext, rfl⟩

/-- Feeding a sink leaves how it is reported on. -/
theorem emitAll_report (s : Sinks) (sink : SinkRef) (batches : List (List Row)) :
    (s.emitAll sink batches).1.reportEmpty = s.reportEmpty ∧
      (s.emitAll sink batches).1.intervalMs = s.intervalMs := by
  have hemit : ∀ (s : Sinks) (rows : List Row), (s.emit sink rows).1.reportEmpty = s.reportEmpty ∧
      (s.emit sink rows).1.intervalMs = s.intervalMs := by
    intro s rows
    unfold emit
    split
    · split <;> exact ⟨rfl, rfl⟩
    · exact ⟨rfl, rfl⟩
  induction batches using List.reverseRecOn with
  | nil => exact ⟨rfl, rfl⟩
  | append_singleton batches rows ih =>
      rw [emitAll_concat, ← ih.1, ← ih.2]
      exact hemit _ rows

/-- The groups that a sink has gathered are what is collected for its query. -/
theorem Gathers.collect {rows : List Row} (h : s.Gathers sink keys kinds rows)
    (timestampMs : Nat) :
    (s.collect timestampMs).1.filter (·.outputId = sink.outputId) =
      if (Groups.ofRows keys kinds rows).rows.isEmpty && !s.reportEmpty then []
      else [⟨sink.outputId, timestampMs, s.intervalMs, [],
        (Groups.ofRows keys kinds rows).rows⟩] := by
  have hempty : (Groups.ofRows keys kinds rows).groups.isEmpty =
      (Groups.ofRows keys kinds rows).rows.isEmpty := by
    rw [Groups.rows, List.isEmpty_map]
  rw [Sinks.collect]
  dsimp only
  rw [Table.filter_filterMap_key h.sorted.nodup ?_ sink.outputId, h.found, Option.bind_some,
    Gathered.isEmpty, hempty]
  · split <;> rfl
  · rintro p r hr
    split at hr
    · cases hr
    · cases hr
      rfl

end Sinks

/-! ## Both ways -/

/-- Rows come in batches. They are packed into a bag of groups one batch after another, by a
request that starts empty and is archived at any time in between; the versions drawn for the
entries differ. The same batches are emitted into a new sink, which is collected afterwards.
Then the bag reads, and the sink gives, what grouping all rows at once gives, and each pack and
each emit has reported how many rows of its batch can be grouped. Without aggregations the
groups are the rows of the right width, each once. -/
theorem grouping_in_batches {ν : Type} (id : BagId) (query : QueryId) (keys : List ν)
    (aggregates : List (AggregateSpec ν)) (legs : List Leg) (s : Sinks) (timestampMs : Nat)
    (hfresh : ((Leg.batches legs).map (·.1)).Nodup) (hs : Ascending.Sorted s.live.keys) :
    let layout := BagSpec.groupBy keys aggregates
    let batches := (Leg.batches legs).map (·.2)
    let kinds := aggregates.map (·.how)
    let valid := batches.map fun rows => (rows.filter (Groups.groupable keys.length kinds)).length
    let groups := Groups.outright keys.length kinds batches.flatten
    let bag := Bag.create id layout true
    let (sink, s') := s.create query layout
    bag.unpack (bag.walk legs).1 = groups ∧ (bag.walk legs).2 = valid ∧
      ((s'.emitAll sink batches).1.collect timestampMs).1.filter (·.outputId = query) =
        (if groups.isEmpty && !s.reportEmpty then []
        else [⟨query, timestampMs, s.intervalMs, [], groups⟩]) ∧
      (s'.emitAll sink batches).2 = valid ∧
      (kinds = [] → groups = firstMentions (batches.flatten.filter (·.length == keys.length))) := by
  intro layout batches kinds valid groups bag
  have hgroups : groups = (Groups.ofRows keys.length kinds batches.flatten).rows :=
    (Groups.rows_ofRows ..).symm
  have hgathers := Sinks.gathers_create s query keys aggregates hs
  obtain ⟨hgathered, hreports⟩ := hgathers.emitAll batches
  refine ⟨Bag.unpack_walk hfresh, Bag.walk_snd legs, ?_, hreports, ?_⟩
  · obtain ⟨hreport, hinterval⟩ :=
      Sinks.emitAll_report (s.create query layout).2 (s.create query layout).1 batches
    have hcollect := hgathered.collect timestampMs
    rw [hreport, hinterval, ← hgroups] at hcollect
    exact hcollect
  · intro hnone
    show Groups.outright keys.length kinds batches.flatten = _
    rw [hnone, Groups.outright_nil]

namespace Sample

def tea (v : Value) : Row := [.str "tea", v]

def milk (v : Value) : Row := [.str "milk", v]

/-- Sales in batches; a pack of nothing valid and an archived entry stand in between. -/
def sales : List Leg :=
  [.pack 11 [tea (.int 1), milk (.int 2)], .archive, .pack 12 [tea (.int 4), tea (.str "many")],
    .pack 13 [tea .null], .archive, .pack 14 [[], milk (.int 8), tea (.float (1.5 : Float))]]

def perItem : BagSpec String := .groupBy ["item"] [⟨"sold", .sum⟩]

end Sample

open Sample in
theorem sales_in_batches :
    (Bag.create ⟨⟨1⟩, 0⟩ perItem true).unpack ((Bag.create ⟨⟨1⟩, 0⟩ perItem true).walk sales).1 =
        [tea (.int 6), milk (.int 10)] ∧
      ((Bag.create ⟨⟨1⟩, 0⟩ perItem true).walk sales).2 = [2, 1, 0, 2] ∧
      ((((Sinks.start false 500).create ⟨1⟩ perItem).2.emitAll
        ((Sinks.start false 500).create ⟨1⟩ perItem).1
        ((Leg.batches sales).map (·.2))).1.collect 7).1.filter
          (·.outputId = ⟨1⟩) = [⟨⟨1⟩, 7, 500, [], [tea (.int 6), milk (.int 10)]⟩] := by
  obtain ⟨hbag, hpacks, hsink, -⟩ :=
    grouping_in_batches ⟨⟨1⟩, 0⟩ ⟨1⟩ ["item"] [⟨"sold", .sum⟩] sales
    (Sinks.start false 500) 7 (by decide +kernel) .nil
  exact ⟨hbag.trans (by decide +kernel), hpacks.trans (by decide +kernel),
    hsink.trans (by decide +kernel)⟩

example : Groups.outright 1 [] [[.str "tea"], [.int 1], [], [.str "tea"]] =
    [[.str "tea"], [.int 1]] := by
  decide +kernel

end CausalTrace
