import CausalTrace.Baggage.Groups
import CausalTrace.Proofs.Naming
import Mathlib.Data.List.Basic
import Mathlib.Data.List.Induction

/-!
# Grouping in parts

A group holds the total of the contributions to its key, and the groups stand in
the order in which their keys were first seen. Totals can be formed in parts: the
groups of some rows, added to other groups, count as much as the rows themselves.
-/

namespace CausalTrace

/-- A value is found in some rows. -/
def Occurs (v : Value) (rows : List Row) : Prop := ∃ row ∈ rows, v ∈ row

/-! ## Mentioned keys -/

section

variable {ν : Type} [DecidableEq ν] {us vs : List ν}

theorem nodup_firstMentions : (firstMentions vs).Nodup := by
  induction vs using List.reverseRecOn with
  | nil => exact List.nodup_nil
  | append_singleton vs v ih =>
      by_cases h : v ∈ vs
      · rw [firstMentions_append_of_mem h]
        exact ih
      · rw [firstMentions_append_of_not_mem h]
        refine List.nodup_append.mpr ⟨ih, List.pairwise_singleton _ v, ?_⟩
        rintro u hu w hw rfl
        rw [List.mem_singleton.mp hw] at hu
        exact h (mem_firstMentions.mp hu)

theorem firstMentions_append_firstMentions :
    firstMentions (us ++ firstMentions vs) = firstMentions (us ++ vs) := by
  induction vs using List.reverseRecOn with
  | nil => rfl
  | append_singleton vs v ih =>
      rw [← List.append_assoc]
      by_cases h : v ∈ vs
      · rw [firstMentions_append_of_mem h, ih,
          firstMentions_append_of_mem (List.mem_append_right us h)]
      · rw [firstMentions_append_of_not_mem h, ← List.append_assoc]
        by_cases hu : v ∈ us
        · rw [firstMentions_append_of_mem (List.mem_append_left _ hu),
            firstMentions_append_of_mem (List.mem_append_left _ hu), ih]
        · have hv : v ∉ us ++ vs := by
            rw [List.mem_append, not_or]
            exact ⟨hu, h⟩
          have hf : v ∉ us ++ firstMentions vs := by
            rw [List.mem_append, not_or, mem_firstMentions]
            exact ⟨hu, h⟩
          rw [firstMentions_append_of_not_mem hv, firstMentions_append_of_not_mem hf, ih]

end

/-! ## Totals -/

theorem Aggregation.combine_assoc (how : Aggregation) (x y z : Int64) :
    how.combine (how.combine x y) z = how.combine x (how.combine y z) := by
  cases how with
  | count => exact Int64.add_assoc x y z
  | sum => exact Int64.add_assoc x y z
  | min =>
      simp only [combine, Int64.le_iff_toInt_le]
      split_ifs <;> first | rfl | omega
  | max =>
      simp only [combine, Int64.le_iff_toInt_le]
      split_ifs <;> first | rfl | omega

namespace Groups

variable {kinds : List Aggregation} {xs ys zs : List Int64} {key : Row}

theorem length_combineAll (hx : xs.length = kinds.length) (hy : ys.length = kinds.length) :
    (combineAll kinds xs ys).length = kinds.length := by
  induction kinds generalizing xs ys with
  | nil =>
      rw [List.length_eq_zero_iff.mp hx]
      rfl
  | cons how kinds ih =>
      match xs, ys, hx, hy with
      | x :: xs, y :: ys, hx, hy =>
          exact congrArg (· + 1) (ih (Nat.succ.inj hx) (Nat.succ.inj hy))

theorem combineAll_assoc (hx : xs.length = kinds.length) (hy : ys.length = kinds.length)
    (hz : zs.length = kinds.length) :
    combineAll kinds (combineAll kinds xs ys) zs =
      combineAll kinds xs (combineAll kinds ys zs) := by
  induction kinds generalizing xs ys zs with
  | nil =>
      rw [List.length_eq_zero_iff.mp hx]
      rfl
  | cons how kinds ih =>
      match xs, ys, zs, hx, hy, hz with
      | x :: xs, y :: ys, z :: zs, hx, hy, hz =>
          simp only [combineAll, how.combine_assoc,
            ih (Nat.succ.inj hx) (Nat.succ.inj hy) (Nat.succ.inj hz)]

/-- The total of some contributions. -/
def total (kinds : List Aggregation) : List (List Int64) → List Int64
  | [] => []
  | xs :: xss => xss.foldl (combineAll kinds) xs

theorem length_foldl_combineAll {xss : List (List Int64)} (hx : xs.length = kinds.length)
    (hs : ∀ ys ∈ xss, ys.length = kinds.length) :
    (xss.foldl (combineAll kinds) xs).length = kinds.length := by
  induction xss generalizing xs with
  | nil => exact hx
  | cons ys xss ih =>
      obtain ⟨hy, hs⟩ := List.forall_mem_cons.mp hs
      exact ih (length_combineAll hx hy) hs

theorem foldl_combineAll_assoc {xss : List (List Int64)} (hx : xs.length = kinds.length)
    (hy : ys.length = kinds.length) (hs : ∀ zs ∈ xss, zs.length = kinds.length) :
    xss.foldl (combineAll kinds) (combineAll kinds xs ys) =
      combineAll kinds xs (xss.foldl (combineAll kinds) ys) := by
  induction xss generalizing ys with
  | nil => rfl
  | cons zs xss ih =>
      obtain ⟨hz, hs⟩ := List.forall_mem_cons.mp hs
      rw [List.foldl_cons, List.foldl_cons, combineAll_assoc hx hy hz,
        ih (length_combineAll hy hz) hs]

theorem total_append_singleton {xss : List (List Int64)} (h : xss ≠ []) :
    total kinds (xss ++ [ys]) = combineAll kinds (total kinds xss) ys := by
  match xss, h with
  | xs :: xss, _ => rw [List.cons_append, total, List.foldl_append, total]; rfl

/-- A part of the contributions may be replaced by its total. -/
theorem total_append_total {xss yss : List (List Int64)} (hy : yss ≠ [])
    (hxs : ∀ xs ∈ xss, xs.length = kinds.length) (hys : ∀ ys ∈ yss, ys.length = kinds.length) :
    total kinds (xss ++ [total kinds yss]) = total kinds (xss ++ yss) := by
  match xss, yss, hy with
  | [], ys :: yss, _ => rfl
  | xs :: xss, ys :: yss, _ =>
      obtain ⟨hx, hxs⟩ := List.forall_mem_cons.mp hxs
      obtain ⟨hy, hys⟩ := List.forall_mem_cons.mp hys
      simp only [List.cons_append, total, List.foldl_append, List.foldl_cons, List.foldl_nil]
      exact (foldl_combineAll_assoc (length_foldl_combineAll hx hxs) hy hys).symm

/-! ## Merging contributions -/

/-- Adds contributions to groups, one after another. -/
def merge (kinds : List Aggregation) (gs ps : List (Row × List Int64)) : List (Row × List Int64) :=
  ps.foldl (fun gs p => add kinds p.1 p.2 gs) gs

/-- The contributions to one key. -/
def contributionsTo (key : Row) (ps : List (Row × List Int64)) : List (List Int64) :=
  (ps.filter (·.1 = key)).map (·.2)

theorem add_of_not_mem {gs : List (Row × List Int64)} (h : key ∉ gs.map (·.1)) :
    add kinds key xs gs = gs ++ [(key, xs)] := by
  induction gs with
  | nil => rfl
  | cons g gs ih =>
      rw [List.map_cons, List.mem_cons, not_or] at h
      rw [add, if_neg (Ne.symm h.1), ih h.2]
      rfl

theorem add_map_of_mem {keys : List Row} {value : Row → List Int64} (hn : keys.Nodup)
    (h : key ∈ keys) :
    add kinds key xs (keys.map fun k => (k, value k)) =
      keys.map fun k => (k, if k = key then combineAll kinds (value k) xs else value k) := by
  induction keys with
  | nil => cases h
  | cons k keys ih =>
      obtain ⟨hk, hn⟩ := List.nodup_cons.mp hn
      rw [List.map_cons, List.map_cons, add]
      by_cases he : k = key
      · rw [if_pos he, if_pos he]
        congr 1
        refine List.map_congr_left fun l hl => ?_
        have hne : l ≠ key := fun e => hk (he.trans e.symm ▸ hl)
        rw [if_neg hne]
      · rw [if_neg he, if_neg he, ih hn ((List.mem_cons.mp h).resolve_left (Ne.symm he))]

theorem contributionsTo_append (ps qs : List (Row × List Int64)) :
    contributionsTo key (ps ++ qs) = contributionsTo key ps ++ contributionsTo key qs := by
  rw [contributionsTo, List.filter_append, List.map_append]
  rfl

theorem contributionsTo_ne_nil_iff {ps : List (Row × List Int64)} :
    contributionsTo key ps ≠ [] ↔ key ∈ ps.map (·.1) := by
  rw [contributionsTo, ne_eq, List.map_eq_nil_iff, List.filter_eq_nil_iff, List.mem_map]
  simp

theorem contributionsTo_eq_nil {ps : List (Row × List Int64)} (h : key ∉ ps.map (·.1)) :
    contributionsTo key ps = [] :=
  Classical.not_not.mp fun hne => h (contributionsTo_ne_nil_iff.mp hne)

theorem contributionsTo_map_of_mem {keys : List Row} {value : Row → List Int64}
    (hn : keys.Nodup) (h : key ∈ keys) :
    contributionsTo key (keys.map fun k => (k, value k)) = [value key] := by
  induction keys with
  | nil => cases h
  | cons k keys ih =>
      obtain ⟨hk, hn⟩ := List.nodup_cons.mp hn
      have hcons : contributionsTo key ((k :: keys).map fun k => (k, value k)) =
          contributionsTo key [(k, value k)] ++
            contributionsTo key (keys.map fun k => (k, value k)) :=
        contributionsTo_append [(k, value k)] _
      rw [hcons]
      by_cases he : k = key
      · subst he
        have hnone : contributionsTo k (keys.map fun k => (k, value k)) = [] :=
          contributionsTo_eq_nil (by simpa [Function.comp_def] using hk)
        rw [hnone, List.append_nil]
        simp [contributionsTo]
      · have hnone : contributionsTo key [(k, value k)] = [] := by
          simp [contributionsTo, he]
        rw [hnone, ih hn ((List.mem_cons.mp h).resolve_left (Ne.symm he))]
        rfl

theorem forall_mem_contributionsTo {ps : List (Row × List Int64)} {P : List Int64 → Prop}
    (h : ∀ p ∈ ps, P p.2) : ∀ xs ∈ contributionsTo key ps, P xs := by
  intro xs hx
  obtain ⟨p, hp, rfl⟩ := List.mem_map.mp hx
  exact h p (List.mem_filter.mp hp).1

/-- The merged groups: every key by first occurrence, with its total. -/
theorem merge_nil (ps : List (Row × List Int64)) :
    merge kinds [] ps = (firstMentions (ps.map (·.1))).map fun key =>
      (key, total kinds (contributionsTo key ps)) := by
  induction ps using List.reverseRecOn with
  | nil => rfl
  | append_singleton ps p ih =>
      obtain ⟨key, xs⟩ := p
      have hself : contributionsTo key [(key, xs)] = [xs] := by
        simp [contributionsTo]
      have hother : ∀ k, k ≠ key → contributionsTo k [(key, xs)] = [] := by
        intro k hk
        simp [contributionsTo, Ne.symm hk]
      have hsnoc : merge kinds [] (ps ++ [(key, xs)]) = add kinds key xs (merge kinds [] ps) := by
        rw [merge, List.foldl_append]
        rfl
      rw [hsnoc, ih, List.map_append, List.map_singleton]
      by_cases h : key ∈ ps.map (·.1)
      · rw [firstMentions_append_of_mem h, add_map_of_mem nodup_firstMentions
          (mem_firstMentions.mpr h)]
        refine List.map_congr_left fun k hk => ?_
        rw [contributionsTo_append]
        by_cases he : k = key
        · rw [if_pos he, he, hself, total_append_singleton (contributionsTo_ne_nil_iff.mpr h)]
        · rw [if_neg he, hother k he, List.append_nil]
      · rw [firstMentions_append_of_not_mem h, add_of_not_mem, List.map_append, List.map_singleton]
        · congr 1
          · refine List.map_congr_left fun k hk => ?_
            have he : k ≠ key := fun e => h (e ▸ mem_firstMentions.mp hk)
            rw [contributionsTo_append, hother k he, List.append_nil]
          · rw [contributionsTo_append, contributionsTo_eq_nil h, hself]
            rfl
        · rw [List.map_map]
          simpa [Function.comp_def, mem_firstMentions] using h

theorem merge_nil_append (ps qs : List (Row × List Int64)) :
    merge kinds [] (ps ++ qs) = merge kinds (merge kinds [] ps) qs := by
  rw [merge, List.foldl_append]
  rfl

/-- Leaving out keys before merging leaves out their groups. -/
theorem filter_merge {P : Row → Bool} (gs ps : List (Row × List Int64)) :
    (merge kinds gs ps).filter (fun g => P g.1) =
      merge kinds (gs.filter fun g => P g.1) (ps.filter fun p => P p.1) := by
  have hadd : ∀ (key : Row) (xs : List Int64) (gs : List (Row × List Int64)),
      (add kinds key xs gs).filter (fun g => P g.1) =
        if P key then add kinds key xs (gs.filter fun g => P g.1)
        else gs.filter fun g => P g.1 := by
    intro key xs gs
    induction gs with
    | nil => cases hP : P key <;> simp [add, hP]
    | cons g gs ih =>
        obtain ⟨k, ys⟩ := g
        by_cases hk : k = key
        · subst hk
          cases hP : P k <;> simp [add, hP]
        · rw [add, if_neg hk]
          cases hPk : P k <;> cases hP : P key <;> simp [add, hPk, hP, hk, ih]
  induction ps generalizing gs with
  | nil => rfl
  | cons p ps ih =>
      show (merge kinds (add kinds p.1 p.2 gs) ps).filter _ = _
      rw [ih, hadd, List.filter_cons]
      split
      · rfl
      · rfl

/-- Merged groups count as much as what they were merged from. -/
theorem merge_merge {ps : List (Row × List Int64)} (qs : List (Row × List Int64))
    (hq : ∀ q ∈ qs, q.2.length = kinds.length) (hp : ∀ p ∈ ps, p.2.length = kinds.length) :
    merge kinds (merge kinds [] qs) (merge kinds [] ps) = merge kinds (merge kinds [] qs) ps := by
  rw [← merge_nil_append, ← merge_nil_append, merge_nil, merge_nil (qs ++ ps), merge_nil ps]
  have hkeys : ((firstMentions (ps.map (·.1))).map fun key =>
      (key, total kinds (contributionsTo key ps))).map (·.1) = firstMentions (ps.map (·.1)) := by
    rw [List.map_map]
    exact List.map_id _
  rw [List.map_append, hkeys, firstMentions_append_firstMentions, List.map_append]
  refine List.map_congr_left fun key hk => ?_
  rw [contributionsTo_append, contributionsTo_append]
  congr 1
  by_cases h : key ∈ ps.map (·.1)
  · rw [contributionsTo_map_of_mem nodup_firstMentions (mem_firstMentions.mpr h)]
    refine total_append_total (contributionsTo_ne_nil_iff.mpr h) ?_ ?_
    · exact forall_mem_contributionsTo hq
    · exact forall_mem_contributionsTo hp
  · have hnone : contributionsTo key ((firstMentions (ps.map (·.1))).map fun key =>
        (key, total kinds (contributionsTo key ps))) = [] := by
      refine contributionsTo_eq_nil ?_
      rw [hkeys]
      exact fun hm => h (mem_firstMentions.mp hm)
    rw [contributionsTo_eq_nil h, hnone]

/-! ## Rows as contributions -/

/-- The key of a row and what it contributes, if it is valid. -/
def part? (read : Aggregation → Value → Option Int64) (keys : Nat) (kinds : List Aggregation)
    (row : Row) : Option (Row × List Int64) :=
  if row.length = keys + kinds.length then
    (contributions? read kinds (row.drop keys)).map (row.take keys, ·)
  else none

variable {read : Aggregation → Value → Option Int64} {keys : Nat}

theorem fold?_eq (g : Groups) (row : Row) :
    g.fold? read row = (part? read g.keys g.kinds row).map fun p =>
      ⟨g.keys, g.kinds, add g.kinds p.1 p.2 g.groups⟩ := by
  rw [fold?, part?]
  split
  · cases contributions? read g.kinds (row.drop g.keys) <;> rfl
  · rfl

theorem length_contributions? {kinds : List Aggregation} {vs : Row} {xs : List Int64}
    (h : contributions? read kinds vs = some xs) : xs.length = kinds.length := by
  induction kinds generalizing vs xs with
  | nil =>
      cases vs with
      | nil =>
          cases h
          rfl
      | cons v vs => cases h
  | cons how kinds ih =>
      cases vs with
      | nil => cases h
      | cons v vs =>
          obtain ⟨x, _, h⟩ := Option.bind_eq_some_iff.mp h
          obtain ⟨ys, hys, he⟩ := Option.bind_eq_some_iff.mp h
          cases he
          exact congrArg (· + 1) (ih hys)

theorem length_of_part? {row : Row} {p : Row × List Int64}
    (h : part? read keys kinds row = some p) : p.1.length = keys ∧ p.2.length = kinds.length := by
  rw [part?] at h
  split at h
  · next hl =>
      obtain ⟨xs, hxs, rfl⟩ := Option.map_eq_some_iff.mp h
      refine ⟨?_, length_contributions? hxs⟩
      rw [List.length_take, hl]
      exact Nat.min_eq_left (Nat.le_add_right _ _)
  · cases h

theorem fst_of_part? {key values : Row} {p : Row × List Int64}
    (h : part? read keys kinds (key ++ values) = some p) (hk : key.length = keys) : p.1 = key := by
  rw [part?] at h
  split at h
  · obtain ⟨xs, _, rfl⟩ := Option.map_eq_some_iff.mp h
    exact List.take_left' hk
  · cases h

theorem forall_filterMap_part? {rows : List Row} :
    ∀ p ∈ rows.filterMap (part? read keys kinds), p.1.length = keys ∧
      p.2.length = kinds.length := by
  intro p hp
  obtain ⟨row, _, hr⟩ := List.mem_filterMap.mp hp
  exact length_of_part? hr

theorem merge_cons (gs : List (Row × List Int64)) (p : Row × List Int64)
    (ps : List (Row × List Int64)) :
    merge kinds gs (p :: ps) = merge kinds (add kinds p.1 p.2 gs) ps := rfl

/-- The groups after rows that are counted as they are added. -/
theorem foldl_fst {count : Groups × Nat → Row → Groups × Nat}
    {rows : List Row} {g : Groups} {n : Nat}
    (hcount : ∀ g n row, (count (g, n) row).1 = (g.addRaw? row).getD g) :
    (rows.foldl count (g, n)).1 = rows.foldl (fun g row => (g.addRaw? row).getD g) g := by
  induction rows generalizing g n with
  | nil => rfl
  | cons row rows ih =>
      rw [List.foldl_cons, List.foldl_cons, ← hcount g n row]
      exact ih

theorem observeAll_fst (g : Groups) (rows : List Row) :
    (g.observeAll rows).1 = ⟨g.keys, g.kinds,
      merge g.kinds g.groups (rows.filterMap (part? Aggregation.operand? g.keys g.kinds))⟩ := by
  rw [observeAll, foldl_fst]
  · induction rows generalizing g with
    | nil => rfl
    | cons row rows ih =>
        have hf : g.addRaw? row = _ := fold?_eq g row
        rw [List.foldl_cons, List.filterMap_cons, hf]
        cases part? Aggregation.operand? g.keys g.kinds row with
        | none => exact ih g
        | some p => exact ih ⟨g.keys, g.kinds, add g.kinds p.1 p.2 g.groups⟩
  · intro g n row
    cases h : g.addRaw? row with
    | none => simp only [h, Option.getD_none]
    | some g' => simp only [h, Option.getD_some]

theorem combineRows_eq (g : Groups) (rows : List Row) :
    g.combineRows rows = ⟨g.keys, g.kinds,
      merge g.kinds g.groups (rows.filterMap (part? (fun _ v => v.toInt64?) g.keys g.kinds))⟩ := by
  induction rows generalizing g with
  | nil => rfl
  | cons row rows ih =>
      have hf : g.addPartial? row = _ := fold?_eq g row
      rw [combineRows, List.foldl_cons, List.filterMap_cons]
      cases hp : part? (fun _ v => v.toInt64?) g.keys g.kinds row with
      | none =>
          rw [hp] at hf
          rw [hf]
          exact ih g
      | some p =>
          rw [hp] at hf
          rw [hf]
          exact ih ⟨g.keys, g.kinds, add g.kinds p.1 p.2 g.groups⟩

theorem contributions?_int (xs : List Int64) (h : xs.length = kinds.length) :
    contributions? (fun _ v => v.toInt64?) kinds (xs.map .int) = some xs := by
  induction kinds generalizing xs with
  | nil =>
      rw [List.length_eq_zero_iff.mp h]
      rfl
  | cons how kinds ih =>
      match xs, h with
      | x :: xs, h =>
          have hxs := ih xs (Nat.succ.inj h)
          rw [List.map_cons, contributions?, hxs]
          rfl

/-- The row of a group contributes what the group holds. -/
theorem part?_groupRow {p : Row × List Int64} (hk : p.1.length = keys)
    (hx : p.2.length = kinds.length) :
    part? (fun _ v => v.toInt64?) keys kinds (p.1 ++ p.2.map .int) = some p := by
  have hl : (p.1 ++ p.2.map Value.int).length = keys + kinds.length := by
    rw [List.length_append, List.length_map, hk, hx]
  rw [part?, if_pos hl, List.drop_left' hk, List.take_left' hk, contributions?_int _ hx]
  rfl

/-- The groups of some raw rows. -/
def ofRows (keys : Nat) (kinds : List Aggregation) (rows : List Row) : Groups :=
  ((empty keys kinds).observeAll rows).1

theorem ofRows_eq (rows : List Row) :
    ofRows keys kinds rows =
      ⟨keys, kinds, merge kinds [] (rows.filterMap (part? Aggregation.operand? keys kinds))⟩ :=
  observeAll_fst ..

/-- Every group holds a key and totals of the right width. -/
theorem length_of_mem_ofRows {rows : List Row} {g : Row × List Int64}
    (h : g ∈ (ofRows keys kinds rows).groups) : g.1.length = keys ∧ g.2.length = kinds.length := by
  rw [ofRows_eq, merge_nil] at h
  obtain ⟨key, hk, rfl⟩ := List.mem_map.mp h
  obtain ⟨p, hp, rfl⟩ := List.mem_map.mp (mem_firstMentions.mp hk)
  refine ⟨(forall_filterMap_part? p hp).1, ?_⟩
  have hall : ∀ xs ∈ contributionsTo p.1 (rows.filterMap (part? Aggregation.operand? keys kinds)),
      xs.length = kinds.length :=
    forall_mem_contributionsTo (fun q hq => (forall_filterMap_part? q hq).2)
  have hne := contributionsTo_ne_nil_iff.mpr (List.mem_map_of_mem (f := (·.1)) hp)
  match hc : contributionsTo p.1 (rows.filterMap (part? Aggregation.operand? keys kinds)), hne with
  | xs :: xss, _ =>
      rw [hc] at hall
      obtain ⟨hx, hxs⟩ := List.forall_mem_cons.mp hall
      exact length_foldl_combineAll hx hxs

/-- Groups added as rows are added as groups. -/
theorem combineRows_rows (gs : List (Row × List Int64)) (rows : List Row) :
    (⟨keys, kinds, gs⟩ : Groups).combineRows (ofRows keys kinds rows).rows =
      ⟨keys, kinds, merge kinds gs (ofRows keys kinds rows).groups⟩ := by
  rw [combineRows_eq, Groups.rows, List.filterMap_map]
  refine congrArg (fun added => (⟨keys, kinds, merge kinds gs added⟩ : Groups)) ?_
  refine Eq.trans (List.filterMap_congr fun p hp => ?_) List.filterMap_some
  obtain ⟨hk, hx⟩ := length_of_mem_ofRows hp
  exact part?_groupRow hk hx

/-- Groups of earlier rows, then those of later ones, are the groups of all rows. -/
theorem combineRows_ofRows (before after : List Row) :
    (ofRows keys kinds before).combineRows (ofRows keys kinds after).rows =
      ofRows keys kinds (before ++ after) := by
  rw [ofRows_eq before, combineRows_rows, ofRows_eq after, ofRows_eq (before ++ after),
    List.filterMap_append, merge_nil_append]
  congr 1
  refine merge_merge _ ?_ ?_
  · exact fun q hq => (forall_filterMap_part? q hq).2
  · exact fun p hp => (forall_filterMap_part? p hp).2

/-- What a bag of groups reads back is what was put in. -/
theorem combineRows_empty (rows : List Row) :
    (empty keys kinds).combineRows (ofRows keys kinds rows).rows = ofRows keys kinds rows :=
  combineRows_ofRows [] rows

/-! ## Where values come from -/

theorem mem_keys_merge {gs ps : List (Row × List Int64)}
    (h : key ∈ (merge kinds gs ps).map (·.1)) : key ∈ gs.map (·.1) ∨ key ∈ ps.map (·.1) := by
  induction ps generalizing gs with
  | nil => exact .inl h
  | cons p ps ih =>
      rw [merge_cons] at h
      rcases ih h with h | h
      · by_cases hp : p.1 ∈ gs.map (·.1)
        · -- An addition to a group that is there keeps the keys.
          have hkeys : ∀ gs : List (Row × List Int64), p.1 ∈ gs.map (·.1) →
              (add kinds p.1 p.2 gs).map (·.1) = gs.map (·.1) := by
            intro gs hgs
            induction gs with
            | nil => cases hgs
            | cons g gs ih =>
                rw [add]
                split
                · rfl
                · next hne =>
                    rw [List.map_cons, List.map_cons,
                      ih ((List.mem_cons.mp hgs).resolve_left fun he => hne he.symm)]
          exact .inl (hkeys gs hp ▸ h)
        · rw [add_of_not_mem hp, List.map_append, List.mem_append] at h
          exact h.imp_right fun h => List.mem_cons.mpr (.inl (List.mem_singleton.mp h))
      · exact .inr (List.mem_cons_of_mem _ h)

theorem occurs_rows {g : Groups} {v : Value} (h : Occurs v g.rows) :
    (∃ n, v = .int n) ∨ ∃ key ∈ g.groups.map (·.1), v ∈ key := by
  obtain ⟨row, hrow, hv⟩ := h
  obtain ⟨p, hp, rfl⟩ := List.mem_map.mp hrow
  rcases List.mem_append.mp hv with hv | hv
  · exact .inr ⟨p.1, List.mem_map_of_mem hp, hv⟩
  · obtain ⟨n, _, rfl⟩ := List.mem_map.mp hv
    exact .inl ⟨n, rfl⟩

/-- A key of a group is the front of a row. -/
theorem occurs_of_key {rows : List Row} {v : Value}
    (h : key ∈ (rows.filterMap (part? read keys kinds)).map (·.1)) (hv : v ∈ key) :
    Occurs v rows := by
  obtain ⟨p, hp, rfl⟩ := List.mem_map.mp h
  obtain ⟨row, hrow, hp⟩ := List.mem_filterMap.mp hp
  rw [part?] at hp
  split at hp
  · obtain ⟨xs, _, rfl⟩ := Option.map_eq_some_iff.mp hp
    exact ⟨row, hrow, List.mem_of_mem_take hv⟩
  · cases hp

theorem occurs_ofRows {rows : List Row} {v : Value} (h : Occurs v (ofRows keys kinds rows).rows) :
    (∃ n, v = .int n) ∨ Occurs v rows := by
  refine (occurs_rows h).imp_right fun ⟨key, hkey, hv⟩ => ?_
  rw [ofRows_eq] at hkey
  rcases mem_keys_merge hkey with hkey | hkey
  · cases hkey
  · exact occurs_of_key hkey hv

theorem occurs_combineRows {g : Groups} {rows : List Row} {v : Value}
    (h : Occurs v (g.combineRows rows).rows) :
    (∃ n, v = .int n) ∨ Occurs v g.rows ∨ Occurs v rows := by
  refine (occurs_rows h).imp_right fun ⟨key, hkey, hv⟩ => ?_
  rw [combineRows_eq] at hkey
  rcases mem_keys_merge hkey with hkey | hkey
  · obtain ⟨p, hp, rfl⟩ := List.mem_map.mp hkey
    exact .inl ⟨_, List.mem_map_of_mem hp, List.mem_append_left _ hv⟩
  · exact .inr (occurs_of_key hkey hv)

end Groups

end CausalTrace
