import CausalTrace.Proofs.Grouping
import Mathlib.Algebra.BigOperators.Group.Multiset.Basic
import Mathlib.Data.Int.ModEq
import Mathlib.Data.Multiset.Filter
import Mathlib.Data.Multiset.MapFold

/-!
# What groups say about rows

The rows of groups are read as a statement about the rows that have been grouped, whatever
the order of these: every key once, and for every aggregated column the total of what the
rows with this key have there. Sums and counts are known up to multiples of `2 ^ 64`.
-/

namespace CausalTrace

/-! ## Totals of operands -/

namespace Aggregation

variable {how : Aggregation} {s : Multiset Int64} {xs : List Int64} {x r : Int64}

/-- Whether a number is the total of some operands. -/
def Totals (how : Aggregation) (s : Multiset Int64) (r : Int64) : Prop :=
  match how with
  | .sum => r.toInt ≡ (s.map Int64.toInt).sum [ZMOD 2 ^ 64]
  | .count => r.toInt ≡ s.card [ZMOD 2 ^ 64]
  | .min => r ∈ s ∧ ∀ x ∈ s, r ≤ x
  | .max => r ∈ s ∧ ∀ x ∈ s, x ≤ r

instance : Decidable (how.Totals s r) :=
  match how with
  | .sum => inferInstanceAs (Decidable (r.toInt ≡ (s.map Int64.toInt).sum [ZMOD 2 ^ 64]))
  | .count => inferInstanceAs (Decidable (r.toInt ≡ s.card [ZMOD 2 ^ 64]))
  | .min => inferInstanceAs (Decidable (r ∈ s ∧ ∀ x ∈ s, r ≤ x))
  | .max => inferInstanceAs (Decidable (r ∈ s ∧ ∀ x ∈ s, x ≤ r))

theorem toInt_add_modEq (a b : Int64) : (a + b).toInt ≡ a.toInt + b.toInt [ZMOD 2 ^ 64] := by
  rw [Int64.toInt_add]
  exact Int.bmod_emod

theorem totals_singleton (hcount : how = .count → x = 1) : how.Totals {x} x := by
  cases how with
  | count =>
      rw [hcount rfl]
      rfl
  | sum => simp [Totals, Int.ModEq]
  | min => simp [Totals]
  | max => simp [Totals]

theorem Totals.combine (h : how.Totals s r) (hcount : how = .count → x = 1) :
    how.Totals (x ::ₘ s) (how.combine r x) := by
  cases how with
  | count =>
      have hone : (1 : Int64).toInt = 1 := rfl
      have hsum := toInt_add_modEq r 1
      rw [hone] at hsum
      rw [hcount rfl, Totals, Multiset.card_cons, Nat.cast_add, Nat.cast_one]
      exact hsum.trans (Int.ModEq.add_right 1 h)
  | sum =>
      rw [Totals, Multiset.map_cons, Multiset.sum_cons, add_comm]
      exact (toInt_add_modEq r x).trans (Int.ModEq.add_right x.toInt h)
  | min =>
      obtain ⟨hr, hle⟩ := h
      by_cases hrx : r ≤ x
      · simp only [Totals, Aggregation.combine, if_pos hrx, Multiset.forall_mem_cons]
        exact ⟨Multiset.mem_cons_of_mem hr, hrx, hle⟩
      · have hxr : x ≤ r := Int64.le_of_lt (Int64.not_le.mp hrx)
        simp only [Totals, Aggregation.combine, if_neg hrx, Multiset.forall_mem_cons]
        exact ⟨Multiset.mem_cons_self x s, Int64.le_refl x,
          fun y hy => Int64.le_trans hxr (hle y hy)⟩
  | max =>
      obtain ⟨hr, hle⟩ := h
      by_cases hrx : r ≤ x
      · simp only [Totals, Aggregation.combine, if_pos hrx, Multiset.forall_mem_cons]
        exact ⟨Multiset.mem_cons_self x s, Int64.le_refl x,
          fun y hy => Int64.le_trans (hle y hy) hrx⟩
      · have hxr : x ≤ r := Int64.le_of_lt (Int64.not_le.mp hrx)
        simp only [Totals, Aggregation.combine, if_neg hrx, Multiset.forall_mem_cons]
        exact ⟨Multiset.mem_cons_of_mem hr, hxr, hle⟩

/-- Operands are added one after another. -/
theorem totals_foldl (h : how.Totals s r) (hcount : how = .count → ∀ x ∈ xs, x = 1) :
    how.Totals (s + xs) (xs.foldl how.combine r) := by
  induction xs generalizing s r with
  | nil => simpa using h
  | cons x xs ih =>
      have hx := h.combine (x := x) fun he => hcount he x List.mem_cons_self
      have hrest := ih hx fun he y hy => hcount he y (List.mem_cons_of_mem _ hy)
      rw [← Multiset.cons_coe, Multiset.add_cons, ← Multiset.cons_add]
      exact hrest

end Aggregation

/-! ## Columns of contributions -/

namespace Groups

variable {keys k : Nat} {kinds : List Aggregation} {how : Aggregation} {key row : Row}
  {rows : List Row}

theorem getElem?_combineAll {as bs : List Int64} {a b : Int64} (hk : kinds[k]? = some how)
    (ha : as[k]? = some a) (hb : bs[k]? = some b) :
    (combineAll kinds as bs)[k]? = some (how.combine a b) := by
  induction kinds generalizing k as bs with
  | nil => cases hk
  | cons how' kinds ih =>
      match as, bs, k with
      | [], _, _ => cases ha
      | _ :: _, [], _ => cases hb
      | _ :: _, _ :: _, 0 =>
          cases hk
          cases ha
          cases hb
          rfl
      | _ :: _, _ :: _, k + 1 => exact ih hk ha hb

/-- A column of a total is the total of the columns. -/
theorem getElem?_foldl_combineAll {as : List Int64} {a : Int64} {xss : List (List Int64)}
    (hk : kinds[k]? = some how) (ha : as[k]? = some a)
    (hall : ∀ xs ∈ xss, xs.length = kinds.length) :
    (xss.foldl (combineAll kinds) as)[k]? =
      some ((xss.filterMap (·[k]?)).foldl how.combine a) := by
  induction xss generalizing as a with
  | nil => exact ha
  | cons xs xss ih =>
      obtain ⟨hxs, hall⟩ := List.forall_mem_cons.mp hall
      have hlt : k < xs.length := hxs ▸ (List.getElem?_eq_some_iff.mp hk).1
      have hx : xs[k]? = some xs[k] := List.getElem?_eq_getElem hlt
      rw [List.foldl_cons, ih (getElem?_combineAll hk ha hx) hall, List.filterMap_cons, hx]
      rfl

theorem getElem?_contributions? {read : Aggregation → Value → Option Int64} {vs : List Value}
    {xs : List Int64} (h : contributions? read kinds vs = some xs) (hk : kinds[k]? = some how) :
    xs[k]? = vs[k]?.bind (read how) := by
  induction kinds generalizing vs xs k with
  | nil => cases hk
  | cons how' kinds ih =>
      cases vs with
      | nil => cases h
      | cons v vs =>
          obtain ⟨x, hx, h⟩ := Option.bind_eq_some_iff.mp h
          obtain ⟨ys, hys, he⟩ := Option.bind_eq_some_iff.mp h
          cases he
          cases k with
          | zero =>
              cases hk
              exact hx.symm
          | succ k =>
              show ys[k]? = vs[k]?.bind (read how)
              exact ih hys hk

/-- What a row has to offer to an aggregation in a column. -/
def operandAt? (how : Aggregation) (i : Nat) (row : Row) : Option Int64 := row[i]?.bind how.operand?

/-- Whether the groups of these keys and aggregations take a row. -/
def accepts (keys : Nat) (kinds : List Aggregation) (row : Row) : Bool :=
  ((empty keys kinds).addRaw? row).isSome

theorem accepts_eq :
    accepts keys kinds row = (part? Aggregation.operand? keys kinds row).isSome := by
  rw [accepts, addRaw?, fold?_eq, Option.isSome_map]
  rfl

theorem observeAll_concat (g : Groups) (rows : List Row) (row : Row) :
    (g.observeAll (rows ++ [row])).2 =
      (g.observeAll rows).2 + if accepts g.keys g.kinds row then 1 else 0 := by
  have hfst := observeAll_fst g rows
  rw [observeAll, List.foldl_append, ← observeAll, List.foldl_cons, List.foldl_nil]
  generalize g.observeAll rows = before at hfst ⊢
  obtain ⟨g', n⟩ := before
  cases hfst
  rw [accepts_eq]
  dsimp only
  rw [addRaw?, fold?_eq]
  cases part? Aggregation.operand? g.keys g.kinds row <;> rfl

/-- Rows are counted if they are accepted. -/
theorem observeAll_snd (g : Groups) (rows : List Row) :
    (g.observeAll rows).2 = (rows.filter (accepts g.keys g.kinds)).length := by
  induction rows using List.reverseRecOn with
  | nil => rfl
  | append_singleton rows row ih =>
      rw [observeAll_concat, ih, List.filter_append, List.length_append]
      by_cases h : accepts g.keys g.kinds row <;> simp [h]

theorem part?_operand {p : Row × List Int64}
    (h : part? Aggregation.operand? keys kinds row = some p) :
    p.1 = row.take keys ∧ ∀ {k how}, kinds[k]? = some how →
      p.2[k]? = operandAt? how (keys + k) row := by
  rw [part?] at h
  split at h
  · obtain ⟨xs, hxs, rfl⟩ := Option.map_eq_some_iff.mp h
    refine ⟨rfl, fun hk => ?_⟩
    rw [getElem?_contributions? hxs hk, List.getElem?_drop]
    rfl
  · cases h

/-- The column of all contributions to a key, read off the rows. -/
theorem column_contributionsTo (hk : kinds[k]? = some how) :
    (contributionsTo key (rows.filterMap (part? Aggregation.operand? keys kinds))).filterMap
      (·[k]?) = ((rows.filter (accepts keys kinds)).filter (·.take keys = key)).filterMap
        (operandAt? how (keys + k)) := by
  induction rows with
  | nil => rfl
  | cons row rows ih =>
      rw [List.filter_cons, accepts_eq, List.filterMap_cons]
      cases hp : part? Aggregation.operand? keys kinds row with
      | none => exact ih
      | some p =>
          obtain ⟨hkey, hcolumn⟩ := part?_operand hp
          have hcons :
              contributionsTo key (p :: rows.filterMap (part? Aggregation.operand? keys kinds)) =
              contributionsTo key [p] ++
                contributionsTo key (rows.filterMap (part? Aggregation.operand? keys kinds)) :=
            contributionsTo_append [p] _
          rw [Option.isSome_some, if_pos rfl, List.filter_cons]
          simp only [hcons, List.filterMap_append, ih, ← hkey, decide_eq_true_eq]
          by_cases he : p.1 = key
          · have hself : contributionsTo key [p] = [p.2] := by simp [contributionsTo, he]
            rw [hself, if_pos he, List.filterMap_cons, hcolumn hk, List.filterMap_cons]
            cases operandAt? how (keys + k) row <;> rfl
          · have hnone : contributionsTo key [p] = [] := by simp [contributionsTo, he]
            rw [hnone, if_neg he]
            rfl

/-! ## Tallies -/

/-- Some rows, each a key and one number per aggregation, state what there is to say about
other rows: their keys, each once, with the totals of their columns. -/
structure Tallies (keys : Nat) (kinds : List Aggregation) (rows : Multiset Row)
    (groups : List Row) : Prop where
  distinct : (groups.map (·.take keys)).Nodup
  mentioned : ∀ key, key ∈ groups.map (·.take keys) ↔ ∃ row ∈ rows, row.take keys = key
  width : ∀ g ∈ groups, g.length = keys + kinds.length
  totals : ∀ g ∈ groups, ∀ k how, kinds[k]? = some how → ∃ r, g[keys + k]? = some (.int r) ∧
    how.Totals ((rows.filter (·.take keys = g.take keys)).filterMap (operandAt? how (keys + k))) r

theorem operandAt?_count {i : Nat} {x : Int64} (h : operandAt? .count i row = some x) : x = 1 := by
  obtain ⟨v, _, hv⟩ := Option.bind_eq_some_iff.mp h
  cases hv
  rfl

/-- The total of a column is the fold of what the rows with the key have there, and some row has the
key. -/
theorem column_total (hkey : key ∈ firstMentions ((rows.filterMap
      (part? Aggregation.operand? keys kinds)).map (·.1))) (hk : kinds[k]? = some how) :
    ∃ x xs, (total kinds (contributionsTo key (rows.filterMap
        (part? Aggregation.operand? keys kinds))))[k]? = some (xs.foldl how.combine x) ∧
      ((rows.filter (accepts keys kinds)).filter (·.take keys = key)).filterMap
        (operandAt? how (keys + k)) = x :: xs := by
  rw [← column_contributionsTo hk]
  generalize hps : rows.filterMap (part? Aggregation.operand? keys kinds) = ps at hkey
  have hne : contributionsTo key ps ≠ [] :=
    contributionsTo_ne_nil_iff.mpr (mem_firstMentions.mp hkey)
  have hall : ∀ xs ∈ contributionsTo key ps, xs.length = kinds.length := by
    refine forall_mem_contributionsTo fun p hp => ?_
    rw [← hps] at hp
    exact (forall_filterMap_part? p hp).2
  cases hc : contributionsTo key ps with
  | nil => exact absurd hc hne
  | cons xs xss =>
      rw [hc] at hall
      obtain ⟨hxs, hall⟩ := List.forall_mem_cons.mp hall
      have hlt : k < xs.length := hxs ▸ (List.getElem?_eq_some_iff.mp hk).1
      have hx : xs[k]? = some xs[k] := List.getElem?_eq_getElem hlt
      refine ⟨xs[k], xss.filterMap (·[k]?), getElem?_foldl_combineAll hk hx hall, ?_⟩
      rw [List.filterMap_cons, hx]

/-- Grouping rows tallies those of them that are accepted. -/
theorem tallies_ofRows (keys : Nat) (kinds : List Aggregation) (rows : List Row) :
    Tallies keys kinds (rows.filter (accepts keys kinds)) (ofRows keys kinds rows).rows := by
  generalize hps : rows.filterMap (part? Aggregation.operand? keys kinds) = ps
  have hwidth : ∀ p ∈ ps, p.1.length = keys ∧ p.2.length = kinds.length :=
    hps ▸ forall_filterMap_part?
  have hlength : ∀ key ∈ firstMentions (ps.map (·.1)), key.length = keys := by
    intro key hkey
    obtain ⟨p, hp, rfl⟩ := List.mem_map.mp (mem_firstMentions.mp hkey)
    exact (hwidth p hp).1
  have hgroups : (ofRows keys kinds rows).rows = (firstMentions (ps.map (·.1))).map fun key =>
      key ++ (total kinds (contributionsTo key ps)).map .int := by
    rw [ofRows_eq, hps, Groups.rows, merge_nil, List.map_map]
    rfl
  have hkeys : (ofRows keys kinds rows).rows.map (·.take keys) = firstMentions (ps.map (·.1)) := by
    rw [hgroups, List.map_map]
    refine (List.map_congr_left fun key hkey => ?_).trans (List.map_id _)
    exact List.take_left' (hlength key hkey)
  constructor
  case distinct =>
    rw [hkeys]
    exact nodup_firstMentions
  case mentioned =>
    intro key
    simp only [hkeys, mem_firstMentions, ← hps, List.mem_map, List.mem_filterMap, Multiset.mem_coe,
      List.mem_filter, accepts_eq, Option.isSome_iff_exists]
    constructor
    · rintro ⟨p, ⟨row, hrow, hp⟩, rfl⟩
      exact ⟨row, ⟨hrow, p, hp⟩, (part?_operand hp).1.symm⟩
    · rintro ⟨row, ⟨hrow, p, hp⟩, rfl⟩
      exact ⟨p, ⟨row, hrow, hp⟩, (part?_operand hp).1⟩
  case width =>
    intro g hg
    rw [Groups.rows, List.mem_map] at hg
    obtain ⟨p, hp, rfl⟩ := hg
    obtain ⟨hk, hx⟩ := length_of_mem_ofRows hp
    rw [List.length_append, List.length_map, hk, hx]
  case totals =>
    intro g hg k how hk
    rw [hgroups, List.mem_map] at hg
    obtain ⟨key, hkey, rfl⟩ := hg
    obtain ⟨x, xs, htotal, hoperands⟩ := column_total (hps ▸ hkey) hk
    rw [hps] at htotal
    have hlen := hlength key hkey
    refine ⟨xs.foldl how.combine x, ?_, ?_⟩
    · rw [List.getElem?_append_right (by omega), List.getElem?_map, hlen, Nat.add_sub_cancel_left,
        htotal]
      rfl
    · have hones : how = .count → ∀ y ∈ x :: xs, y = 1 := by
        rintro rfl y hy
        rw [← hoperands] at hy
        obtain ⟨row, _, hy⟩ := List.mem_filterMap.mp hy
        exact operandAt?_count hy
      rw [List.take_left' hlen, Multiset.filter_coe, Multiset.filterMap_coe, hoperands,
        ← Multiset.cons_coe, ← Multiset.singleton_add]
      refine Aggregation.totals_foldl (Aggregation.totals_singleton fun he => ?_) fun he y hy => ?_
      · exact hones he x List.mem_cons_self
      · exact hones he y (List.mem_cons_of_mem _ hy)

/-- Rows make no group if they are all dropped, and only then. -/
theorem rows_ofRows_eq_nil_iff :
    (ofRows keys kinds rows).rows = [] ↔ rows.filter (accepts keys kinds) = [] := by
  have htallies := tallies_ofRows keys kinds rows
  simp only [List.eq_nil_iff_forall_not_mem]
  constructor
  · intro hnone row hrow
    have hmem := (htallies.mentioned (row.take keys)).mpr ⟨row, hrow, rfl⟩
    obtain ⟨g, hg, _⟩ := List.mem_map.mp hmem
    exact hnone g hg
  · intro hnone g hg
    obtain ⟨row, hrow, _⟩ := (htallies.mentioned (g.take keys)).mp (List.mem_map_of_mem hg)
    exact hnone row hrow

end Groups

end CausalTrace
