import CausalTrace.Proofs.Installing
import CausalTrace.Proofs.Tallies
import Mathlib.Algebra.BigOperators.Ring.List
import Mathlib.Algebra.GroupWithZero.Nat

/-!
# Runs are nested loops

What one run of a plan does, read off the plan by its names: a loop over the rows of each
bag, the first bag innermost, that computes the lets in order, tests the conditions and
hands on what is left. The rounds of the loop are numbered, and the number of a round
written in the mixed radix of the sizes of the bags says which rows it is about.
-/

namespace CausalTrace

/-! ## Mixed radix -/

namespace MixedRadix

/-- The digits of a number, lowest place first; each place has a size of its own. -/
def digits : List Nat → Nat → List Nat
  | [], _ => []
  | n :: sizes, k => k % n :: digits sizes (k / n)

/-- The number with given digits. -/
def value : List Nat → List Nat → Nat
  | n :: sizes, d :: ds => d + n * value sizes ds
  | _, _ => 0

variable {sizes ds : List Nat} {k : Nat}

theorem pos_of_mem {n : Nat} (hk : k < (n :: sizes).prod) : 0 < n := by
  rcases Nat.eq_zero_or_pos n with rfl | hn
  · simp at hk
  · exact hn

theorem div_lt {n : Nat} (hk : k < (n :: sizes).prod) : k / n < sizes.prod :=
  Nat.div_lt_of_lt_mul (by rwa [List.prod_cons] at hk)

theorem digits_lt (hk : k < sizes.prod) : List.Forall₂ (· < ·) (digits sizes k) sizes := by
  induction sizes generalizing k with
  | nil => exact .nil
  | cons n sizes ih => exact .cons (Nat.mod_lt k (pos_of_mem hk)) (ih (div_lt hk))

theorem value_digits (hk : k < sizes.prod) : value sizes (digits sizes k) = k := by
  induction sizes generalizing k with
  | nil =>
      rw [List.prod_nil] at hk
      simp only [value]
      omega
  | cons n sizes ih =>
      rw [digits, value, ih (div_lt hk)]
      exact Nat.mod_add_div k n

theorem value_lt (h : List.Forall₂ (· < ·) ds sizes) : value sizes ds < sizes.prod := by
  induction h with
  | nil => simp [value]
  | @cons d n ds sizes hd _ ih =>
      calc d + n * value sizes ds < n + n * value sizes ds := Nat.add_lt_add_right hd _
        _ = n * (value sizes ds + 1) := by rw [Nat.mul_succ, Nat.add_comm]
        _ ≤ (n :: sizes).prod := by
            rw [List.prod_cons]
            exact Nat.mul_le_mul_left n ih

theorem digits_value (h : List.Forall₂ (· < ·) ds sizes) : digits sizes (value sizes ds) = ds := by
  induction h with
  | nil => rfl
  | @cons d n ds sizes hd _ ih =>
      have hn : 0 < n := Nat.zero_lt_of_lt hd
      rw [value, digits, Nat.add_mul_mod_self_left, Nat.mod_eq_of_lt hd,
        Nat.add_mul_div_left _ _ hn, Nat.div_eq_of_lt hd, Nat.zero_add, ih]

/-- Every choice of one digit for each place is written by exactly one number below the
product of the sizes, and nothing else is. -/
theorem existsUnique_digits_iff :
    (∃! k, k < sizes.prod ∧ digits sizes k = ds) ↔ List.Forall₂ (· < ·) ds sizes := by
  constructor
  · rintro ⟨k, ⟨hk, rfl⟩, _⟩
    exact digits_lt hk
  · intro h
    refine ⟨value sizes ds, ⟨value_lt h, digits_value h⟩, ?_⟩
    rintro k ⟨hk, rfl⟩
    exact (value_digits hk).symm

/-- Counting in two places: the lower one is run through for each value of the higher one. -/
theorem range_mul {α : Type} (n m : Nat) (f : Nat → Nat → α) :
    (List.range (n * m)).map (fun k => f (k % n) (k / n)) =
      (List.range m).flatMap fun j => (List.range n).map (f · j) := by
  induction m with
  | zero => simp
  | succ m ih =>
      have hlast : (List.range n).map (fun i => f ((n * m + i) % n) ((n * m + i) / n)) =
          (List.range n).map (f · m) := by
        refine List.map_congr_left fun i hi => ?_
        have hin : i < n := List.mem_range.mp hi
        rw [Nat.mul_add_mod, Nat.mod_eq_of_lt hin, Nat.mul_add_div (Nat.zero_lt_of_lt hin),
          Nat.div_eq_of_lt hin, Nat.add_zero]
      rw [Nat.mul_succ, List.range_add, List.map_append, ih, List.map_map, List.range_succ,
        List.flatMap_append, List.flatMap_singleton]
      exact congrArg _ hlast

end MixedRadix

/-! ## Rounds of the loop -/

/-- One row out of each bag, at the places that the digits give. -/
def picks (bags : List (List Row)) (ds : List Nat) : List Row :=
  bags.zipWith (fun rows i => rows.getD i []) ds

theorem map_getD_range (rows : List Row) :
    (List.range rows.length).map (rows.getD · []) = rows := by
  refine List.ext_getElem (by simp) ?_
  intro i _ hi
  simp [hi]

/-- The combinations of rows, in the order of their numbers. -/
theorem combinations_eq_map_range (bags : List (List Row)) :
    Advice.combinations bags = (List.range (bags.map List.length).prod).map fun k =>
      (picks bags (MixedRadix.digits (bags.map List.length) k)).flatten := by
  induction bags with
  | nil => rfl
  | cons rows bags ih =>
      have hrows (right : Row) : rows.map (· ++ right) =
          (List.range rows.length).map fun i => rows.getD i [] ++ right := by
        conv_lhs => rw [← map_getD_range rows, List.map_map]
        rfl
      rw [Advice.combinations, ih, List.flatMap_map]
      simp only [hrows]
      -- The first bag is the lowest place: it is run through for each choice of the others.
      rw [← MixedRadix.range_mul rows.length _ fun i j => rows.getD i [] ++
        (picks bags (MixedRadix.digits (bags.map List.length) j)).flatten]
      rfl

/-! ## Values of names -/

/-- Names with their values, in the order in which a plan binds them. -/
abbrev Valuation := List (String × Value)

namespace Valuation

/-- The value of a name; an unbound one is null. -/
def value (env : Valuation) (name : String) : Value := (env.lookup name).getD .null

def names (env : Valuation) : List String := env.map (·.1)

def row (env : Valuation) : Row := env.map (·.2)

/-- The valuation with the name of a let bound to its value, if it has one. -/
def compute (env : Valuation) (l : LetSpec String) : Option Valuation :=
  (Template.value? l.expr (l.args.map env.value)).map fun x => env ++ [(l.name, x)]

def satisfies (env : Valuation) (w : WhereSpec String) : Bool :=
  Template.value? w.expr (w.args.map env.value) == some (.bool true)

variable {env : Valuation} {name : String}

@[simp] theorem names_cons (b : String × Value) : names (b :: env) = b.1 :: env.names := rfl

@[simp] theorem row_cons (b : String × Value) : row (b :: env) = b.2 :: env.row := rfl

theorem value_cons (b : String × Value) :
    value (b :: env) name = if b.1 = name then b.2 else env.value name := by
  obtain ⟨n, x⟩ := b
  rw [value, List.lookup_cons]
  by_cases h : n = name
  · simp [h]
  · have hne : (name == n) = false := beq_eq_false_iff_ne.mpr (Ne.symm h)
    simp only [hne, h, if_false]
    rfl

/-- A name has the value at its place. -/
theorem getD_idxOf? :
    ((env.names.idxOf? name).map (env.row.getD · .null)).getD .null = env.value name := by
  induction env with
  | nil => rfl
  | cons b env ih =>
      rw [value_cons, names_cons, List.idxOf?_cons]
      by_cases h : b.1 = name
      · simp [h]
      · rw [if_neg h, ← ih, beq_eq_false_iff_ne.mpr h]
        cases Valuation.names env |>.idxOf? name <;> rfl

end Valuation

/-! ## Plans by their names -/

/-- The rows a plan takes out of a bag: the effective ones of the right width. -/
def UnpackSpec.rows (enabled : Bool) (b : Baggage) (u : UnpackSpec String) : List Row :=
  ((Bag.create u.bagId u.bag enabled).unpack b).filter (·.length == u.bag.arity)

namespace AdviceSpec

variable (p : AdviceSpec String)

/-- The bindings a round starts with: the observed values, where one that is missing is
null, and a row of each bag under the names of its columns. -/
def opening (observed : Row) (rows : List Row) : Valuation :=
  (p.observe.zipIdx.map fun (name, i) => (name, observed.getD i .null)) ++
    (p.unpack.zipWith (fun u row => u.bag.names.zip row) rows).flatten

/-- What a round hands on, if every let has a value and every condition is true. -/
def result? (env : Valuation) : Option Row :=
  ((p.lets.foldlM Valuation.compute env).filter fun env => p.wheres.all env.satisfies).map
    fun env => p.output.bag.names.map env.value

def bags (enabled : Bool) (b : Baggage) : List (List Row) := p.unpack.map (·.rows enabled b)

/-- The numbers of rows of the bags. -/
def sizes (enabled : Bool) (b : Baggage) : List Nat := (p.bags enabled b).map List.length

/-- The bindings of one round. -/
def round (enabled : Bool) (b : Baggage) (observed : Row) (k : Nat) : Valuation :=
  p.opening observed (picks (p.bags enabled b) (MixedRadix.digits (p.sizes enabled b) k))

/-- What all rounds hand on. -/
def survivors (enabled : Bool) (b : Baggage) (observed : Row) : List Row :=
  (List.range (p.sizes enabled b).prod).filterMap fun k =>
    p.result? (p.round enabled b observed k)

end AdviceSpec

/-- What becomes of rows at a target, and how many it keeps. Without rows nothing is
done. -/
def Target.accept (t : Target) (version : UInt64) (sinks : Sinks) (b : Baggage) :
    List Row → (Sinks × Baggage) × Nat
  | [] => ((sinks, b), 0)
  | r :: rs =>
      match t with
      | .pack bag =>
          let (b, kept) := bag.pack version b (r :: rs)
          ((sinks, b), kept)
      | .emit sink =>
          let (sinks, kept) := sinks.emit sink (r :: rs)
          ((sinks, b), kept)

/-! ## Resolved templates and names -/

/-- What steps that succeed give, seen through functions that agree on each step. -/
theorem map_eq_of_mapM_eq_ok {ε α β γ : Type} {f : α → Except ε β} {g : β → γ} {h : α → γ}
    {xs : List α} {ys : List β} (hm : xs.mapM f = .ok ys)
    (hg : ∀ x y, f x = .ok y → g y = h x) : ys.map g = xs.map h := by
  induction xs generalizing ys with
  | nil =>
      cases hm
      rfl
  | cons x xs ih =>
      rw [List.mapM_cons] at hm
      obtain ⟨y, hy, hm⟩ := bind_eq_ok_iff.mp hm
      obtain ⟨ys', hys, he⟩ := bind_eq_ok_iff.mp hm
      cases he
      rw [List.map_cons, List.map_cons, hg x y hy, ih hys]

namespace Advice

variable {bound : List String} {env : Valuation} {reader : String}

theorem idxOf?_of_place {name : String} {i : Nat} (h : place bound reader name = .ok i) :
    bound.idxOf? name = some i := by
  rw [place] at h
  split at h
  · cases h
    assumption
  · cases h

theorem getD_of_place {name : String} {i : Nat} (h : place env.names reader name = .ok i) :
    env.row.getD i .null = env.value name := by
  rw [← Valuation.getD_idxOf?, idxOf?_of_place h]
  rfl

theorem value?_of_places {expr : String} {args : List String} {places : List Nat}
    (h : args.mapM (place env.names reader) = .ok places) :
    BoundTemplate.value? ⟨Template.parse expr, places⟩ env.row =
      Template.value? expr (args.map env.value) := by
  have hargs : places.map (env.row.getD · .null) = args.map env.value :=
    map_eq_of_mapM_eq_ok h fun _ _ hp => getD_of_place hp
  rw [BoundTemplate.value?, Template.value?]
  cases Template.parse expr with
  | error e => rfl
  | ok t => exact congrArg (fun xs => (t.eval xs).toOption) hargs

/-- Resolved lets do to a row what the lets do to its bindings. -/
theorem computeLets_of_bindLets {ls : List (LetSpec String)} {r : List String}
    {ts : List BoundTemplate} (h : bindLets env.names ls = .ok (r, ts)) :
    computeLets ts env.row = (ls.foldlM Valuation.compute env).map Valuation.row ∧
      ∀ last, ls.foldlM Valuation.compute env = some last → last.names = r := by
  induction ls generalizing env ts with
  | nil =>
      cases h
      exact ⟨rfl, fun _ hl => congrArg Valuation.names (Option.some.inj hl).symm⟩
  | cons l ls ih =>
      rw [bindLets] at h
      obtain ⟨places, hp, h⟩ := bind_eq_ok_iff.mp h
      obtain ⟨next, hn, h⟩ := bind_eq_ok_iff.mp h
      obtain ⟨⟨r', ts'⟩, hl, he⟩ := bind_eq_ok_iff.mp h
      cases he
      obtain ⟨_, rfl⟩ := bind_eq_ok_iff_not_mem.mp hn
      rw [computeLets, List.foldlM_cons, List.foldlM_cons, value?_of_places hp, Valuation.compute]
      cases Template.value? l.expr (l.args.map env.value) with
      | none =>
          refine ⟨rfl, fun _ hl => ?_⟩
          cases hl
      | some x =>
          have hnames : env.names ++ [l.name] = Valuation.names (env ++ [(l.name, x)]) := by
            simp [Valuation.names]
          have hrow : env.row ++ [x] = Valuation.row (env ++ [(l.name, x)]) := by
            simp [Valuation.row]
          rw [hnames] at hl
          rw [Option.map_some, Option.map_some, hrow]
          exact ih hl

theorem all_holds_of_bindWhere {ws : List (WhereSpec String)} {ts : List BoundTemplate}
    (h : ws.mapM (bindWhere env.names) = .ok ts) :
    ts.all (·.holds env.row) = ws.all env.satisfies := by
  have hmap : ts.map (·.holds env.row) = ws.map env.satisfies := by
    refine map_eq_of_mapM_eq_ok h fun w t hw => ?_
    obtain ⟨places, hp, he⟩ := bind_eq_ok_iff.mp hw
    cases he
    rw [BoundTemplate.holds, value?_of_places hp, Valuation.satisfies]
  rw [← Function.id_comp (fun t : BoundTemplate => t.holds env.row), ← List.all_map, hmap,
    List.all_map, Function.id_comp]

theorem project_values {bag : BagSpec String} {ps : List (Option Nat)}
    (h : project env.names reader bag = .ok ps) :
    (ps.map fun p => (p.map (env.row.getD · .null)).getD .null) = bag.names.map env.value := by
  have hplaced : ∀ (name : String) (p : Option Nat),
      (do return some (← place env.names reader name)) = .ok p →
      (p.map (env.row.getD · .null)).getD .null = env.value name := by
    intro name p hp
    obtain ⟨i, hi, he⟩ := bind_eq_ok_iff.mp hp
    cases he
    exact getD_of_place hi
  cases bag with
  | tuple vars => exact map_eq_of_mapM_eq_ok h hplaced
  | filter keep vars => exact map_eq_of_mapM_eq_ok h hplaced
  | groupBy keys aggregates =>
      rw [project] at h
      obtain ⟨ks, hk, h⟩ := bind_eq_ok_iff.mp h
      obtain ⟨gs, hg, h⟩ := bind_eq_ok_iff.mp h
      cases h
      rw [List.map_append, map_eq_of_mapM_eq_ok hk hplaced, BagSpec.names, List.map_append,
        List.map_map]
      refine congrArg _ (map_eq_of_mapM_eq_ok hg fun g p hp => ?_)
      cases hc : g.how with
      | count =>
          rw [hc] at hp
          cases hp
          exact Valuation.getD_idxOf?
      | sum | min | max =>
          rw [hc] at hp
          exact hplaced g.name p hp

/-! ## One round -/

section Resolved

variable {p : AdviceSpec String} {sinks sinks' : Sinks} {enabled : Bool} {a : Advice}

/-- How the parts of a resolved plan were resolved. -/
theorem parts_of_create (h : create p sinks enabled = .ok (a, sinks')) :
    a.spec = p ∧ ∃ bound reader, bindLets p.incoming p.lets = .ok (bound, a.lets) ∧
      p.wheres.mapM (bindWhere bound) = .ok a.wheres ∧
      project bound reader p.output.bag = .ok a.projection := by
  rw [create] at h
  obtain ⟨observed, ho, h⟩ := bind_eq_ok_iff.mp h
  obtain ⟨ho', rfl⟩ := (foldlM_bind_eq_ok_iff List.nodup_nil).mp ho
  obtain ⟨incoming, hi, h⟩ := bind_eq_ok_iff.mp h
  obtain ⟨_, rfl⟩ := (foldlM_bind_eq_ok_iff ho').mp hi
  obtain ⟨⟨bound, lets⟩, hl, h⟩ := bind_eq_ok_iff.mp h
  obtain ⟨wheres, hw, h⟩ := bind_eq_ok_iff.mp h
  cases hout : p.output with
  | pack id bag =>
      rw [hout] at h
      obtain ⟨_, hp, h⟩ := bind_eq_ok_iff.mp h
      cases h
      exact ⟨rfl, bound, "pack", hl, hw, hp⟩
  | emit id bag =>
      rw [hout] at h
      obtain ⟨_, hp, h⟩ := bind_eq_ok_iff.mp h
      cases h
      exact ⟨rfl, bound, "emit", hl, hw, hp⟩

/-- A resolved plan does with a row what its names do with the bindings. -/
theorem deliver?_of_create (h : create p sinks enabled = .ok (a, sinks'))
    (hn : env.names = p.incoming) : a.deliver? env.row = p.result? env := by
  obtain ⟨_, bound, reader, hl, hw, hp⟩ := parts_of_create h
  rw [← hn] at hl
  obtain ⟨hrow, hnames⟩ := computeLets_of_bindLets hl
  rw [deliver?, AdviceSpec.result?, hrow]
  cases hlast : p.lets.foldlM Valuation.compute env with
  | none => rfl
  | some last =>
      obtain rfl := hnames last hlast
      simp only [Option.map_some, Option.bind_eq_bind, Option.bind_some, Option.filter_some]
      rw [all_holds_of_bindWhere hw, project_values hp]
      cases p.wheres.all last.satisfies <;> rfl

end Resolved

end Advice

namespace AdviceSpec

variable {p : AdviceSpec String} {enabled : Bool} {b : Baggage} {observed : Row}

/-- Rows of the widths of the bags are bound to all of their columns. -/
theorem columns_of_fit {unpack : List (UnpackSpec String)} {rows : List Row}
    (h : List.Forall₂ (fun u row => row.length = u.bag.arity) unpack rows) :
    Valuation.names (unpack.zipWith (fun u row => u.bag.names.zip row) rows).flatten =
        unpack.flatMap (·.bag.names) ∧
      Valuation.row (unpack.zipWith (fun u row => u.bag.names.zip row) rows).flatten =
        rows.flatten := by
  induction h with
  | nil => exact ⟨rfl, rfl⟩
  | @cons u row unpack rows hu _ ih =>
      obtain ⟨hnames, hrow⟩ := ih
      have hlen : u.bag.names.length = row.length := hu.symm
      rw [Valuation.names] at hnames
      rw [Valuation.row] at hrow
      rw [List.zipWith_cons_cons, List.flatten_cons, Valuation.names, Valuation.row,
        List.map_append, List.map_append, hnames, hrow, List.flatMap_cons, List.flatten_cons]
      exact ⟨congrArg (· ++ _) (List.map_fst_zip (Nat.le_of_eq hlen)),
        congrArg (· ++ _) (List.map_snd_zip (Nat.le_of_eq hlen.symm))⟩

theorem fit_of_picks {unpack : List (UnpackSpec String)} {ds : List Nat}
    (h : List.Forall₂ (· < ·) ds ((unpack.map (·.rows enabled b)).map List.length)) :
    List.Forall₂ (fun u row => row.length = u.bag.arity) unpack
      (picks (unpack.map (·.rows enabled b)) ds) := by
  induction unpack generalizing ds with
  | nil => exact .nil
  | cons u unpack ih =>
      obtain ⟨d, ds, hd, hds, rfl⟩ := List.forall₂_cons_right_iff.mp h
      refine .cons ?_ (ih hds)
      -- Rows of other widths have been dropped where the bag is unpacked.
      have hmem : (u.rows enabled b).getD d [] ∈ u.rows enabled b := by
        rw [List.getD_eq_getElem?_getD, List.getElem?_eq_getElem hd]
        exact List.getElem_mem hd
      exact beq_iff_eq.mp (List.mem_filter.mp hmem).2

theorem observed_eq_padded (names : List String) :
    (names.zipIdx.map fun (_, i) => observed.getD i .null) =
      Advice.padded names.length observed := by
  refine List.ext_getElem ?_ ?_
  · simp [Advice.padded]
  · intro i hi hi'
    have hlt : i < names.length := by simpa using hi
    simp only [Advice.padded, List.getElem_take, List.getElem_map, List.getElem_zipIdx,
      List.getElem_append, List.getElem_replicate, Nat.zero_add]
    split
    · simp [*]
    · simp [*]

/-- A round starts with the row that a run forms for it. -/
theorem opening_of_fit {rows : List Row} (observed : Row)
    (h : List.Forall₂ (fun u row => row.length = u.bag.arity) p.unpack rows) :
    (p.opening observed rows).names = p.incoming ∧
      (p.opening observed rows).row =
        Advice.padded p.observe.length observed ++ rows.flatten := by
  obtain ⟨hnames, hrow⟩ := columns_of_fit h
  rw [Valuation.names] at hnames
  rw [Valuation.row] at hrow
  rw [opening, Valuation.names, Valuation.row, List.map_append, List.map_append, hnames, hrow,
    List.map_map, List.map_map, ← observed_eq_padded, incoming]
  refine ⟨congrArg (· ++ _) ?_, rfl⟩
  exact List.zipIdx_map_fst 0 p.observe

end AdviceSpec

namespace Advice

variable {p : AdviceSpec String} {sinks₀ sinks₁ : Sinks} {enabled : Bool} {a : Advice}

/-- The rows that a run hands on are those of the rounds of the loop. -/
theorem survivors_eq (h : create p sinks₀ enabled = .ok (a, sinks₁))
    (b : Baggage) (observed : Row) :
    (a.candidates b observed).length = (p.sizes enabled b).prod ∧
      (a.candidates b observed).filterMap a.deliver? = p.survivors enabled b observed := by
  have hbags : a.unpacks.map (fun u => (u.bag.unpack b).filter (·.length == u.columns)) =
      p.bags enabled b := by
    rw [(resolves_of_create h).unpacks, List.map_map]
    rfl
  have hround (k : Nat) (hk : k < (p.sizes enabled b).prod) :
      a.deliver? (padded p.observe.length observed ++
        (picks (p.bags enabled b) (MixedRadix.digits (p.sizes enabled b) k)).flatten) =
      p.result? (p.round enabled b observed k) := by
    obtain ⟨hnames, hrow⟩ := AdviceSpec.opening_of_fit (p := p) observed
      (AdviceSpec.fit_of_picks (MixedRadix.digits_lt hk))
    have hdeliver := deliver?_of_create h hnames
    rw [hrow] at hdeliver
    exact hdeliver
  have hspec : a.spec = p := (parts_of_create h).1
  rw [candidates, hbags, hspec, combinations_eq_map_range, List.map_map]
  constructor
  · rw [List.length_map, List.length_range, AdviceSpec.sizes]
  · rw [List.filterMap_map, AdviceSpec.survivors]
    refine List.filterMap_congr fun k hk => ?_
    exact hround k (List.mem_range.mp hk)

end Advice

/-! ## What a target keeps -/

theorem Groups.observeAll_snd_le (g : Groups) (rows : List Row) :
    (g.observeAll rows).2 ≤ rows.length := by
  rw [observeAll_snd]
  exact List.length_filter_le _ _

theorem Gathered.add_snd_le (g : Gathered) (rows : List Row) : (g.add rows).2 ≤ rows.length := by
  cases g with
  | tuples arity before => exact List.length_filter_le _ _
  | grouped g => exact g.observeAll_snd_le rows

/-- A bag keeps no more rows than it is given. -/
theorem Bag.pack_snd_le (bag : Bag) (version : UInt64) (b : Baggage) (rows : List Row) :
    (bag.pack version b rows).2 ≤ rows.length := by
  rw [Bag.pack]
  split
  · split
    · exact Nat.zero_le _
    · rename_i hvalid
      rw [← hvalid]
      exact List.length_filter_le _ _
  · split
    · rename_i hfound
      exact List.length_pos_of_mem (List.mem_of_find?_eq_some hfound)
    · exact Nat.zero_le _
  · split
    · rename_i hlast
      have hmem := List.mem_filter.mp (List.mem_of_getLast? hlast)
      exact List.length_pos_of_mem hmem.1
    · exact Nat.zero_le _
  · rename_i keys kinds _
    simp only
    split
    · exact Nat.zero_le _
    · exact (Groups.empty keys kinds).observeAll_snd_le rows
  · exact Nat.zero_le _

namespace Target

variable {version : UInt64} {sinks sinks₀ : Sinks} {b : Baggage} {rows : List Row}

theorem accept_snd_eq_of_emit {sink : SinkRef} :
    (accept (.emit sink) version sinks b rows).2 =
      if rows = [] then 0 else (sink.fresh.add rows).2 := by
  cases rows with
  | nil => rfl
  | cons r rs =>
      rw [if_neg (List.cons_ne_nil r rs), accept]
      simp only [Sinks.emit]
      split
      · split <;> rfl
      · rfl

theorem accept_snd_le (t : Target) : (t.accept version sinks b rows).2 ≤ rows.length := by
  cases rows with
  | nil => exact Nat.le_refl 0
  | cons r rs =>
      cases t with
      | pack bag => exact bag.pack_snd_le version b (r :: rs)
      | emit sink =>
          rw [accept_snd_eq_of_emit, if_neg (List.cons_ne_nil r rs)]
          exact sink.fresh.add_snd_le (r :: rs)

/-- Rows of the width of a sink of tuples are all kept. -/
theorem accept_snd_emit_tuple {id : QueryId} {vars : List String}
    (h : ∀ r ∈ rows, r.length = vars.length) :
    (accept (.emit (sinks₀.create id (.tuple vars)).1) version sinks b rows).2 = rows.length := by
  have hall : rows.filter (·.length == vars.length) = rows :=
    List.filter_eq_self.mpr fun r hr => beq_iff_eq.mpr (h r hr)
  rw [accept_snd_eq_of_emit, Sinks.create, Gathered.start, Gathered.add, hall]
  split
  · simp [*]
  · rfl

/-- Rows of the width of a bag of tuples are all kept. -/
theorem accept_snd_pack_tuple {id : BagId} {vars : List String}
    (h : ∀ r ∈ rows, r.length = vars.length) :
    (accept (.pack (Bag.create id (.tuple vars) true)) version sinks b rows).2 = rows.length := by
  cases rows with
  | nil => rfl
  | cons r rs =>
      have hall : (r :: rs).filter (·.length == vars.length) = r :: rs :=
        List.filter_eq_self.mpr fun r hr => beq_iff_eq.mpr (h r hr)
      simp only [accept, Bag.create, if_true, Bag.pack, hall]

end Target

namespace AdviceSpec

variable {p : AdviceSpec String} {enabled : Bool} {b : Baggage} {observed : Row}

theorem length_of_mem_survivors {r : Row} (h : r ∈ p.survivors enabled b observed) :
    r.length = p.output.bag.arity := by
  obtain ⟨k, _, hk⟩ := List.mem_filterMap.mp h
  obtain ⟨env, _, rfl⟩ := Option.map_eq_some_iff.mp hk
  exact List.length_map _

theorem length_survivors_le :
    (p.survivors enabled b observed).length ≤ (p.sizes enabled b).prod := by
  rw [survivors]
  exact Nat.le_trans (List.length_filterMap_le _ _) (Nat.le_of_eq List.length_range)

end AdviceSpec

/-! ## Runs -/

namespace Advice

variable {p : AdviceSpec String} {sinks₀ sinks₁ : Sinks} {enabled : Bool} {a : Advice}

/-- A run by the rows it starts with: those that get through go to its target. -/
theorem run_eq_accept (a : Advice) (version : UInt64) (sinks : Sinks)
    (b : Baggage) (observed : Row) :
    let rows := a.candidates b observed
    let handed := rows.filterMap a.deliver?
    let accepted := a.target.accept version sinks b handed
    a.run version sinks b observed =
      (⟨rows.length, rows.length - handed.length, accepted.2⟩, accepted.1) := by
  intro rows handed accepted
  simp only [run, accepted, handed, rows]
  -- Without rows a run leaves the target alone.
  cases (a.candidates b observed).filterMap a.deliver? with
  | nil => rfl
  | cons r rs => cases a.target <;> rfl

theorem run_eq (h : create p sinks₀ enabled = .ok (a, sinks₁)) (version : UInt64) (sinks : Sinks)
    (b : Baggage) (observed : Row) :
    let handed := p.survivors enabled b observed
    let accepted := (p.output.target sinks₀ enabled).1.accept version sinks b handed
    let rounds := (p.sizes enabled b).prod
    a.run version sinks b observed =
      (⟨rounds, rounds - handed.length, accepted.2⟩, accepted.1) := by
  obtain ⟨hlength, hsurvivors⟩ := survivors_eq h b observed
  rw [run_eq_accept, hlength, hsurvivors, (resolves_of_create h).target]

/-- A run is the nested loop over the rows of its bags: its rounds are numbered so that each
choice of one row per bag comes up once and the first bag varies fastest, and what they
hand on goes to the target in this order. The numbers it reports count the rounds, those
that hand on nothing, and the rows that were kept. -/
theorem run_nestedLoop (h : create p sinks₀ enabled = .ok (a, sinks₁)) (version : UInt64)
    (sinks : Sinks) (b : Baggage) (observed : Row) :
    let sizes := p.sizes enabled b
    let handed := p.survivors enabled b observed
    let accepted := (p.output.target sinks₀ enabled).1.accept version sinks b handed
    let stats := (a.run version sinks b observed).1
    (∀ choice, (∃! k, k < sizes.prod ∧ MixedRadix.digits sizes k = choice) ↔
      List.Forall₂ (· < ·) choice sizes) ∧
    (a.run version sinks b observed).2 = accepted.1 ∧ stats.rowsOut = accepted.2 ∧
    stats.rowsIn = sizes.prod ∧ (p.unpack = [] → stats.rowsIn = 1) ∧
    (0 ∈ sizes → stats.rowsIn = 0) ∧
    stats.rowsIn = stats.dropped + handed.length ∧
    stats.rowsOut ≤ handed.length ∧
    (∀ id vars, p.output = .emit id (.tuple vars) → stats.rowsOut = handed.length) ∧
    (∀ id vars, p.output = .pack id (.tuple vars) → enabled = true →
      stats.rowsOut = handed.length) := by
  intro sizes handed accepted stats
  have hrun := run_eq h version sinks b observed
  have hwidth : ∀ r ∈ handed, r.length = p.output.bag.arity := fun r hr =>
    AdviceSpec.length_of_mem_survivors hr
  have hle : handed.length ≤ sizes.prod := AdviceSpec.length_survivors_le
  have hstats : stats = ⟨sizes.prod, sizes.prod - handed.length, accepted.2⟩ :=
    congrArg Prod.fst hrun
  rw [hstats]
  refine ⟨fun choice => MixedRadix.existsUnique_digits_iff, congrArg Prod.snd hrun, rfl, rfl, ?_,
    List.prod_eq_zero, (Nat.sub_add_cancel hle).symm, Target.accept_snd_le _, ?_, ?_⟩
  · intro hnone
    simp [sizes, AdviceSpec.sizes, AdviceSpec.bags, hnone]
  · intro id vars hout
    simp only [hout] at hwidth
    simp only [accepted, hout]
    exact Target.accept_snd_emit_tuple hwidth
  · rintro id vars hout rfl
    simp only [hout] at hwidth
    simp only [accepted, hout]
    exact Target.accept_snd_pack_tuple hwidth

/-! ## A sample -/

namespace Sample

/-- What of a shelf is affordable with which coupon. -/
def offers : AdviceSpec String where
  observe := ["budget"]
  unpack := [⟨⟨⟨0⟩, 0⟩, .tuple ["item", "price"]⟩, ⟨⟨⟨0⟩, 1⟩, .tuple ["coupon"]⟩]
  lets := [⟨"due", "{} - {}", ["price", "coupon"]⟩]
  wheres := [⟨"{} <= {}", ["due", "budget"]⟩]
  output := .emit ⟨0⟩ (.tuple ["item", "due"])

/-- Two items and three coupons; the last one is no number. -/
def shelf : Baggage where
  active := [(⟨⟨0⟩, 0⟩, [⟨0, 1, [[.str "tea", .int 5], [.str "rice", .int 8]]⟩]),
    (⟨⟨0⟩, 1⟩, [⟨0, 2, [[.int 1], [.int 3], [.str "none"]]⟩])]
  archive := []

end Sample

open Advice.Sample in
theorem run_offers : ∃ a sinks, create offers (.start false 1000) true = .ok (a, sinks) ∧
    offers.survivors true shelf [.int 5] =
      [[.str "tea", .int 4], [.str "tea", .int 2], [.str "rice", .int 5]] ∧
    (a.run 0 sinks shelf [.int 5]).1 = ⟨6, 3, 3⟩ := by
  have hok : (create offers (.start false 1000) true).isOk := by decide +kernel
  obtain ⟨⟨a, sinks⟩, h⟩ := exists_of_isOk hok
  have hhanded : offers.survivors true shelf [.int 5] =
      [[.str "tea", .int 4], [.str "tea", .int 2], [.str "rice", .int 5]] := by decide +kernel
  have hrounds : (offers.sizes true shelf).prod = 6 := by decide +kernel
  obtain ⟨-, -, -, hin, -, -, hsum, -, hemit, -⟩ := run_nestedLoop h 0 sinks shelf [.int 5]
  have hout := hemit _ _ rfl
  rw [hrounds] at hin
  rw [hhanded] at hsum hout
  refine ⟨a, sinks, h, hhanded, ?_⟩
  generalize (a.run 0 sinks shelf [.int 5]).1 = stats at hin hsum hout
  obtain ⟨rowsIn, dropped, rowsOut⟩ := stats
  have hdropped : dropped = 3 := by
    simp only [List.length_cons, List.length_nil] at hin hsum
    omega
  exact congr (congr (congrArg Stats.mk hin) hdropped) hout

end Advice

end CausalTrace
