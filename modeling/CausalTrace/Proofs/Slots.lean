import CausalTrace.Proofs.NestedLoops

/-!
# Runs in rows of fixed width

A run can be carried out in rows that have a place for every name of the plan from the start. The
observed values come first, and surplus ones fall on the places of columns and lets. Each of these
places is written before it is read: such a run never leaves its rows, and does what the run does
whose rows grow.
-/

namespace CausalTrace

/-- An access outside of a list. -/
structure Outside where
  place : Nat
  length : Nat
deriving DecidableEq, Repr

/-! ## Accesses that are checked -/

namespace Slots

section

variable {α : Type}

/-- The element at a place, which has to be in the list. -/
def read (xs : List α) (i : Nat) : Except Outside α :=
  match xs[i]? with
  | some x => .ok x
  | none => .error ⟨i, xs.length⟩

/-- The list with another element at a place, which has to be in the list. -/
def write (xs : List α) (i : Nat) (x : α) : Except Outside (List α) :=
  if i < xs.length then .ok (xs.set i x) else .error ⟨i, xs.length⟩

variable {xs ys : List α} {i : Nat}

theorem read_eq_ok (d : α) (h : i < xs.length) : read xs i = .ok (xs.getD i d) := by
  simp [read, h]

theorem read_append (d : α) (h : i < xs.length) : read (xs ++ ys) i = .ok (xs.getD i d) := by
  simp [read, List.getElem?_append_left h, h]

theorem write_append (x y : α) : write (xs ++ y :: ys) xs.length x = .ok (xs ++ x :: ys) := by
  simp [write]

end

/-! ## One round -/

/-- Writes values to places, one after another. -/
def fill : List Nat → Row → Row → Except Outside Row
  | i :: is, v :: vs, row => do fill is vs (← write row i v)
  | _, _, row => .ok row

/-- Writes one row out of each bag to the places of its columns. The number, in the mixed radix of
the sizes of the bags, says which ones. -/
def fillAll : List (List Nat × List Row) → Nat → Row → Except Outside Row
  | [], _, row => .ok row
  | (places, rows) :: bags, k, row => do
      let picked ← read rows (k % rows.length)
      fillAll bags (k / rows.length) (← fill places picked row)

/-- The value of a template on a row, if there is one. -/
def value? (t : BoundTemplate) (row : Row) : Except Outside (Option Value) :=
  match t.template with
  | .ok template => do return (template.eval (← t.args.mapM (read row))).toOption
  | .error _ => .ok none

/-- Writes the values of lets to the places from `i` on, if all have one. -/
def compute : Nat → List BoundTemplate → Row → Except Outside (Option Row)
  | _, [], row => .ok (some row)
  | i, t :: ts, row => do
      match ← value? t row with
      | some v => compute (i + 1) ts (← write row i v)
      | none => return none

/-- Whether a row passes conditions, up to the first that it does not pass. -/
def passes : List BoundTemplate → Row → Except Outside Bool
  | [], _ => .ok true
  | w :: ws, row => do if (← value? w row) == some (.bool true) then passes ws row else return false

def project (places : List (Option Nat)) (row : Row) : Except Outside Row :=
  places.mapM fun
    | some i => read row i
    | none => .ok .null

/-- The places of the columns of each bag, from `start` on. -/
def columns (start : Nat) : List Unpacking → List (List Nat)
  | [] => []
  | u :: us => List.range' start u.columns :: columns (start + u.columns) us

end Slots

namespace Advice

/-- The number of names that are bound before any let. -/
def incoming (a : Advice) : Nat := a.spec.observe.length + (a.unpacks.map (·.columns)).sum

def width (a : Advice) : Nat := a.incoming + a.lets.length

/-- What a row delivers, if it gets through. -/
def deliverInPlace (a : Advice) (row : Row) : Except Outside (Option Row) := do
  match ← Slots.compute a.incoming a.lets row with
  | some row =>
      if ← Slots.passes a.wheres row then return some (← Slots.project a.projection row)
      else return none
  | none => return none

/-- One run in rows of fixed width. All rounds start with the observed values, as many as there are
places, and nulls after them. -/
def runInPlace (a : Advice) (version : UInt64) (sinks : Sinks) (b : Baggage) (observed : Row) :
    Except Outside (Stats × Sinks × Baggage) := do
  let bags := a.unpacks.map fun u => (u.bag.unpack b).filter (·.length == u.columns)
  let rounds := (bags.map List.length).prod
  let places := Slots.columns a.spec.observe.length a.unpacks
  let fates ← (List.range rounds).mapM fun k => do
    a.deliverInPlace (← Slots.fillAll (places.zip bags) k (padded a.width observed))
  let accepted := a.target.accept version sinks b (fates.filterMap id)
  return (⟨rounds, fates.countP (·.isNone), accepted.2⟩, accepted.1)

end Advice

/-! ## What is known of a row, and what is not yet -/

namespace Slots

variable {known junk : Row}

/-- The places of templates are those of values known by then; each let makes its own known. -/
def LetsPlaced : Nat → List BoundTemplate → Prop
  | _, [] => True
  | n, t :: ts => (∀ i ∈ t.args, i < n) ∧ LetsPlaced (n + 1) ts

theorem fill_append {picked : Row} (h : picked.length ≤ junk.length) :
    fill (List.range' known.length picked.length) picked (known ++ junk) =
      .ok (known ++ picked ++ junk.drop picked.length) := by
  induction picked generalizing known junk with
  | nil => simp [fill]
  | cons v vs ih =>
      obtain ⟨x, junk, rfl⟩ : ∃ x rest, junk = x :: rest :=
        List.exists_cons_of_length_pos (by simp at h; omega)
      rw [List.length_cons, List.range'_succ, fill, write_append]
      have hvs : vs.length ≤ junk.length := by simpa using h
      have hrest : fill (List.range' (known ++ [v]).length vs.length) vs (known ++ [v] ++ junk) =
          .ok (known ++ [v] ++ vs ++ junk.drop vs.length) := ih hvs
      rw [List.length_append, List.length_singleton] at hrest
      show fill (List.range' (known.length + 1) vs.length) vs (known ++ v :: junk) = _
      rw [List.append_cons, hrest]
      simp

theorem length_getD {rows : List Row} {n i : Nat} (h : ∀ r ∈ rows, r.length = n)
    (hi : i < rows.length) : (rows.getD i []).length = n := by
  apply h
  rw [List.getD_eq_getElem?_getD, List.getElem?_eq_getElem hi]
  exact List.getElem_mem hi

theorem length_flatten_picks {us : List Unpacking} {bags : List (List Row)} {ds : List Nat}
    (hfit : List.Forall₂ (fun u rows => ∀ r ∈ rows, r.length = u.columns) us bags)
    (hds : List.Forall₂ (· < ·) ds (bags.map List.length)) :
    (picks bags ds).flatten.length = (us.map (·.columns)).sum := by
  induction hfit generalizing ds with
  | nil => rfl
  | @cons u rows us bags hu _ ih =>
      obtain ⟨d, ds, hd, htail, rfl⟩ := List.forall₂_cons_right_iff.mp hds
      rw [picks, List.zipWith_cons_cons, List.flatten_cons, List.length_append, ← picks, ih htail,
        List.map_cons, List.sum_cons, length_getD hu hd]

theorem fillAll_append {us : List Unpacking} {bags : List (List Row)} {k : Nat}
    (hfit : List.Forall₂ (fun u rows => ∀ r ∈ rows, r.length = u.columns) us bags)
    (hk : k < (bags.map List.length).prod) (h : (us.map (·.columns)).sum ≤ junk.length) :
    fillAll ((columns known.length us).zip bags) k (known ++ junk) =
      .ok (known ++ (picks bags (MixedRadix.digits (bags.map List.length) k)).flatten ++
        junk.drop (us.map (·.columns)).sum) := by
  induction hfit generalizing known junk k with
  | nil => simp [columns, fillAll, picks]
  | @cons u rows us bags hu _ ih =>
      have hpos : 0 < rows.length := MixedRadix.pos_of_mem hk
      have hlt : k % rows.length < rows.length := Nat.mod_lt k hpos
      have hpicked := length_getD hu hlt
      rw [List.map_cons, List.sum_cons] at h
      -- The picked row covers the first places that are not known yet.
      generalize hrow : rows.getD (k % rows.length) [] = picked at hpicked
      have hfill : fill (List.range' known.length u.columns) picked (known ++ junk) =
          .ok (known ++ picked ++ junk.drop u.columns) := by
        rw [← hpicked]
        exact fill_append (by omega)
      have hrest : fillAll ((columns (known ++ picked).length us).zip bags) (k / rows.length)
          (known ++ picked ++ junk.drop u.columns) = _ :=
        ih (MixedRadix.div_lt hk) (by rw [List.length_drop]; omega)
      rw [List.length_append, hpicked] at hrest
      show (read rows _ >>= _) = _
      rw [read_eq_ok [] hlt, hrow]
      show (fill _ _ _ >>= _) = _
      rw [hfill]
      refine hrest.trans ?_
      simp [MixedRadix.digits, picks, ← hrow]

theorem value?_append {t : BoundTemplate} (h : ∀ i ∈ t.args, i < known.length) :
    value? t (known ++ junk) = .ok (t.value? known) := by
  rw [value?, BoundTemplate.value?]
  cases t.template with
  | error e => rfl
  | ok template =>
      have hargs : t.args.mapM (read (known ++ junk)) = .ok (t.args.map (known.getD · .null)) :=
        mapM_eq_ok_map fun i hi => read_append .null (h i hi)
      simp only
      rw [hargs]
      rfl

theorem compute_append {ts : List BoundTemplate} (h : LetsPlaced known.length ts)
    (hlength : ts.length ≤ junk.length) :
    compute known.length ts (known ++ junk) =
      .ok ((Advice.computeLets ts known).map (· ++ junk.drop ts.length)) := by
  induction ts generalizing known junk with
  | nil => rfl
  | cons t ts ih =>
      obtain ⟨ht, hts⟩ := h
      obtain ⟨x, junk, rfl⟩ : ∃ x rest, junk = x :: rest :=
        List.exists_cons_of_length_pos (by simp at hlength; omega)
      rw [compute, value?_append ht, Advice.computeLets, List.foldlM_cons]
      cases t.value? known with
      | none => rfl
      | some v =>
          show (write (known ++ x :: junk) known.length v >>= _) = _
          rw [write_append]
          have hrest : compute (known ++ [v]).length ts (known ++ [v] ++ junk) = _ :=
            ih (by simpa using hts) (by simpa using hlength)
          rw [List.length_append, List.length_singleton] at hrest
          show compute (known.length + 1) ts (known ++ v :: junk) = _
          rw [List.append_cons, hrest]
          rfl

theorem passes_append {ws : List BoundTemplate} (h : ∀ w ∈ ws, ∀ i ∈ w.args, i < known.length) :
    passes ws (known ++ junk) = .ok (ws.all (·.holds known)) := by
  induction ws with
  | nil => rfl
  | cons w ws ih =>
      obtain ⟨hw, hws⟩ := List.forall_mem_cons.mp h
      rw [passes, value?_append hw, List.all_cons, BoundTemplate.holds]
      show (if w.value? known == some (.bool true) then passes ws (known ++ junk)
        else .ok false) = _
      rw [ih hws]
      cases w.value? known == some (.bool true) <;> rfl

theorem project_append {ps : List (Option Nat)} (h : ∀ i, some i ∈ ps → i < known.length) :
    project ps (known ++ junk) = .ok (ps.map fun p => (p.map (known.getD · .null)).getD .null) := by
  refine mapM_eq_ok_map fun p hp => ?_
  cases p with
  | none => rfl
  | some i => exact read_append .null (h i hp)

end Slots

namespace Advice

/-! ## Resolved plans stay within their rows -/

/-- All places of a resolved plan are places of its rows, those of lets before the let. -/
structure Placed (a : Advice) : Prop where
  lets : Slots.LetsPlaced a.incoming a.lets
  wheres : ∀ w ∈ a.wheres, ∀ i ∈ w.args, i < a.width
  projection : ∀ i, some i ∈ a.projection → i < a.width

variable {p : AdviceSpec String} {sinks₀ sinks₁ : Sinks} {enabled : Bool} {a : Advice}

theorem lt_of_place {bound : List String} {reader name : String} {i : Nat}
    (h : place bound reader name = .ok i) : i < bound.length :=
  (List.idxOf?_eq_some_iff.mp (idxOf?_of_place h)).1

theorem lt_of_places {bound args : List String} {reader : String} {places : List Nat}
    (h : args.mapM (place bound reader) = .ok places) : ∀ i ∈ places, i < bound.length := by
  intro i hi
  obtain ⟨_, _, hplace⟩ := exists_of_mem_of_mapM_eq_ok h hi
  exact lt_of_place hplace

theorem letsPlaced_of_bindLets {ls : List (LetSpec String)} {bound r : List String}
    {ts : List BoundTemplate} (h : bindLets bound ls = .ok (r, ts)) :
    Slots.LetsPlaced bound.length ts ∧ r.length = bound.length + ts.length := by
  induction ls generalizing bound ts with
  | nil =>
      cases h
      exact ⟨trivial, rfl⟩
  | cons l ls ih =>
      rw [bindLets] at h
      obtain ⟨places, hp, h⟩ := bind_eq_ok_iff.mp h
      obtain ⟨next, hn, h⟩ := bind_eq_ok_iff.mp h
      obtain ⟨⟨r', ts'⟩, hl, he⟩ := bind_eq_ok_iff.mp h
      cases he
      obtain ⟨_, rfl⟩ := bind_eq_ok_iff_not_mem.mp hn
      obtain ⟨hplaced, hlength⟩ := ih hl
      rw [List.length_append, List.length_singleton] at hplaced hlength
      exact ⟨⟨lt_of_places hp, hplaced⟩, by rw [hlength, List.length_cons]; omega⟩

theorem lt_of_project {bound : List String} {reader : String} {bag : BagSpec String}
    {ps : List (Option Nat)} (h : project bound reader bag = .ok ps) :
    ∀ i, some i ∈ ps → i < bound.length := by
  have hplaced : ∀ {names : List String} {ps : List (Option Nat)},
      (names.mapM fun v => do return some (← place bound reader v)) = .ok ps →
      ∀ i, some i ∈ ps → i < bound.length := by
    intro names ps h i hi
    obtain ⟨name, _, hp⟩ := exists_of_mem_of_mapM_eq_ok h hi
    obtain ⟨j, hj, he⟩ := bind_eq_ok_iff.mp hp
    cases he
    exact lt_of_place hj
  cases bag with
  | tuple vars => exact hplaced h
  | filter keep vars => exact hplaced h
  | groupBy keys aggregates =>
      obtain ⟨ks, hk, h⟩ := bind_eq_ok_iff.mp h
      obtain ⟨gs, hg, h⟩ := bind_eq_ok_iff.mp h
      cases h
      intro i hi
      rcases List.mem_append.mp hi with hi | hi
      · exact hplaced hk i hi
      · obtain ⟨g, _, hp⟩ := exists_of_mem_of_mapM_eq_ok hg hi
        cases hc : g.how with
        | count =>
            rw [hc] at hp
            exact (List.idxOf?_eq_some_iff.mp (Except.ok.inj hp)).1
        | sum | min | max =>
            rw [hc] at hp
            obtain ⟨j, hj, he⟩ := bind_eq_ok_iff.mp hp
            cases he
            exact lt_of_place hj

theorem placed_of_create (h : create p sinks₀ enabled = .ok (a, sinks₁)) : a.Placed := by
  obtain ⟨hspec, bound, reader, hl, hw, hp⟩ := parts_of_create h
  have hincoming : p.incoming.length = a.incoming := by
    rw [incoming, hspec, (resolves_of_create h).unpacks, AdviceSpec.incoming, List.length_append,
      List.length_flatMap, List.map_map]
    rfl
  obtain ⟨hlets, hbound⟩ := letsPlaced_of_bindLets hl
  rw [hincoming] at hlets hbound
  refine ⟨hlets, fun w hmem i hi => ?_, fun i hi => ?_⟩
  · obtain ⟨w', _, hw'⟩ := exists_of_mem_of_mapM_eq_ok hw hmem
    obtain ⟨places, hplaces, he⟩ := bind_eq_ok_iff.mp hw'
    cases he
    exact (lt_of_places hplaces i hi).trans_eq hbound
  · exact (lt_of_project hp i hi).trans_eq hbound

theorem length_of_computeLets {ts : List BoundTemplate} {row last : Row}
    (h : computeLets ts row = some last) : last.length = row.length + ts.length := by
  induction ts generalizing row with
  | nil =>
      cases h
      rfl
  | cons t ts ih =>
      rw [computeLets, List.foldlM_cons] at h
      obtain ⟨next, hnext, h⟩ := Option.bind_eq_some_iff.mp h
      obtain ⟨v, _, rfl⟩ := Option.map_eq_some_iff.mp hnext
      have hlast := ih h
      rw [List.length_append, List.length_singleton] at hlast
      rw [hlast, List.length_cons]
      omega

theorem Placed.deliverInPlace {known junk : Row} (h : a.Placed) (hknown : known.length = a.incoming)
    (hjunk : a.lets.length ≤ junk.length) :
    a.deliverInPlace (known ++ junk) = .ok (a.deliver? known) := by
  have hlets := h.lets
  rw [← hknown] at hlets
  rw [Advice.deliverInPlace, ← hknown, Slots.compute_append hlets hjunk, deliver?]
  cases hrow : computeLets a.lets known with
  | none => rfl
  | some row =>
      -- Now every place is known, so what stands behind them is not looked at.
      have hwidth : row.length = a.width := by rw [length_of_computeLets hrow, hknown, width]
      show (Slots.passes a.wheres (row ++ _) >>= _) = _
      rw [Slots.passes_append (hwidth ▸ h.wheres)]
      show (if a.wheres.all (·.holds row) then _ else _) = _
      rw [Slots.project_append (hwidth ▸ h.projection)]
      show _ = Except.ok (if a.wheres.all (·.holds row) then _ else _)
      split <;> rfl

/-- The observed values of a plan, and what a row of fixed width has after them. -/
theorem padded_eq_append {n m : Nat} (h : n ≤ m) (observed : Row) :
    ∃ junk, junk.length = m - n ∧ padded m observed = padded n observed ++ junk := by
  refine ⟨(padded m observed).drop n, by simp [padded], ?_⟩
  have htake : (padded m observed).take n = padded n observed := by
    apply List.ext_getElem
    · simp [padded, h]
    · intro i hi hi'
      simp only [padded, List.getElem_take, List.getElem_append, List.getElem_replicate]
  rw [← htake, List.take_append_drop]

theorem countP_isNone {α : Type} (xs : List (Option α)) :
    xs.countP (·.isNone) = xs.length - (xs.filterMap id).length := by
  induction xs with
  | nil => rfl
  | cons x xs ih =>
      have hle : (xs.filterMap id).length ≤ xs.length := List.length_filterMap_le _ _
      cases x with
      | none =>
          show (none :: xs).countP (·.isNone) = (xs.length + 1) - (xs.filterMap id).length
          rw [List.countP_cons_of_pos rfl, ih]
          omega
      | some x =>
          show (some x :: xs).countP (·.isNone) = (xs.length + 1) - ((xs.filterMap id).length + 1)
          rw [List.countP_cons_of_neg (by simp), ih]
          omega

/-- A resolved plan does in rows of fixed width what it does in rows that grow, and never leaves
them, whatever is observed. -/
theorem runInPlace_eq (h : create p sinks₀ enabled = .ok (a, sinks₁)) (version : UInt64)
    (sinks : Sinks) (b : Baggage) (observed : Row) :
    a.runInPlace version sinks b observed = .ok (a.run version sinks b observed) := by
  have hplaced := placed_of_create h
  obtain ⟨junk, hjunk, hbase⟩ := padded_eq_append (n := a.spec.observe.length) (m := a.width)
    (by rw [width, incoming]; omega) observed
  have hknown : (padded a.spec.observe.length observed).length = a.spec.observe.length := by
    simp [padded]
  -- `junk` are the places of columns and lets, which may hold surplus values at first.
  generalize hstart : padded a.spec.observe.length observed = start at hbase hknown
  generalize hbags : (a.unpacks.map fun u => (u.bag.unpack b).filter (·.length == u.columns)) = bags
  have hfit : List.Forall₂ (fun u rows => ∀ r ∈ rows, r.length = u.columns) a.unpacks bags := by
    rw [← hbags, List.forall₂_map_right_iff]
    exact List.forall₂_same.mpr fun u _ r hr => beq_iff_eq.mp (List.mem_filter.mp hr).2
  have hround : ∀ k ∈ List.range (bags.map List.length).prod,
      (Slots.fillAll ((Slots.columns a.spec.observe.length a.unpacks).zip bags) k
        (padded a.width observed) >>= a.deliverInPlace) =
      .ok (a.deliver? (start ++
        (picks bags (MixedRadix.digits (bags.map List.length) k)).flatten)) := by
    intro k hk
    have hlt : k < (bags.map List.length).prod := List.mem_range.mp hk
    have hcolumns : (a.unpacks.map (·.columns)).sum ≤ junk.length := by
      rw [hjunk, width, incoming]
      omega
    rw [hbase, ← hknown, Slots.fillAll_append hfit hlt hcolumns]
    refine hplaced.deliverInPlace ?_ ?_
    · rw [List.length_append, hknown,
        Slots.length_flatten_picks hfit (MixedRadix.digits_lt hlt), incoming]
    · rw [List.length_drop, hjunk, width, incoming]
      omega
  have hcandidates : a.candidates b observed = (List.range (bags.map List.length).prod).map fun k =>
      start ++ (picks bags (MixedRadix.digits (bags.map List.length) k)).flatten := by
    rw [candidates, hbags, hstart, combinations_eq_map_range, List.map_map]
    rfl
  have hfates := mapM_eq_ok_map hround
  rw [← Function.comp_def a.deliver?, ← List.map_map, ← hcandidates] at hfates
  have hlength : (a.candidates b observed).length = (bags.map List.length).prod := by
    rw [hcandidates, List.length_map, List.length_range]
  rw [runInPlace, hbags, hfates, run_eq_accept, ← hlength]
  show Except.ok _ = _
  rw [countP_isNone, List.length_map, List.filterMap_map]
  rfl

end Advice

end CausalTrace
