import CausalTrace.Baggage.Bag
import CausalTrace.Proofs.Grouping
import CausalTrace.Proofs.Table

/-!
# What bags hold

As long as a request does not branch, a bag holds what its discipline keeps of all
rows ever packed into it, however they were divided among packs. Packing into a bag
leaves the other bags as they are.
-/

namespace CausalTrace

/-- What a discipline keeps of some rows. -/
def Discipline.keeps (rows : List Row) : Discipline → List Row
  | .tuples arity => rows.filter (·.length == arity)
  | .one .first arity => (rows.filter (·.length == arity)).head?.toList
  | .one .mostRecent arity => (rows.filter (·.length == arity)).getLast?.toList
  | .grouped keys kinds => (Groups.ofRows keys kinds rows).rows
  | .disabled => []

namespace Bag

variable {bag : Bag} {b : Baggage} {rows more : List Row} {version : UInt64}

/-- The bag holds what is kept of some rows, all of it written since the last split. -/
structure Holds (bag : Bag) (b : Baggage) (rows : List Row) : Prop where
  archived : b.archivedEntries bag.id = []
  active : allRows (b.activeEntries bag.id) = bag.discipline.keeps rows
  single : ∀ keep arity, bag.discipline = .one keep arity →
    (b.activeEntries bag.id).length = (bag.discipline.keeps rows).length

theorem holds_of_empty (ha : b.activeEntries bag.id = []) (hr : b.archivedEntries bag.id = []) :
    bag.Holds b [] where
  archived := hr
  active := by
    rw [ha]
    cases bag.discipline with
    | tuples arity => rfl
    | one keep arity => cases keep <;> rfl
    | grouped keys kinds => rfl
    | disabled => rfl
  single := by
    intro keep arity hd
    rw [ha, hd]
    cases keep <;> rfl

/-! ## Changing entries -/

theorem activeEntries_push (id : BagId) (rs : List Row) :
    (b.push id version rs).activeEntries id =
      b.activeEntries id ++ [b.nextEntry id version rs] :=
  Table.listed_append_self ..

theorem activeEntries_replaceActive (id : BagId) (rs : List Row) :
    (b.replaceActive id version rs).activeEntries id = [b.nextEntry id version rs] :=
  Table.listed_insert_self ..

theorem activeEntries_supersede (id : BagId) (rs : List Row) :
    (b.supersede id version rs).activeEntries id = [b.nextEntry id version rs] :=
  Table.listed_insert_self ..

theorem archivedEntries_supersede (id : BagId) (rs : List Row) :
    (b.supersede id version rs).archivedEntries id = [] := by
  rw [Baggage.archivedEntries, Baggage.supersede, Table.listed, Table.find?_erase_self]
  rfl

theorem occurs_of_mem {v : Value} {kept : List Row} (h : Occurs v kept)
    (hsub : ∀ row ∈ kept, row ∈ rows) : Occurs v rows := by
  obtain ⟨row, hrow, hv⟩ := h
  exact ⟨row, hsub row hrow, hv⟩

/-- A pack changes nothing or writes one entry in one of three ways. It makes up no value but
integers. -/
theorem pack_forms (bag : Bag) (version : UInt64) (b : Baggage) (rows : List Row) :
    (bag.pack version b rows).1 = b ∨ ∃ rs,
      (∀ v, Occurs v rs →
        (∃ n, v = .int n) ∨ Occurs v rows ∨ Occurs v (allRows (b.activeEntries bag.id))) ∧
      ((bag.pack version b rows).1 = b.push bag.id version rs ∨
        (bag.pack version b rows).1 = b.replaceActive bag.id version rs ∨
        (bag.pack version b rows).1 = b.supersede bag.id version rs) := by
  have hpacked : ∀ {kept : List Row}, (∀ row ∈ kept, row ∈ rows) → ∀ v, Occurs v kept →
      (∃ n, v = .int n) ∨ Occurs v rows ∨ Occurs v (allRows (b.activeEntries bag.id)) :=
    fun hsub v hv => .inr (.inl (occurs_of_mem hv hsub))
  rw [pack]
  split
  · split
    · exact .inl rfl
    · next r rs hkept =>
        exact .inr ⟨r :: rs, hpacked fun row hrow => List.mem_of_mem_filter (hkept ▸ hrow),
          .inl rfl⟩
  · split
    · next r _ hfound =>
        refine .inr ⟨[r], hpacked fun row hrow => ?_, .inl rfl⟩
        exact List.mem_singleton.mp hrow ▸ List.mem_of_find?_eq_some hfound
    · exact .inl rfl
  · split
    · next r hlast =>
        refine .inr ⟨[r], hpacked fun row hrow => ?_, .inr (.inr rfl)⟩
        exact List.mem_singleton.mp hrow ▸ List.mem_of_mem_filter (List.mem_of_getLast? hlast)
    · exact .inl rfl
  · next keys kinds _ =>
      dsimp only
      split
      · exact .inl rfl
      · refine .inr ⟨_, fun v hv => ?_, .inr (.inl rfl)⟩
        rcases Groups.occurs_combineRows hv with hint | hactive | hbatch
        · exact .inl hint
        · rcases Groups.occurs_combineRows hactive with hint | hnone | hactive
          · exact .inl hint
          · obtain ⟨row, hrow, _⟩ := hnone
            cases hrow
          · exact .inr (.inr hactive)
        · exact (Groups.occurs_ofRows hbatch).imp_right .inl
  · exact .inl rfl

/-- Two baggages hold the same entries in one bag. -/
def Same (id : BagId) (b c : Baggage) : Prop :=
  b.activeEntries id = c.activeEntries id ∧ b.archivedEntries id = c.archivedEntries id

theorem Same.refl {id : BagId} : Same id b b := ⟨rfl, rfl⟩

theorem Same.trans {id : BagId} {c d : Baggage} (h : Same id b c) (h' : Same id c d) :
    Same id b d := ⟨h.1.trans h'.1, h.2.trans h'.2⟩

theorem Holds.congr {c : Baggage} (h : bag.Holds b rows) (hs : Same bag.id b c) :
    bag.Holds c rows where
  archived := hs.2 ▸ h.archived
  active := hs.1 ▸ h.active
  single := hs.1 ▸ h.single

/-- A pack leaves all other bags alone. -/
theorem same_pack {id : BagId} (hid : id ≠ bag.id) : Same id b (bag.pack version b rows).1 := by
  have hpush : ∀ rs, Same id b (b.push bag.id version rs) := fun rs =>
    ⟨(Table.listed_append_ne hid _ _).symm, rfl⟩
  have hreplace : ∀ rs, Same id b (b.replaceActive bag.id version rs) := fun rs =>
    ⟨(Table.listed_insert_ne hid _ _).symm, rfl⟩
  have hsupersede : ∀ rs, Same id b (b.supersede bag.id version rs) := by
    intro rs
    refine ⟨(Table.listed_insert_ne hid _ _).symm, ?_⟩
    rw [Baggage.archivedEntries, Baggage.archivedEntries, Baggage.supersede, Table.listed,
      Table.listed, Table.find?_erase_ne hid]
  rcases bag.pack_forms version b rows with h | ⟨rs, _, h | h | h⟩
  · rw [h]
    exact .refl
  · rw [h]
    exact hpush rs
  · rw [h]
    exact hreplace rs
  · rw [h]
    exact hsupersede rs

/-! ## Reading -/

theorem allRows_append (es fs : List Entry) : allRows (es ++ fs) = allRows es ++ allRows fs :=
  List.flatMap_append ..

/-- A single entry is chosen if it has a row of the right width. -/
theorem chosen?_singleton {keep : Filter} {arity : Nat} {e : Entry} :
    chosen? keep arity [e] =
      if e.rows.head?.any (·.length == arity) then some e else none := by
  rw [chosen?, List.filter_cons]
  by_cases h : e.rows.head?.any (·.length == arity) = true
  · rw [if_pos h, if_pos h]
    cases keep <;> rfl
  · rw [if_neg h, if_neg h]
    rfl

theorem Holds.entries (h : bag.Holds b rows) : b.entries bag.id = b.activeEntries bag.id := by
  rw [Baggage.entries, h.archived, List.nil_append]

theorem length_of_mem_keeps_one {keep : Filter} {arity : Nat} {r : Row}
    (hr : r ∈ (Discipline.one keep arity).keeps rows) : r.length = arity := by
  have hm : r ∈ rows.filter (·.length == arity) := by
    cases keep with
    | first => exact List.mem_of_head? (Option.mem_toList.mp hr)
    | mostRecent => exact List.mem_of_getLast? (Option.mem_toList.mp hr)
  exact beq_iff_eq.mp (List.mem_filter.mp hm).2

theorem length_keeps_one_le (rows : List Row) (keep : Filter) (arity : Nat) :
    ((Discipline.one keep arity).keeps rows).length ≤ 1 := by
  have hopt : ∀ o : Option Row, o.toList.length ≤ 1 := by
    rintro (_ | r)
    · exact Nat.zero_le 1
    · exact Nat.le_refl 1
  cases keep <;> exact hopt _

/-- The entry that a bag of one row stands for holds just the row that is kept. -/
theorem Holds.chosen? {keep : Filter} {arity : Nat} (h : bag.Holds b rows)
    (hd : bag.discipline = .one keep arity) :
    (Bag.chosen? keep arity (b.entries bag.id)).map (·.rows) =
      (bag.discipline.keeps rows).head?.map fun r => [r] := by
  have hactive := h.active
  have hle : (b.activeEntries bag.id).length ≤ 1 := by
    rw [h.single keep arity hd, hd]
    exact length_keeps_one_le ..
  rw [hd] at hactive ⊢
  rw [h.entries]
  match hes : b.activeEntries bag.id, hle with
  | [], _ =>
      rw [hes] at hactive
      rw [← hactive]
      rfl
  | [e], _ =>
      have he : e.rows = (Discipline.one keep arity).keeps rows := by
        rw [hes] at hactive
        simpa [allRows] using hactive
      rw [chosen?_singleton, he]
      match hk : (Discipline.one keep arity).keeps rows, length_keeps_one_le rows keep arity with
      | [], _ => rfl
      | [r], _ =>
          have hr : r.length = arity :=
            length_of_mem_keeps_one (by rw [hk]; exact List.mem_singleton_self r)
          have hany : Option.any (·.length == arity) [r].head? = true := beq_iff_eq.mpr hr
          rw [if_pos hany, Option.map_some, he, hk]
          rfl

/-- Unpacking a bag gives what it holds. -/
theorem Holds.unpack (h : bag.Holds b rows) : bag.unpack b = bag.discipline.keeps rows := by
  have hactive := h.active
  rw [Bag.unpack]
  cases hd : bag.discipline with
  | tuples arity =>
      rw [hd] at hactive
      simp only [h.archived, hactive, Discipline.keeps]
      simp [allRows]
  | one keep arity =>
      have hc := h.chosen? hd
      rw [hd] at hc
      simp only
      cases hch : Bag.chosen? keep arity (b.entries bag.id) with
      | none =>
          rw [hch] at hc
          match hk : (Discipline.one keep arity).keeps rows with
          | [] => rfl
          | r :: rs => rw [hk] at hc; cases hc
      | some e =>
          rw [hch, Option.map_some] at hc
          match hk : (Discipline.one keep arity).keeps rows,
            length_keeps_one_le rows keep arity with
          | [], _ => rw [hk] at hc; cases hc
          | [r], _ =>
              rw [hk] at hc
              have he : e.rows = [r] := Option.some.inj hc
              rw [Option.bind_some, he]
              rfl
  | grouped keys kinds =>
      rw [hd] at hactive
      simp only [h.entries, hactive, Discipline.keeps, Groups.combineRows_empty]
  | disabled => rfl

/-! ## Writing -/

/-- A pack of which nothing is kept changes nothing. -/
theorem Holds.kept (h : bag.Holds b rows)
    (hk : bag.discipline.keeps (rows ++ more) = bag.discipline.keeps rows) :
    bag.Holds b (rows ++ more) :=
  ⟨h.archived, hk ▸ h.active, hk ▸ h.single⟩

/-- A bag that is not of one row holds what is kept if its entries do. -/
theorem holds_of_active {b' : Baggage} (harchived : b'.archivedEntries bag.id = [])
    (hactive : allRows (b'.activeEntries bag.id) = bag.discipline.keeps rows)
    (hd : ∀ keep arity, bag.discipline ≠ .one keep arity) : bag.Holds b' rows :=
  ⟨harchived, hactive, fun keep arity he => absurd he (hd keep arity)⟩

/-- A bag of one row holds what is kept if this is the row of its only entry. -/
theorem holds_of_one {b' : Baggage} {x : Entry} {r : Row}
    (harchived : b'.archivedEntries bag.id = [])
    (hactive : b'.activeEntries bag.id = [x]) (hx : x.rows = [r])
    (hk : bag.discipline.keeps rows = [r]) : bag.Holds b' rows := by
  refine ⟨harchived, ?_, fun _ _ _ => ?_⟩
  · rw [hactive, hk]
    simp [allRows, hx]
  · rw [hactive, hk]
    rfl

theorem Holds.pack_tuples {arity : Nat} (h : bag.Holds b rows)
    (hd : bag.discipline = .tuples arity) :
    bag.Holds (bag.pack version b more).1 (rows ++ more) := by
  have hkeeps : ∀ rs, bag.discipline.keeps rs = rs.filter (·.length == arity) := by
    rw [hd]
    exact fun _ => rfl
  rw [Bag.pack, hd]
  simp only
  split
  · next hnone =>
      refine h.kept ?_
      rw [hkeeps, hkeeps, List.filter_append, hnone, List.append_nil]
  · next r rs hsome =>
      refine holds_of_active h.archived ?_ fun _ _ he => ?_
      · rw [activeEntries_push, allRows_append, h.active, hkeeps, hkeeps, List.filter_append, hsome]
        simp [allRows, Baggage.nextEntry]
      · rw [hd] at he
        cases he

theorem Holds.pack_first {arity : Nat} (h : bag.Holds b rows)
    (hd : bag.discipline = .one .first arity) :
    bag.Holds (bag.pack version b more).1 (rows ++ more) := by
  have hkeeps : ∀ rs, bag.discipline.keeps rs = (rs.filter (·.length == arity)).head?.toList := by
    rw [hd]
    exact fun _ => rfl
  have hlength := h.single .first arity hd
  have hc := h.chosen? hd
  rw [Bag.pack, hd]
  simp only
  split
  · next r hnone hfind =>
      rw [hnone, Option.map_none, eq_comm, Option.map_eq_none_iff, List.head?_eq_none_iff] at hc
      have hempty : b.activeEntries bag.id = [] := by
        rw [hc] at hlength
        exact List.length_eq_zero_iff.mp hlength
      have hrows : (rows.filter (·.length == arity)).head? = none := by
        rw [hkeeps, Option.toList_eq_nil_iff] at hc
        exact hc
      have hnew : bag.discipline.keeps (rows ++ more) = [r] := by
        rw [hkeeps, List.filter_append, List.head?_append, hrows, Option.none_or,
          List.head?_filter, hfind]
        rfl
      refine holds_of_one (x := b.nextEntry bag.id version [r]) h.archived ?_ rfl hnew
      rw [activeEntries_push, hempty, List.nil_append]
  · next hnot =>
      refine h.kept ?_
      rw [hkeeps, hkeeps, List.filter_append, List.head?_append]
      congr 1
      cases hch : Bag.chosen? .first arity (b.entries bag.id) with
      | none =>
          have hmore : more.find? (·.length == arity) = none :=
            Option.eq_none_iff_forall_ne_some.mpr fun r hr => hnot r hch hr
          rw [List.head?_filter (l := more), hmore, Option.or_none]
      | some e =>
          rw [hch, Option.map_some, hkeeps] at hc
          cases hh : (rows.filter (·.length == arity)).head? with
          | none => rw [hh] at hc; cases hc
          | some r => rfl

theorem Holds.pack_mostRecent {arity : Nat} (h : bag.Holds b rows)
    (hd : bag.discipline = .one .mostRecent arity) :
    bag.Holds (bag.pack version b more).1 (rows ++ more) := by
  have hkeeps : ∀ rs, bag.discipline.keeps rs =
      (rs.filter (·.length == arity)).getLast?.toList := by
    rw [hd]
    exact fun _ => rfl
  rw [Bag.pack, hd]
  simp only
  split
  · next r hlast =>
      have hnew : bag.discipline.keeps (rows ++ more) = [r] := by
        rw [hkeeps, List.filter_append, List.getLast?_append, hlast, Option.some_or]
        rfl
      exact holds_of_one (archivedEntries_supersede ..) (activeEntries_supersede ..) rfl hnew
  · next hlast =>
      refine h.kept ?_
      rw [hkeeps, hkeeps, List.filter_append, List.getLast?_append, hlast, Option.none_or]

theorem Holds.pack_grouped {keys : Nat} {kinds : List Aggregation} (h : bag.Holds b rows)
    (hd : bag.discipline = .grouped keys kinds) :
    bag.Holds (bag.pack version b more).1 (rows ++ more) := by
  have hkeeps : ∀ rs, bag.discipline.keeps rs = (Groups.ofRows keys kinds rs).rows := by
    rw [hd]
    exact fun _ => rfl
  rw [Bag.pack, hd]
  simp only
  rw [← Groups.ofRows]
  split
  · next hnone =>
      refine h.kept ?_
      have hrows : (Groups.ofRows keys kinds more).rows = [] := by
        rw [Groups.rows, List.isEmpty_iff.mp hnone]
        rfl
      rw [hkeeps, hkeeps, ← Groups.combineRows_ofRows, hrows]
      rfl
  · refine holds_of_active h.archived ?_ fun _ _ he => ?_
    · rw [activeEntries_replaceActive, h.active, hkeeps, hkeeps, Groups.combineRows_empty,
        Groups.combineRows_ofRows]
      simp [allRows, Baggage.nextEntry]
    · rw [hd] at he
      cases he

/-- Packing more rows into a bag. -/
theorem Holds.pack (h : bag.Holds b rows) :
    bag.Holds (bag.pack version b more).1 (rows ++ more) := by
  cases hd : bag.discipline with
  | tuples arity => exact h.pack_tuples hd
  | one keep arity =>
      cases keep with
      | first => exact h.pack_first hd
      | mostRecent => exact h.pack_mostRecent hd
  | grouped keys kinds => exact h.pack_grouped hd
  | disabled =>
      have hnone : (bag.pack version b more).1 = b := by rw [Bag.pack, hd]
      rw [hnone]
      exact h.kept (by rw [hd]; rfl)

end Bag

end CausalTrace
