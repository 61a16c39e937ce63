import CausalTrace.Proofs.Filtering
import CausalTrace.Proofs.Replay
import CausalTrace.Proofs.Slots
import CausalTrace.Proofs.Worlds

/-!
# What a run touches

A run that emits leaves the baggage alone, and so does one whose rows the bag refuses. A run that
packs changes no bag but its own. What it reports, hands on and leaves in its bag depends on the
observed values of the plan and on the bags that it unpacks or packs, and on nothing else.
-/

namespace CausalTrace

/-! ## Which rows a bag takes -/

namespace Groups

variable {keys : Nat} {kinds : List Aggregation} {rows : List Row}

theorem groups_ofRows_eq_nil_iff :
    (ofRows keys kinds rows).groups = [] ↔ ∀ r ∈ rows, accepts keys kinds r = false := by
  have hnil : ∀ ps : List (Row × List Int64), merge kinds [] ps = [] ↔ ps = [] := by
    intro ps
    rw [merge_nil, List.map_eq_nil_iff, List.eq_nil_iff_forall_not_mem]
    simp only [mem_firstMentions]
    rw [← List.eq_nil_iff_forall_not_mem, List.map_eq_nil_iff]
  rw [ofRows_eq, hnil, List.filterMap_eq_nil_iff]
  simp only [accepts_eq, Option.isSome_eq_false_iff, Option.isNone_iff_eq_none]

end Groups

namespace Bag

variable {bag : Bag} {b c : Baggage} {version : UInt64} {rows : List Row} {row : Row}

/-- Whether a bag takes a row as the first of a pack. Only a bag that keeps the first row it sees
looks at what it holds. -/
def accepts (bag : Bag) (b : Baggage) (row : Row) : Bool :=
  match bag.discipline with
  | .tuples arity => row.length == arity
  | .one .first arity => (bag.unpack b).isEmpty && row.length == arity
  | .one .mostRecent arity => row.length == arity
  | .grouped keys kinds => Groups.accepts keys kinds row
  | .disabled => false

/-- A bag of one row is empty if none of its entries fits. -/
theorem unpack_isEmpty {keep : Filter} {arity : Nat} (hd : bag.discipline = .one keep arity) :
    (bag.unpack b).isEmpty = (chosen? keep arity (b.entries bag.id)).isNone := by
  rw [unpack, hd]
  dsimp only
  cases hchosen : chosen? keep arity (b.entries bag.id) with
  | none => rfl
  | some x =>
      have hfits : x.rows.head?.any (·.length == arity) = true := (chosen?_eq_some hchosen).2.1
      rw [Option.bind_some]
      cases hhead : x.rows.head? with
      | none => simp [hhead] at hfits
      | some r => rfl

/-- A pack of which no row is accepted keeps none and changes nothing. -/
theorem pack_of_refused (h : ∀ r ∈ rows, bag.accepts b r = false) :
    bag.pack version b rows = (b, 0) := by
  unfold accepts at h
  cases hd : bag.discipline with
  | tuples arity =>
      simp only [hd, ← Bool.not_eq_true] at h
      rw [pack, hd]
      dsimp only
      rw [List.filter_eq_nil_iff.mpr h]
  | one keep arity =>
      cases keep with
      | first =>
          simp only [hd, unpack_isEmpty hd, Bool.and_eq_false_iff] at h
          rw [pack, hd]
          dsimp only
          split
          · next r hnone hfind =>
              -- An empty bag would take the row that was found.
              have hlength := List.find?_some hfind
              have hrefused := h r (List.mem_of_find?_eq_some hfind)
              simp [hnone, hlength] at hrefused
          · rfl
      | mostRecent =>
          simp only [hd, ← Bool.not_eq_true] at h
          rw [pack, hd]
          dsimp only
          rw [List.filter_eq_nil_iff.mpr h]
          rfl
  | grouped keys kinds =>
      simp only [hd] at h
      rw [pack, hd]
      dsimp only
      rw [← Groups.ofRows, Groups.groups_ofRows_eq_nil_iff.mpr h]
      rfl
  | disabled => rw [pack, hd]

/-- A pack keeps a row if one is accepted. -/
theorem pack_snd_pos (version : UInt64) (h : ∃ r ∈ rows, bag.accepts b r = true) :
    0 < (bag.pack version b rows).2 := by
  obtain ⟨r, hr, haccepts⟩ := h
  unfold accepts at haccepts
  cases hd : bag.discipline with
  | tuples arity =>
      simp only [hd] at haccepts
      rw [pack, hd]
      dsimp only
      split
      · next hnone => exact absurd haccepts (List.filter_eq_nil_iff.mp hnone r hr)
      · exact Nat.succ_pos _
  | one keep arity =>
      cases keep with
      | first =>
          simp only [hd, unpack_isEmpty hd, Bool.and_eq_true, Option.isNone_iff_eq_none] at haccepts
          rw [pack, hd]
          dsimp only
          have hfound : (rows.find? (·.length == arity)).isSome := by
            rw [List.find?_isSome]
            exact ⟨r, hr, haccepts.2⟩
          obtain ⟨first, hfirst⟩ := Option.isSome_iff_exists.mp hfound
          rw [haccepts.1, hfirst]
          exact Nat.one_pos
      | mostRecent =>
          simp only [hd] at haccepts
          rw [pack, hd]
          dsimp only
          have hmem : r ∈ rows.filter (·.length == arity) := List.mem_filter.mpr ⟨hr, haccepts⟩
          cases hlast : (rows.filter (·.length == arity)).getLast? with
          | none =>
              rw [List.getLast?_eq_none_iff] at hlast
              rw [hlast] at hmem
              cases hmem
          | some last => exact Nat.one_pos
  | grouped keys kinds =>
      simp only [hd] at haccepts
      rw [pack, hd]
      dsimp only
      split
      · next hnone =>
          have hrefused := Groups.groups_ofRows_eq_nil_iff.mp (List.isEmpty_iff.mp hnone) r hr
          rw [haccepts] at hrefused
          cases hrefused
      · rw [Groups.observeAll_snd]
        exact List.length_pos_of_mem (List.mem_filter.mpr ⟨hr, haccepts⟩)
  | disabled =>
      simp only [hd] at haccepts
      cases haccepts

/-- A pack keeps nothing if and only if no row is accepted. -/
theorem pack_snd_eq_zero_iff :
    (bag.pack version b rows).2 = 0 ↔ ∀ r ∈ rows, bag.accepts b r = false := by
  constructor
  · intro hzero r hr
    by_contra haccepts
    have hpos := pack_snd_pos version ⟨r, hr, Bool.eq_true_of_not_eq_false haccepts⟩
    omega
  · intro h
    rw [pack_of_refused h]

/-! ## What a pack does to its bag -/

/-- The entries of a bag after a pack, but for the version of the one that is written, if one is. -/
structure Left where
  archived : List Entry
  /-- The ACTIVE entries from before. -/
  kept : List Entry
  /-- The clock and the rows of the new entry, which comes last. -/
  written : Option (Nat × List Row)
deriving DecidableEq

/-- A bag has these entries, where `version` has been drawn for the new one. -/
structure Left.In (x : Left) (id : BagId) (version : UInt64) (b : Baggage) : Prop where
  archived : b.archivedEntries id = x.archived
  active : b.activeEntries id =
    x.kept ++ (x.written.map fun (clock, rows) => (⟨clock, version, rows⟩ : Entry)).toList

/-- What a change leaves in a bag depends on the entries of this bag. -/
theorem Change.left_in (x : Change) (id : BagId) (b : Baggage) :
    ∃ left : Left, ∀ c, Same id b c → ∀ version, left.In id version (x.apply id version c) := by
  have hclock : ∀ {c}, Same id b c → c.nextClock id = b.nextClock id := by
    intro c h
    rw [Baggage.nextClock, Baggage.nextClock, h.entries]
  cases x with
  | none =>
      refine ⟨⟨b.archivedEntries id, b.activeEntries id, .none⟩, fun c h version => ⟨h.2.symm, ?_⟩⟩
      simp [apply, h.1]
  | push rows =>
      refine ⟨⟨b.archivedEntries id, b.activeEntries id, some (b.nextClock id, rows)⟩,
        fun c h version => ⟨h.2.symm, ?_⟩⟩
      simp [apply, activeEntries_push, Baggage.nextEntry, hclock h, h.1]
  | replaceActive rows =>
      refine ⟨⟨b.archivedEntries id, [], some (b.nextClock id, rows)⟩,
        fun c h version => ⟨h.2.symm, ?_⟩⟩
      simp [apply, activeEntries_replaceActive, Baggage.nextEntry, hclock h]
  | supersede rows =>
      refine ⟨⟨[], [], some (b.nextClock id, rows)⟩,
        fun c h version => ⟨archivedEntries_supersede .., ?_⟩⟩
      simp [apply, activeEntries_supersede, Baggage.nextEntry, hclock h]

end Bag

/-! ## Runs that agree on what a plan reads -/

/-- Two invocations of a plan agree on its observed values, where one that is missing is null,
on the bags it unpacks and on the bag it packs. -/
structure AdviceSpec.Agree (p : AdviceSpec String) (b c : Baggage) (observed observed' : Row) :
    Prop where
  observed : ∀ i < p.observe.length, observed.getD i .null = observed'.getD i .null
  unpacked : ∀ u ∈ p.unpack, Bag.Same u.bagId b c
  own : ∀ id bag, p.output = .pack id bag → Bag.Same id b c

namespace Advice

variable {p : AdviceSpec String} {sinks₀ sinks₁ : Sinks} {enabled : Bool}
  {a : Advice} {b c : Baggage}
  {observed observed' : Row}

theorem padded_congr {n : Nat} (h : ∀ i < n, observed.getD i .null = observed'.getD i .null) :
    padded n observed = padded n observed' := by
  have hnames (r : Row) := @AdviceSpec.observed_eq_padded r (List.replicate n "")
  rw [List.length_replicate] at hnames
  rw [← hnames, ← hnames]
  refine List.map_congr_left fun x hx => h x.2 ?_
  simpa using List.snd_lt_of_mem_zipIdx hx

theorem candidates_congr (h : create p sinks₀ enabled = .ok (a, sinks₁))
    (hagree : p.Agree b c observed observed') :
    a.candidates b observed = a.candidates c observed' := by
  have hbags : (a.unpacks.map fun u => (u.bag.unpack b).filter (·.length == u.columns)) =
      a.unpacks.map fun u => (u.bag.unpack c).filter (·.length == u.columns) := by
    rw [(resolves_of_create h).unpacks, List.map_map, List.map_map]
    refine List.map_congr_left fun u hu => ?_
    have hsame : (Bag.create u.bagId u.bag enabled).unpack b =
        (Bag.create u.bagId u.bag enabled).unpack c := by
      apply Bag.Same.unpack
      rw [Bag.id_create]
      exact hagree.unpacked u hu
    simp only [Function.comp_apply, hsame]
  rw [candidates, candidates, hbags, (parts_of_create h).1, padded_congr hagree.observed]

theorem target_of_pack (h : create p sinks₀ enabled = .ok (a, sinks₁)) {id : BagId}
    {bag : BagSpec String} (hout : p.output = .pack id bag) :
    a.target = .pack (Bag.create id bag enabled) := by
  rw [(resolves_of_create h).target, hout]
  rfl

theorem target_of_emit (h : create p sinks₀ enabled = .ok (a, sinks₁)) {id : QueryId}
    {bag : BagSpec String} (hout : p.output = .emit id bag) :
    a.target = .emit (sinks₀.create id bag).1 := by
  rw [(resolves_of_create h).target, hout]
  rfl

theorem rowsOut_of_pack {bag : Bag} (ht : a.target = .pack bag) (version : UInt64) (sinks : Sinks) :
    (a.run version sinks b observed).1.rowsOut =
      (bag.pack version b (a.survivors b observed)).2 := by
  rw [run_eq_accept, ← survivors, ht]
  cases a.survivors b observed with
  | nil => rw [Bag.pack_of_refused (List.forall_mem_nil _)]; rfl
  | cons r rs => rfl

/-- A run that emits, has no rows left or none that the bag takes does not change the baggage. -/
theorem run_baggage_eq (h : create p sinks₀ enabled = .ok (a, sinks₁)) (version : UInt64)
    (sinks : Sinks) (hidle : (∃ id bag, p.output = .emit id bag) ∨ a.survivors b observed = [] ∨
      ∃ id bag, p.output = .pack id bag ∧
        ∀ r ∈ a.survivors b observed, (Bag.create id bag enabled).accepts b r = false) :
    (a.run version sinks b observed).2.2 = b := by
  rw [run_leave, leave]
  rcases hidle with ⟨id, bag, hout⟩ | hnone | ⟨id, bag, hout, hrefused⟩
  · rw [target_of_emit h hout]
  · cases a.target with
    | pack bag =>
        dsimp only
        rw [hnone, pack_nil]
    | emit sink => rfl
  · rw [target_of_pack h hout]
    dsimp only
    rw [Bag.pack_of_refused hrefused]

theorem run_same (h : create p sinks₀ enabled = .ok (a, sinks₁)) {id other : BagId}
    {bag : BagSpec String} (hout : p.output = .pack id bag) (hne : other ≠ id) (version : UInt64)
    (sinks : Sinks) : Bag.Same other b (a.run version sinks b observed).2.2 := by
  rw [run_leave, leave, target_of_pack h hout]
  apply Bag.same_pack
  rw [Bag.id_create]
  exact hne

section Agree

variable (h : create p sinks₀ enabled = .ok (a, sinks₁)) (hagree : p.Agree b c observed observed')

include h hagree

theorem survivors_congr : a.survivors b observed = a.survivors c observed' := by
  rw [survivors, survivors, candidates_congr h hagree]

theorem run_stats_congr (version version' : UInt64) (sinks sinks' : Sinks) :
    (a.run version sinks b observed).1 = (a.run version' sinks' c observed').1 := by
  have hout : (a.run version sinks b observed).1.rowsOut =
      (a.run version' sinks' c observed').1.rowsOut := by
    cases hout : p.output with
    | pack id bag =>
        have ht := target_of_pack h hout
        obtain ⟨x, n, hpack⟩ :=
          Bag.pack_eq_apply (Bag.create id bag enabled) b (a.survivors b observed)
        rw [rowsOut_of_pack ht, rowsOut_of_pack ht, ← survivors_congr h hagree,
          hpack b .refl, hpack c]
        rw [Bag.id_create]
        exact hagree.own id bag hout
    | emit id bag =>
        rw [run_eq_accept, run_eq_accept, ← survivors, ← survivors, ← survivors_congr h hagree,
          target_of_emit h hout]
        dsimp only
        -- A sink counts by its layout, whatever it holds and whether it is still within reach.
        rw [Target.accept_snd_eq_of_emit, Target.accept_snd_eq_of_emit]
  rw [run_eq_accept, run_eq_accept] at hout ⊢
  rw [candidates_congr h hagree] at hout ⊢
  exact congrArg (Stats.mk _ _) hout

theorem emitted_congr : a.emitted b observed = a.emitted c observed' := by
  rw [emitted, emitted, survivors_congr h hagree]

theorem run_sinks_congr (version version' : UInt64) (sinks : Sinks) :
    (a.run version sinks b observed).2.1 = (a.run version' sinks c observed').2.1 := by
  rw [run_filled, run_filled, filled, filled, survivors_congr h hagree]

theorem run_left {id : BagId} {bag : BagSpec String} (hout : p.output = .pack id bag) :
    ∃ left : Bag.Left, ∀ version sinks sinks',
      left.In id version (a.run version sinks b observed).2.2 ∧
      left.In id version (a.run version sinks' c observed').2.2 := by
  have hown : Bag.Same (Bag.create id bag enabled).id b c := by
    rw [Bag.id_create]
    exact hagree.own id bag hout
  obtain ⟨x, n, hpack⟩ := Bag.pack_eq_apply (Bag.create id bag enabled) b (a.survivors b observed)
  obtain ⟨left, hleft⟩ := x.left_in (Bag.create id bag enabled).id b
  refine ⟨left, fun version sinks sinks' => ?_⟩
  rw [run_leave, run_leave, leave, leave, target_of_pack h hout]
  dsimp only
  rw [← survivors_congr h hagree, hpack b .refl, hpack c hown]
  have hb := hleft b .refl version
  have hc := hleft c hown version
  rw [Bag.id_create] at hb hc ⊢
  exact ⟨hb, hc⟩

end Agree

/-- A run touches its own output only. It leaves the baggage alone if it emits, has no rows left or
is refused by its bag, and all bags but its own if it packs. What it reports and hands on, and what
it leaves in its bag up to the version of the new entry, is the same wherever the observed values of
the plan and the entries of its bags are the same; surplus observed values are overwritten where a
row has a place for every name. -/
theorem run_touches_own_output (h : create p sinks₀ enabled = .ok (a, sinks₁)) :
    (∀ version sinks b observed,
      ((∃ id bag, p.output = .emit id bag) ∨ a.survivors b observed = [] ∨
        (∃ id bag, p.output = .pack id bag ∧
          ∀ r ∈ a.survivors b observed, (Bag.create id bag enabled).accepts b r = false) →
        (a.run version sinks b observed).2.2 = b) ∧
      ∀ id bag, p.output = .pack id bag →
        ((a.run version sinks b observed).1.rowsOut = 0 ↔
          ∀ r ∈ a.survivors b observed, (Bag.create id bag enabled).accepts b r = false) ∧
        ∀ other, other ≠ id → Bag.Same other b (a.run version sinks b observed).2.2) ∧
    (∀ b c observed observed', p.Agree b c observed observed' →
      (∀ version version' sinks sinks',
        (a.run version sinks b observed).1 = (a.run version' sinks' c observed').1) ∧
      a.emitted b observed = a.emitted c observed' ∧
      (∀ version version' sinks,
        (a.run version sinks b observed).2.1 = (a.run version' sinks c observed').2.1) ∧
      ∀ id bag, p.output = .pack id bag → ∃ left : Bag.Left, ∀ version sinks sinks',
        left.In id version (a.run version sinks b observed).2.2 ∧
        left.In id version (a.run version sinks' c observed').2.2) ∧
    ∀ version sinks b observed,
      a.runInPlace version sinks b observed = .ok (a.run version sinks b observed) := by
  refine ⟨fun version sinks b observed =>
    ⟨run_baggage_eq h version sinks, fun id bag hout => ⟨?_, ?_⟩⟩,
    fun b c observed observed' hagree => ⟨?_, ?_, ?_, ?_⟩, runInPlace_eq h⟩
  · rw [rowsOut_of_pack (target_of_pack h hout)]
    exact Bag.pack_snd_eq_zero_iff
  · exact fun other hne => run_same h hout hne version sinks
  · exact run_stats_congr h hagree
  · exact emitted_congr h hagree
  · exact run_sinks_congr h hagree
  · exact fun id bag hout => run_left h hagree hout

namespace Sample

/-- Twice the coupons of a day, added up. -/
def doubled : AdviceSpec String where
  observe := ["day"]
  unpack := [⟨⟨⟨0⟩, 1⟩, .tuple ["coupon"]⟩]
  lets := [⟨"twice", "{} * 2", ["coupon"]⟩]
  wheres := []
  output := .pack ⟨⟨0⟩, 2⟩ (.groupBy ["day"] [⟨"twice", .sum⟩])

/-- The coupons of the shelf without its items. -/
def coupons : Baggage := { shelf with active := shelf.active.drop 1 }

end Sample

open Advice.Sample in
/-- Three values too many, and a bag more that the plan does not read. -/
theorem run_touches_own_output_doubled : ∃ a sinks,
    create doubled (.start false 1000) true = .ok (a, sinks) ∧
    (a.run 7 sinks shelf [.str "mon", .int 9, .int 9, .int 9]).1 = ⟨3, 1, 2⟩ ∧
    (a.run 8 sinks coupons [.str "mon"]).1 = ⟨3, 1, 2⟩ ∧
    Bag.Same ⟨⟨0⟩, 0⟩ shelf (a.run 7 sinks shelf [.str "mon", .int 9, .int 9, .int 9]).2.2 ∧
    (a.runInPlace 7 sinks shelf [.str "mon", .int 9, .int 9, .int 9]).isOk := by
  have hok : (create doubled (.start false 1000) true).isOk := by decide +kernel
  obtain ⟨⟨a, sinks⟩, h⟩ := exists_of_isOk hok
  have hstats : (create doubled (.start false 1000) true).toOption.map (fun r =>
      (r.1.run 8 r.2 coupons [.str "mon"]).1) = some ⟨3, 1, 2⟩ := by decide +kernel
  rw [h] at hstats
  have hcoupons : (a.run 8 sinks coupons [.str "mon"]).1 = ⟨3, 1, 2⟩ := Option.some.inj hstats
  have hagree : doubled.Agree shelf coupons [.str "mon", .int 9, .int 9, .int 9] [.str "mon"] := by
    refine ⟨?_, ?_, ?_⟩
    · decide
    · intro u hu
      obtain rfl := List.mem_singleton.mp hu
      exact ⟨rfl, rfl⟩
    · rintro id bag ⟨⟩
      exact ⟨rfl, rfl⟩
  obtain ⟨hframe, hcongr, hplace⟩ := run_touches_own_output h
  have hsame := (hcongr _ _ _ _ hagree).1 7 8 sinks sinks
  refine ⟨a, sinks, h, hsame.trans hcoupons, hcoupons, ?_, ?_⟩
  · exact ((hframe 7 sinks shelf _).2 _ _ rfl).2 _ (by decide)
  · rw [hplace]
    rfl

end Advice

end CausalTrace
