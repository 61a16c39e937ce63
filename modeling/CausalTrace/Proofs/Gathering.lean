import CausalTrace.Proofs.Branching
import CausalTrace.Proofs.Tallies
import Mathlib.Algebra.BigOperators.Group.Finset.Basic
import Mathlib.Data.Multiset.Bind

/-!
# Every pack counts once

A bag that gathers rows holds entries each of which stands for some packs: a bag of tuples
writes an entry for every pack, a bag of groups replaces its ACTIVE entries by one that
stands for their packs too. No pack is stood for by two entries that are found in any
branches, so whatever a branch reads from the bag counts every pack of its past once.
-/

namespace CausalTrace

/-- A discipline that keeps something of every row it accepts. -/
def Discipline.Gathers : Discipline → Prop
  | .tuples _ => True
  | .grouped _ _ => True
  | .one _ _ => False
  | .disabled => False

/-- A discipline that folds its ACTIVE entries into one. -/
def Discipline.Folds : Discipline → Prop
  | .grouped _ _ => True
  | .tuples _ => False
  | .one _ _ => False
  | .disabled => False

namespace Bag

variable {bag : Bag} {b : Baggage} {rows : List Row} {version : UInt64}

theorem combineRows_append (g : Groups) (rs ss : List Row) :
    g.combineRows (rs ++ ss) = (g.combineRows rs).combineRows ss :=
  List.foldl_append ..

/-- Entries that hold groups read as the groups of all rows. -/
theorem combineRows_flatMap {α : Type} {keys : Nat} {kinds : List Aggregation} (xs : List α)
    (rowsOf : α → List Row) :
    (Groups.empty keys kinds).combineRows
        (xs.flatMap fun x => (Groups.ofRows keys kinds (rowsOf x)).rows) =
      Groups.ofRows keys kinds (xs.flatMap rowsOf) := by
  induction xs using List.reverseRecOn with
  | nil => rfl
  | append_singleton xs x ih =>
      rw [List.flatMap_append, List.flatMap_append, combineRows_append, ih, List.flatMap_singleton,
        List.flatMap_singleton, Groups.combineRows_ofRows]

theorem pack_of_keeps_nil (hd : bag.discipline.Gathers) (hnone : bag.discipline.keeps rows = []) :
    (bag.pack version b rows).1 = b := by
  rw [pack]
  cases hdisc : bag.discipline with
  | tuples arity =>
      have hfilter : rows.filter (·.length == arity) = [] := by
        rw [hdisc] at hnone
        exact hnone
      simp only [hfilter]
  | grouped keys kinds =>
      have hgroups : ((Groups.empty keys kinds).observeAll rows).1.groups = [] := by
        rw [hdisc] at hnone
        exact List.map_eq_nil_iff.mp hnone
      simp only [hgroups, List.isEmpty_nil, if_true]
  | one keep arity =>
      rw [hdisc] at hd
      cases hd
  | disabled => rfl

/-- What is kept of a pack becomes an ACTIVE entry; it takes in what is kept in some of the
ACTIVE entries before, if the bag folds them, and leaves the others alone. -/
structure Absorbs (bag : Bag) (b : Baggage) (version : UInt64) (rows : List Row)
    (rest taken : List Entry) (new : Entry) : Prop where
  before : b.activeEntries bag.id = rest ++ taken
  after : (bag.pack version b rows).1.activeEntries bag.id = rest ++ [new]
  archived : (bag.pack version b rows).1.archivedEntries bag.id = b.archivedEntries bag.id
  drawn : new.version = version
  folds : taken = [] ∨ bag.discipline.Folds
  keeps : ∀ rowsOf : Entry → List Row, (∀ x ∈ taken, x.rows = bag.discipline.keeps (rowsOf x)) →
    new.rows = bag.discipline.keeps (taken.flatMap rowsOf ++ rows)

theorem exists_absorbs (b : Baggage) (version : UInt64) (hd : bag.discipline.Gathers)
    (hsome : bag.discipline.keeps rows ≠ []) :
    ∃ rest taken new, bag.Absorbs b version rows rest taken new := by
  cases hdisc : bag.discipline with
  | tuples arity =>
      have hkeeps : bag.discipline.keeps rows = rows.filter (·.length == arity) := by
        rw [hdisc]
        rfl
      cases hkept : rows.filter (·.length == arity) with
      | nil => exact absurd (hkeeps.trans hkept) hsome
      | cons r rs =>
          have hpack : (bag.pack version b rows).1 = b.push bag.id version (r :: rs) := by
            rw [pack, hdisc]
            simp only [hkept]
          refine ⟨b.activeEntries bag.id, [], b.nextEntry bag.id version (r :: rs),
            ⟨(List.append_nil _).symm, ?_, ?_, rfl, .inl rfl, fun rowsOf _ => ?_⟩⟩
          · rw [hpack]
            exact activeEntries_push _ _
          · rw [hpack]
            rfl
          · exact (hkeeps.trans hkept).symm
  | grouped keys kinds =>
      have hkeeps : ∀ rs, bag.discipline.keeps rs = (Groups.ofRows keys kinds rs).rows := by
        rw [hdisc]
        exact fun _ => rfl
      have hpack : (bag.pack version b rows).1 = b.replaceActive bag.id version
          (((Groups.empty keys kinds).combineRows (allRows (b.activeEntries bag.id))).combineRows
            (Groups.ofRows keys kinds rows).rows).rows := by
        have hgroups : ¬ (Groups.ofRows keys kinds rows).groups.isEmpty := fun hnone =>
          hsome ((hkeeps rows).trans (List.map_eq_nil_iff.mpr (List.isEmpty_iff.mp hnone)))
        rw [pack, hdisc]
        exact congrArg Prod.fst (if_neg hgroups)
      refine ⟨[], b.activeEntries bag.id, _, ⟨(List.nil_append _).symm,
        hpack ▸ activeEntries_replaceActive _ _, ?_, rfl, .inr (hdisc ▸ trivial),
        fun rowsOf htaken => ?_⟩⟩
      · rw [hpack]
        rfl
      · have hactive : allRows (b.activeEntries bag.id) = (b.activeEntries bag.id).flatMap fun x =>
            (Groups.ofRows keys kinds (rowsOf x)).rows :=
          List.flatMap_congr fun x hx => (htaken x hx).trans (hkeeps _)
        rw [hkeeps]
        show (((Groups.empty keys kinds).combineRows (allRows (b.activeEntries bag.id))).combineRows
          (Groups.ofRows keys kinds rows).rows).rows = _
        rw [hactive, combineRows_flatMap, Groups.combineRows_ofRows]
  | one keep arity =>
      rw [hdisc] at hd
      cases hd
  | disabled =>
      rw [hdisc] at hd
      cases hd

variable {rest taken : List Entry} {new x : Entry}

theorem Absorbs.mem_before (h : bag.Absorbs b version rows rest taken new) :
    x ∈ b.entries bag.id ↔ x ∈ b.archivedEntries bag.id ∨ x ∈ rest ∨ x ∈ taken := by
  rw [Baggage.mem_entries, h.before, List.mem_append]

theorem Absorbs.mem_after (h : bag.Absorbs b version rows rest taken new) :
    x ∈ (bag.pack version b rows).1.entries bag.id ↔
      x ∈ b.archivedEntries bag.id ∨ x ∈ rest ∨ x = new := by
  rw [Baggage.mem_entries, h.archived, h.after, List.mem_append, List.mem_singleton]

/-- What is taken in does not stay. -/
theorem Absorbs.apart (h : bag.Absorbs b version rows rest taken new)
    (hn : ((b.entries bag.id).map (·.version)).Nodup)
    (hx : x ∈ b.archivedEntries bag.id ∨ x ∈ rest) :
    ∀ z ∈ taken, z.version ≠ x.version := by
  rw [Baggage.entries, h.before, List.map_append, List.map_append, List.nodup_append,
    List.nodup_append] at hn
  obtain ⟨_, ⟨_, _, hrest⟩, harchived⟩ := hn
  intro z hz he
  have hz := List.mem_map_of_mem (f := (·.version)) hz
  rcases hx with hx | hx
  · exact harchived _ (List.mem_map_of_mem hx) _ (List.mem_append_right _ hz) he.symm
  · exact hrest _ (List.mem_map_of_mem hx) _ hz he.symm

theorem Absorbs.nodup_taken (h : bag.Absorbs b version rows rest taken new)
    (hn : ((b.entries bag.id).map (·.version)).Nodup) : (taken.map (·.version)).Nodup := by
  rw [Baggage.entries, h.before, ← List.append_assoc, List.map_append] at hn
  exact List.Nodup.of_append_right hn

end Bag

/-! ## What entries stand for -/

/-- The pack is one into this bag and leaves something there. -/
def Bag.Counts (bag : Bag) (e : Event) : Prop := e.bag = bag ∧ bag.discipline.keeps e.rows ≠ []

namespace Branches

variable {bs bs' : Branches} {bag : Bag} {cover : UInt64 → List Event} {es : List Event}
  {e : Event} {i j : Nat} {br other : Branch} {x y new : Entry} {rest taken : List Entry}

/-- The entry is found in the bag of some branch. -/
def Live (bs : Branches) (id : BagId) (x : Entry) : Prop :=
  ∃ i br, bs i = some br ∧ x ∈ br.baggage.entries id

/-- Every live entry of a bag stands for some packs: it holds what is kept of their rows, no
pack is stood for twice, and in each branch these are the packs of its past that count. -/
structure Covers (bag : Bag) (cover : UInt64 → List Event) (bs : Branches) : Prop where
  nodup : ∀ x, bs.Live bag.id x → (cover x.version).Nodup
  rows : ∀ x, bs.Live bag.id x →
    x.rows = bag.discipline.keeps ((cover x.version).flatMap (·.rows))
  single : ∀ x y e, bs.Live bag.id x → bs.Live bag.id y →
    e ∈ cover x.version → e ∈ cover y.version → x.version = y.version
  past : ∀ i br, bs i = some br → ∀ e,
    (∃ x ∈ br.baggage.entries bag.id, e ∈ cover x.version) ↔ e ∈ br.past ∧ bag.Counts e

theorem live_update (h : Live (Function.update bs i (some br)) bag.id x) :
    x ∈ br.baggage.entries bag.id ∨
      ∃ k other, k ≠ i ∧ bs k = some other ∧ x ∈ other.baggage.entries bag.id := by
  obtain ⟨k, other, hk, hx⟩ := h
  rcases eq_or_of_update hk with ⟨rfl, rfl⟩ | ⟨hi, hk⟩
  · exact .inl hx
  · exact .inr ⟨k, other, hi, hk, hx⟩

theorem covers_start : Covers bag (fun _ => []) start := by
  have hnone : ∀ x, ¬ start.Live bag.id x := by
    rintro x ⟨i, br, hi, hx⟩
    rw [eq_of_start hi] at hx
    cases hx
  refine ⟨fun x hx => absurd hx (hnone x), fun x hx => absurd hx (hnone x),
    fun x _ _ hx => absurd hx (hnone x), fun i br hi e => ⟨?_, ?_⟩⟩
  · rintro ⟨x, hx, _⟩
    exact absurd ⟨i, br, hi, hx⟩ (hnone x)
  · rintro ⟨he, _⟩
    rw [eq_of_start hi] at he
    exact absurd he (Finset.notMem_empty e)

/-- Entries that cannot be told apart otherwise stand for different packs. -/
theorem Covers.nodup_flatMap (h : Covers bag cover bs) {xs : List Entry}
    (hlive : ∀ x ∈ xs, bs.Live bag.id x) (hn : (xs.map (·.version)).Nodup) :
    (xs.flatMap fun x => cover x.version).Nodup := by
  refine List.nodup_flatMap.mpr ⟨fun x hx => h.nodup x (hlive x hx), ?_⟩
  refine (List.pairwise_map.mp hn).imp_of_mem ?_
  intro x y hx hy hne e hex hey
  exact hne (h.single x y e (hlive x hx) (hlive y hy) hex hey)

/-- A branch is replaced by one without new entries. -/
theorem Covers.replace (h : Covers bag cover bs)
    (hlive : ∀ x ∈ br.baggage.entries bag.id, bs.Live bag.id x)
    (hpast : ∀ e, (∃ x ∈ br.baggage.entries bag.id, e ∈ cover x.version) ↔
      e ∈ br.past ∧ bag.Counts e) : Covers bag cover (Function.update bs i (some br)) := by
  have hall : ∀ x, Live (Function.update bs i (some br)) bag.id x → bs.Live bag.id x := by
    intro x hx
    rcases live_update hx with hx | ⟨k, other, _, hk, hx⟩
    · exact hlive x hx
    · exact ⟨k, other, hk, hx⟩
  refine ⟨fun x hx => h.nodup x (hall x hx), fun x hx => h.rows x (hall x hx),
    fun x y e hx hy => h.single x y e (hall x hx) (hall y hy), fun k other hk => ?_⟩
  rcases eq_or_of_update hk with ⟨rfl, rfl⟩ | ⟨hi, hk⟩
  · exact hpast
  · exact h.past k other hk

theorem Covers.erase (h : Covers bag cover bs) (j : Nat) :
    Covers bag cover (Function.update bs j none) := by
  have hback : ∀ k other, Function.update bs j none k = some other → bs k = some other :=
    fun _ _ hk => (of_update_none hk).2
  have hall : ∀ x, Live (Function.update bs j none) bag.id x → bs.Live bag.id x := by
    rintro x ⟨k, other, hk, hx⟩
    exact ⟨k, other, hback k other hk, hx⟩
  exact ⟨fun x hx => h.nodup x (hall x hx), fun x hx => h.rows x (hall x hx),
    fun x y e hx hy => h.single x y e (hall x hx) (hall y hy),
    fun k other hk => h.past k other (hback k other hk)⟩

/-! ### Each action -/

theorem Covers.archive (h : Covers bag cover bs) (hs : bs.Coherent es) (hi : bs i = some br) :
    Covers bag cover (Function.update bs i (some br.archive)) := by
  have hmem : ∀ x, x ∈ br.archive.baggage.entries bag.id ↔ x ∈ br.baggage.entries bag.id :=
    fun _ => Baggage.mem_entries_archiveActive (hs.tidy hi)
  refine h.replace (fun x hx => ⟨i, br, hi, (hmem x).mp hx⟩) fun e => ?_
  exact (exists_congr fun x => and_congr_left fun _ => hmem x).trans (h.past i br hi e)

theorem Covers.copy (h : Covers bag cover bs) (hi : bs i = some br) (j : Nat) :
    Covers bag cover (Function.update bs j (some br)) :=
  h.replace (fun _ hx => ⟨i, br, hi, hx⟩) (h.past i br hi)

theorem Covers.join (h : Covers bag cover bs) (hs : bs.Coherent es) (hi : bs i = some br)
    (hj : bs j = some other) (hne : i ≠ j) :
    Covers bag cover (Function.update (Function.update bs j none) i (some (br.join other))) := by
  have hmem : ∀ x, x ∈ (br.join other).baggage.entries bag.id ↔
      x ∈ br.baggage.entries bag.id ∨ x ∈ other.baggage.entries bag.id :=
    fun _ => Baggage.mem_entries_join (hs.mergeable hi hj)
  have hjoined : Covers bag cover (Function.update bs i (some (br.join other))) := by
    refine h.replace (fun x hx => ?_) fun e => ?_
    · rcases (hmem x).mp hx with hx | hx
      · exact ⟨i, br, hi, hx⟩
      · exact ⟨j, other, hj, hx⟩
    · have hunion : e ∈ (br.join other).past ↔ e ∈ br.past ∨ e ∈ other.past := Finset.mem_union
      rw [hunion, or_and_right, ← h.past i br hi e, ← h.past j other hj e]
      constructor
      · rintro ⟨x, hx, he⟩
        exact ((hmem x).mp hx).imp (fun hx => ⟨x, hx, he⟩) fun hx => ⟨x, hx, he⟩
      · rintro (⟨x, hx, he⟩ | ⟨x, hx, he⟩)
        · exact ⟨x, (hmem x).mpr (.inl hx), he⟩
        · exact ⟨x, (hmem x).mpr (.inr hx), he⟩
  rw [Function.update_comm hne.symm]
  exact hjoined.erase j

/-- A pack that leaves nothing in the bag. -/
theorem Covers.pack_none (h : Covers bag cover bs) (hi : bs i = some br)
    (hsame : (br.pack e).baggage.entries bag.id = br.baggage.entries bag.id)
    (hnot : ¬ bag.Counts e) : Covers bag cover (Function.update bs i (some (br.pack e))) := by
  refine h.replace (fun x hx => ⟨i, br, hi, hsame ▸ hx⟩) fun e' => ?_
  have hinsert : e' ∈ (br.pack e).past ↔ e' = e ∨ e' ∈ br.past := Finset.mem_insert
  rw [hsame, h.past i br hi e', hinsert]
  refine and_congr_left fun hcounts => (or_iff_right ?_).symm
  rintro rfl
  exact hnot hcounts

/-- What a branch has ACTIVE in a bag is found in no other branch. -/
def Apart (bs : Branches) (id : BagId) (i : Nat) (br : Branch) : Prop :=
  ∀ k other, k ≠ i → bs k = some other →
    ∀ z ∈ br.baggage.activeEntries id, ∀ x ∈ other.baggage.entries id, z.version ≠ x.version

theorem Live.drawn {id : BagId} (h : bs.Live id x) (hs : bs.Coherent es) :
    x.version ∈ es.map (·.version) := by
  obtain ⟨k, other, hk, hx⟩ := h
  exact hs.drawn hk _ x hx

theorem Covers.not_mem_of_fresh (h : Covers bag cover bs) (hs : bs.Coherent es)
    (hfresh : e.version ∉ es.map (·.version)) (hx : bs.Live bag.id x) : e ∉ cover x.version := by
  obtain ⟨k, other, hk, hx⟩ := hx
  intro he
  have hpast := ((h.past k other hk e).mp ⟨x, hx, he⟩).1
  exact hfresh (List.mem_map_of_mem (hs.past hk e hpast))

/-- What entries stand for after a pack: the new one for what it takes in, and for the pack. -/
def coverWith (cover : UInt64 → List Event) (taken : List Entry) (e : Event) :
    UInt64 → List Event :=
  Function.update cover e.version ((taken.flatMap fun x => cover x.version) ++ [e])

theorem coverWith_of_live {id : BagId} (hs : bs.Coherent es)
    (hfresh : e.version ∉ es.map (·.version)) (hx : bs.Live id x) :
    coverWith cover taken e x.version = cover x.version := by
  refine Function.update_of_ne (fun he => hfresh ?_) _ _
  rw [← he]
  exact hx.drawn hs

/-! ### A pack that counts -/

section

variable (h : Covers e.bag cover bs) (hs : bs.Coherent es) (hi : bs i = some br)
  (hfresh : e.version ∉ es.map (·.version))
  (hab : e.bag.Absorbs br.baggage e.version e.rows rest taken new)

include hab

theorem coverWith_new : coverWith cover taken e new.version =
    (taken.flatMap fun x => cover x.version) ++ [e] := by
  rw [hab.drawn]
  exact Function.update_self ..

theorem mem_coverWith_new {e' : Event} : e' ∈ coverWith cover taken e new.version ↔
    (∃ z ∈ taken, e' ∈ cover z.version) ∨ e' = e := by
  rw [coverWith_new hab, List.mem_append, List.mem_flatMap, List.mem_singleton]

include hi

theorem live_of_taken : ∀ z ∈ taken, bs.Live e.bag.id z := fun _ hz =>
  ⟨i, br, hi, hab.mem_before.mpr (.inr (.inr hz))⟩

include hs

/-- Whatever is live after the pack is the new entry, or has been live and was not taken in. -/
theorem live_pack (hapart : e.bag.discipline.Folds → bs.Apart e.bag.id i br)
    (hx : Live (Function.update bs i (some (br.pack e))) e.bag.id x) :
    x = new ∨ bs.Live e.bag.id x ∧ ∀ z ∈ taken, z.version ≠ x.version := by
  have hversions := (hs.tidy hi).versions e.bag.id
  rcases live_update hx with hx | ⟨k, other, hne, hk, hx⟩
  · rcases hab.mem_after.mp hx with hx | hx | rfl
    · exact .inr ⟨⟨i, br, hi, hab.mem_before.mpr (.inl hx)⟩, hab.apart hversions (.inl hx)⟩
    · exact .inr ⟨⟨i, br, hi, hab.mem_before.mpr (.inr (.inl hx))⟩, hab.apart hversions (.inr hx)⟩
    · exact .inl rfl
  · refine .inr ⟨⟨k, other, hk, hx⟩, fun z hz => ?_⟩
    rcases hab.folds with rfl | hfolds
    · cases hz
    · exact hapart hfolds k other hne hk z (hab.before ▸ List.mem_append_right rest hz) x hx

include h hfresh

/-- The new entry stands for no pack that an entry stands for which stays. -/
theorem Covers.new_apart {y : Entry} {e' : Event} (hy : bs.Live e.bag.id y)
    (hstays : ∀ z ∈ taken, z.version ≠ y.version)
    (hnew : e' ∈ coverWith cover taken e new.version) :
    e' ∉ cover y.version := by
  intro hey
  rcases (mem_coverWith_new hab).mp hnew with ⟨z, hz, hez⟩ | rfl
  · exact hstays z hz (h.single z y e' (live_of_taken hi hab z hz) hy hez hey)
  · exact h.not_mem_of_fresh hs hfresh hy hey

theorem Covers.nodup_new : (coverWith cover taken e new.version).Nodup := by
  have hlive := live_of_taken hi hab
  have hold := h.nodup_flatMap hlive (hab.nodup_taken ((hs.tidy hi).versions e.bag.id))
  rw [coverWith_new hab, List.nodup_append]
  refine ⟨hold, List.nodup_singleton _, ?_⟩
  rintro e' he' _ hm rfl
  obtain ⟨z, hz, hez⟩ := List.mem_flatMap.mp he'
  exact h.not_mem_of_fresh hs hfresh (hlive z hz) (List.mem_singleton.mp hm ▸ hez)

/-- The entries of the branch stand for the pack and for what they stood for before. -/
theorem Covers.past_pack {e' : Event} :
    (∃ x ∈ (br.pack e).baggage.entries e.bag.id, e' ∈ coverWith cover taken e x.version) ↔
      e' = e ∨ ∃ x ∈ br.baggage.entries e.bag.id, e' ∈ cover x.version := by
  have hsame : ∀ x ∈ br.baggage.entries e.bag.id,
      coverWith cover taken e x.version = cover x.version := fun x hx =>
    coverWith_of_live hs hfresh ⟨i, br, hi, hx⟩
  have hin : e' ∈ coverWith cover taken e new.version →
      ∃ x ∈ (br.pack e).baggage.entries e.bag.id, e' ∈ coverWith cover taken e x.version :=
    fun he' => ⟨new, hab.mem_after.mpr (.inr (.inr rfl)), he'⟩
  constructor
  · rintro ⟨x, hx, he'⟩
    rcases hab.mem_after.mp hx with hx | hx | rfl
    · have hbefore := hab.mem_before.mpr (.inl hx)
      exact .inr ⟨x, hbefore, hsame x hbefore ▸ he'⟩
    · have hbefore := hab.mem_before.mpr (.inr (.inl hx))
      exact .inr ⟨x, hbefore, hsame x hbefore ▸ he'⟩
    · rcases (mem_coverWith_new hab).mp he' with ⟨z, hz, hez⟩ | rfl
      · exact .inr ⟨z, hab.mem_before.mpr (.inr (.inr hz)), hez⟩
      · exact .inl rfl
  · rintro (rfl | ⟨x, hx, he'⟩)
    · exact hin ((mem_coverWith_new hab).mpr (.inr rfl))
    · rcases hab.mem_before.mp hx with hx' | hx' | hx'
      · exact ⟨x, hab.mem_after.mpr (.inl hx'), (hsame x hx).symm ▸ he'⟩
      · exact ⟨x, hab.mem_after.mpr (.inr (.inl hx')), (hsame x hx).symm ▸ he'⟩
      · exact hin ((mem_coverWith_new hab).mpr (.inl ⟨x, hx', he'⟩))

end

/-- A pack that counts: the entry it writes stands for it and for what it takes in. -/
theorem Covers.pack_some (h : Covers e.bag cover bs) (hs : bs.Coherent es) (hi : bs i = some br)
    (hapart : e.bag.discipline.Folds → bs.Apart e.bag.id i br)
    (hfresh : e.version ∉ es.map (·.version)) (hd : e.bag.discipline.Gathers)
    (hsome : e.bag.discipline.keeps e.rows ≠ []) :
    ∃ cover', Covers e.bag cover' (Function.update bs i (some (br.pack e))) := by
  obtain ⟨rest, taken, new, hab⟩ := Bag.exists_absorbs br.baggage e.version hd hsome
  have hcases : ∀ x, Live (Function.update bs i (some (br.pack e))) e.bag.id x →
      x = new ∨ bs.Live e.bag.id x ∧ ∀ z ∈ taken, z.version ≠ x.version := fun x =>
    live_pack hs hi hab hapart
  have hold : ∀ x, bs.Live e.bag.id x → coverWith cover taken e x.version = cover x.version :=
    fun x => coverWith_of_live hs hfresh
  refine ⟨coverWith cover taken e, ⟨fun x hx => ?_, fun x hx => ?_, fun x y e' hx hy hex hey => ?_,
    fun k other hk e' => ?_⟩⟩
  · rcases hcases x hx with rfl | ⟨hx, _⟩
    · exact h.nodup_new hs hi hfresh hab
    · rw [hold x hx]
      exact h.nodup x hx
  · rcases hcases x hx with rfl | ⟨hx, _⟩
    · rw [coverWith_new hab, List.flatMap_append, List.flatMap_singleton, List.flatMap_assoc]
      exact hab.keeps _ fun z hz => h.rows z (live_of_taken hi hab z hz)
    · rw [hold x hx]
      exact h.rows x hx
  · rcases hcases x hx with rfl | ⟨hx, hxapart⟩ <;> rcases hcases y hy with rfl | ⟨hy, hyapart⟩
    · rfl
    · exact absurd (hold y hy ▸ hey) (h.new_apart hs hi hfresh hab hy hyapart hex)
    · exact absurd (hold x hx ▸ hex) (h.new_apart hs hi hfresh hab hx hxapart hey)
    · rw [hold x hx] at hex
      rw [hold y hy] at hey
      exact h.single x y e' hx hy hex hey
  · rcases eq_or_of_update hk with ⟨rfl, rfl⟩ | ⟨hki, hk⟩
    · have hinsert : e' ∈ (br.pack e).past ↔ e' = e ∨ e' ∈ br.past := Finset.mem_insert
      have hcounts : e' = e → e.bag.Counts e' := by
        rintro rfl
        exact ⟨rfl, hsome⟩
      rw [hinsert, or_and_right, ← h.past k br hi e', and_iff_left_of_imp hcounts]
      exact h.past_pack hs hi hfresh hab
    · rw [← h.past k other hk e']
      exact exists_congr fun x => and_congr_right fun hx => by rw [hold x ⟨k, other, hk, hx⟩]

theorem Covers.pack (h : Covers bag cover bs) (hs : bs.Coherent es) (hi : bs i = some br)
    (hapart : bag.Counts e → bag.discipline.Folds → bs.Apart bag.id i br)
    (hfresh : e.version ∉ es.map (·.version)) (hd : bag.discipline.Gathers)
    (hspec : e.bag.id = bag.id → e.bag = bag) :
    ∃ cover', Covers bag cover' (Function.update bs i (some (br.pack e))) := by
  by_cases hcounts : bag.Counts e
  · have hapart := hapart hcounts
    obtain ⟨rfl, hsome⟩ := hcounts
    exact h.pack_some hs hi hapart hfresh hd hsome
  · refine ⟨cover, h.pack_none hi ?_ hcounts⟩
    by_cases hid : e.bag.id = bag.id
    · -- The pack is one into this bag, of rows that are all dropped.
      obtain rfl := hspec hid
      have hnone : e.bag.discipline.keeps e.rows = [] := by
        by_contra hsome
        exact hcounts ⟨rfl, hsome⟩
      have hsame : (br.pack e).baggage = br.baggage := Bag.pack_of_keeps_nil hd hnone
      rw [hsame]
    · have hsame : Bag.Same bag.id br.baggage (br.pack e).baggage := Bag.same_pack (Ne.symm hid)
      rw [Baggage.entries, Baggage.entries, hsame.1, hsame.2]

/-! ### Whole runs -/

theorem Covers.step {action : Action} (h : Covers bag cover bs) (hs : bs.Sound es)
    (hfresh : ((es ++ packs [action]).map (·.version)).Nodup) (hd : bag.discipline.Gathers)
    (hspec : ∀ e ∈ packs [action], e.bag.id = bag.id → e.bag = bag) :
    ∃ cover', Covers bag cover' (bs.step action) := by
  cases action with
  | pack i e =>
      have hnew : e.version ∉ es.map (·.version) :=
        version_not_mem_of_append hfresh (List.mem_singleton_self e)
      rw [Branches.step]
      cases hi : bs i with
      | none => exact ⟨cover, h.erase i⟩
      | some br =>
          refine h.pack hs.toCoherent hi (fun _ _ => ?_) hnew hd
            (hspec e (List.mem_singleton_self e))
          exact fun k other hne hk => hs.owns hi hk hne.symm _ _
  | split i j =>
      rw [Branches.step]
      cases hi : bs i with
      | none => exact ⟨cover, h⟩
      | some br => exact ⟨cover, (h.archive hs.toCoherent hi).copy (Function.update_self ..) j⟩
  | archive i =>
      rw [Branches.step]
      cases hi : bs i with
      | none => exact ⟨cover, h.erase i⟩
      | some br => exact ⟨cover, h.archive hs.toCoherent hi⟩
  | join i j =>
      rw [Branches.step]
      split
      · next br other hi hj =>
          split
          · exact ⟨cover, h⟩
          · next hne => exact ⟨cover, h.join hs.toCoherent hi hj hne⟩
      · exact ⟨cover, h⟩

/-- In every run the live entries of a gathering bag stand for the packs that count. -/
theorem exists_covers (bag : Bag) (actions : List Action)
    (hfresh : ((packs actions).map (·.version)).Nodup)
    (hd : bag.discipline.Gathers) (hspec : ∀ e ∈ packs actions, e.bag.id = bag.id → e.bag = bag) :
    ∃ cover, Covers bag cover (run actions) := by
  induction actions using List.reverseRecOn with
  | nil => exact ⟨_, covers_start⟩
  | append_singleton actions action ih =>
      rw [packs_append] at hfresh hspec
      have hbefore := nodup_versions_of_append hfresh
      obtain ⟨cover, hcovers⟩ := ih hbefore fun e he => hspec e (List.mem_append_left _ he)
      rw [run_concat]
      exact hcovers.step (sound_run actions hbefore) hfresh hd fun e he =>
        hspec e (List.mem_append_right _ he)

/-! ## What is read -/

/-- Whatever is gathered from the packs that the entries of a branch stand for, is gathered
from all packs of its past. -/
theorem Covers.sum_past {α : Type} (h : Covers bag cover bs)
    (hs : bs.Coherent es) (hi : bs i = some br)
    (hspec : ∀ e ∈ es, e.bag.id = bag.id → e.bag = bag) (parts : Event → List α)
    (hparts : ∀ e, bag.discipline.keeps e.rows = [] → parts e = []) :
    ((br.baggage.entries bag.id).flatMap fun x => (cover x.version).flatMap parts : List α) =
      ∑ e ∈ br.past with e.bag.id = bag.id, (parts e : Multiset α) := by
  classical
  have hnodup := h.nodup_flatMap (fun x hx => ⟨i, br, hi, hx⟩) ((hs.tidy hi).versions bag.id)
  have hcovered : ((br.baggage.entries bag.id).flatMap (fun x => cover x.version) : List Event) =
      (br.past.filter bag.Counts).val := by
    refine (Multiset.Nodup.ext (Multiset.coe_nodup.mpr hnodup) (Finset.nodup _)).mpr fun e => ?_
    rw [Multiset.mem_coe, List.mem_flatMap, h.past i br hi e, Finset.mem_val, Finset.mem_filter]
  -- A pack of the past that does not count contributes nothing.
  have hsum : ∑ e ∈ br.past.filter bag.Counts, (parts e : Multiset α) =
      ∑ e ∈ br.past with e.bag.id = bag.id, (parts e : Multiset α) := by
    refine Finset.sum_subset (fun e he => ?_) fun e he hnot => ?_
    · obtain ⟨hpast, rfl, _⟩ := Finset.mem_filter.mp he
      exact Finset.mem_filter.mpr ⟨hpast, rfl⟩
    · obtain ⟨hpast, hid⟩ := Finset.mem_filter.mp he
      have hkeeps : bag.discipline.keeps e.rows = [] := by
        by_contra hsome
        exact hnot (Finset.mem_filter.mpr ⟨hpast, hspec e (hs.past hi e hpast) hid, hsome⟩)
      rw [hparts e hkeeps]
      rfl
  rw [← hsum, Finset.sum, ← hcovered, ← List.flatMap_assoc, ← Multiset.coe_bind]
  rfl

theorem Covers.allRows (h : Covers bag cover bs) (hi : bs i = some br) :
    Bag.allRows (br.baggage.entries bag.id) = (br.baggage.entries bag.id).flatMap fun x =>
      bag.discipline.keeps ((cover x.version).flatMap (·.rows)) :=
  List.flatMap_congr fun x hx => h.rows x ⟨i, br, hi, hx⟩

variable {actions : List Action} {id : BagId}

theorem Covers.unpacked {arity : Nat} (h : Covers ⟨id, .tuples arity⟩ cover bs)
    (hs : bs.Coherent es) (hi : bs i = some br)
    (hspec : ∀ e ∈ es, e.bag.id = id → e.bag = ⟨id, .tuples arity⟩) :
    (Bag.unpack ⟨id, .tuples arity⟩ br.baggage : Multiset Row) =
      ∑ e ∈ br.past with e.bag.id = id, (e.rows.filter (·.length == arity) : Multiset Row) := by
  have hsum := h.sum_past hs hi hspec
    (fun e => e.rows.filter fun row : Row => row.length == arity) fun _ hnone => hnone
  rw [← hsum, Multiset.coe_eq_coe]
  have horder : (Bag.allRows (br.baggage.activeEntries id) ++
      Bag.allRows (br.baggage.archivedEntries id)).Perm (Bag.allRows (br.baggage.entries id)) := by
    rw [Baggage.entries, Bag.allRows_append]
    exact List.perm_append_comm
  refine (horder.filter _).trans (List.Perm.of_eq ?_)
  rw [h.allRows hi]
  simp only [Discipline.keeps, List.filter_flatMap, List.filter_filter, Bool.and_self]

theorem Covers.tallied {keys : Nat} {kinds : List Aggregation}
    (h : Covers ⟨id, .grouped keys kinds⟩ cover bs) (hs : bs.Coherent es) (hi : bs i = some br)
    (hspec : ∀ e ∈ es, e.bag.id = id → e.bag = ⟨id, .grouped keys kinds⟩) :
    Groups.Tallies keys kinds
      (∑ e ∈ br.past with e.bag.id = id, (e.rows.filter (Groups.accepts keys kinds) : Multiset Row))
      (Bag.unpack ⟨id, .grouped keys kinds⟩ br.baggage) := by
  have hsum := h.sum_past hs hi hspec (fun e => e.rows.filter (Groups.accepts keys kinds))
    fun _ hnone => Groups.rows_ofRows_eq_nil_iff.mp hnone
  have hunpack : Bag.unpack ⟨id, .grouped keys kinds⟩ br.baggage =
      ((Groups.empty keys kinds).combineRows (Bag.allRows (br.baggage.entries id))).rows := rfl
  rw [← hsum, hunpack, h.allRows hi]
  simp only [Discipline.keeps, Bag.combineRows_flatMap]
  have htallies := Groups.tallies_ofRows keys kinds
    ((br.baggage.entries id).flatMap fun x => (cover x.version).flatMap (·.rows))
  simp only [List.filter_flatMap] at htallies
  exact htallies

/-- A bag of tuples read in any branch has all rows of its width that were packed on the
way, each as often as it was packed. -/
theorem unpack_tuples {arity : Nat} (hfresh : ((packs actions).map (·.version)).Nodup)
    (hspec : ∀ e ∈ packs actions, e.bag.id = id → e.bag = ⟨id, .tuples arity⟩)
    (hi : run actions i = some br) :
    (Bag.unpack ⟨id, .tuples arity⟩ br.baggage : Multiset Row) =
      ∑ e ∈ br.past with e.bag.id = id, (e.rows.filter (·.length == arity) : Multiset Row) := by
  obtain ⟨cover, hcovers⟩ := exists_covers ⟨id, .tuples arity⟩ actions hfresh trivial hspec
  exact hcovers.unpacked (sound_run actions hfresh).toCoherent hi hspec

namespace Sample

/-- Two branches write into one bag after a fork, before one comes back to the other. -/
def forking (bag : Bag) : List Action :=
  [.pack 0 ⟨bag, 11, [[.str "tea", .int 1]]⟩, .split 0 1,
    .pack 0 ⟨bag, 12, [[.str "tea", .int 2], []]⟩, .pack 1 ⟨bag, 13, [[.str "milk", .int 4]]⟩,
    .pack 0 ⟨bag, 14, [[.str "milk", .int 8]]⟩, .archive 1, .join 0 1]

def listing : Bag := ⟨⟨⟨1⟩, 0⟩, .tuples 2⟩

def summing : Bag := ⟨⟨⟨1⟩, 0⟩, .grouped 1 [.sum]⟩

end Sample

open Branches.Sample in
theorem unpack_listing : ∃ br, run (forking listing) 0 = some br ∧
    (listing.unpack br.baggage : Multiset Row) =
      {[.str "milk", .int 4], [.str "milk", .int 8], [.str "tea", .int 1],
        [.str "tea", .int 2]} := by
  obtain ⟨br, hbr⟩ := Option.isSome_iff_exists.mp
    (show (run (forking listing) 0).isSome by decide +kernel)
  refine ⟨br, hbr, (unpack_tuples (by decide +kernel) (by decide +kernel) hbr).trans ?_⟩
  have hpast : (run (forking listing) 0).map (·.past) =
      some (packs (forking listing)).toFinset := by decide +kernel
  rw [hbr, Option.map_some, Option.some.injEq] at hpast
  rw [hpast]
  decide +kernel

/-- A bag of groups read in any branch tallies all rows it accepts of those that were packed
on the way, each pack counted once. -/
theorem unpack_grouped {keys : Nat} {kinds : List Aggregation}
    (hfresh : ((packs actions).map (·.version)).Nodup)
    (hspec : ∀ e ∈ packs actions, e.bag.id = id → e.bag = ⟨id, .grouped keys kinds⟩)
    (hi : run actions i = some br) :
    Groups.Tallies keys kinds
      (∑ e ∈ br.past with e.bag.id = id, (e.rows.filter (Groups.accepts keys kinds) : Multiset Row))
      (Bag.unpack ⟨id, .grouped keys kinds⟩ br.baggage) := by
  obtain ⟨cover, hcovers⟩ := exists_covers ⟨id, .grouped keys kinds⟩ actions hfresh trivial hspec
  exact hcovers.tallied (sound_run actions hfresh).toCoherent hi hspec

open Branches.Sample in
theorem unpack_summing : ∃ br, run (forking summing) 0 = some br ∧
    Groups.Tallies 1 [.sum]
      {[.str "milk", .int 4], [.str "milk", .int 8], [.str "tea", .int 1], [.str "tea", .int 2]}
      (summing.unpack br.baggage) := by
  obtain ⟨br, hbr⟩ := Option.isSome_iff_exists.mp
    (show (run (forking summing) 0).isSome by decide +kernel)
  have htallies : Groups.Tallies 1 [.sum] (∑ e ∈ br.past with e.bag.id = summing.id,
      (e.rows.filter (Groups.accepts 1 [.sum]) : Multiset Row)) (summing.unpack br.baggage) :=
    unpack_grouped (by decide +kernel) (by decide +kernel) hbr
  have hpast : (run (forking summing) 0).map (·.past) =
      some (packs (forking summing)).toFinset := by decide +kernel
  rw [hbr, Option.map_some, Option.some.injEq] at hpast
  rw [hpast] at htallies
  have hrows : ∑ e ∈ (packs (forking summing)).toFinset with e.bag.id = summing.id,
      (e.rows.filter (Groups.accepts 1 [.sum]) : Multiset Row) =
      {[.str "milk", .int 4], [.str "milk", .int 8], [.str "tea", .int 1],
        [.str "tea", .int 2]} := by
    decide +kernel
  exact ⟨br, hbr, hrows ▸ htallies⟩

example : (run (Sample.forking Sample.summing) 0).map (fun br => Sample.summing.unpack br.baggage) =
    some [[.str "tea", .int 3], [.str "milk", .int 12]] := by decide +kernel

end Branches

end CausalTrace
