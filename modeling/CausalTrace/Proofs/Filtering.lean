import CausalTrace.Proofs.Histories

/-!
# Bags of one row

A bag of the first row takes a pack only if it has seen none, so its entries are those of all
packs accepted on the way of a branch. A bag of the most recent row drops what it held when it
takes a pack; the clock of the new entry exceeds every clock of the past, so a dropped entry
that another branch brings back never counts. Either way a branch reads the row of the
earliest or the latest pack of its past.
-/

namespace CausalTrace

/-- Whether a filter would rather keep what has the first of two ranks. -/
def Filter.Prefers (keep : Filter) (r s : ℕ ×ₗ ℕ) : Prop :=
  match keep with
  | .first => r ≤ s
  | .mostRecent => s ≤ r

theorem Filter.Prefers.refl (keep : Filter) (r : ℕ ×ₗ ℕ) : keep.Prefers r r := by
  cases keep
  · exact le_refl r
  · exact le_refl r

theorem Filter.Prefers.trans {keep : Filter} {r s t : ℕ ×ₗ ℕ} (h : keep.Prefers r s)
    (h' : keep.Prefers s t) : keep.Prefers r t := by
  cases keep with
  | first => exact le_trans h h'
  | mostRecent => exact le_trans h' h

theorem Filter.Prefers.antisymm {keep : Filter} {r s : ℕ ×ₗ ℕ} (h : keep.Prefers r s)
    (h' : keep.Prefers s r) : r = s := by
  cases keep with
  | first => exact le_antisymm h h'
  | mostRecent => exact le_antisymm h' h

/-! ## The chosen entry -/

namespace Bag

variable {keep : Filter} {arity : Nat} {es : List Entry} {x : Entry} {bag : Bag} {b : Baggage}
  {version : UInt64} {rows : List Row}

/-- The entry has a row of the right width. -/
def Fits (arity : Nat) (x : Entry) : Prop := x.rows.head?.any (·.length == arity) = true

/-- Of two entries the filter keeps one that it prefers to both. -/
theorem foldl_pick {pick : Entry → Entry → Entry}
    (hmem : ∀ a b, pick a b = a ∨ pick a b = b)
    (hleft : ∀ a b, keep.Prefers (pick a b).rank a.rank)
    (hright : ∀ a b, keep.Prefers (pick a b).rank b.rank) (e : Entry) (es : List Entry) :
    es.foldl pick e ∈ e :: es ∧ ∀ y ∈ e :: es, keep.Prefers (es.foldl pick e).rank y.rank := by
  induction es generalizing e with
  | nil =>
      refine ⟨List.mem_singleton_self e, fun y hy => ?_⟩
      rw [List.mem_singleton.mp hy]
      exact .refl keep _
  | cons f es ih =>
      obtain ⟨hin, hbest⟩ := ih (pick e f)
      have hpicked := hbest _ List.mem_cons_self
      rw [List.foldl_cons]
      constructor
      · rcases List.mem_cons.mp hin with hin | hin
        · rw [hin]
          rcases hmem e f with he | hf
          · rw [he]
            exact List.mem_cons_self
          · rw [hf]
            exact List.mem_cons_of_mem _ List.mem_cons_self
        · exact List.mem_cons_of_mem _ (List.mem_cons_of_mem _ hin)
      · intro y hy
        rcases List.mem_cons.mp hy with rfl | hy
        · exact hpicked.trans (hleft y f)
        · rcases List.mem_cons.mp hy with rfl | hy
          · exact hpicked.trans (hright e y)
          · exact hbest y (List.mem_cons_of_mem _ hy)

theorem chosen?_eq_none_iff : chosen? keep arity es = none ↔ ∀ x ∈ es, ¬ Fits arity x := by
  have hfilter :=
    List.filter_eq_nil_iff (p := fun e : Entry => e.rows.head?.any (·.length == arity)) (l := es)
  unfold Fits
  rw [← hfilter, chosen?]
  split
  · next h => exact iff_of_true rfl h
  · next e es h =>
      rw [h]
      cases keep <;> simp

/-- The chosen entry is one that fits, and the filter prefers it to all others that do. -/
theorem chosen?_eq_some (h : chosen? keep arity es = some x) :
    x ∈ es ∧ Fits arity x ∧ ∀ y ∈ es, Fits arity y → keep.Prefers x.rank y.rank := by
  have hmem : ∀ {y}, y ∈ es.filter (fun e => e.rows.head?.any (·.length == arity)) ↔
      y ∈ es ∧ Fits arity y := List.mem_filter
  rw [chosen?] at h
  split at h
  · cases h
  · next e fs hfilter =>
      have hbest : x ∈ e :: fs ∧ ∀ y ∈ e :: fs, keep.Prefers x.rank y.rank := by
        cases keep with
        | first =>
            cases h
            apply foldl_pick
            · intro a b
              unfold earlier
              split <;> simp
            · intro a b
              unfold earlier
              split
              · next hb => exact (Entry.before_iff.mp hb).le
              · exact le_refl a.rank
            · intro a b
              unfold earlier
              split
              · exact le_refl b.rank
              · next hb => exact not_lt.mp fun hlt => hb (Entry.before_iff.mpr hlt)
        | mostRecent =>
            cases h
            apply foldl_pick
            · intro a b
              unfold later
              split <;> simp
            · intro a b
              unfold later
              split
              · exact le_refl a.rank
              · next hb => exact not_lt.mp fun hlt => hb (Entry.before_iff.mpr hlt)
            · intro a b
              unfold later
              split
              · next hb => exact (Entry.before_iff.mp hb).le
              · exact le_refl b.rank
      rw [← hfilter] at hbest
      obtain ⟨hx, hpreferred⟩ := hbest
      obtain ⟨hin, hfits⟩ := hmem.mp hx
      exact ⟨hin, hfits, fun y hy hfit => hpreferred y (hmem.mpr ⟨hy, hfit⟩)⟩

/-! ## What a pack does -/

/-- A pack into a bag of one row is refused and changes nothing, or it writes an entry with the
row that is kept, a bag of the most recent row dropping all others. -/
theorem pack_one (version : UInt64) (b : Baggage) (rows : List Row)
    (hd : bag.discipline = .one keep arity) :
    (bag.pack version b rows = (b, 0) ∧ (bag.discipline.keeps rows = [] ∨
        keep = .first ∧ chosen? .first arity (b.entries bag.id) ≠ none)) ∨
    ∃ c, bag.pack version b rows = (c, 1) ∧ bag.discipline.keeps rows ≠ [] ∧
      (keep = .first → chosen? .first arity (b.entries bag.id) = none) ∧
      ∀ x, x ∈ c.entries bag.id ↔ keep = .first ∧ x ∈ b.entries bag.id ∨
        x = b.nextEntry bag.id version (bag.discipline.keeps rows) := by
  cases keep with
  | first =>
      have hfind : rows.find? (·.length == arity) = (rows.filter (·.length == arity)).head? :=
        List.head?_filter.symm
      have hkeeps : bag.discipline.keeps rows = (rows.find? (·.length == arity)).toList := by
        rw [hd, hfind]
        rfl
      rw [hkeeps]
      cases hr : rows.find? (·.length == arity) with
      | none =>
          have hpack : bag.pack version b rows = (b, 0) := by
            cases hch : chosen? .first arity (b.entries bag.id) <;> simp only [pack, hd, hch, hr]
          exact .inl ⟨hpack, .inl rfl⟩
      | some r =>
          cases hch : chosen? .first arity (b.entries bag.id) with
          | some y =>
              have hpack : bag.pack version b rows = (b, 0) := by simp only [pack, hd, hch, hr]
              exact .inl ⟨hpack, .inr ⟨rfl, Option.some_ne_none y⟩⟩
          | none =>
              have hpack : bag.pack version b rows = (b.push bag.id version [r], 1) := by
                simp only [pack, hd, hch, hr]
              refine .inr ⟨_, hpack, List.cons_ne_nil r [], fun _ => rfl, fun x => ?_⟩
              have hactive : (b.push bag.id version [r]).activeEntries bag.id =
                  b.activeEntries bag.id ++ [b.nextEntry bag.id version [r]] :=
                    activeEntries_push ..
              have harchive : (b.push bag.id version [r]).archivedEntries bag.id =
                  b.archivedEntries bag.id := rfl
              rw [Baggage.mem_entries, hactive, harchive, Baggage.mem_entries, List.mem_append]
              simp [or_assoc]
  | mostRecent =>
      have hkeeps : bag.discipline.keeps rows =
          (rows.filter (·.length == arity)).getLast?.toList := by
        rw [hd]
        rfl
      rw [hkeeps]
      cases hr : (rows.filter (·.length == arity)).getLast? with
      | none =>
          have hpack : bag.pack version b rows = (b, 0) := by simp only [pack, hd, hr]
          exact .inl ⟨hpack, .inl rfl⟩
      | some r =>
          have hpack : bag.pack version b rows = (b.supersede bag.id version [r], 1) := by
            simp only [pack, hd, hr]
          refine .inr ⟨_, hpack, List.cons_ne_nil r [], by rintro ⟨⟩, fun x => ?_⟩
          rw [Baggage.mem_entries, activeEntries_supersede, archivedEntries_supersede]
          simp

theorem toList_head?_keeps : ((Discipline.one keep arity).keeps rows).head?.toList =
    (Discipline.one keep arity).keeps rows := by
  have hopt : ∀ o : Option Row, o.toList.head?.toList = o.toList := by
    rintro (_ | r)
    · rfl
    · rfl
  cases keep with
  | first => exact hopt _
  | mostRecent => exact hopt _

theorem fits_of_keeps (hsome : (Discipline.one keep arity).keeps rows ≠ []) (c : Nat) (v : UInt64) :
    Fits arity ⟨c, v, (Discipline.one keep arity).keeps rows⟩ := by
  cases hk : (Discipline.one keep arity).keeps rows with
  | nil => exact absurd hk hsome
  | cons r rs =>
      have hr : r.length = arity := length_of_mem_keeps_one (hk ▸ List.mem_cons_self)
      simp [Fits, hr]

end Bag

/-! ## Entries and the packs they come from -/

/-- The entry that a pack writes into a bag of one row. -/
def Packing.entry (p : Packing) : Entry :=
  ⟨p.clock, p.event.version, p.event.bag.discipline.keeps p.event.rows⟩

namespace Filter

variable {keep : Filter} {es fs gs : List Entry} {ps qs rs : List Packing} {arity : Nat}

/-- A bag of one row holds entries of some packs, and of every one of these its entry or, if
the most recent row is kept, one with a larger clock. -/
structure Represents (keep : Filter) (es : List Entry) (ps : List Packing) : Prop where
  written : ∀ x ∈ es, ∃ p ∈ ps, p.entry = x
  held : ∀ p ∈ ps, p.entry ∈ es ∨ keep = .mostRecent ∧ ∃ x ∈ es, p.clock < x.clock

theorem represents_nil : keep.Represents [] [] := ⟨nofun, nofun⟩

/-- Only which entries are there matters. -/
theorem Represents.congr (h : keep.Represents es ps) (hes : ∀ x, x ∈ fs ↔ x ∈ es)
    (hps : ∀ p, p ∈ qs ↔ p ∈ ps) : keep.Represents fs qs where
  written x hx := by
    obtain ⟨p, hp, he⟩ := h.written x ((hes x).mp hx)
    exact ⟨p, (hps p).mpr hp, he⟩
  held p hp := by
    rcases h.held p ((hps p).mp hp) with hin | ⟨hk, x, hx, hlt⟩
    · exact .inl ((hes _).mpr hin)
    · exact .inr ⟨hk, x, (hes x).mpr hx, hlt⟩

theorem Represents.union (h : keep.Represents es ps) (h' : keep.Represents fs qs)
    (hgs : ∀ x, x ∈ gs ↔ x ∈ es ∨ x ∈ fs) (hrs : ∀ p, p ∈ rs ↔ p ∈ ps ∨ p ∈ qs) :
    keep.Represents gs rs where
  written x hx := by
    rcases (hgs x).mp hx with hx | hx
    · obtain ⟨p, hp, he⟩ := h.written x hx
      exact ⟨p, (hrs p).mpr (.inl hp), he⟩
    · obtain ⟨p, hp, he⟩ := h'.written x hx
      exact ⟨p, (hrs p).mpr (.inr hp), he⟩
  held p hp := by
    rcases (hrs p).mp hp with hp | hp
    · rcases h.held p hp with hin | ⟨hk, x, hx, hlt⟩
      · exact .inl ((hgs _).mpr (.inl hin))
      · exact .inr ⟨hk, x, (hgs x).mpr (.inl hx), hlt⟩
    · rcases h'.held p hp with hin | ⟨hk, x, hx, hlt⟩
      · exact .inl ((hgs _).mpr (.inr hin))
      · exact .inr ⟨hk, x, (hgs x).mpr (.inr hx), hlt⟩

/-- A pack that is accepted has a larger clock than all packs before. -/
theorem Represents.clock_lt {p q : Packing} (hq : q ∈ ps)
    (h : keep.Represents (p.before.baggage.entries p.event.bag.id) ps) : q.clock < p.clock := by
  rcases h.held q hq with hin | ⟨_, x, hx, hlt⟩
  · exact Baggage.clock_lt_nextClock hin
  · exact hlt.trans (Baggage.clock_lt_nextClock hx)

theorem Represents.chosen?_eq_none_iff (h : keep.Represents es ps)
    (hfits : ∀ p ∈ ps, Bag.Fits arity p.entry) : Bag.chosen? keep arity es = none ↔ ps = [] := by
  rw [Bag.chosen?_eq_none_iff]
  constructor
  · intro hnone
    refine List.eq_nil_iff_forall_not_mem.mpr fun p hp => ?_
    have hempty : ∀ x, x ∉ es := by
      intro x hx
      obtain ⟨q, hq, rfl⟩ := h.written x hx
      exact hnone _ hx (hfits q hq)
    rcases h.held p hp with hin | ⟨_, x, hx, _⟩
    · exact hempty _ hin
    · exact hempty x hx
  · rintro rfl x hx
    obtain ⟨p, hp, _⟩ := h.written x hx
    cases hp

/-- The chosen entry is that of the pack which the filter prefers to all others. -/
theorem Represents.chosen?_eq_some (h : keep.Represents es ps)
    (hfits : ∀ p ∈ ps, Bag.Fits arity p.entry) {x : Entry}
    (hx : Bag.chosen? keep arity es = some x) :
    ∃ p ∈ ps, p.entry = x ∧ ∀ q ∈ ps, keep.Prefers p.rank q.rank := by
  obtain ⟨hin, _, hbest⟩ := Bag.chosen?_eq_some hx
  obtain ⟨p, hp, rfl⟩ := h.written x hin
  refine ⟨p, hp, rfl, fun q hq => ?_⟩
  rcases h.held q hq with hheld | ⟨rfl, y, hy, hlt⟩
  · exact hbest _ hheld (hfits q hq)
  · -- The entry of this pack is gone, but a later one is there and does not beat the chosen one.
    obtain ⟨r, hr, rfl⟩ := h.written y hy
    have hlater : q.rank ≤ r.rank := (Prod.Lex.toLex_lt_toLex.mpr (.inl hlt)).le
    exact hlater.trans (hbest _ hy (hfits r hr))

/-- The earliest or the latest of some packs. -/
def preferred? (keep : Filter) (ps : List Packing) : Option Packing :=
  match keep with
  | .first => ps.argmin Packing.rank
  | .mostRecent => ps.argmax Packing.rank

theorem preferred?_eq_some {p : Packing} (h : keep.preferred? ps = some p) :
    p ∈ ps ∧ ∀ q ∈ ps, keep.Prefers p.rank q.rank := by
  cases keep with
  | first => exact ⟨List.argmin_mem h, fun q hq => List.le_of_mem_argmin hq h⟩
  | mostRecent => exact ⟨List.argmax_mem h, fun q hq => List.le_of_mem_argmax hq h⟩

theorem preferred?_eq_none : keep.preferred? ps = none ↔ ps = [] := by
  cases keep with
  | first => exact List.argmin_eq_none
  | mostRecent => exact List.argmax_eq_none

end Filter

/-! ## Runs -/

namespace Branches

variable {actions : List Action} {keep : Filter} {id : BagId} {arity : Nat} {br other : Branch}
  {i : Nat} {p : Packing} {e : Event}

/-- All packs into the bag are packs into this bag of one row. -/
def Uniform (id : BagId) (keep : Filter) (arity : Nat) (es : List Event) : Prop :=
  ∀ e ∈ es, e.bag.id = id → e.bag = ⟨id, .one keep arity⟩

instance (id : BagId) (keep : Filter) (arity : Nat) (es : List Event) :
    Decidable (Uniform id keep arity es) :=
  inferInstanceAs (Decidable (∀ e ∈ es, e.bag.id = id → e.bag = ⟨id, .one keep arity⟩))

theorem keeps_ne_nil_of_accepted (hbag : p.event.bag = ⟨id, .one keep arity⟩) (h : p.Accepted) :
    p.event.bag.discipline.keeps p.event.rows ≠ [] := by
  rcases Bag.pack_one p.event.version p.before.baggage p.event.rows (congrArg Bag.discipline hbag)
    with ⟨hpack, _⟩ | ⟨c, _, hsome, _⟩
  · exact absurd (congrArg Prod.snd hpack) h
  · exact hsome

theorem fits_of_accepted (hbag : p.event.bag = ⟨id, .one keep arity⟩) (h : p.Accepted) :
    Bag.Fits arity p.entry := by
  have hsome := keeps_ne_nil_of_accepted hbag h
  rw [Packing.entry]
  rw [hbag] at hsome ⊢
  exact Bag.fits_of_keeps hsome _ _

/-- The packs accepted on the way to a past, once one more pack has happened there. -/
theorem mem_accepted_pack {ps : List Packing} {q : Packing} (hps : ∀ q ∈ ps, q.event ≠ e)
    (hpast : e ∉ br.past) : q ∈ Packing.accepted (ps ++ [⟨br, e⟩]) id (br.pack e).past ↔
      q ∈ Packing.accepted ps id br.past ∨
        q = ⟨br, e⟩ ∧ q.event.bag.id = id ∧ q.Accepted := by
  have hinsert : ∀ e', e' ∈ (br.pack e).past ↔ e' = e ∨ e' ∈ br.past := fun _ => Finset.mem_insert
  simp only [Packing.mem_accepted, List.mem_append, List.mem_singleton, hinsert]
  constructor
  · rintro ⟨hq | rfl, hid, he | he, hacc⟩
    · exact absurd he (hps q hq)
    · exact .inl ⟨hq, hid, he, hacc⟩
    · exact .inr ⟨rfl, hid, hacc⟩
    · exact absurd he hpast
  · rintro (⟨hq, hid, he, hacc⟩ | ⟨rfl, hid, hacc⟩)
    · exact ⟨.inl hq, hid, .inr he, hacc⟩
    · exact ⟨.inr rfl, hid, .inl rfl, hacc⟩

/-- What one pack does to the bag and to the packs it comes from. -/
theorem represents_pack {ps : List Packing}
    (h : keep.Represents (br.baggage.entries id) (Packing.accepted ps id br.past))
    (hps : ∀ q ∈ ps, q.event ≠ e) (hpast : e ∉ br.past)
    (hspec : e.bag.id = id → e.bag = ⟨id, .one keep arity⟩) :
    keep.Represents ((br.pack e).baggage.entries id)
      (Packing.accepted (ps ++ [⟨br, e⟩]) id (br.pack e).past) := by
  have hmem : ∀ q, q ∈ Packing.accepted (ps ++ [⟨br, e⟩]) id (br.pack e).past ↔
      q ∈ Packing.accepted ps id br.past ∨ q = ⟨br, e⟩ ∧ q.event.bag.id = id ∧ q.Accepted :=
    fun _ => mem_accepted_pack hps hpast
  by_cases hid : e.bag.id = id
  · obtain rfl := hid
    have hd : e.bag.discipline = .one keep arity := congrArg Bag.discipline (hspec rfl)
    rcases Bag.pack_one e.version br.baggage e.rows hd with ⟨hpack, _⟩ |
      ⟨c, hpack, hsome, hfirst, hc⟩
    · -- The pack is refused.
      have hsame : (br.pack e).baggage = br.baggage := congrArg Prod.fst hpack
      have hnot : ¬ (⟨br, e⟩ : Packing).Accepted := fun hacc => hacc (congrArg Prod.snd hpack)
      refine h.congr (fun x => by rw [hsame]) fun q => (hmem q).trans (or_iff_left ?_)
      rintro ⟨rfl, _, hacc⟩
      exact hnot hacc
    · have hbaggage : (br.pack e).baggage = c := congrArg Prod.fst hpack
      have hacc : (⟨br, e⟩ : Packing).Accepted := by
        have hkept : (⟨br, e⟩ : Packing).kept = 1 := congrArg Prod.snd hpack
        rw [Packing.Accepted, hkept]
        exact Nat.one_ne_zero
      have hnew : (⟨br, e⟩ : Packing).entry ∈ c.entries e.bag.id := (hc _).mpr (.inr rfl)
      rw [hbaggage]
      constructor
      · intro x hx
        rcases (hc x).mp hx with ⟨_, hx⟩ | rfl
        · obtain ⟨q, hq, he⟩ := h.written x hx
          exact ⟨q, (hmem q).mpr (.inl hq), he⟩
        · exact ⟨⟨br, e⟩, (hmem _).mpr (.inr ⟨rfl, rfl, hacc⟩), rfl⟩
      · intro q hq
        rcases (hmem q).mp hq with hq | ⟨rfl, _⟩
        · cases keep with
          | first =>
              rcases h.held q hq with hin | ⟨hk, _⟩
              · exact .inl ((hc _).mpr (.inl ⟨rfl, hin⟩))
              · cases hk
          | mostRecent =>
              have hlt : q.clock < (⟨br, e⟩ : Packing).clock := Filter.Represents.clock_lt hq h
              exact .inr ⟨rfl, _, hnew, hlt⟩
        · exact .inl hnew
  · have hsame : Bag.Same id br.baggage (br.pack e).baggage := Bag.same_pack (Ne.symm hid)
    have hentries : (br.pack e).baggage.entries id = br.baggage.entries id := by
      rw [Baggage.entries, Baggage.entries, hsame.1, hsame.2]
    refine h.congr (fun x => by rw [hentries]) fun q => (hmem q).trans (or_iff_left ?_)
    rintro ⟨rfl, hid', _⟩
    exact hid hid'

/-- In every run each branch holds entries of the packs accepted on its way. -/
theorem represents_run (actions : List Action) (hfresh : ((packs actions).map (·.version)).Nodup)
    (hspec : Uniform id keep arity (packs actions)) :
    ∀ i br, run actions i = some br → keep.Represents (br.baggage.entries id)
      (Packing.accepted (history actions) id br.past) := by
  induction actions using List.reverseRecOn with
  | nil =>
      intro i br hi
      rw [eq_of_start hi]
      exact Filter.represents_nil
  | append_singleton actions action ih =>
      have hbefore := nodup_versions_earlier hfresh
      have hsound := sound_run actions hbefore
      have ih := ih hbefore fun e he => hspec e (by
        rw [packs_append]
        exact List.mem_append_left _ he)
      -- What other actions bring about is seen from no past of before.
      have hseen : ∀ {past : Finset Event}, (∀ e ∈ past, e ∈ packs actions) →
          Packing.accepted (history (actions ++ [action])) id past =
            Packing.accepted (history actions) id past := accepted_later hfresh
      have hold : ∀ {i br}, run actions i = some br → keep.Represents (br.baggage.entries id)
          (Packing.accepted (history (actions ++ [action])) id br.past) := by
        intro i br hi
        rw [hseen (hsound.past hi)]
        exact ih i br hi
      intro i br hi
      cases arises_of_step (run_concat actions action ▸ hi) with
      | kept h _ => exact hold h
      | @packed br e ha h _ =>
          subst ha
          have hsnoc : history (actions ++ [.pack i e]) = history actions ++ [⟨br, e⟩] := by
            rw [history_append]
            simp [historyFrom, packing?, h]
          have hdrawn : ∀ e' ∈ packs actions, e' ≠ e := fun e' he' he =>
            not_mem_packs_of_fresh hfresh he' (he ▸ List.mem_singleton_self e)
          rw [hsnoc]
          apply represents_pack (ih i br h)
          · exact fun q hq => hdrawn _ (event_mem_packs hq)
          · exact fun he => hdrawn e (hsound.past h e he) rfl
          · refine hspec e ?_
            rw [packs_append]
            exact List.mem_concat_self
      | @archived k br h _ =>
          exact (hold h).congr (fun _ => Baggage.mem_entries_archiveActive (hsound.tidy h))
            fun _ => .rfl
      | @joined j br other hne h h' _ _ =>
          apply (hold h).union (hold h')
          · exact fun _ => Baggage.mem_entries_join (hsound.joinable h h' hne).toMergeable
          · intro p
            have hunion : p.event ∈ (br.join other).past ↔
                p.event ∈ br.past ∨ p.event ∈ other.past :=
              Finset.mem_union
            simp only [Packing.mem_accepted, hunion]
            tauto

/-- The packs accepted on the way to some past, seen from the run and bag they belong to. -/
theorem bag_of_mem_accepted {past : Finset Event} (hspec : Uniform id keep arity (packs actions))
    (hp : p ∈ Packing.accepted (history actions) id past) :
    p.event.bag = ⟨id, .one keep arity⟩ ∧ p.Accepted := by
  obtain ⟨hin, hid, _, hacc⟩ := Packing.mem_accepted.mp hp
  exact ⟨hspec _ (event_mem_packs hin) hid, hacc⟩

/-- A bag of one row reads as the row of the earliest or the latest pack accepted on the way. -/
theorem unpack_preferred (hfresh : ((packs actions).map (·.version)).Nodup)
    (hspec : Uniform id keep arity (packs actions)) (hi : run actions i = some br) :
    Bag.unpack ⟨id, .one keep arity⟩ br.baggage =
      (keep.preferred? (Packing.accepted (history actions) id br.past)).toList.flatMap fun p =>
        (Discipline.one keep arity).keeps p.event.rows := by
  have hrep := represents_run actions hfresh hspec i br hi
  have hbag := fun p (hp : p ∈ Packing.accepted (history actions) id br.past) =>
    bag_of_mem_accepted hspec hp
  have hfits : ∀ p ∈ Packing.accepted (history actions) id br.past, Bag.Fits arity p.entry :=
    fun p hp => fits_of_accepted (hbag p hp).1 (hbag p hp).2
  have hunpack : Bag.unpack ⟨id, .one keep arity⟩ br.baggage =
      ((Bag.chosen? keep arity (br.baggage.entries id)).bind (·.rows.head?)).toList := rfl
  rw [hunpack]
  cases hpref : keep.preferred? (Packing.accepted (history actions) id br.past) with
  | none =>
      rw [(hrep.chosen?_eq_none_iff hfits).mpr (Filter.preferred?_eq_none.mp hpref)]
      rfl
  | some q =>
      obtain ⟨hq, hbest⟩ := Filter.preferred?_eq_some hpref
      cases hch : Bag.chosen? keep arity (br.baggage.entries id) with
      | none =>
          rw [(hrep.chosen?_eq_none_iff hfits).mp hch] at hq
          cases hq
      | some x =>
          -- Both are preferred to each other, so they are of one version and the same pack.
          obtain ⟨p, hp, rfl, hbest'⟩ := hrep.chosen?_eq_some hfits hch
          have hrank : p.entry.rank = q.entry.rank := (hbest' q hq).antisymm (hbest p hp)
          have hevent : p.event = q.event := event_eq_of_version hfresh
            (Packing.mem_accepted.mp hp).1 (Packing.mem_accepted.mp hq).1
            (Entry.version_eq_of_rank hrank)
          have hrows : p.entry.rows = (Discipline.one keep arity).keeps q.event.rows := by
            rw [Packing.entry, (hbag p hp).1, hevent]
          rw [Option.bind_some, hrows, Option.toList_some, List.flatMap_singleton]
          exact Bag.toList_head?_keeps

/-- Every pack found its branch holding entries of the packs accepted before. -/
theorem represents_before (hfresh : ((packs actions).map (·.version)).Nodup)
    (hspec : Uniform id keep arity (packs actions)) (hp : p ∈ history actions) :
    keep.Represents (p.before.baggage.entries id)
      (Packing.accepted (history actions) id p.before.past) := by
  obtain ⟨earlier, i, hsub, hearlier, hi, hacc⟩ := exists_earlier hfresh hp
  rw [hacc id]
  exact represents_run earlier hearlier (fun e he => hspec e (hsub he)) i p.before hi

/-- A bag of the most recent row never returns a row that was overwritten: an accepted pack
has a larger clock than all packs accepted on its way, what a branch holds was written by packs
of its past, and it reads the row of the latest of these. -/
theorem unpack_mostRecent (hfresh : ((packs actions).map (·.version)).Nodup)
    (hspec : Uniform id .mostRecent arity (packs actions)) :
    (∀ p ∈ history actions, p.event.bag.id = id → p.Accepted →
      ∀ q ∈ Packing.accepted (history actions) id p.before.past, q.clock < p.clock) ∧
    ∀ i br, run actions i = some br →
      (∀ x ∈ br.baggage.entries id,
        ∃ p ∈ Packing.accepted (history actions) id br.past, p.entry = x) ∧
      Bag.unpack ⟨id, .one .mostRecent arity⟩ br.baggage =
        ((Packing.accepted (history actions) id br.past).argmax Packing.rank).toList.flatMap
          fun p => (Discipline.one .mostRecent arity).keeps p.event.rows := by
  constructor
  · rintro p hp rfl _ q hq
    exact Filter.Represents.clock_lt hq (represents_before hfresh hspec hp)
  · intro i br hi
    exact ⟨(represents_run actions hfresh hspec i br hi).written, unpack_preferred hfresh hspec hi⟩

namespace Sample

/-- A row is overwritten after a fork, and the branch that still holds it comes back later. -/
def overwriting (bag : Bag) : List Action :=
  [.pack 0 ⟨bag, 11, [[.str "tea"]]⟩, .split 0 1,
    .pack 0 ⟨bag, 12, [[.str "milk"], [], [.str "rice"]]⟩, .archive 1, .join 0 1]

def latest : Bag := ⟨⟨⟨1⟩, 0⟩, .one .mostRecent 1⟩

end Sample

open Branches.Sample in
theorem unpack_latest : ∃ br, run (overwriting latest) 0 = some br ∧
    br.baggage.entries latest.id = [⟨1, 11, [[.str "tea"]]⟩, ⟨2, 12, [[.str "rice"]]⟩] ∧
    latest.unpack br.baggage = [[.str "rice"]] := by
  obtain ⟨br, hbr⟩ := Option.isSome_iff_exists.mp
    (show (run (overwriting latest) 0).isSome by decide +kernel)
  have hentries : br.baggage.entries latest.id =
      [⟨1, 11, [[.str "tea"]]⟩, ⟨2, 12, [[.str "rice"]]⟩] :=
    eq_of_map_run (·.baggage.entries latest.id) hbr (by decide +kernel)
  have hpast : br.past = (packs (overwriting latest)).toFinset :=
    eq_of_map_run (·.past) hbr (by decide +kernel)
  have hspec : Uniform latest.id .mostRecent 1 (packs (overwriting latest)) := by decide +kernel
  have hread := ((unpack_mostRecent (by decide +kernel) hspec).2 0 br hbr).2
  refine ⟨br, hbr, hentries, hread.trans ?_⟩
  rw [hpast]
  decide +kernel

/-! ### What comes of one branch -/

/-- The branches that come of some branches alone: nobody else is ever joined into them. -/
def descends (bs : Branches) (own : Nat → Bool) : List Action → Nat → Bool
  | [] => own
  | action :: actions =>
      (bs.step action).descends (fun k => (bs.sources action k).all own) actions

/-- What is chosen depends only on which entries are there. -/
theorem chosen?_congr {b c : Baggage} (hb : b.Tidy)
    (hmem : ∀ x, x ∈ c.entries id ↔ x ∈ b.entries id) :
    Bag.chosen? keep arity (c.entries id) = Bag.chosen? keep arity (b.entries id) := by
  cases hc : Bag.chosen? keep arity (b.entries id) with
  | none =>
      rw [Bag.chosen?_eq_none_iff] at hc ⊢
      exact fun x hx => hc x ((hmem x).mp hx)
  | some x =>
      obtain ⟨hx, hfit, hbest⟩ := Bag.chosen?_eq_some hc
      cases hc' : Bag.chosen? keep arity (c.entries id) with
      | none =>
          rw [Bag.chosen?_eq_none_iff] at hc'
          exact absurd hfit (hc' x ((hmem x).mpr hx))
      | some y =>
          obtain ⟨hy, hfit', hbest'⟩ := Bag.chosen?_eq_some hc'
          have hrank : y.rank = x.rank :=
            (hbest' x ((hmem x).mpr hx) hfit).antisymm (hbest y ((hmem y).mp hy) hfit')
          exact congrArg some (hb.agree.told_apart y ((hmem y).mp hy) x hx
            (Entry.version_eq_of_rank hrank))

/-- A pack into a bag of the first row that has one, or into another bag, leaves it alone. -/
theorem mem_entries_pack_first {x : Entry} (hspec : e.bag.id = id → e.bag = ⟨id, .one .first arity⟩)
    (hsome : Bag.chosen? .first arity (br.baggage.entries id) ≠ none) :
    x ∈ (br.pack e).baggage.entries id ↔ x ∈ br.baggage.entries id := by
  by_cases hid : e.bag.id = id
  · obtain rfl := hid
    have hd : e.bag.discipline = .one .first arity := congrArg Bag.discipline (hspec rfl)
    rcases Bag.pack_one e.version br.baggage e.rows hd with ⟨hpack, _⟩ | ⟨_, _, _, hnone, _⟩
    · have hsame : (br.pack e).baggage = br.baggage := congrArg Prod.fst hpack
      rw [hsame]
    · exact absurd (hnone rfl) hsome
  · have hsame : Bag.Same id br.baggage (br.pack e).baggage := Bag.same_pack (Ne.symm hid)
    rw [Baggage.entries, Baggage.entries, hsame.1, hsame.2]

/-- Branches that hold the same entries of a bag of the first row, and some of these, leave
the same entries to all branches that come of them alone. -/
theorem entries_of_descends {bs : Branches} {es : List Event} {own : Nat → Bool}
    {more : List Action} {b : Baggage} (hsound : bs.Sound es)
    (hfresh : ((es ++ packs more).map (·.version)).Nodup)
    (hspec : Uniform id .first arity (packs more))
    (hsome : Bag.chosen? .first arity (b.entries id) ≠ none)
    (hsame : ∀ k br, own k = true → bs k = some br →
      ∀ x, x ∈ br.baggage.entries id ↔ x ∈ b.entries id) :
    ∀ k br, bs.descends own more k = true → more.foldl step bs k = some br →
      ∀ x, x ∈ br.baggage.entries id ↔ x ∈ b.entries id := by
  induction more generalizing bs es own with
  | nil => exact hsame
  | cons action more ih =>
      rw [packs_cons, ← List.append_assoc] at hfresh
      have hstep := nodup_versions_of_append hfresh
      have hlater : ∀ e ∈ packs more, e ∈ packs (action :: more) := fun e he => by
        rw [packs_cons]
        exact List.mem_append_right _ he
      apply ih (hsound.step hstep) hfresh fun e he => hspec e (hlater e he)
      intro k br hown hk x
      rw [List.all_eq_true] at hown
      cases arises_of_step hk with
      | kept h hs => exact hsame k br (hown k hs) h x
      | @packed br e ha h hs =>
          subst ha
          have hold := hsame k br (hown k hs) h
          refine (mem_entries_pack_first (hspec e ?_) ?_).trans (hold x)
          · exact packs_cons (.pack _ e) more ▸ List.mem_append_left _ (List.mem_singleton_self e)
          · rw [Ne, Bag.chosen?_eq_none_iff] at hsome ⊢
            exact fun hnone => hsome fun y hy => hnone y ((hold y).mpr hy)
      | @archived l br h hs =>
          exact (Baggage.mem_entries_archiveActive (hsound.tidy h)).trans
            (hsame l br (hown l hs) h x)
      | @joined l br other hne h h' hs hs' =>
          have hjoin : x ∈ (br.join other).baggage.entries id ↔ _ :=
            Baggage.mem_entries_join (hsound.joinable h h' hne).toMergeable
          rw [hjoin, hsame k br (hown k hs) h, hsame l other (hown l hs') h', or_self_iff]

/-- A pack that offers a row to a bag of the first row is accepted if none has been before. -/
theorem accepted_first_iff (hfresh : ((packs actions).map (·.version)).Nodup)
    (hspec : Uniform id .first arity (packs actions)) (hp : p ∈ history actions)
    (hid : p.event.bag.id = id) (hoffers : ∃ row ∈ p.event.rows, row.length = arity) :
    p.Accepted ↔ Packing.accepted (history actions) id p.before.past = [] := by
  have hrep := represents_before hfresh hspec hp
  have hbag : p.event.bag = ⟨id, .one .first arity⟩ := hspec _ (event_mem_packs hp) hid
  have hfits : ∀ q ∈ Packing.accepted (history actions) id p.before.past,
      Bag.Fits arity q.entry := fun q hq =>
    fits_of_accepted (bag_of_mem_accepted hspec hq).1 (bag_of_mem_accepted hspec hq).2
  have hkeeps : p.event.bag.discipline.keeps p.event.rows ≠ [] := by
    rw [hbag]
    simpa [Discipline.keeps] using hoffers
  rw [← hrep.chosen?_eq_none_iff hfits, Packing.Accepted, Packing.kept]
  obtain rfl := hid
  rcases Bag.pack_one p.event.version p.before.baggage p.event.rows (congrArg Bag.discipline hbag)
    with ⟨hpack, hnone | ⟨_, hsome⟩⟩ | ⟨c, hpack, _, hnone, _⟩
  · exact absurd hnone hkeeps
  · rw [hpack]
    exact iff_of_false (fun h => h rfl) hsome
  · rw [hpack]
    exact iff_of_true Nat.one_ne_zero (hnone rfl)

/-- A bag of the first row keeps it for ever: a pack that offers a row is accepted if and only
if none has been accepted on its way, a branch reads the row of the earliest pack accepted on
its way, and all branches that come of it alone still read this row. -/
theorem unpack_first (hfresh : ((packs actions).map (·.version)).Nodup)
    (hspec : Uniform id .first arity (packs actions)) :
    (∀ p ∈ history actions, p.event.bag.id = id → (∃ row ∈ p.event.rows, row.length = arity) →
      (p.Accepted ↔ Packing.accepted (history actions) id p.before.past = [])) ∧
    ∀ i br, run actions i = some br →
      Bag.unpack ⟨id, .one .first arity⟩ br.baggage =
        ((Packing.accepted (history actions) id br.past).argmin Packing.rank).toList.flatMap
          (fun p => (Discipline.one .first arity).keeps p.event.rows) ∧
      ∀ (r : Row) (more : List Action), Bag.unpack ⟨id, .one .first arity⟩ br.baggage = [r] →
        ((packs (actions ++ more)).map (·.version)).Nodup →
        Uniform id .first arity (packs (actions ++ more)) →
        ∀ k other, (run actions).descends (· == i) more k = true →
          run (actions ++ more) k = some other →
            Bag.unpack ⟨id, .one .first arity⟩ other.baggage = [r] := by
  have hsound := sound_run actions hfresh
  refine ⟨fun p hp hid hoffers => accepted_first_iff hfresh hspec hp hid hoffers,
    fun i br hi => ⟨unpack_preferred hfresh hspec hi, ?_⟩⟩
  intro r more hread hfresh' hspec' k other hk hother
  have hread' : ∀ b : Baggage, Bag.unpack ⟨id, .one .first arity⟩ b =
      ((Bag.chosen? .first arity (b.entries id)).bind (·.rows.head?)).toList := fun _ => rfl
  have hsome : Bag.chosen? .first arity (br.baggage.entries id) ≠ none := by
    intro hnone
    rw [hread', hnone] at hread
    cases hread
  rw [packs_append] at hfresh' hspec'
  have hentries := entries_of_descends hsound hfresh'
    (fun e he => hspec' e (List.mem_append_right _ he)) hsome
    (fun l br' hl hbr' x => by
      rw [beq_iff_eq.mp hl, hi] at hbr'
      cases hbr'
      rfl)
    k other hk (by rwa [run, List.foldl_append] at hother)
  rw [hread', chosen?_congr (hsound.tidy hi) hentries, ← hread', hread]

namespace Sample

def earliest : Bag := ⟨⟨⟨1⟩, 0⟩, .one .first 1⟩

/-- A branch forks, offers another row and takes its fork in. -/
def returning (bag : Bag) : List Action :=
  [.split 0 2, .pack 2 ⟨bag, 21, [[.str "salt"]]⟩, .pack 0 ⟨bag, 22, [[.str "rye"]]⟩, .join 0 2]

end Sample

open Branches.Sample in
theorem unpack_earliest : ∃ br other, run (overwriting earliest) 0 = some br ∧
    earliest.unpack br.baggage = [[.str "tea"]] ∧
    run (overwriting earliest ++ returning earliest) 0 = some other ∧
    earliest.unpack other.baggage = [[.str "tea"]] := by
  obtain ⟨br, hbr⟩ := Option.isSome_iff_exists.mp
    (show (run (overwriting earliest) 0).isSome by decide +kernel)
  obtain ⟨other, hother⟩ := Option.isSome_iff_exists.mp
    (show (run (overwriting earliest ++ returning earliest) 0).isSome by decide +kernel)
  have hspec : Uniform earliest.id .first 1 (packs (overwriting earliest)) := by decide +kernel
  obtain ⟨hread, hkept⟩ := (unpack_first (by decide +kernel) hspec).2 0 br hbr
  have hpast : br.past = (packs (overwriting earliest)).toFinset :=
    eq_of_map_run (·.past) hbr (by decide +kernel)
  have htea : earliest.unpack br.baggage = [[.str "tea"]] := by
    refine hread.trans ?_
    rw [hpast]
    decide +kernel
  exact ⟨br, other, hbr, htea, hother, hkept _ (returning earliest) htea (by decide +kernel)
    (by decide +kernel) 0 other (by decide +kernel) hother⟩

end Branches

end CausalTrace
