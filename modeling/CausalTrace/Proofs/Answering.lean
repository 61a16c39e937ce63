import CausalTrace.Proofs.Gathering
import CausalTrace.Proofs.Sending

/-!
# Requests that are answered

A request is sent to a receiver while the sender keeps its baggage; the receiver packs into
what it got, and its response is joined into the baggage of the sender. Unlike the copy a fork
gets, the one that is sent shares ACTIVE entries. A bag of tuples takes no harm: every pack is
still an entry of its own. A bag of groups folds the shared entries into one of another
version, so what they stand for counts twice; it counts once if nothing of the bag is ACTIVE
when it is sent, or if the receiver packs nothing into it.
-/

namespace CausalTrace

namespace Baggage

/-- Packs one event after another. -/
def packAll (es : List Event) (b : Baggage) : Baggage :=
  es.foldl (fun b e => (e.bag.pack e.version b e.rows).1) b

/-- The baggage of a sender after a receiver got it over the wire, packed into it and answered
over the wire; nothing if a text is refused. -/
def answered? (es : List Event) (b : Baggage) : Option Baggage := do
  let received ← ofWire? b.toWire
  let response ← ofWire? (received.packAll es).toWire
  return b.join response

end Baggage

/-- The branch after some packs. -/
def Branch.packAll (es : List Event) (br : Branch) : Branch := es.foldl (fun br e => br.pack e) br

namespace Branch

variable {br : Branch} {es : List Event} {e : Event}

theorem packAll_concat : br.packAll (es ++ [e]) = (br.packAll es).pack e := List.foldl_concat ..

theorem baggage_packAll : (br.packAll es).baggage = br.baggage.packAll es := by
  induction es using List.reverseRecOn with
  | nil => rfl
  | append_singleton es e ih =>
      rw [packAll_concat, Baggage.packAll, List.foldl_concat]
      show (e.bag.pack e.version (br.packAll es).baggage e.rows).1 = _
      rw [ih]
      rfl

theorem past_packAll : (br.packAll es).past = br.past ∪ es.toFinset := by
  induction es using List.reverseRecOn with
  | nil => exact (Finset.union_empty _).symm
  | append_singleton es e ih =>
      rw [packAll_concat]
      show insert e (br.packAll es).past = _
      rw [ih]
      ext e'
      simp

end Branch

namespace Branches

variable {bs : Branches} {bag : Bag} {cover : UInt64 → List Event} {drawn es : List Event}
  {e : Event} {i j : Nat} {br : Branch} {id : BagId}

/-! ## Some packs in one branch -/

theorem update_packAll_nil (hi : bs i = some br) :
    Function.update bs i (some (br.packAll [])) = bs := by
  have hnil : some (br.packAll []) = bs i := hi.symm
  rw [hnil, Function.update_eq_self]

theorem Coherent.packAll (h : bs.Coherent drawn) (hi : bs i = some br)
    (hfresh : ((drawn ++ es).map (·.version)).Nodup) :
    Coherent (Function.update bs i (some (br.packAll es))) (drawn ++ es) := by
  induction es using List.reverseRecOn with
  | nil =>
      rw [update_packAll_nil hi, List.append_nil]
      exact h
  | append_singleton es e ih =>
      rw [← List.append_assoc] at hfresh ⊢
      have hbefore := ih (nodup_versions_of_append hfresh)
      have hstep := hbefore.pack (Function.update_self ..)
        (version_not_mem_of_append hfresh (List.mem_singleton_self e))
      rwa [Function.update_idem, ← Branch.packAll_concat] at hstep

/-- What is ACTIVE after a pack has been ACTIVE or has a version of its own. -/
theorem Apart.pack (h : bs.Apart id i br) (hs : bs.Coherent drawn)
    (hfresh : e.version ∉ drawn.map (·.version)) : bs.Apart id i (br.pack e) := by
  intro k other hne hk z hz x hx
  have hz : z ∈ (e.bag.pack e.version br.baggage e.rows).1.activeEntries id := hz
  rcases e.bag.pack_cases e.version br.baggage e.rows with hsame | ⟨new, hnew, hwrites⟩
  · rw [hsame] at hz
    exact h k other hne hk z hz x hx
  · rcases hwrites.active id z hz with hz | ⟨_, rfl⟩
    · exact h k other hne hk z hz x hx
    · exact fun hv => hfresh (hnew ▸ hv ▸ hs.drawn hk id x hx)

theorem Apart.packAll (h : bs.Apart id i br) (hs : bs.Coherent drawn)
    (hfresh : ∀ e ∈ es, e.version ∉ drawn.map (·.version)) : bs.Apart id i (br.packAll es) := by
  induction es using List.reverseRecOn with
  | nil => exact h
  | append_singleton es e ih =>
      rw [Branch.packAll_concat]
      apply (ih fun e he => hfresh e (List.mem_append_left _ he)).pack hs
      exact hfresh e List.mem_concat_self

/-- A bag that folds is gathered as long as the branch folds into nothing it shares. -/
theorem Covers.packAll (h : Covers bag cover bs) (hs : bs.Coherent drawn) (hi : bs i = some br)
    (hapart : bag.discipline.Folds → bs.Apart bag.id i br ∨ ∀ e ∈ es, ¬ bag.Counts e)
    (hfresh : ((drawn ++ es).map (·.version)).Nodup) (hd : bag.discipline.Gathers)
    (hspec : ∀ e ∈ es, e.bag.id = bag.id → e.bag = bag) :
    ∃ cover', Covers bag cover' (Function.update bs i (some (br.packAll es))) := by
  induction es using List.reverseRecOn with
  | nil =>
      rw [update_packAll_nil hi]
      exact ⟨cover, h⟩
  | append_singleton es e ih =>
      have hlast : e ∈ es ++ [e] := List.mem_concat_self
      have hnew : ∀ e' ∈ es ++ [e], e'.version ∉ drawn.map (·.version) := fun _ he =>
        version_not_mem_of_append hfresh he
      rw [← List.append_assoc] at hfresh
      have hbefore := nodup_versions_of_append hfresh
      have hearlier : ∀ e' ∈ es, e' ∈ es ++ [e] := fun _ he => List.mem_append_left _ he
      obtain ⟨cover', hcovers⟩ := ih
        (fun hfolds => (hapart hfolds).imp_right fun hnone e he => hnone e (hearlier e he))
        hbefore fun e he => hspec e (hearlier e he)
      -- The pack folds into entries that are nowhere else, as what was packed before is new.
      have hapart' : bag.Counts e → bag.discipline.Folds →
          Apart (Function.update bs i (some (br.packAll es))) bag.id i (br.packAll es) := by
        intro hcounts hfolds k other hne hk
        rw [Function.update_of_ne hne] at hk
        rcases hapart hfolds with hapart | hnone
        · exact hapart.packAll hs (fun e he => hnew e (hearlier e he)) k other hne hk
        · exact absurd hcounts (hnone e hlast)
      obtain ⟨cover'', hcovers'⟩ := hcovers.pack (hs.packAll hi hbefore) (Function.update_self ..)
        hapart' (version_not_mem_of_append hfresh (List.mem_singleton_self e)) hd (hspec e hlast)
      rw [Function.update_idem, ← Branch.packAll_concat] at hcovers'
      exact ⟨cover'', hcovers'⟩

theorem Coherent.sendable_packAll (h : bs.Coherent drawn) (hi : bs i = some br)
    (hfresh : ((drawn ++ es).map (·.version)).Nodup) (hbr : br.Sendable)
    (hsend : ∀ e ∈ es, e.Sendable) : (br.packAll es).Sendable := by
  induction es using List.reverseRecOn with
  | nil => exact hbr
  | append_singleton es e ih =>
      have hafter := h.packAll hi hfresh
      rw [← List.append_assoc] at hfresh
      have hbefore := nodup_versions_of_append hfresh
      have hs' := h.packAll hi hbefore
      have ht := hafter.tidy (Function.update_self ..)
      rw [Branch.packAll_concat] at ht ⊢
      refine (ih hbefore fun e he => hsend e (List.mem_append_left _ he)).pack
        (hsend e List.mem_concat_self) (fun he => ?_) ht
      have hdrawn := hs'.past (Function.update_self ..) e he
      exact version_not_mem_of_append hfresh (List.mem_singleton_self e)
        (List.mem_map_of_mem hdrawn)

/-- A past of packs that were drawn is no larger than their number. -/
theorem Coherent.card_past_le (h : bs.Coherent drawn) (hi : bs i = some br) :
    br.past.card ≤ drawn.length := by
  have hsub : br.past ⊆ drawn.toFinset := fun e he => List.mem_toFinset.mpr (h.past hi e he)
  exact (Finset.card_le_card hsub).trans (List.toFinset_card_le drawn)

/-! ## Requests -/

variable {actions : List Action}

/-- What may be packed so that the baggage can be sent: rows without floats, into bags whose
identifiers fit. -/
def Plain (es : List Event) : Prop :=
  ∀ e ∈ es, e.bag.id.Fits ∧ ∀ row ∈ e.rows, ∀ v ∈ row, v.kind ≠ .float

instance : DecidablePred Plain := fun es => inferInstanceAs (Decidable
  (∀ e ∈ es, e.bag.id.Fits ∧ ∀ row ∈ e.rows, ∀ v ∈ row, v.kind ≠ .float))

theorem Plain.sendable (h : Plain es) : ∀ e ∈ es, e.Sendable := fun e he =>
  ⟨(h e he).1, fun row hrow v hv => Value.readsBack_of_kind ((h e he).2 row hrow v hv)⟩

/-- Both texts of a request are read, and what is joined is the copy with all its packs. -/
theorem answered?_eq (es : List Event) (hfresh : ((packs actions ++ es).map (·.version)).Nodup)
    (hplain : Plain (packs actions ++ es)) (hclocks : (packs actions ++ es).length < 2 ^ 64)
    (hi : run actions i = some br) :
    br.baggage.answered? es = some (br.join (br.packAll es)).baggage := by
  have hbefore := nodup_versions_of_append hfresh
  have hs := (sound_run actions hbefore).toCoherent
  have hs' := hs.packAll hi hfresh
  have hbr : br.Sendable := sendable_run actions hbefore
    (fun e he => hplain.sendable e (List.mem_append_left _ he)) i br hi
  have hresponse := hs.sendable_packAll hi hfresh hbr
    fun e he => hplain.sendable e (List.mem_append_right _ he)
  have hbound : (packs actions ++ es).length < Json.bound64 := hclocks
  have hcard : br.past.card < Json.bound64 := by
    refine Nat.lt_of_le_of_lt (hs.card_past_le hi) (Nat.lt_of_le_of_lt ?_ hbound)
    simp
  have hcard' : (br.packAll es).past.card < Json.bound64 :=
    Nat.lt_of_le_of_lt (hs'.card_past_le (Function.update_self ..)) hbound
  have hread := hresponse.ofWire?_toWire (hs'.tidy (Function.update_self ..)) hcard'
  rw [Branch.baggage_packAll] at hread
  unfold Baggage.answered?
  rw [hbr.ofWire?_toWire (hs.tidy hi) hcard, Option.bind_eq_bind, Option.bind_some, hread]
  show some (br.baggage.join (br.baggage.packAll es)) =
      some (br.baggage.join (br.packAll es).baggage)
  rw [Branch.baggage_packAll]

/-- After the response has been joined, the entries of a gathering bag stand for the packs of
sender and receiver. The copy that is sent is a branch of its own. -/
theorem exists_covers_answered (bag : Bag) (hfresh : ((packs actions ++ es).map (·.version)).Nodup)
    (hi : run actions i = some br) (hd : bag.discipline.Gathers)
    (hnone : bag.discipline.Folds →
      br.baggage.activeEntries bag.id = [] ∨ ∀ e ∈ es, ¬ bag.Counts e)
    (hspec : ∀ e ∈ packs actions ++ es, e.bag.id = bag.id → e.bag = bag) :
    ∃ cover bs, Covers bag cover bs ∧ bs.Coherent (packs actions ++ es) ∧
      bs i = some (br.join (br.packAll es)) := by
  have hbefore := nodup_versions_of_append hfresh
  have hs := (sound_run actions hbefore).toCoherent
  obtain ⟨cover, hcovers⟩ := exists_covers bag actions hbefore hd fun e he =>
    hspec e (List.mem_append_left _ he)
  have hne : i ≠ i + 1 := Nat.ne_of_lt (Nat.lt_succ_self i)
  have hcopied := hs.copy hi (i + 1)
  have hself : Function.update (run actions) (i + 1) (some br) (i + 1) = some br :=
    Function.update_self ..
  -- What is ACTIVE in a bag that folds is not shared, or nothing is folded into it.
  have hapart : bag.discipline.Folds →
      Apart (Function.update (run actions) (i + 1) (some br)) bag.id (i + 1) br ∨
        ∀ e ∈ es, ¬ bag.Counts e := by
    refine fun hfolds => (hnone hfolds).imp_left fun hactive k other _ _ z hz => ?_
    rw [hactive] at hz
    cases hz
  obtain ⟨cover', hcovers'⟩ := (hcovers.copy hi (i + 1)).packAll hcopied hself hapart hfresh hd
    fun e he => hspec e (List.mem_append_right _ he)
  have hpacked := hcopied.packAll hself hfresh
  rw [Function.update_idem] at hcovers' hpacked
  have hsender : Function.update (run actions) (i + 1) (some (br.packAll es)) i = some br := by
    rw [Function.update_of_ne hne, hi]
  exact ⟨cover', _, hcovers'.join hpacked hsender (Function.update_self ..) hne,
    hpacked.join hsender (Function.update_self ..), Function.update_self ..⟩

/-- A request and its response count every row once: joining the response never fails, a bag
of tuples then reads as all rows of the sender's past and all rows of the receiver, and so does
a bag of groups if it had no ACTIVE entries when it was sent or the receiver adds nothing to it. -/
theorem unpack_answered (id : BagId) (es : List Event)
    (hfresh : ((packs actions ++ es).map (·.version)).Nodup)
    (hplain : Plain (packs actions ++ es)) (hclocks : (packs actions ++ es).length < 2 ^ 64)
    (hi : run actions i = some br) : ∃ b, br.baggage.answered? es = some b ∧
      (∀ arity, (∀ e ∈ packs actions ++ es, e.bag.id = id → e.bag = ⟨id, .tuples arity⟩) →
        (Bag.unpack ⟨id, .tuples arity⟩ b : Multiset Row) =
          ∑ e ∈ br.past ∪ es.toFinset with e.bag.id = id,
            (e.rows.filter (·.length == arity) : Multiset Row)) ∧
      ∀ keys kinds, (∀ e ∈ packs actions ++ es, e.bag.id = id → e.bag = ⟨id, .grouped keys kinds⟩) →
        br.baggage.activeEntries id = [] ∨
          (∀ e ∈ es, e.bag.id = id → e.rows.filter (Groups.accepts keys kinds) = []) →
        Groups.Tallies keys kinds
          (∑ e ∈ br.past ∪ es.toFinset with e.bag.id = id,
            (e.rows.filter (Groups.accepts keys kinds) : Multiset Row))
          (Bag.unpack ⟨id, .grouped keys kinds⟩ b) := by
  have hpast : (br.join (br.packAll es)).past = br.past ∪ es.toFinset := by
    show br.past ∪ (br.packAll es).past = _
    rw [Branch.past_packAll, ← Finset.union_assoc, Finset.union_self]
  refine ⟨_, answered?_eq es hfresh hplain hclocks hi, fun arity hspec => ?_,
    fun keys kinds hspec hnone => ?_⟩
  · obtain ⟨cover, bs, hcovers, hs, hbs⟩ :=
      exists_covers_answered ⟨id, .tuples arity⟩ hfresh hi trivial (fun hfolds => hfolds.elim) hspec
    rw [← hpast]
    exact hcovers.unpacked hs hbs hspec
  · have hdropped : br.baggage.activeEntries id = [] ∨
        ∀ e ∈ es, ¬ Bag.Counts ⟨id, .grouped keys kinds⟩ e := by
      refine hnone.imp_right fun hnone e he hcounts => ?_
      have hrows := hnone e he (congrArg Bag.id hcounts.1)
      exact hcounts.2 (Groups.rows_ofRows_eq_nil_iff.mpr hrows)
    obtain ⟨cover, bs, hcovers, hs, hbs⟩ :=
      exists_covers_answered ⟨id, .grouped keys kinds⟩ hfresh hi trivial (fun _ => hdropped) hspec
    rw [← hpast]
    exact hcovers.tallied hs hbs hspec

namespace Sample

/-- A row is packed and the baggage is sent. -/
def asking (bag : Bag) : List Action := [.pack 0 ⟨bag, 11, [[.str "tea", .int 1]]⟩]

/-- The receiver packs another row with this key. -/
def answer (bag : Bag) : List Event := [⟨bag, 12, [[.str "tea", .int 2]]⟩]

end Sample

open Branches.Sample in
theorem unpack_answered_tea :
    (∃ br b, run (asking listing) 0 = some br ∧ br.baggage.answered? (answer listing) = some b ∧
      (listing.unpack b : Multiset Row) = {[.str "tea", .int 1], [.str "tea", .int 2]}) ∧
    ∃ br b, run (asking summing ++ [.archive 0]) 0 = some br ∧
      br.baggage.answered? (answer summing) = some b ∧
      Groups.Tallies 1 [.sum] {[.str "tea", .int 1], [.str "tea", .int 2]} (summing.unpack b) := by
  constructor
  · obtain ⟨br, hbr⟩ := Option.isSome_iff_exists.mp
      (show (run (asking listing) 0).isSome by decide +kernel)
    obtain ⟨b, hb, hread, _⟩ := unpack_answered listing.id (answer listing)
      (by decide +kernel) (by decide +kernel) (by decide +kernel) hbr
    refine ⟨br, b, hbr, hb, (hread 2 (by decide +kernel)).trans ?_⟩
    have hpast : br.past = (packs (asking listing)).toFinset :=
      eq_of_map_run (·.past) hbr (by decide +kernel)
    rw [hpast]
    decide +kernel
  · obtain ⟨br, hbr⟩ := Option.isSome_iff_exists.mp
      (show (run (asking summing ++ [.archive 0]) 0).isSome by decide +kernel)
    obtain ⟨b, hb, _, hread⟩ := unpack_answered summing.id (answer summing)
      (by decide +kernel) (by decide +kernel) (by decide +kernel) hbr
    have hnone : br.baggage.activeEntries summing.id = [] :=
      eq_of_map_run (·.baggage.activeEntries summing.id) hbr (by decide +kernel)
    have hpast : br.past = (packs (asking summing)).toFinset :=
      eq_of_map_run (·.past) hbr (by decide +kernel)
    have htallies := hread 1 [.sum] (by decide +kernel) (.inl hnone)
    have hrows : ∑ e ∈ (packs (asking summing)).toFinset ∪ (answer summing).toFinset with
        e.bag.id = summing.id, (e.rows.filter (Groups.accepts 1 [.sum]) : Multiset Row) =
        {[.str "tea", .int 1], [.str "tea", .int 2]} := by decide +kernel
    rw [hpast] at htallies
    exact ⟨br, b, hbr, hb, hrows ▸ htallies⟩

open Branches.Sample in
/-- What is ACTIVE in a bag of groups when it is sent counts twice. -/
theorem exists_answered_twice : ∃ br b, run (asking summing) 0 = some br ∧
    br.baggage.answered? (answer summing) = some b ∧
    summing.unpack b = [[.str "tea", .int 4]] ∧
    ¬ Groups.Tallies 1 [.sum] {[.str "tea", .int 1], [.str "tea", .int 2]} (summing.unpack b) := by
  obtain ⟨br, hbr⟩ := Option.isSome_iff_exists.mp
    (show (run (asking summing) 0).isSome by decide +kernel)
  have hb := answered?_eq (answer summing) (by decide +kernel) (by decide +kernel)
    (by decide +kernel) hbr
  have hfour : summing.unpack (br.join (br.packAll (answer summing))).baggage =
      [[.str "tea", .int 4]] :=
    eq_of_map_run (fun br => summing.unpack (br.join (br.packAll (answer summing))).baggage) hbr
      (by decide +kernel)
  refine ⟨br, _, hbr, hb, hfour, fun htallies => ?_⟩
  rw [hfour] at htallies
  obtain ⟨r, hr, htotals⟩ := htallies.totals _ List.mem_cons_self 0 .sum rfl
  obtain rfl : r = 4 := by simpa using hr.symm
  exact absurd htotals (by decide +kernel)

end Branches

end CausalTrace
