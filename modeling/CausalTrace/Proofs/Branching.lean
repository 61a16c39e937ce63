import CausalTrace.Proofs.Generations
import Mathlib.Data.Finset.Basic
import Mathlib.Data.List.Induction
import Mathlib.Logic.Function.Basic

/-!
# Requests that branch

A request starts with empty baggage. Rows are packed, the request forks, and a branch
that came back is joined into another one, in any order. Beside its baggage a branch has a
past: the packs that happened on its way, counted once however they got there.

As long as no version is drawn twice, all branches mean the same entry by a version, and
an ACTIVE entry is found in one branch only.
-/

namespace CausalTrace

/-! ## Runs -/

/-- A pack of some rows into a bag, told apart from other packs by the version drawn for it. -/
structure Event where
  bag : Bag
  version : UInt64
  rows : List Row
deriving DecidableEq

/-- What happens to a request, whose branches are numbered. -/
inductive Action where
  | pack (branch : Nat) (e : Event)
  /-- A copy of a branch goes its own way. -/
  | split (branch copy : Nat)
  | archive (branch : Nat)
  /-- The other branch comes back and is no more. -/
  | join (branch other : Nat)
deriving DecidableEq

structure Branch where
  baggage : Baggage
  /-- The packs that happened before. -/
  past : Finset Event

namespace Branch

def pack (e : Event) (br : Branch) : Branch where
  baggage := (e.bag.pack e.version br.baggage e.rows).1
  past := insert e br.past

def archive (br : Branch) : Branch := ⟨br.baggage.archiveActive, br.past⟩

def split (br : Branch) : Branch := ⟨br.baggage.split, br.past⟩

def join (br other : Branch) : Branch := ⟨br.baggage.join other.baggage, br.past ∪ other.past⟩

end Branch

/-- The branches that are alive. -/
abbrev Branches := Nat → Option Branch

namespace Branches

/-- A request that has just started. -/
def start : Branches := Function.update (fun _ => none) 0 (some ⟨.empty, ∅⟩)

def step (bs : Branches) : Action → Branches
  | .pack i e => Function.update bs i ((bs i).map (.pack e))
  | .split i j =>
      match bs i with
      | some br => Function.update (Function.update bs i (some br.split)) j (some br.split)
      | none => bs
  | .archive i => Function.update bs i ((bs i).map .archive)
  | .join i j =>
      match bs i, bs j with
      | some br, some other =>
          if i = j then bs
          else Function.update (Function.update bs j none) i (some (br.join other))
      | _, _ => bs

/-- The branches after some actions. -/
def run (actions : List Action) : Branches := actions.foldl step start

/-- The packs among some actions. -/
def packs (actions : List Action) : List Event :=
  actions.filterMap fun
    | .pack _ e => some e
    | _ => none

end Branches

/-! ## What a pack writes -/

namespace Baggage

variable {b c : Baggage} {id : BagId} {version : UInt64} {new : Entry}

/-- One entry is added to a bag as an ACTIVE one, and others of the bag may be left out. -/
structure Writes (b c : Baggage) (id : BagId) (new : Entry) : Prop where
  active : ∀ i, ∀ x ∈ c.activeEntries i, x ∈ b.activeEntries i ∨ i = id ∧ x = new
  archived : ∀ i, ∀ x ∈ c.archivedEntries i, x ∈ b.archivedEntries i
  entries : ∀ i, (c.entries i).Sublist (b.entries i ++ if i = id then [new] else [])
  sorted : Ascending.Sorted b.active.keys → Ascending.Sorted c.active.keys
  sorted' : Ascending.Sorted b.archive.keys → Ascending.Sorted c.archive.keys

theorem writes_push (rs : List Row) :
    b.Writes (b.push id version rs) id (b.nextEntry id version rs) where
  active i x hx := by
    by_cases hi : i = id
    · subst hi
      rw [Bag.activeEntries_push, List.mem_append, List.mem_singleton] at hx
      exact hx.imp_right fun he => ⟨rfl, he⟩
    · have hsame : (b.push id version rs).activeEntries i = b.activeEntries i :=
        Table.listed_append_ne hi _ _
      exact .inl (hsame ▸ hx)
  archived i x hx := hx
  entries i := by
    by_cases hi : i = id
    · subst hi
      rw [if_pos rfl, entries, Bag.activeEntries_push, ← List.append_assoc]
      exact .refl _
    · have hsame : (b.push id version rs).activeEntries i = b.activeEntries i :=
        Table.listed_append_ne hi _ _
      rw [if_neg hi, entries, hsame, List.append_nil]
      exact .refl _
  sorted h := Table.sorted_keys_insert h _ _
  sorted' h := h

theorem writes_replaceActive (rs : List Row) :
    b.Writes (b.replaceActive id version rs) id (b.nextEntry id version rs) where
  active i x hx := by
    by_cases hi : i = id
    · subst hi
      rw [Bag.activeEntries_replaceActive, List.mem_singleton] at hx
      exact .inr ⟨rfl, hx⟩
    · have hsame : (b.replaceActive id version rs).activeEntries i = b.activeEntries i :=
        Table.listed_insert_ne hi _ _
      exact .inl (hsame ▸ hx)
  archived i x hx := hx
  entries i := by
    by_cases hi : i = id
    · subst hi
      rw [if_pos rfl, entries, Bag.activeEntries_replaceActive]
      exact (List.sublist_append_left _ _).append (.refl _)
    · have hsame : (b.replaceActive id version rs).activeEntries i = b.activeEntries i :=
        Table.listed_insert_ne hi _ _
      rw [if_neg hi, entries, hsame, List.append_nil]
      exact .refl _
  sorted h := Table.sorted_keys_insert h _ _
  sorted' h := h

theorem writes_supersede (rs : List Row) :
    b.Writes (b.supersede id version rs) id (b.nextEntry id version rs) := by
  have hother : ∀ i, i ≠ id → (b.supersede id version rs).activeEntries i = b.activeEntries i ∧
      (b.supersede id version rs).archivedEntries i = b.archivedEntries i := fun i hi =>
    ⟨Table.listed_insert_ne hi _ _,
      congrArg (fun found : Option (List Entry) => found.getD []) (Table.find?_erase_ne hi _)⟩
  constructor
  case active =>
    intro i x hx
    by_cases hi : i = id
    · subst hi
      rw [Bag.activeEntries_supersede, List.mem_singleton] at hx
      exact .inr ⟨rfl, hx⟩
    · exact .inl ((hother i hi).1 ▸ hx)
  case archived =>
    intro i x hx
    by_cases hi : i = id
    · subst hi
      rw [Bag.archivedEntries_supersede] at hx
      cases hx
    · exact (hother i hi).2 ▸ hx
  case entries =>
    intro i
    by_cases hi : i = id
    · subst hi
      rw [if_pos rfl, entries, Bag.activeEntries_supersede, Bag.archivedEntries_supersede]
      exact List.sublist_append_right _ _
    · rw [if_neg hi, entries, (hother i hi).1, (hother i hi).2, List.append_nil]
      exact .refl _
  case sorted => exact fun h => Table.sorted_keys_insert h _ _
  case sorted' => exact fun h => h.sublist (List.filter_sublist.map _)

theorem Writes.mem_entries (h : b.Writes c id new) {i : BagId} {x : Entry}
    (hx : x ∈ c.entries i) : x ∈ b.entries i ∨ i = id ∧ x = new := by
  rcases Baggage.mem_entries.mp hx with hx | hx
  · exact .inl (Baggage.mem_entries.mpr (.inl (h.archived i x hx)))
  · exact (h.active i x hx).imp_left fun hx => Baggage.mem_entries.mpr (.inr hx)

/-- Baggage stays in proper form if the version of the new entry is a new one. -/
theorem Writes.tidy (h : b.Writes c id new) (hb : b.Tidy)
    (hfresh : ∀ i, ∀ x ∈ b.entries i, x.version ≠ new.version) : c.Tidy where
  active := h.sorted hb.active
  archive := h.sorted' hb.archive
  versions i := by
    refine List.Nodup.sublist ((h.entries i).map _) ?_
    rw [List.map_append, List.nodup_append]
    refine ⟨hb.versions i, ?_, ?_⟩
    · split
      · exact List.nodup_singleton _
      · exact List.nodup_nil
    · intro v hv w hw
      obtain ⟨x, hx, rfl⟩ := List.mem_map.mp hv
      split at hw
      · rw [List.map_singleton, List.mem_singleton] at hw
        exact hw ▸ hfresh i x hx
      · cases hw
  agree i j x hx y hy hv := by
    rcases h.mem_entries hx with hx | ⟨rfl, rfl⟩ <;> rcases h.mem_entries hy with hy | ⟨rfl, rfl⟩
    · exact hb.agree i j x hx y hy hv
    · exact absurd hv (hfresh i x hx)
    · exact absurd hv.symm (hfresh j y hy)
    · exact ⟨rfl, rfl⟩

end Baggage

/-- A pack changes nothing or writes one entry of its version. -/
theorem Bag.pack_cases (bag : Bag) (version : UInt64) (b : Baggage) (rows : List Row) :
    (bag.pack version b rows).1 = b ∨
      ∃ new, new.version = version ∧ b.Writes (bag.pack version b rows).1 bag.id new := by
  rcases bag.pack_forms version b rows with h | ⟨rs, _, h | h | h⟩
  · exact .inl h
  · exact .inr ⟨b.nextEntry bag.id version rs, rfl, h ▸ Baggage.writes_push rs⟩
  · exact .inr ⟨b.nextEntry bag.id version rs, rfl, h ▸ Baggage.writes_replaceActive rs⟩
  · exact .inr ⟨b.nextEntry bag.id version rs, rfl, h ▸ Baggage.writes_supersede rs⟩

/-! ## Branches in proper form -/

namespace Branches

variable {bs : Branches} {es : List Event} {e : Event} {i j : Nat} {br other : Branch}

theorem eq_of_start (h : start i = some br) : br = ⟨.empty, ∅⟩ := by
  by_cases hi : i = 0
  · subst hi
    rw [start, Function.update_self] at h
    exact (Option.some.inj h).symm
  · rw [start, Function.update_of_ne hi] at h
    cases h

/-- The branches that a branch is made of after an action. -/
def sources (bs : Branches) : Action → Nat → List Nat
  | .pack _ _, k => [k]
  | .archive _, k => [k]
  | .split i j, k => if k = j ∧ (bs i).isSome then [i] else [k]
  | .join i j, k => if k = i ∧ (bs i).isSome ∧ (bs j).isSome then [i, j] else [k]

/-- How a branch came about that is alive after an action. -/
inductive Arises (bs : Branches) (action : Action) (i : Nat) : Branch → Prop where
  | kept {br : Branch} (h : bs i = some br) (hs : i ∈ bs.sources action i) : Arises bs action i br
  | packed {br : Branch} (e : Event) (ha : action = .pack i e) (h : bs i = some br)
      (hs : i ∈ bs.sources action i) : Arises bs action i (br.pack e)
  | archived {k : Nat} {br : Branch} (h : bs k = some br) (hs : k ∈ bs.sources action i) :
      Arises bs action i br.archive
  | joined {j : Nat} {br other : Branch} (hne : i ≠ j) (h : bs i = some br) (h' : bs j = some other)
      (hs : i ∈ bs.sources action i) (hs' : j ∈ bs.sources action i) :
      Arises bs action i (br.join other)

theorem arises_of_pack {k : Nat} (h : bs.step (.pack k e) i = some br) :
    bs.Arises (.pack k e) i br := by
  have hs : i ∈ bs.sources (.pack k e) i := List.mem_singleton_self i
  by_cases hk : i = k
  · subst hk
    rw [step, Function.update_self] at h
    obtain ⟨old, hold, rfl⟩ := Option.map_eq_some_iff.mp h
    exact .packed e rfl hold hs
  · rw [step, Function.update_of_ne hk] at h
    exact .kept h hs

theorem arises_of_archive {k : Nat} (h : bs.step (.archive k) i = some br) :
    bs.Arises (.archive k) i br := by
  have hs : i ∈ bs.sources (.archive k) i := List.mem_singleton_self i
  by_cases hk : i = k
  · subst hk
    rw [step, Function.update_self] at h
    obtain ⟨old, hold, rfl⟩ := Option.map_eq_some_iff.mp h
    exact .archived hold hs
  · rw [step, Function.update_of_ne hk] at h
    exact .kept h hs

theorem arises_of_split {k : Nat} (h : bs.step (.split k j) i = some br) :
    bs.Arises (.split k j) i br := by
  cases hold : bs k with
  | none =>
      simp only [step, hold] at h
      exact .kept h (by simp [sources, hold])
  | some old =>
      simp only [step, hold] at h
      by_cases hj : i = j
      · subst hj
        rw [Function.update_self] at h
        cases h
        exact .archived hold (by simp [sources, hold])
      · have hs : i ∈ bs.sources (.split k j) i := by simp [sources, hj]
        rw [Function.update_of_ne hj] at h
        by_cases hk : i = k
        · subst hk
          rw [Function.update_self] at h
          cases h
          exact .archived hold hs
        · rw [Function.update_of_ne hk] at h
          exact .kept h hs

theorem arises_of_join {k : Nat} (h : bs.step (.join k j) i = some br) :
    bs.Arises (.join k j) i br := by
  have hself : i ∈ bs.sources (.join k j) i := by
    show i ∈ if i = k ∧ (bs k).isSome ∧ (bs j).isSome then [k, j] else [i]
    split
    · next hi => exact hi.1 ▸ List.mem_cons_self
    · exact List.mem_singleton_self i
  by_cases hne : k = j
  · have hsame : bs.step (.join k j) = bs := by
      rw [step]
      split
      · rw [if_pos hne]
      · rfl
    exact .kept (hsame ▸ h) hself
  · cases hold : bs k with
    | none =>
        simp only [step, hold] at h
        exact .kept h hself
    | some old =>
        cases hother : bs j with
        | none =>
            simp only [step, hold, hother] at h
            exact .kept h hself
        | some other =>
            simp only [step, hold, hother, if_neg hne] at h
            by_cases hk : i = k
            · subst hk
              rw [Function.update_self] at h
              cases h
              exact .joined hne hold hother hself (by simp [sources, hold, hother])
            · rw [Function.update_of_ne hk] at h
              by_cases hj : i = j
              · subst hj
                rw [Function.update_self] at h
                cases h
              · rw [Function.update_of_ne hj] at h
                exact .kept h hself

theorem arises_of_step {action : Action} (h : bs.step action i = some br) :
    bs.Arises action i br := by
  cases action with
  | pack k e => exact arises_of_pack h
  | split k j => exact arises_of_split h
  | archive k => exact arises_of_archive h
  | join k j => exact arises_of_join h

/-- What holds of all branches after some packs, each with its own version, whatever copies of
branches have been made. -/
structure Coherent (bs : Branches) (es : List Event) : Prop where
  tidy : ∀ {i br}, bs i = some br → br.baggage.Tidy
  agree : ∀ {i j br other}, bs i = some br → bs j = some other → br.baggage.Agree other.baggage
  drawn : ∀ {i br}, bs i = some br → ∀ id, ∀ x ∈ br.baggage.entries id,
    x.version ∈ es.map (·.version)
  past : ∀ {i br}, bs i = some br → ∀ e ∈ br.past, e ∈ es

/-- What holds of all branches as long as no branch is copied with ACTIVE entries. -/
structure Sound (bs : Branches) (es : List Event) : Prop extends Coherent bs es where
  owns : ∀ {i j br other}, bs i = some br → bs j = some other → i ≠ j →
    br.baggage.Owns other.baggage

theorem Coherent.mergeable (h : bs.Coherent es) (hi : bs i = some br) (hj : bs j = some other) :
    br.baggage.Mergeable other.baggage := ⟨h.tidy hi, h.tidy hj, h.agree hi hj⟩

theorem Sound.joinable (h : bs.Sound es) (hi : bs i = some br) (hj : bs j = some other)
    (hne : i ≠ j) : br.baggage.Joinable other.baggage :=
  ⟨h.mergeable hi hj, h.owns hi hj hne, h.owns hj hi hne.symm⟩

theorem sound_start : start.Sound [] := by
  refine ⟨⟨?_, ?_, ?_, ?_⟩, ?_⟩
  · exact fun h => eq_of_start h ▸ Baggage.tidy_empty
  · exact fun h _ _ _ x hx => by rw [eq_of_start h] at hx; cases hx
  · exact fun h _ x hx => by rw [eq_of_start h] at hx; cases hx
  · exact fun h e he => by rw [eq_of_start h] at he; exact absurd he (Finset.notMem_empty e)
  · exact fun h _ _ _ _ x hx => by rw [eq_of_start h] at hx; cases hx

/-- A live branch is the one that was put there or one that has been there. -/
theorem eq_or_of_update {k : Nat} (hk : Function.update bs i (some br) k = some other) :
    k = i ∧ other = br ∨ k ≠ i ∧ bs k = some other := by
  by_cases hi : k = i
  · subst hi
    rw [Function.update_self] at hk
    exact .inl ⟨rfl, (Option.some.inj hk).symm⟩
  · rw [Function.update_of_ne hi] at hk
    exact .inr ⟨hi, hk⟩

theorem of_update_none {k : Nat} (hk : Function.update bs j none k = some other) :
    k ≠ j ∧ bs k = some other := by
  by_cases hj : k = j
  · subst hj
    rw [Function.update_self] at hk
    cases hk
  · rw [Function.update_of_ne hj] at hk
    exact ⟨hj, hk⟩

/-- A branch is replaced by one that gets along with all others. -/
theorem Coherent.update {es' : List Event} (h : bs.Coherent es) (hes : es ⊆ es')
    (ht : br.baggage.Tidy)
    (hagree : ∀ k other, k ≠ i → bs k = some other → br.baggage.Agree other.baggage)
    (hdrawn : ∀ id, ∀ x ∈ br.baggage.entries id, x.version ∈ es'.map (·.version))
    (hpast : ∀ e ∈ br.past, e ∈ es') : Coherent (Function.update bs i (some br)) es' := by
  constructor
  case tidy =>
    intro k other hk
    rcases eq_or_of_update hk with ⟨rfl, rfl⟩ | ⟨hi, hk⟩
    · exact ht
    · exact h.tidy hk
  case agree =>
    intro k l other other' hk hl
    rcases eq_or_of_update hk with ⟨rfl, rfl⟩ | ⟨hi, hk'⟩ <;>
      rcases eq_or_of_update hl with ⟨rfl, rfl⟩ | ⟨hj, hl'⟩
    · exact ht.agree
    · exact hagree _ _ hj hl'
    · exact (hagree _ _ hi hk').symm
    · exact h.agree hk' hl'
  case drawn =>
    intro k other hk id x hx
    rcases eq_or_of_update hk with ⟨rfl, rfl⟩ | ⟨hi, hk⟩
    · exact hdrawn id x hx
    · exact List.map_subset _ hes (h.drawn hk id x hx)
  case past =>
    intro k other hk e he
    rcases eq_or_of_update hk with ⟨rfl, rfl⟩ | ⟨hi, hk⟩
    · exact hpast e he
    · exact hes (h.past hk e he)

theorem Sound.update {es' : List Event} (h : bs.Sound es)
    (hcoherent : Coherent (Function.update bs i (some br)) es')
    (howns : ∀ k other, k ≠ i → bs k = some other →
      br.baggage.Owns other.baggage ∧ other.baggage.Owns br.baggage) :
    Sound (Function.update bs i (some br)) es' := by
  refine ⟨hcoherent, ?_⟩
  intro k l other other' hk hl hne
  rcases eq_or_of_update hk with ⟨rfl, rfl⟩ | ⟨hi, hk'⟩ <;>
    rcases eq_or_of_update hl with ⟨rfl, rfl⟩ | ⟨hj, hl'⟩
  · exact absurd rfl hne
  · exact (howns _ _ hj hl').1
  · exact (howns _ _ hi hk').2
  · exact h.owns hk' hl' hne

theorem Coherent.erase (h : bs.Coherent es) (j : Nat) : Coherent (Function.update bs j none) es :=
  ⟨fun hk => h.tidy (of_update_none hk).2,
    fun hk hl => h.agree (of_update_none hk).2 (of_update_none hl).2,
    fun hk => h.drawn (of_update_none hk).2, fun hk => h.past (of_update_none hk).2⟩

theorem Sound.erase (h : bs.Sound es) (j : Nat) : Sound (Function.update bs j none) es :=
  ⟨h.toCoherent.erase j, fun hk hl => h.owns (of_update_none hk).2 (of_update_none hl).2⟩

/-! ### Each action -/

/-- A branch may be copied as it is. -/
theorem Coherent.copy (h : bs.Coherent es) (hi : bs i = some br) (j : Nat) :
    Coherent (Function.update bs j (some br)) es :=
  h.update (List.Subset.refl _) (h.tidy hi) (fun _ _ _ hk => h.agree hi hk) (h.drawn hi) (h.past hi)

theorem Coherent.pack (h : bs.Coherent es) (hi : bs i = some br)
    (hfresh : e.version ∉ es.map (·.version)) :
    Coherent (Function.update bs i (some (br.pack e))) (es ++ [e]) := by
  have hes : es ⊆ es ++ [e] := List.subset_append_left _ _
  have hpast : ∀ e' ∈ (br.pack e).past, e' ∈ es ++ [e] := by
    intro e' he'
    rcases Finset.mem_insert.mp he' with rfl | he'
    · exact List.mem_append_cons_self
    · exact hes (h.past hi e' he')
  rcases e.bag.pack_cases e.version br.baggage e.rows with hsame | ⟨new, hnew, hwrites⟩
  · have hbaggage : (br.pack e).baggage = br.baggage := hsame
    refine h.update hes (hbaggage ▸ h.tidy hi) ?_ ?_ hpast
    · exact fun k other _ hk => hbaggage ▸ h.agree hi hk
    · intro id x hx
      rw [hbaggage] at hx
      exact List.map_subset _ hes (h.drawn hi id x hx)
  · have hnone : ∀ {k other}, bs k = some other → ∀ id, ∀ x ∈ other.baggage.entries id,
        x.version ≠ new.version := by
      intro k other hk id x hx hv
      exact hfresh (hnew ▸ hv ▸ h.drawn hk id x hx)
    refine h.update hes (hwrites.tidy (h.tidy hi) (hnone hi)) ?_ ?_ hpast
    · intro k other _ hk id id' x hx y hy hv
      rcases hwrites.mem_entries hx with hx | ⟨rfl, rfl⟩
      · exact h.agree hi hk id id' x hx y hy hv
      · exact absurd hv.symm (hnone hk id' y hy)
    · intro id x hx
      rw [List.map_append, List.mem_append]
      rcases hwrites.mem_entries hx with hx | ⟨rfl, rfl⟩
      · exact .inl (h.drawn hi id x hx)
      · exact .inr (List.mem_singleton.mpr hnew)

theorem Sound.pack (h : bs.Sound es) (hi : bs i = some br)
    (hfresh : e.version ∉ es.map (·.version)) :
    Sound (Function.update bs i (some (br.pack e))) (es ++ [e]) := by
  refine h.update (h.toCoherent.pack hi hfresh) fun k other hne hk => ?_
  rcases e.bag.pack_cases e.version br.baggage e.rows with hsame | ⟨new, hnew, hwrites⟩
  · have hbaggage : (br.pack e).baggage = br.baggage := hsame
    exact hbaggage ▸ ⟨h.owns hi hk hne.symm, h.owns hk hi hne⟩
  · have hnone : ∀ id, ∀ x ∈ other.baggage.entries id, x.version ≠ new.version := by
      intro id x hx hv
      exact hfresh (hnew ▸ hv ▸ h.drawn hk id x hx)
    constructor
    · intro id id' x hx y hy hv
      rcases hwrites.active id x hx with hx | ⟨rfl, rfl⟩
      · exact h.owns hi hk hne.symm id id' x hx y hy hv
      · exact hnone id' y hy hv.symm
    · intro id id' x hx y hy hv
      rcases hwrites.mem_entries hy with hy | ⟨rfl, rfl⟩
      · exact h.owns hk hi hne id id' x hx y hy hv
      · exact hnone id x (Baggage.mem_entries.mpr (.inr hx)) hv

theorem Coherent.archive (h : bs.Coherent es) (hi : bs i = some br) :
    Coherent (Function.update bs i (some br.archive)) es := by
  have hentries : ∀ id x, x ∈ br.archive.baggage.entries id ↔ x ∈ br.baggage.entries id :=
    fun _ _ => Baggage.mem_entries_archiveActive (h.tidy hi)
  refine h.update (List.Subset.refl _) (h.tidy hi).archiveActive ?_ ?_ fun e he => h.past hi e he
  · exact fun k other _ hk id id' x hx => h.agree hi hk id id' x ((hentries id x).mp hx)
  · exact fun id x hx => h.drawn hi id x ((hentries id x).mp hx)

theorem Sound.archive (h : bs.Sound es) (hi : bs i = some br) :
    Sound (Function.update bs i (some br.archive)) es := by
  refine h.update (h.toCoherent.archive hi) fun k other hne hk => ?_
  refine ⟨fun id id' x hx => (nomatch hx), fun id id' x hx y hy => ?_⟩
  exact h.owns hk hi hne id id' x hx y ((Baggage.mem_entries_archiveActive (h.tidy hi)).mp hy)

/-- What nobody owns can be copied. -/
theorem Sound.copy (h : bs.Sound es) (hi : bs i = some br)
    (hnone : ∀ id, br.baggage.activeEntries id = []) (j : Nat) :
    Sound (Function.update bs j (some br)) es := by
  refine h.update (h.toCoherent.copy hi j) fun k other hne hk => ?_
  refine ⟨fun id id' x hx => ?_, fun id id' x hx y hy => ?_⟩
  · rw [hnone id] at hx
    cases hx
  · by_cases hki : k = i
    · subst hki
      rw [hi] at hk
      cases hk
      rw [hnone id] at hx
      cases hx
    · exact h.owns hk hi hki id id' x hx y hy

theorem Coherent.join (h : bs.Coherent es) (hi : bs i = some br) (hj : bs j = some other) :
    Coherent (Function.update (Function.update bs j none) i (some (br.join other))) es := by
  have hmerge := h.mergeable hi hj
  have hmem : ∀ id x, x ∈ (br.join other).baggage.entries id ↔
      x ∈ br.baggage.entries id ∨ x ∈ other.baggage.entries id :=
    fun _ _ => Baggage.mem_entries_join hmerge
  refine (h.erase j).update (List.Subset.refl _) (Baggage.Tidy.join hmerge) ?_ ?_ ?_
  · intro k other' _ hk id id' x hx
    rcases (hmem id x).mp hx with hx | hx
    · exact h.agree hi (of_update_none hk).2 id id' x hx
    · exact h.agree hj (of_update_none hk).2 id id' x hx
  · intro id x hx
    rcases (hmem id x).mp hx with hx | hx
    · exact h.drawn hi id x hx
    · exact h.drawn hj id x hx
  · intro e he
    rcases Finset.mem_union.mp he with he | he
    · exact h.past hi e he
    · exact h.past hj e he

theorem Sound.join (h : bs.Sound es) (hi : bs i = some br) (hj : bs j = some other) (hne : i ≠ j) :
    Sound (Function.update (Function.update bs j none) i (some (br.join other))) es := by
  have hjoin := h.joinable hi hj hne
  refine (h.erase j).update (h.toCoherent.join hi hj) fun k other' hki hk => ?_
  obtain ⟨hkj, hk⟩ := of_update_none hk
  refine ⟨fun id id' x hx => ?_, fun id id' x hx y hy => ?_⟩
  · rcases hjoin.mem_activeEntries.mp hx with hx | hx
    · exact h.owns hi hk hki.symm id id' x hx
    · exact h.owns hj hk hkj.symm id id' x hx
  · rcases (Baggage.mem_entries_join hjoin.toMergeable).mp hy with hy | hy
    · exact h.owns hk hi hki id id' x hx y hy
    · exact h.owns hk hj hkj id id' x hx y hy

theorem Sound.mono {es' : List Event} (h : bs.Sound es) (hes : es ⊆ es') : bs.Sound es' :=
  ⟨⟨h.tidy, h.agree, fun hi id x hx => List.map_subset _ hes (h.drawn hi id x hx),
    fun hi e he => hes (h.past hi e he)⟩, h.owns⟩

theorem packs_append (actions more : List Action) :
    packs (actions ++ more) = packs actions ++ packs more := List.filterMap_append ..

theorem packs_cons (action : Action) (more : List Action) :
    packs (action :: more) = packs [action] ++ packs more := packs_append [action] more

theorem nodup_versions_of_append {es' : List Event} (h : ((es ++ es').map (·.version)).Nodup) :
    (es.map (·.version)).Nodup := by
  rw [List.map_append] at h
  exact List.Nodup.of_append_left h

theorem version_not_mem_of_append {es' : List Event} (h : ((es ++ es').map (·.version)).Nodup)
    (he : e ∈ es') : e.version ∉ es.map (·.version) := by
  rw [List.map_append, List.nodup_append] at h
  exact fun hm => h.2.2 _ hm _ (List.mem_map_of_mem he) rfl

/-- Every action leaves the branches in proper form, if a pack draws a new version. -/
theorem Sound.step {action : Action} (h : bs.Sound es)
    (hfresh : ((es ++ packs [action]).map (·.version)).Nodup) :
    (bs.step action).Sound (es ++ packs [action]) := by
  cases action with
  | pack i e =>
      have hnew : e.version ∉ es.map (·.version) :=
        version_not_mem_of_append hfresh (List.mem_singleton_self e)
      show Sound (Function.update bs i ((bs i).map (.pack e))) (es ++ [e])
      cases hi : bs i with
      | none => exact (h.mono (List.subset_append_left _ _)).erase i
      | some br => exact h.pack hi hnew
  | split i j =>
      have hrest : packs [.split i j] = [] := rfl
      rw [Branches.step, hrest, List.append_nil]
      cases hi : bs i with
      | none => exact h
      | some br => exact (h.archive hi).copy (Function.update_self ..) (fun _ => rfl) j
  | archive i =>
      have hrest : packs [.archive i] = [] := rfl
      rw [Branches.step, hrest, List.append_nil]
      cases hi : bs i with
      | none => exact h.erase i
      | some br => exact h.archive hi
  | join i j =>
      have hrest : packs [.join i j] = [] := rfl
      rw [Branches.step, hrest, List.append_nil]
      split
      · next br other hi hj =>
          split
          · exact h
          · next hne => exact h.join hi hj hne
      · exact h

/-- As long as every pack draws a new version, the branches stay in proper form. -/
theorem Sound.run (h : bs.Sound es) (more : List Action)
    (hfresh : ((es ++ packs more).map (·.version)).Nodup) :
    (more.foldl Branches.step bs).Sound (es ++ packs more) := by
  induction more using List.reverseRecOn with
  | nil => exact (List.append_nil es).symm ▸ h
  | append_singleton more action ih =>
      rw [packs_append, ← List.append_assoc] at hfresh ⊢
      rw [List.foldl_concat]
      exact (ih (nodup_versions_of_append hfresh)).step hfresh

theorem run_concat (actions : List Action) (action : Action) :
    run (actions ++ [action]) = (run actions).step action := List.foldl_concat ..

/-- What is read off a branch by running can be read off the branch at hand. -/
theorem eq_of_map_run {α : Type} {actions : List Action} {a : α} (f : Branch → α)
    (hi : run actions i = some br) (h : (run actions i).map f = some a) : f br = a := by
  rw [hi] at h
  exact Option.some.inj h

/-- In every run whose packs draw distinct versions, the branches are in proper form. -/
theorem sound_run (actions : List Action) (hfresh : ((packs actions).map (·.version)).Nodup) :
    (run actions).Sound (packs actions) := sound_start.run actions hfresh

end Branches

end CausalTrace
