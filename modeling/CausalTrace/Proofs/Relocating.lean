import CausalTrace.Proofs.Confined
import Mathlib.Data.Multiset.Bind
import Mathlib.Tactic.Abel

/-!
# Where the work of a query stands

A stage is found by the aliases that lead to it, and every let and every condition stands at
some stage. Rewriting relocates them: each one stays where it was or moves to a stage further
upstream, nothing gets lost or is doubled, and what is new are products of counts. The stages
go on to watch what they watched, and a stage that keeps one row takes up nothing.
-/

namespace CausalTrace

/-! ## Stages in place of others -/

namespace Stage

variable {s s' s'' : Stage}

/-- A stage watches what another one does. If it keeps one row, so does the other, which has
all lets and conditions that it has. -/
structure Recast (s s' : Stage) : Prop where
  source : s'.source = s.source
  observed : s'.observed = s.observed
  shorts : s'.shorts = s.shorts
  filters : ∀ keep, s'.shape = .filter keep ↔ s.shape = .filter keep
  takes : ∀ keep, s.shape = .filter keep → s'.lets.Subperm s.lets ∧ s'.wheres.Subperm s.wheres

theorem Recast.refl (s : Stage) : s.Recast s :=
  ⟨rfl, rfl, rfl, fun _ => Iff.rfl, fun _ _ => ⟨List.Subperm.refl _, List.Subperm.refl _⟩⟩

theorem Recast.trans (h : s.Recast s') (h' : s'.Recast s'') : s.Recast s'' where
  source := h'.source.trans h.source
  observed := h'.observed.trans h.observed
  shorts := h'.shorts.trans h.shorts
  filters keep := (h'.filters keep).trans (h.filters keep)
  takes keep hs := by
    obtain ⟨hlets, hwheres⟩ := h.takes keep hs
    obtain ⟨hlets', hwheres'⟩ := h'.takes keep ((h.filters keep).mpr hs)
    exact ⟨hlets'.trans hlets, hwheres'.trans hwheres⟩

/-- A stage that does not keep one row may take up anything. -/
theorem Recast.of_not_filter (hsource : s'.source = s.source) (hobserved : s'.observed = s.observed)
    (hshorts : s'.shorts = s.shorts) (hs : ∀ keep, s.shape ≠ .filter keep)
    (hs' : ∀ keep, s'.shape ≠ .filter keep) : s.Recast s' where
  source := hsource
  observed := hobserved
  shorts := hshorts
  filters keep := iff_of_false (hs' keep) (hs keep)
  takes keep h := absurd h (hs keep)

/-- The stage does the same work; its shape and what it delivers may differ. -/
structure Rests (s s' : Stage) : Prop extends Recast s s' where
  lets : s'.lets = s.lets
  wheres : s'.wheres = s.wheres

theorem Rests.refl (s : Stage) : s.Rests s := ⟨.refl s, rfl, rfl⟩

theorem Rests.of_filters (hsource : s'.source = s.source) (hobserved : s'.observed = s.observed)
    (hshorts : s'.shorts = s.shorts)
    (hfilters : ∀ keep, s'.shape = .filter keep ↔ s.shape = .filter keep)
    (hlets : s'.lets = s.lets) (hwheres : s'.wheres = s.wheres) : s.Rests s' :=
  ⟨⟨hsource, hobserved, hshorts, hfilters, fun _ _ =>
    ⟨hlets ▸ List.Subperm.refl _, hwheres ▸ List.Subperm.refl _⟩⟩, hlets, hwheres⟩

theorem Rests.of_shape (hsource : s'.source = s.source) (hobserved : s'.observed = s.observed)
    (hshorts : s'.shorts = s.shorts) (hlets : s'.lets = s.lets) (hwheres : s'.wheres = s.wheres)
    (hs : ∀ keep, s.shape ≠ .filter keep) (hs' : ∀ keep, s'.shape ≠ .filter keep) : s.Rests s' :=
  .of_filters hsource hobserved hshorts
    (fun keep => iff_of_false (hs' keep) (hs keep)) hlets hwheres

end Stage

theorem Shape.Flat.ne_filter {shape : Shape} (h : shape.Flat) (keep : Filter) :
    shape ≠ .filter keep := by
  rintro rfl
  rcases h with h | ⟨_, h⟩ <;> cases h

namespace Query

variable {α β : Type} {a b a' : Arena} {s s' : Stage} {js ks before after : List (String × Query)}
  {aliasName : String} {q u u' q' : Query} {f : Stage → List α}

/-! ## Sites -/

/-- The same thing under one alias more. -/
def under (aliasName : String) (x : List String × α) : List String × α := (aliasName :: x.1, x.2)

mutual

/-- All stages of a query, each with the aliases that lead to it. -/
def sites : Query → List (List String × Stage)
  | .node s js => ([], s) :: joinsSites js

def joinsSites : List (String × Query) → List (List String × Stage)
  | [] => []
  | (aliasName, u) :: js => u.sites.map (under aliasName) ++ joinsSites js

end

/-- Things that stand at the stage itself. -/
def here (xs : List α) : Multiset (List String × α) := (xs.map ([], ·) : List (List String × α))

/-- What the stages of a query hold, each thing with the aliases that lead to it. -/
def placed (f : Stage → List α) (q : Query) : Multiset (List String × α) :=
  (q.sites.flatMap fun x => (f x.2).map (x.1, ·) : List (List String × α))

def joinsPlaced (f : Stage → List α) (js : List (String × Query)) : Multiset (List String × α) :=
  ((joinsSites js).flatMap fun x => (f x.2).map (x.1, ·) : List (List String × α))

theorem here_nil : here ([] : List α) = 0 := rfl

theorem here_append (xs ys : List α) : here (xs ++ ys) = here xs + here ys := by
  unfold here
  rw [List.map_append]
  rfl

theorem here_perm {xs ys : List α} (h : xs.Perm ys) : here xs = here ys :=
  Multiset.coe_eq_coe.mpr (h.map _)

theorem joinsSites_append (js ks : List (String × Query)) :
    joinsSites (js ++ ks) = joinsSites js ++ joinsSites ks := by
  induction js with
  | nil => rfl
  | cons j js ih =>
      show _ ++ joinsSites (js ++ ks) = (_ ++ joinsSites js) ++ joinsSites ks
      rw [ih, List.append_assoc]

theorem placed_node (f : Stage → List α) (s : Stage) (js : List (String × Query)) :
    (node s js).placed f = here (f s) + joinsPlaced f js := rfl

theorem placed_withStage (f : Stage → List α) (g : Stage → Stage) (u : Query) :
    (u.withStage g).placed f =
      here (f (g u.stage)) + joinsPlaced f u.joins := by
  cases u
  rfl

theorem joinsPlaced_append (f : Stage → List α) (js ks : List (String × Query)) :
    joinsPlaced f (js ++ ks) = joinsPlaced f js + joinsPlaced f ks := by
  unfold joinsPlaced
  rw [joinsSites_append, List.flatMap_append]
  rfl

theorem joinsPlaced_cons (f : Stage → List α) (aliasName : String) (u : Query)
    (js : List (String × Query)) :
    joinsPlaced f ((aliasName, u) :: js) = (u.placed f).map (under aliasName) +
      joinsPlaced f js := by
  have hbelow : (u.sites.map (under aliasName)).flatMap (fun x => (f x.2).map (x.1, ·)) =
      (u.sites.flatMap fun x => (f x.2).map (x.1, ·)).map (under aliasName) := by
    rw [List.flatMap_map, List.map_flatMap]
    refine List.flatMap_congr fun x _ => ?_
    rw [List.map_map]
    rfl
  unfold joinsPlaced placed
  rw [joinsSites, List.flatMap_append, hbelow]
  rfl

/-- What the stage and its joined queries hold, one of these told apart. -/
theorem placed_replace (f : Stage → List α) (s : Stage) (before after : List (String × Query))
    (aliasName : String) (u : Query) :
    (node s (before ++ (aliasName, u) :: after)).placed f =
      here (f s) + (u.placed f).map (under aliasName) +
        (joinsPlaced f before + joinsPlaced f after) := by
  rw [placed_node, joinsPlaced_append, joinsPlaced_cons]
  abel

/-! ### Corresponding sites -/

/-- The same aliases lead to two stages, of which one stands in place of the other. -/
def Site (R : Stage → Stage → Prop) (x y : List String × Stage) : Prop := y.1 = x.1 ∧ R x.2 y.2

variable {R : Stage → Stage → Prop}

theorem Site.refl (hR : ∀ s, R s s) (x : List String × Stage) : Site R x x := ⟨rfl, hR x.2⟩

theorem forall₂_sites_below (h : List.Forall₂ (Site R) q.sites q'.sites) (aliasName : String) :
    List.Forall₂ (Site R) (q.sites.map (under aliasName)) (q'.sites.map (under aliasName)) := by
  rw [List.forall₂_map_left_iff, List.forall₂_map_right_iff]
  exact h.imp fun x y hxy => ⟨congrArg (aliasName :: ·) hxy.1, hxy.2⟩

theorem forall₂_sites_replace (hR : ∀ s, R s s) (hs : R s s')
    (hu : List.Forall₂ (Site R) u.sites u'.sites) :
    List.Forall₂ (Site R) (node s (before ++ (aliasName, u) :: after)).sites
      (node s' (before ++ (aliasName, u') :: after)).sites := by
  have hrefl : ∀ xs : List (List String × Stage), List.Forall₂ (Site R) xs xs := fun xs =>
    List.forall₂_same.mpr fun x _ => .refl hR x
  rw [sites, sites, joinsSites_append, joinsSites_append, joinsSites, joinsSites]
  refine .cons ⟨rfl, hs⟩ (List.rel_append (hrefl _) (List.rel_append ?_ (hrefl _)))
  exact forall₂_sites_below hu aliasName

theorem forall₂_sites_withStage {g : Stage → Stage} (hR : ∀ s, R s s) (h : R u.stage (g u.stage)) :
    List.Forall₂ (Site R) u.sites (u.withStage g).sites := by
  cases u with
  | node t ks => exact .cons ⟨rfl, h⟩ (List.forall₂_same.mpr fun x _ => .refl hR x)

theorem forall₂_joinsSites_map {g : String × Query → Query}
    (h : ∀ j ∈ js, List.Forall₂ (Site R) j.2.sites (g j).sites) :
    List.Forall₂ (Site R) (joinsSites js) (joinsSites (js.map fun j => (j.1, g j))) := by
  induction js with
  | nil => exact .nil
  | cons j js ih =>
      obtain ⟨hj, hjs⟩ := List.forall_mem_cons.mp h
      exact List.rel_append (forall₂_sites_below hj j.1) (ih hjs)

theorem placed_of_rests (h : List.Forall₂ (Site Stage.Rests) q.sites q'.sites)
    (hf : ∀ s s', Stage.Rests s s' → f s' = f s) : q'.placed f = q.placed f := by
  unfold placed
  congr 1
  generalize q.sites = xs at h ⊢
  generalize q'.sites = ys at h ⊢
  induction h with
  | nil => rfl
  | @cons x y xs ys hxy _ ih => rw [List.flatMap_cons, List.flatMap_cons, ih, hxy.1, hf _ _ hxy.2]

/-! ## Moving upstream -/

/-- The second is the first where it stands or further upstream. -/
def Upstream (x y : List String × α) : Prop := x.2 = y.2 ∧ x.1 <+: y.1

instance : IsTrans (List String × α) Upstream :=
  ⟨fun _ _ _ h h' => ⟨h.1.trans h'.1, h.2.trans h'.2⟩⟩

/-- One by one, the second things are the first ones where they stand or further upstream. -/
def Rises (xs ys : Multiset (List String × α)) : Prop := Multiset.Rel Upstream xs ys

variable {xs ys zs xs' ys' : Multiset (List String × α)}

theorem Rises.refl (xs : Multiset (List String × α)) : Rises xs xs :=
  Multiset.rel_refl_of_refl_on fun _ _ => ⟨rfl, List.prefix_refl _⟩

theorem Rises.trans (h : Rises xs ys) (h' : Rises ys zs) : Rises xs zs := Multiset.Rel.trans _ h h'

theorem Rises.add (h : Rises xs ys) (h' : Rises xs' ys') : Rises (xs + xs') (ys + ys') :=
  Multiset.Rel.add h h'

theorem Rises.under (h : Rises xs ys) (aliasName : String) :
    Rises (xs.map (under aliasName)) (ys.map (under aliasName)) := by
  refine Multiset.rel_map.mpr (h.mono fun x _ y _ hxy => ⟨hxy.1, ?_⟩)
  exact List.cons_prefix_cons.mpr ⟨rfl, hxy.2⟩

/-- What stands at the stage itself may stand under any alias. -/
theorem rises_under (xs : List α) (aliasName : String) :
    Rises (here xs) ((here xs).map (under aliasName)) := by
  refine Multiset.rel_map_right.mpr (Multiset.rel_refl_of_refl_on fun x hx => ⟨rfl, ?_⟩)
  obtain ⟨y, _, rfl⟩ := List.mem_map.mp hx
  exact List.nil_prefix

/-! ## Relocating -/

/-- A let of a new variable that multiplies counts of rows. -/
def CountProduct (a a' : Arena) (l : String × VarId) : Prop :=
  ¬ a.Knows l.2 ∧ ∃ counts,
    a'.definition? l.2 = some (.computed l.1 (productExpr counts.length) counts) ∧
      ∀ v ∈ counts, a'.definition? v = some (.aggregated .count none)

theorem CountProduct.extend {l : String × VarId} (h : CountProduct a b l)
    (hp : b.defs <+: a'.defs) : CountProduct a a' l := by
  have hkeep : ∀ {v d}, b.definition? v = some d → a'.definition? v = some d := fun {v d} hd => by
    rw [Arena.definition?_of_extension hp (List.getElem?_eq_some_iff.mp hd).1, hd]
  obtain ⟨hnew, counts, hproduct, hcounts⟩ := h
  exact ⟨hnew, counts, hkeep hproduct, fun v hv => hkeep (hcounts v hv)⟩

theorem CountProduct.restrict {l : String × VarId} (h : CountProduct b a' l)
    (hp : a.defs <+: b.defs) : CountProduct a a' l :=
  ⟨fun hk => h.1 (hk.of_extension hp), h.2⟩

/-- All work of a query is found again in the other one. -/
structure Relocates (a a' : Arena) (q q' : Query) : Prop where
  sites : List.Forall₂ (Site Stage.Recast) q.sites q'.sites
  wheres : Rises (q.placed (·.wheres)) (q'.placed (·.wheres))
  lets : ∃ added : List (String × VarId), (∀ l ∈ added, CountProduct a a' l) ∧
    Rises (q.placed (·.lets) + here added) (q'.placed (·.lets))

/-- If every stage does the work it did, all work is found again. -/
theorem Relocates.of_rests (h : List.Forall₂ (Site Stage.Rests) q.sites q'.sites) :
    Relocates a a' q q' where
  sites := h.imp fun _ _ hxy => ⟨hxy.1, hxy.2.toRecast⟩
  wheres := by
    rw [placed_of_rests h fun _ _ hs => hs.wheres]
    exact .refl _
  lets := by
    refine ⟨[], List.forall_mem_nil _, ?_⟩
    rw [placed_of_rests h fun _ _ hs => hs.lets, here_nil, add_zero]
    exact .refl _

theorem Relocates.refl (a : Arena) (q : Query) : Relocates a a q q :=
  .of_rests (List.forall₂_same.mpr fun x _ => .refl Stage.Rests.refl x)

theorem Relocates.trans (h : Relocates a b q u) (h' : Relocates b a' u q') (hp : a.defs <+: b.defs)
    (hp' : b.defs <+: a'.defs) : Relocates a a' q q' where
  sites := by
    have htrans : ∀ {xs ys zs : List (List String × Stage)},
        List.Forall₂ (Site Stage.Recast) xs ys →
        List.Forall₂ (Site Stage.Recast) ys zs → List.Forall₂ (Site Stage.Recast) xs zs := by
      intro xs ys zs hxy hyz
      induction hxy generalizing zs with
      | nil => exact hyz
      | cons hs _ ih =>
          cases hyz with
          | cons hs' hyz => exact .cons ⟨hs'.1.trans hs.1, hs.2.trans hs'.2⟩ (ih hyz)
    exact htrans h.sites h'.sites
  wheres := h.wheres.trans h'.wheres
  lets := by
    obtain ⟨added, hadded, hrises⟩ := h.lets
    obtain ⟨more, hmore, hrises'⟩ := h'.lets
    refine ⟨added ++ more, fun l hl => ?_, ?_⟩
    · rcases List.mem_append.mp hl with hl | hl
      · exact (hadded l hl).extend hp'
      · exact (hmore l hl).restrict hp
    · rw [here_append, ← add_assoc]
      exact (hrises.add (.refl _)).trans hrises'

/-- One of the joined queries may be rewritten for itself. -/
theorem Relocates.replace (h : Relocates a a' u u') :
    Relocates a a' (node s (before ++ (aliasName, u) :: after))
      (node s (before ++ (aliasName, u') :: after)) where
  sites := forall₂_sites_replace Stage.Recast.refl (.refl s) h.sites
  wheres := by
    rw [placed_replace, placed_replace]
    exact ((Rises.refl _).add (h.wheres.under aliasName)).add (.refl _)
  lets := by
    obtain ⟨added, hadded, hrises⟩ := h.lets
    have hunder := hrises.under aliasName
    rw [Multiset.map_add] at hunder
    refine ⟨added, hadded, ?_⟩
    rw [placed_replace, placed_replace, add_right_comm, add_assoc (here _)]
    refine ((Rises.refl _).add ?_).add (.refl _)
    exact ((Rises.refl _).add (rises_under added aliasName)).trans hunder

/-- One thing moves from the stage into one of the joined queries. -/
theorem rises_of_moved {x : α} {g : Stage → Stage} (hs : (f s).Perm (x :: f s'))
    (hu : f (g u.stage) = f u.stage ++ [x]) :
    Rises ((node s (before ++ (aliasName, u) :: after)).placed f)
      ((node s' (before ++ (aliasName, u.withStage g) :: after)).placed f) := by
  have hstage : here (f s) = here [x] + here (f s') := by
    rw [here_perm hs, ← here_append]
    rfl
  have hjoined : (u.withStage g).placed f = here [x] + u.placed f := by
    rw [placed_withStage, hu, here_append, add_comm (here (f u.stage)), add_assoc]
    cases u
    rfl
  have hbefore : (node s (before ++ (aliasName, u) :: after)).placed f = here [x] +
      (here (f s') + (u.placed f).map (under aliasName) +
        (joinsPlaced f before + joinsPlaced f after)) := by
    rw [placed_replace, hstage]
    abel
  have hafter : (node s' (before ++ (aliasName, u.withStage g) :: after)).placed f =
      (here [x]).map (under aliasName) +
        (here (f s') + (u.placed f).map (under aliasName) +
          (joinsPlaced f before + joinsPlaced f after)) := by
    rw [placed_replace, hjoined, Multiset.map_add]
    abel
  rw [hbefore, hafter]
  exact (rises_under [x] aliasName).add (.refl _)

/-- The stage and one of the joined queries hold what they held. -/
theorem rises_of_unmoved {g : Stage → Stage} (hs : f s' = f s) (hu : f (g u.stage) = f u.stage) :
    Rises ((node s (before ++ (aliasName, u) :: after)).placed f)
      ((node s' (before ++ (aliasName, u.withStage g) :: after)).placed f) := by
  rw [placed_replace, placed_replace, hs, placed_withStage, hu]
  cases u
  exact .refl _

/-- A product of counts is a let more. -/
theorem relocates_of_product {l : String × VarId} (hl : CountProduct a a' l) (hs : s.Recast s')
    (hlets : s'.lets = s.lets ++ [l]) (hwheres : s'.wheres = s.wheres) :
    Relocates a a' (node s js) (node s' js) where
  sites := .cons ⟨rfl, hs⟩ (List.forall₂_same.mpr fun x _ => .refl Stage.Recast.refl x)
  wheres := by
    rw [placed_node, placed_node, hwheres]
    exact .refl _
  lets := by
    refine ⟨[l], List.forall_mem_singleton.mpr hl, ?_⟩
    rw [placed_node, placed_node, hlets, here_append, add_right_comm]
    exact .refl _

/-- A let that has moved stands one stage further upstream. -/
theorem LetMoves.relocates {l : String × VarId} {needed : Bool} (hm : LetMoves a s u l)
    (hnames : (s.lets.map (·.1)).Nodup) :
    Relocates a a (node s (before ++ (aliasName, u) :: after))
      (node (s.withoutLet l)
        (before ++ (aliasName, u.withStage (·.withLet l needed)) :: after)) where
  sites := by
    refine forall₂_sites_replace Stage.Recast.refl ?_ (forall₂_sites_withStage Stage.Recast.refl ?_)
    · exact ⟨rfl, rfl, rfl, fun _ => Iff.rfl, fun _ _ =>
        ⟨List.filter_sublist.subperm, List.Subperm.refl _⟩⟩
    · exact .of_not_filter rfl rfl rfl hm.flat.ne_filter hm.flat.ne_filter
  wheres := rises_of_unmoved (f := (·.wheres)) rfl rfl
  lets := by
    refine ⟨[], List.forall_mem_nil _, ?_⟩
    rw [here_nil, add_zero]
    exact rises_of_moved (Stage.lets_perm hnames hm.mem) rfl

/-- A condition that has moved stands one stage further upstream. -/
theorem WhereMoves.relocates {w : Condition} {left : List Condition} (hm : WhereMoves s u w left) :
    Relocates a a (node s (before ++ (aliasName, u) :: after))
      (node { s with wheres := left }
        (before ++ (aliasName, u.withStage (·.withWhere w)) :: after)) where
  sites := by
    have hnot : ∀ keep, u.stage.shape ≠ .filter keep := by
      intro keep
      rcases hm.takes with ⟨hflat, _⟩ | ⟨keys, gs, hs, _⟩
      · exact hflat.ne_filter keep
      · rw [hs]
        exact Shape.noConfusion
    refine forall₂_sites_replace Stage.Recast.refl ?_ (forall₂_sites_withStage Stage.Recast.refl ?_)
    · refine ⟨rfl, rfl, rfl, fun _ => Iff.rfl, fun _ _ => ⟨List.Subperm.refl _, ?_⟩⟩
      exact (List.sublist_cons_self w left).subperm.trans hm.perm.symm.subperm
    · exact .of_not_filter rfl rfl rfl hnot hnot
  wheres := rises_of_moved (f := (·.wheres)) hm.perm rfl
  lets := by
    refine ⟨[], List.forall_mem_nil _, ?_⟩
    rw [here_nil, add_zero]
    exact rises_of_unmoved rfl rfl

end Query

end CausalTrace
