import CausalTrace.Proofs.Confined
import CausalTrace.Proofs.Copies
import Mathlib.Data.List.GetD

/-!
# Renamings

Variables may be renamed if their definitions are renamed with them and their order is kept.
Then they have the same labels and the same places in every list of variables, and the bags
of a renamed stage are the renamed bags.
-/

namespace CausalTrace

/-! ## Labels -/

theorem Definition.label_congr {d : Definition} {l l' : VarId → String}
    (h : ∀ v ∈ d.reads, l v = l' v) : d.label l = d.label l' := by
  cases d with
  | observed source field => rfl
  | computed name expr args => rfl
  | aggregated how input =>
      cases input with
      | none => rfl
      | some v => rw [label, label, h v (List.mem_singleton.mpr rfl)]

theorem Definition.label_mapVars (f : VarId → VarId) (l : VarId → String) (d : Definition) :
    (d.mapVars f).label l = d.label (l ∘ f) := by
  cases d with
  | observed source field => rfl
  | computed name expr args => rfl
  | aggregated how input => cases input <;> rfl

namespace Arena

variable {a b : Arena} {v : VarId} {d : Definition}

theorem labels_concat (ds : List Definition) (d : Definition) :
    labels ⟨ds ++ [d]⟩ = labels ⟨ds⟩ ++ [d.label (label ⟨ds⟩)] := by
  rw [labels, List.foldl_append]
  rfl

theorem length_labels (ds : List Definition) : (labels ⟨ds⟩).length = ds.length := by
  induction ds using List.reverseRecOn with
  | nil => rfl
  | append_singleton ds d ih => rw [labels_concat, List.length_append, List.length_append, ih]; rfl

/-- Later definitions change no label. -/
theorem label_of_extension (hp : a.defs <+: b.defs) (hv : a.Knows v) : b.label v = a.label v := by
  obtain ⟨ds⟩ := a
  obtain ⟨more, hmore⟩ := hp
  obtain ⟨es⟩ := b
  subst hmore
  induction more using List.reverseRecOn with
  | nil => rw [List.append_nil]
  | append_singleton more d ih =>
      rw [← ih, ← List.append_assoc, label, labels_concat, label]
      refine List.getD_append _ _ _ _ ?_
      rw [length_labels, List.length_append]
      exact Nat.lt_add_right _ hv

/-- A label is made from the labels of what the definition reads. -/
theorem label_eq (hd : a.definition? v = some d) (hbefore : ∀ u ∈ d.reads, u.index < v.index) :
    a.label v = d.label a.label := by
  obtain ⟨ds⟩ := a
  obtain ⟨hlt, hget⟩ := List.getElem?_eq_some_iff.mp hd
  have hsplit : ds = ds.take v.index ++ [d] ++ ds.drop (v.index + 1) := by
    rw [← hget, List.append_assoc, List.singleton_append, ← List.drop_eq_getElem_cons hlt,
      List.take_append_drop]
  have hlength : (ds.take v.index).length = v.index := List.length_take_of_le (Nat.le_of_lt hlt)
  -- The arena is cut at the variable: what comes later changes no label, and what its
  -- definition reads comes before.
  have hself : (⟨ds.take v.index ++ [d]⟩ : Arena).Knows v := by
    rw [Knows, List.length_append, hlength]
    exact Nat.lt_succ_self _
  have hlabel : label ⟨ds⟩ v = label ⟨ds.take v.index ++ [d]⟩ v :=
    label_of_extension ⟨_, hsplit.symm⟩ hself
  have hlast : label ⟨ds.take v.index ++ [d]⟩ v = d.label (label ⟨ds.take v.index⟩) := by
    rw [label, labels_concat,
      List.getD_append_right _ _ _ _ (Nat.le_of_eq ((length_labels _).trans hlength)),
      length_labels, hlength, Nat.sub_self]
    rfl
  rw [hlabel, hlast]
  refine Definition.label_congr fun u hu => ?_
  have hknows : (⟨ds.take v.index⟩ : Arena).Knows u := by
    rw [Knows, hlength]
    exact hbefore u hu
  exact (label_of_extension (List.take_prefix _ _) hknows).symm

end Arena

/-! ## Renamings -/

/-- The variables are renamed with their definitions, which read none but earlier ones of these
variables, and keep their order. What else the arenas hold does not matter. -/
structure Renames (a b : Arena) (f : VarId → VarId) (vs : List VarId) : Prop where
  earlier : ∀ v ∈ vs, ∀ u ∈ a.reads v, u.index < v.index
  climbs : ∀ u ∈ vs, ∀ v ∈ vs, u.index < v.index → (f u).index < (f v).index
  copies : ∀ v ∈ vs, ∃ d, a.definition? v = some d ∧ b.definition? (f v) = some (d.mapVars f)
  closed : ∀ v ∈ vs, ∀ u ∈ a.reads v, u ∈ vs

theorem Definition.mapVars_id (d : Definition) : d.mapVars id = d := by
  cases d with
  | observed source field => rfl
  | computed name expr args => rw [mapVars, List.map_id]
  | aggregated how input => rw [mapVars, Option.map_id, id]

/-- Two arenas that define these variables alike. -/
def Arena.Agrees (a b : Arena) (vs : List VarId) : Prop :=
  ∀ v ∈ vs, b.definition? v = a.definition? v

theorem Arena.Agrees.of_extension {a b : Arena} {vs : List VarId} (hp : a.defs <+: b.defs)
    (hk : ∀ v ∈ vs, a.Knows v) : a.Agrees b vs := fun v hv => definition?_of_extension hp (hk v hv)

/-- Where variables are defined alike they keep their names. -/
theorem Renames.of_agrees {a b : Arena} {vs : List VarId} (h : a.Agrees b vs) (ho : a.Ordered)
    (hk : ∀ v ∈ vs, a.Knows v) (hc : ∀ v ∈ vs, ∀ u ∈ a.reads v, u ∈ vs) : Renames a b id vs where
  earlier v _ u hu := ho v u hu
  climbs _ _ _ _ hlt := hlt
  copies v hv := by
    have hd : a.definition? v = some (a.defs.get ⟨v.index, hk v hv⟩) :=
      List.getElem?_eq_getElem (hk v hv)
    refine ⟨_, hd, ?_⟩
    rw [id, Definition.mapVars_id, h v hv, hd]
  closed := hc

namespace Renames

variable {a b : Arena} {f : VarId → VarId} {us vs ws : List VarId} {u v : VarId}

theorem inj (h : Renames a b f vs) (hu : u ∈ vs) (hv : v ∈ vs) (he : f u = f v) : u = v := by
  obtain ⟨i⟩ := u
  obtain ⟨j⟩ := v
  rcases Nat.lt_trichotomy i j with hlt | rfl | hlt
  · exact absurd (h.climbs _ hu _ hv hlt) (he ▸ Nat.lt_irrefl _)
  · rfl
  · exact absurd (h.climbs _ hv _ hu hlt) (he ▸ Nat.lt_irrefl _)

theorem reads_eq (h : Renames a b f vs) (hv : v ∈ vs) : b.reads (f v) = (a.reads v).map f := by
  obtain ⟨d, hd, hd'⟩ := h.copies v hv
  rw [Arena.reads, Arena.reads, hd, hd']
  exact Query.reads_mapVars f d

theorem label_eq (h : Renames a b f vs) (hv : v ∈ vs) : b.label (f v) = a.label v := by
  -- By induction on the place of the variable, since definitions read earlier ones.
  obtain ⟨n, hn⟩ : ∃ n, v.index = n := ⟨_, rfl⟩
  induction n using Nat.strongRecOn generalizing v with
  | ind n ih =>
      obtain ⟨d, hd, hd'⟩ := h.copies v hv
      have hreads : a.reads v = d.reads := by rw [Arena.reads, hd]
      have hbefore : ∀ u ∈ d.reads, u.index < v.index := hreads ▸ h.earlier v hv
      have hclosed : ∀ u ∈ d.reads, u ∈ vs := hreads ▸ h.closed v hv
      have hbefore' : ∀ w ∈ (d.mapVars f).reads, w.index < (f v).index := by
        intro w hw
        rw [Query.reads_mapVars] at hw
        obtain ⟨u, hu, rfl⟩ := List.mem_map.mp hw
        exact h.climbs u (hclosed u hu) v hv (hbefore u hu)
      rw [Arena.label_eq hd' hbefore', Arena.label_eq hd hbefore, Definition.label_mapVars]
      refine Definition.label_congr fun u hu => ?_
      exact ih u.index (hn ▸ hbefore u hu) (hclosed u hu) rfl

/-! ## Lists of variables -/

theorem mem_map (h : Renames a b f vs) (hus : us ⊆ vs) (hv : v ∈ vs) : f v ∈ us.map f ↔ v ∈ us := by
  refine ⟨fun hm => ?_, List.mem_map_of_mem⟩
  obtain ⟨u, hu, he⟩ := List.mem_map.mp hm
  exact h.inj (hus hu) hv he ▸ hu

theorem contains_map (h : Renames a b f vs) (hus : us ⊆ vs) (hv : v ∈ vs) :
    (us.map f).contains (f v) = us.contains v := by
  rw [Bool.eq_iff_iff, List.contains_iff_mem, List.contains_iff_mem]
  exact h.mem_map hus hv

theorem beq_map (h : Renames a b f vs) (hu : u ∈ vs) (hv : v ∈ vs) : (f u == f v) = (u == v) := by
  rw [Bool.eq_iff_iff, beq_iff_eq, beq_iff_eq]
  exact ⟨h.inj hu hv, congrArg f⟩

theorem firstMentions_map (h : Renames a b f vs) (hus : us ⊆ vs) :
    firstMentions (us.map f) = (firstMentions us).map f := by
  induction us using List.reverseRecOn with
  | nil => rfl
  | append_singleton us v ih =>
      obtain ⟨hus, hv⟩ := List.append_subset.mp hus
      have hmem := h.mem_map hus (hv (List.mem_singleton.mpr rfl))
      rw [List.map_append, List.map_singleton]
      by_cases hold : v ∈ us
      · rw [firstMentions_append_of_mem hold, firstMentions_append_of_mem (hmem.mpr hold), ih hus]
      · rw [firstMentions_append_of_not_mem hold, firstMentions_append_of_not_mem (mt hmem.mp hold),
          ih hus, List.map_append, List.map_singleton]

theorem idxOf_map (h : Renames a b f vs) (hus : us ⊆ vs) (hv : v ∈ vs) :
    (us.map f).idxOf (f v) = us.idxOf v := by
  induction us with
  | nil => rfl
  | cons u us ih =>
      obtain ⟨hu, hus⟩ := List.cons_subset.mp hus
      rw [List.map_cons, List.idxOf_cons, List.idxOf_cons, h.beq_map hu hv, ih hus]

/-- Renamed variables have the same names in a plan. -/
theorem nameIn_map (h : Renames a b f vs) (hus : us ⊆ vs) (hv : v ∈ vs) :
    nameIn b (us.map f) (f v) = nameIn a us v := by
  rw [nameIn, nameIn, h.idxOf_map hus hv, h.label_eq hv]

theorem sorted_map (h : Renames a b f vs) {s : Ascending VarId} (hs : s.Sorted) (hsub : s ⊆ vs) :
    Ascending.ofList (s.map f) = s.map f := by
  refine Ascending.ofList_of_sorted (List.pairwise_map.mpr ?_)
  refine List.Pairwise.imp_of_mem (fun {u v} hu hv hlt => ?_) hs
  exact varId_lt_iff.mpr (h.climbs u (hsub hu) v (hsub hv) (varId_lt_iff.mp hlt))

end Renames

/-! ## Bags -/

def Aggregate.mapVars (f : VarId → VarId) (g : Aggregate) : Aggregate :=
  ⟨f g.var, g.how, g.input.map f⟩

namespace BagSpec

variable {ν μ : Type}

theorem mentions_rename (f : ν → μ) (b : BagSpec ν) : (b.rename f).mentions = b.mentions.map f := by
  cases b <;> simp [rename, mentions]

theorem reads_rename (f : ν → μ) (b : BagSpec ν) : (b.rename f).reads = b.reads.map f := by
  cases b <;> simp [rename, reads, List.filter_map, Function.comp_def]

theorem rename_rename {κ : Type} (f : ν → μ) (g : μ → κ) (b : BagSpec ν) :
    (b.rename f).rename g = b.rename (g ∘ f) := by
  cases b <;> simp [rename]

theorem rename_congr {f g : ν → μ} {b : BagSpec ν} (h : ∀ v ∈ b.mentions, f v = g v) :
    b.rename f = b.rename g := by
  cases b with
  | tuple vars => exact congrArg BagSpec.tuple (List.map_congr_left h)
  | filter keep vars => exact congrArg (BagSpec.filter keep) (List.map_congr_left h)
  | groupBy keys gs =>
      have hkeys : keys.map f = keys.map g :=
        List.map_congr_left fun v hv => h v (List.mem_append_right _ hv)
      rw [rename, rename, hkeys]
      congr 1
      refine List.map_congr_left fun x hx => congrArg (AggregateSpec.mk · x.how) ?_
      exact h x.name (List.mem_append_left _ (List.mem_map_of_mem hx))

end BagSpec

namespace Stage

variable {a b : Arena} {f : VarId → VarId} {vs ks : List VarId} {s : Stage} {gs : List Aggregate}
  {v : VarId}

/-- All variables of the stage are among these, and its outputs are in order. -/
structure Inside (a : Arena) (vs : List VarId) (s : Stage) : Prop where
  sorted : s.outputs.Sorted
  defines : s.defines ⊆ vs
  refers : ∀ v, s.RefersTo a v → v ∈ vs

theorem Inside.outputs (hs : s.Inside a vs) : s.outputs ⊆ vs :=
  fun v hv => hs.refers v (.of_output hv)

theorem Inside.keys (hs : s.Inside a vs) (hshape : s.shape = .group ks gs) : ks ⊆ vs :=
  fun v hv => hs.refers v (.of_shape (hshape ▸ List.mem_append_left _ hv))

theorem Inside.var (hs : s.Inside a vs) (hshape : s.shape = .group ks gs) :
    ∀ g ∈ gs, g.var ∈ vs := by
  refine fun g hg => hs.defines (mem_defines_iff.mpr (Or.inr (Or.inr ?_)))
  rw [hshape]
  exact List.mem_map_of_mem hg

theorem Inside.operand (hs : s.Inside a vs) (hshape : s.shape = .group ks gs) :
    ∀ g ∈ gs, operand g ∈ vs := by
  intro g hg
  have hinput : ∀ u, g.input = some u → u ∈ vs := fun u hu =>
    hs.refers u (.of_shape (hshape ▸ List.mem_append_right _ (List.mem_filterMap.mpr ⟨g, hg, hu⟩)))
  rw [Stage.operand]
  split
  · exact hs.var hshape g hg
  · exact hs.var hshape g hg
  · next hu _ => exact hinput _ hu

theorem mapVars_id (hs : s.outputs.Sorted) : s.mapVars id = s := by
  have hshape : s.shape.mapVars id = s.shape := by
    cases s.shape <;> simp [Shape.mapVars]
  rw [mapVars, List.map_id, Ascending.ofList_of_sorted hs, hshape]
  simp [Table.mapValues]

theorem outputs_mapVars (h : Renames a b f vs) (hs : s.Inside a vs) :
    (s.mapVars f).outputs = s.outputs.map f :=
  h.sorted_map hs.sorted hs.outputs

theorem packedKeys_mapVars (h : Renames a b f vs) (hs : s.Inside a vs)
    (hshape : s.shape = .group ks gs) : (s.mapVars f).packedKeys (ks.map f) (gs.map (·.mapVars f)) =
      (s.packedKeys ks gs).map f := by
  have hany : ∀ v ∈ vs, (gs.map (·.mapVars f)).any (·.var == f v) = gs.any (·.var == v) := by
    intro v hv
    rw [List.any_map, Bool.eq_iff_iff, List.any_eq_true, List.any_eq_true]
    refine exists_congr fun g => and_congr_right fun hg => ?_
    exact Bool.eq_iff_iff.mp (h.beq_map (hs.var hshape g hg) hv)
  rw [packedKeys, packedKeys, outputs_mapVars h hs, List.filter_map, List.map_append]
  congr 2
  refine List.filter_congr fun v hv => ?_
  rw [Function.comp_apply, h.contains_map (hs.keys hshape) (hs.outputs hv), hany v (hs.outputs hv)]

theorem packedAggregates_mapVars (h : Renames a b f vs) (hs : s.Inside a vs)
    (hshape : s.shape = .group ks gs) : (s.mapVars f).packedAggregates (gs.map (·.mapVars f)) =
      (s.packedAggregates gs).map (·.mapVars f) := by
  rw [packedAggregates, packedAggregates, outputs_mapVars h hs, List.filter_map]
  congr 1
  exact List.filter_congr fun g hg => h.contains_map hs.outputs (hs.var hshape g hg)

theorem operand_mapVars (f : VarId → VarId) (g : Aggregate) :
    operand (g.mapVars f) = f (operand g) := by
  obtain ⟨v, how, input⟩ := g
  cases how <;> cases input <;> rfl

/-- Renaming what a bag holds, column by column. -/
theorem groupBy_mapVars {t t' : List VarId} {gs' : List Aggregate} {col col' : Aggregate → VarId}
    (hkeys : t' = t.map f) (hgs : gs' = gs.map (·.mapVars f))
    (hcol : ∀ g ∈ gs, col' (g.mapVars f) = f (col g)) :
    BagSpec.groupBy t' (gs'.map fun g => ⟨col' g, g.how⟩) =
      (BagSpec.groupBy t (gs.map fun g => ⟨col g, g.how⟩)).rename f := by
  rw [hkeys, hgs, BagSpec.rename, List.map_map, List.map_map]
  congr 1
  refine List.map_congr_left fun g hg => ?_
  exact congrArg (AggregateSpec.mk · g.how) (hcol g hg)

/-- The bag of a stage with its aggregates in these columns. -/
def bagBy (s : Stage) (col : Aggregate → VarId) : BagSpec VarId :=
  match s.shape with
  | .unfinished => .tuple s.outputs
  | .select _ => .tuple s.outputs
  | .filter keep => .filter keep s.outputs
  | .group keys gs =>
      .groupBy (s.packedKeys keys gs) ((s.packedAggregates gs).map fun g => ⟨col g, g.how⟩)

theorem unpackedBag_eq (s : Stage) : s.unpackedBag = s.bagBy (·.var) := rfl

theorem packedBag_eq (s : Stage) : s.packedBag = s.bagBy operand := rfl

theorem bagBy_mapVars {col : Aggregate → VarId} (h : Renames a b f vs) (hs : s.Inside a vs)
    (hcol : ∀ g : Aggregate, col (g.mapVars f) = f (col g)) :
    (s.mapVars f).bagBy col = (s.bagBy col).rename f := by
  have hout := outputs_mapVars h hs
  have hshape : (s.mapVars f).shape = s.shape.mapVars f := rfl
  rw [bagBy, bagBy, hshape]
  cases hs' : s.shape with
  | unfinished => exact congrArg BagSpec.tuple hout
  | select selected => exact congrArg BagSpec.tuple hout
  | filter keep => exact congrArg (BagSpec.filter keep) hout
  | group ks gs =>
      exact groupBy_mapVars (packedKeys_mapVars h hs hs') (packedAggregates_mapVars h hs hs')
        fun g _ => hcol g

theorem unpackedBag_mapVars (h : Renames a b f vs) (hs : s.Inside a vs) :
    (s.mapVars f).unpackedBag = s.unpackedBag.rename f := by
  rw [unpackedBag_eq, unpackedBag_eq]
  exact bagBy_mapVars h hs fun _ => rfl

theorem packedBag_mapVars (h : Renames a b f vs) (hs : s.Inside a vs) :
    (s.mapVars f).packedBag = s.packedBag.rename f := by
  rw [packedBag_eq, packedBag_eq]
  exact bagBy_mapVars h hs (operand_mapVars f)

theorem emittedBag_mapVars (h : Renames a b f vs) (hs : s.Inside a vs) :
    (s.mapVars f).emittedBag = s.emittedBag.rename f := by
  have hout := outputs_mapVars h hs
  have hshape : (s.mapVars f).shape = s.shape.mapVars f := rfl
  rw [emittedBag, emittedBag, hshape]
  cases hs' : s.shape with
  | unfinished => exact congrArg BagSpec.tuple hout
  | select selected => rfl
  | filter keep => exact congrArg (BagSpec.filter keep) hout
  | group ks gs => exact groupBy_mapVars rfl rfl fun g _ => operand_mapVars f g

/-! ## What a plan mentions -/

theorem mem_mentions_groupBy {t : List VarId} {col : Aggregate → VarId} :
    v ∈ (BagSpec.groupBy t (gs.map fun g => ⟨col g, g.how⟩)).mentions ↔
      (∃ g ∈ gs, col g = v) ∨ v ∈ t := by
  rw [BagSpec.mentions, List.mem_append, List.map_map, List.mem_map]
  rfl

theorem Inside.packedKeys (hs : s.Inside a vs) (hshape : s.shape = .group ks gs) :
    s.packedKeys ks gs ⊆ vs := by
  intro v hv
  rcases List.mem_append.mp hv with hk | ho
  · exact hs.keys hshape hk
  · exact hs.outputs (List.mem_filter.mp ho).1

theorem Inside.bagBy {col : Aggregate → VarId} (hs : s.Inside a vs)
    (hcol : ∀ ks gs, s.shape = .group ks gs → ∀ g ∈ gs, col g ∈ vs) :
    ∀ v ∈ (s.bagBy col).mentions, v ∈ vs := by
  intro v hv
  rw [Stage.bagBy] at hv
  cases hs' : s.shape with
  | unfinished | select selected | filter keep =>
      rw [hs'] at hv
      exact hs.outputs hv
  | group ks gs =>
      rw [hs', mem_mentions_groupBy] at hv
      rcases hv with ⟨g, hg, rfl⟩ | hv
      · exact hcol ks gs hs' g (List.mem_filter.mp hg).1
      · exact hs.packedKeys hs' hv

theorem Inside.unpacked (hs : s.Inside a vs) : ∀ v ∈ s.unpackedBag.mentions, v ∈ vs := by
  rw [unpackedBag_eq]
  exact hs.bagBy fun _ _ => hs.var

theorem Inside.packed (hs : s.Inside a vs) : ∀ v ∈ s.packedBag.mentions, v ∈ vs := by
  rw [packedBag_eq]
  exact hs.bagBy fun _ _ => hs.operand

theorem Inside.emitted (hs : s.Inside a vs) : ∀ v ∈ s.emittedBag.mentions, v ∈ vs := by
  intro v hv
  rw [emittedBag] at hv
  cases hs' : s.shape with
  | unfinished | filter keep =>
      rw [hs'] at hv
      exact hs.outputs hv
  | select selected =>
      rw [hs'] at hv
      exact hs.refers v (.of_shape (hs' ▸ hv))
  | group ks gs =>
      rw [hs', mem_mentions_groupBy] at hv
      rcases hv with ⟨g, hg, rfl⟩ | hv
      · exact hs.operand hs' g hg
      · exact hs.keys hs' hv

theorem mem_mentions_of_names {bag : BagSpec VarId} (hv : v ∈ bag.names) : v ∈ bag.mentions := by
  cases bag with
  | tuple vars => exact hv
  | filter keep vars => exact hv
  | groupBy t gs => exact List.mem_append.mpr (List.mem_append.mp hv).symm

theorem mem_mentions_of_reads {bag : BagSpec VarId} (hv : v ∈ bag.reads) : v ∈ bag.mentions := by
  cases bag with
  | tuple vars => exact hv
  | filter keep vars => exact hv
  | groupBy t gs =>
      rcases List.mem_append.mp hv with hk | hg
      · exact List.mem_append_right _ hk
      · obtain ⟨g, hm, rfl⟩ := List.mem_map.mp hg
        exact List.mem_append_left _ (List.mem_map_of_mem (List.mem_filter.mp hm).1)

end Stage

end CausalTrace
