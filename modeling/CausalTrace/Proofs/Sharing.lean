import CausalTrace.Proofs.Fresh
import CausalTrace.Proofs.Sound

/-!
# Shares of aggregates

A grouping stage may have the queries it joins aggregate first. What they take over they
deliver as partial results, and what the stage needs besides they deliver as before.
-/

namespace CausalTrace

/-! ## Steps that define variables -/

namespace Defining

variable {α β : Type} {x : Defining α} {f : α → Defining β} {a : Arena} {d : Definition}

/-- Steps taken in an arena lead to a result and an arena with a property. -/
def Leads (x : Defining α) (a : Arena) (Q : α → Arena → Prop) : Prop := Q (x.run a).1 (x.run a).2

theorem Leads.mono {R Q : α → Arena → Prop} (h : x.Leads a R) (hm : ∀ r b, R r b → Q r b) :
    x.Leads a Q :=
  hm _ _ h

theorem Leads.of_run {Q : α → Arena → Prop} {r : α} {b : Arena} (h : x.Leads a Q)
    (hr : x.run a = (r, b)) : Q r b := by
  rwa [Leads, hr] at h

theorem Leads.and {Q R : α → Arena → Prop} (h : x.Leads a Q) (h' : x.Leads a R) :
    x.Leads a fun r b => Q r b ∧ R r b :=
  ⟨h, h'⟩

theorem leads_pure {Q : α → Arena → Prop} {r : α} (h : Q r a) : Leads (pure r) a Q := h

theorem leads_get {Q : Arena → Arena → Prop} (h : Q a a) : Leads get a Q := h

theorem Leads.bind {R : α → Arena → Prop} {Q : β → Arena → Prop} (h : x.Leads a R)
    (hf : ∀ r b, R r b → (f r).Leads b Q) : Leads (x >>= f) a Q :=
  hf _ _ h

end Defining

open Defining

namespace Arena

variable {a : Arena} {d : Definition}

theorem prefix_define : a.defs <+: (a.define d).2.defs := List.prefix_append _ _

theorem knows_define : (a.define d).2.Knows (a.define d).1 := by
  rw [Knows, length_define]
  exact Nat.lt_succ_self _

theorem not_knows_define : ¬ a.Knows (a.define d).1 := Nat.lt_irrefl _

theorem definition?_define : (a.define d).2.definition? (a.define d).1 = some d :=
  List.getElem?_concat_length

end Arena

namespace Query

variable {a b : Arena} {pack : Bool} {s : Stage} {js before after : List (String × Query)}
  {aliasName : String} {q u : Query} {keys residual kept delivered : List VarId}
  {gs : List Aggregate} {g : Aggregate} {S : Sharing}

/-! ## The share of one joined query -/

/-- What is known while the aggregates are gone through: every partial result is new and
reads a delivered variable, and what is left to aggregate reads partial results, or
nothing that is delivered. -/
structure Shares (a b : Arena) (kept delivered : List VarId) (gs : List Aggregate)
    (S : Sharing) : Prop where
  arena : a.defs <+: b.defs
  ordered : b.Ordered
  vars : S.combined.map (·.var) = gs.map (·.var)
  distinct : (S.partials.map (·.var)).Nodup
  new : ∀ v ∈ S.partials.map (·.var), ¬ a.Knows v ∧ b.Knows v
  inputs : ∀ g ∈ S.partials, ∃ v ∈ delivered, g.input = some v
  definitions : ∀ g ∈ S.partials, b.definition? g.var = some (.aggregated g.how g.input)
  outputs : ∀ v ∈ S.outputs, v ∈ delivered ∨ v ∈ S.partials.map (·.var)
  results : ∀ v ∈ S.partials.map (·.var), v ∈ S.outputs
  keeps : ∀ v ∈ delivered, v ∈ kept ∨ (∀ g ∈ gs, g.input ≠ some v) → v ∈ S.outputs
  combined : ∀ g ∈ S.combined, (g ∈ gs ∧ ∀ v ∈ delivered, g.input ≠ some v) ∨
    ∃ v ∈ S.partials.map (·.var), g.input = some v

theorem shares_nil {delivered : Ascending VarId} (ho : a.Ordered) :
    Shares a a kept delivered [] ⟨delivered, [], []⟩ where
  arena := List.prefix_refl _
  ordered := ho
  vars := rfl
  distinct := List.nodup_nil
  new := List.forall_mem_nil _
  inputs := List.forall_mem_nil _
  definitions := List.forall_mem_nil _
  outputs _ hv := Or.inl hv
  results := List.forall_mem_nil _
  keeps _ hv _ := hv
  combined := List.forall_mem_nil _

/-- An aggregate of nothing delivered is left as it is. -/
theorem Shares.leave (h : Shares a b kept delivered gs S)
    (hg : ∀ v ∈ delivered, g.input ≠ some v) :
    Shares a b kept delivered (gs ++ [g]) { S with combined := S.combined ++ [g] } where
  arena := h.arena
  ordered := h.ordered
  vars := by rw [List.map_append, List.map_append, h.vars]
  distinct := h.distinct
  new := h.new
  inputs := h.inputs
  definitions := h.definitions
  outputs := h.outputs
  results := h.results
  keeps v hv hk := by
    refine h.keeps v hv (hk.imp_right fun hi g' hg' => ?_)
    exact hi g' (List.mem_append_left _ hg')
  combined g' hg' := by
    rcases List.mem_append.mp hg' with hm | hm
    · exact (h.combined g' hm).imp_left fun ⟨hin, hno⟩ => ⟨List.mem_append_left _ hin, hno⟩
    · rw [List.mem_singleton.mp hm]
      exact Or.inl ⟨List.mem_concat_self, hg⟩

/-- An aggregate of a delivered variable is aggregated in part where that is delivered. -/
theorem Shares.take {v : VarId} (h : Shares a b kept delivered gs S) (hv : v ∈ delivered)
    (hknown : ∀ v ∈ delivered, a.Knows v) (hg : g.input = some v) :
    Shares a (b.define (.aggregated g.how (some v))).2 kept delivered (gs ++ [g])
      ⟨if kept.contains v then S.outputs.insert (b.define (.aggregated g.how (some v))).1
        else (S.outputs.insert (b.define (.aggregated g.how (some v))).1).filter (· ≠ v),
        S.partials ++ [⟨(b.define (.aggregated g.how (some v))).1, g.how, some v⟩],
        S.combined ++ [⟨g.var, g.how.combiner,
          some (b.define (.aggregated g.how (some v))).1⟩]⟩ := by
  generalize hd : Definition.aggregated g.how (some v) = d
  have hextension : b.defs <+: (b.define d).2.defs := Arena.prefix_define
  have hknows : (b.define d).2.Knows (b.define d).1 := Arena.knows_define
  have hdefined : (b.define d).2.definition? (b.define d).1 = some d := Arena.definition?_define
  have hfresh : ¬ a.Knows (b.define d).1 := fun hk =>
    Arena.not_knows_define (hk.of_extension h.arena)
  generalize hw : (b.define d).1 = w at *
  have hwv : w ≠ v := fun he => hfresh (he ▸ hknown v hv)
  -- What is taken out of the outputs is the operand, if nobody else reads it.
  have hout : ∀ x, x ∈ (if kept.contains v then S.outputs.insert w
      else (S.outputs.insert w).filter (· ≠ v)) ↔
        (x = w ∨ x ∈ S.outputs) ∧ (v ∈ kept ∨ x ≠ v) := by
    intro x
    by_cases hk : v ∈ kept
    · rw [if_pos (List.contains_iff_mem.mpr hk), Ascending.mem_insert]
      simp [hk]
    · rw [if_neg (fun hc => hk (List.contains_iff_mem.mp hc)),
        List.mem_filter, Ascending.mem_insert]
      simp [hk]
  have hnew : ∀ x ∈ (S.partials ++ [(⟨w, g.how, some v⟩ : Aggregate)]).map (·.var),
      x ∈ S.partials.map (·.var) ∨ x = w := by
    intro x hx
    rw [List.map_append] at hx
    exact (List.mem_append.mp hx).imp_right fun hm => List.mem_singleton.mp hm
  constructor
  case arena =>
    exact h.arena.trans hextension
  case ordered =>
    refine h.ordered.define fun x hx => ?_
    rw [← hd] at hx
    rw [List.mem_singleton.mp hx]
    exact (hknown v hv).of_extension h.arena
  case vars =>
    simp only [List.map_append, h.vars, List.map_cons, List.map_nil]
  case distinct =>
    rw [List.map_append, List.nodup_append]
    refine ⟨h.distinct, List.nodup_singleton _, ?_⟩
    rintro x hx y hy rfl
    have he : x = w := List.mem_singleton.mp hy
    exact Arena.not_knows_define (hw.symm ▸ he ▸ (h.new x hx).2)
  case new =>
    intro x hx
    rcases hnew x hx with hx | rfl
    · exact ⟨(h.new x hx).1, (h.new x hx).2.of_extension hextension⟩
    · exact ⟨hfresh, hknows⟩
  case inputs =>
    intro g' hg'
    rcases List.mem_append.mp hg' with hm | hm
    · exact h.inputs g' hm
    · rw [List.mem_singleton.mp hm]
      exact ⟨v, hv, rfl⟩
  case definitions =>
    intro g' hg'
    rcases List.mem_append.mp hg' with hm | hm
    · rw [Arena.definition?_of_extension hextension (h.new _ (List.mem_map_of_mem hm)).2]
      exact h.definitions g' hm
    · rw [List.mem_singleton.mp hm, hdefined, ← hd]
  case outputs =>
    intro x hx
    rcases ((hout x).mp hx).1 with rfl | ho
    · exact Or.inr (List.mem_map_of_mem List.mem_concat_self)
    · refine (h.outputs x ho).imp_right fun hm => ?_
      rw [List.map_append]
      exact List.mem_append_left _ hm
  case results =>
    intro x hx
    refine (hout x).mpr ⟨?_, Or.inr ?_⟩
    · exact (hnew x hx).symm.imp_right (h.results x)
    · rcases hnew x hx with hx | rfl
      · intro he
        exact (h.new x hx).1 (he ▸ hknown v hv)
      · exact hwv
  case keeps =>
    intro x hx hk
    refine (hout x).mpr ⟨Or.inr (h.keeps x hx ?_), ?_⟩
    · exact hk.imp_right fun hi g' hg' => hi g' (List.mem_append_left _ hg')
    · by_cases he : x = v
      · refine Or.inl (hk.elim (fun hk => he ▸ hk) fun hi => ?_)
        exact absurd (he ▸ hg) (hi g List.mem_concat_self)
      · exact Or.inr he
  case combined =>
    intro g' hg'
    rcases List.mem_append.mp hg' with hm | hm
    · refine (h.combined g' hm).imp (fun ⟨hin, hno⟩ => ⟨List.mem_append_left _ hin, hno⟩) ?_
      rintro ⟨x, hx, he⟩
      rw [List.map_append]
      exact ⟨x, List.mem_append_left _ hx, he⟩
    · rw [List.mem_singleton.mp hm]
      refine Or.inr ⟨w, ?_, rfl⟩
      exact List.mem_map_of_mem List.mem_concat_self

theorem leads_shareOne (h : Shares a b kept delivered gs S) (hknown : ∀ v ∈ delivered, a.Knows v) :
    (shareOne kept delivered S g).Leads b fun S' b' =>
      Shares a b' kept delivered (gs ++ [g]) S' := by
  rw [shareOne]
  split
  · next v hv =>
      by_cases hd : v ∈ delivered
      · rw [if_pos (List.contains_iff_mem.mpr hd)]
        exact h.take hd hknown hv
      · rw [if_neg (fun hc => hd (List.contains_iff_mem.mp hc))]
        refine h.leave fun x hx he => hd ?_
        rw [hv] at he
        exact Option.some.inj he ▸ hx
  · next hnone =>
      refine h.leave fun x _ he => ?_
      rw [hnone] at he
      cases he

theorem leads_foldlM_shareOne {done : List Aggregate} (h : Shares a b kept delivered done S)
    (hknown : ∀ v ∈ delivered, a.Knows v) :
    Leads (gs.foldlM (shareOne kept delivered) S) b fun S' b' =>
      Shares a b' kept delivered (done ++ gs) S' := by
  induction gs generalizing done S b with
  | nil =>
      rw [List.append_nil]
      exact h
  | cons g gs ih =>
      rw [List.foldlM_cons]
      refine (leads_shareOne h hknown).bind fun S' b' h' => ?_
      refine (ih h').mono fun S'' b'' h'' => ?_
      rwa [List.append_assoc] at h''

end Query

/-- The stage that takes over a share. -/
def Stage.aggregating (t : Stage) (keys : List VarId) (S : Query.Sharing) : Stage :=
  { t with outputs := S.outputs, shape := .group (keys.filter t.outputs.contains) S.partials }

namespace Query

variable {a b : Arena} {pack : Bool} {s : Stage} {js before after : List (String × Query)}
  {aliasName : String} {q u : Query} {keys residual kept delivered : List VarId}
  {gs : List Aggregate} {g : Aggregate} {S : Sharing}

theorem leads_share (ho : a.Ordered) (hknown : ∀ v ∈ u.stage.outputs, a.Knows v) :
    (share keys residual gs u).Leads a fun r b => ∃ S,
      Shares a b (residual ++ keys) u.stage.outputs gs S ∧
        r = (u.withStage (·.aggregating keys S), S.combined) := by
  rw [share]
  refine (leads_foldlM_shareOne (shares_nil ho) hknown).bind fun S b h => ?_
  refine leads_pure ⟨S, h, ?_⟩
  cases u
  rfl

/-- A stage that delivers all rows defines its observed variables and its lets. -/
theorem shape_defines_of_flat {t : Stage} (h : t.shape.Flat) : t.shape.defines = [] := by
  rcases h with hs | ⟨selected, hs⟩
  · rw [hs]
    rfl
  · rw [hs]
    rfl

theorem Shares.grown (h : Shares a b kept u.stage.outputs gs S) (hflat : u.stage.shape.Flat) :
    Grown a b u.defines (u.withStage (·.aggregating keys S)).defines := by
  refine ⟨h.arena, S.partials.map (·.var), ?_, h.distinct, h.new⟩
  cases u with
  | node t ks =>
      have hflat' : t.shape.Flat := hflat
      show ((t.observed.values ++ t.lets.map (·.2) ++ S.partials.map (·.var)) ++
        joinsDefine ks).Perm _
      rw [defines, Stage.defines, shape_defines_of_flat hflat', List.append_nil, List.append_assoc,
        List.append_assoc (_ ++ _)]
      exact List.perm_append_comm.append_left _

/-- The names under which a share is delivered. -/
theorem Shares.mem_names (h : Shares a b (residual ++ keys) u.stage.outputs gs S) {v : VarId} :
    v ∈ (u.withStage (·.aggregating keys S)).stage.unpackedBag.names ↔ v ∈ S.outputs := by
  rw [stage_withStage, Stage.mem_names_iff]
  refine ⟨fun hv => hv.elim (fun hk => ?_) id, Or.inr⟩
  obtain ⟨hk, hd⟩ := List.mem_filter.mp hk
  exact h.keeps v (List.contains_iff_mem.mp hd) (Or.inl (List.mem_append_right _ hk))

/-- A joined query that takes a share is sound. -/
theorem Shares.sound_joined (h : Shares a b (residual ++ keys) u.stage.outputs gs S)
    (hu : Sound a false true u) (hflat : u.stage.shape.Flat) :
    Sound b false true (u.withStage (·.aggregating keys S)) := by
  have hgrown : Grown a b u.defines (u.withStage (·.aggregating keys S)).defines := h.grown hflat
  cases u with
  | node t ks =>
      have hflat' : t.shape.Flat := hflat
      have hself := hu.formed.lawful _ (self_mem_parts _)
      have hnames := fun v => h.mem_names (v := v)
      refine hu.rebuild h.ordered rfl (fun j hj => (hu.joined hj).grow h.arena h.ordered) hgrown
        hself.names (fun ht => absurd ht Bool.false_ne_true) ?_ ?_
      · obtain ⟨_, ⟨hown, _, _⟩⟩ := hu
        have hbound : ∀ v ∈ t.outputs, v ∈ (node t ks).incoming ++ t.lets.map (·.2) := by
          have huses := hown.uses
          rw [Stage.uses_of_flat hflat'] at huses
          exact huses
        refine hown.rebuild h.arena (fun v hv => Or.inl hv) (fun w hw => hw) (fun v hv _ => hv)
          (fun v hv => ?_) fun ht => absurd ht.symm Bool.false_ne_true
        rcases List.mem_append.mp hv with hk | hg
        · exact hbound v (List.contains_iff_mem.mp (List.mem_filter.mp hk).2)
        · obtain ⟨g, hmem, rfl⟩ := List.mem_map.mp hg
          obtain ⟨hpacked, hcount⟩ := List.mem_filter.mp hmem
          have hpartial : g ∈ S.partials := (List.mem_filter.mp hpacked).1
          obtain ⟨v, hv, hinput⟩ := h.inputs g hpartial
          rw [Stage.operand_of_input hcount hinput]
          exact hbound v hv
      · intro v hv
        rcases h.outputs v ((hnames v).mp hv) with hd | hp
        · refine Or.inl (Stage.mem_names_iff.mpr (Or.inr hd))
        · exact Or.inr hp

end Query

namespace Stage

variable {a : Arena} {s : Stage} {keys : List VarId} {gs gs' : List Aggregate}

/-- The stage with other aggregates of the same keys. -/
def regrouped (s : Stage) (keys : List VarId) (gs : List Aggregate) : Stage :=
  { s with shape := .group keys gs }

/-- The names a grouping stage delivers by depend on the variables of its aggregates, not
on what they read. -/
theorem names_group (hs : s.shape = .group keys gs) : s.unpackedBag.names =
    keys ++ (s.outputs.filter fun v => !keys.contains v && !(gs.map (·.var)).contains v) ++
      (gs.map (·.var)).filter s.outputs.contains := by
  have hany : ∀ v, gs.any (·.var == v) = (gs.map (·.var)).contains v := by
    intro v
    rw [Bool.eq_iff_iff, List.any_eq_true, List.contains_iff_mem, List.mem_map]
    simp
  rw [unpackedBag, hs]
  simp only [BagSpec.names, packedKeys, packedAggregates, List.map_map, List.filter_map, hany]
  rfl

theorem names_regrouped (hs : s.shape = .group keys gs)
    (hvars : gs'.map (·.var) = gs.map (·.var)) :
    (s.regrouped keys gs').unpackedBag.names = s.unpackedBag.names := by
  rw [names_group hs, names_group (s := s.regrouped keys gs') rfl, hvars]
  rfl

theorem defines_regrouped (hs : s.shape = .group keys gs)
    (hvars : gs'.map (·.var) = gs.map (·.var)) : (s.regrouped keys gs').defines = s.defines := by
  rw [defines, defines, hs]
  show _ ++ gs'.map (·.var) = _ ++ gs.map (·.var)
  rw [hvars]
  rfl

/-- What a grouping stage computes with: its keys, and an operand of each aggregate that
is more than a count. -/
theorem mem_uses_group {pack : Bool} {v : VarId} (hs : s.shape = .group keys gs) :
    v ∈ s.uses pack ↔ v ∈ keys ∨ ∃ g ∈ gs, (pack = true → g.var ∈ s.outputs) ∧
      (g.how != .count) = true ∧ operand g = v := by
  rw [uses, hs]
  cases pack with
  | true => simp [packedAggregates, and_assoc, and_left_comm]
  | false => simp [and_assoc]

end Stage

namespace Query

variable {a b : Arena} {pack : Bool} {s : Stage} {js before after : List (String × Query)}
  {aliasName : String} {q u : Query} {keys residual kept delivered : List VarId}
  {gs : List Aggregate} {g : Aggregate} {S : Sharing}

/-- Once a joined query has taken its share, what the stage reads besides still comes in. -/
theorem Shares.mem_bound (h : Shares a b (residual ++ keys) u.stage.outputs gs S)
    (hflat : u.stage.shape.Flat) {v : VarId}
    (hv : v ∈ (node s (before ++ (aliasName, u) :: after)).bound)
    (hk : v ∈ u.stage.outputs → v ∈ S.outputs) :
    v ∈ (node (s.regrouped keys S.combined)
      (before ++ (aliasName, u.withStage (·.aggregating keys S)) :: after)).bound := by
  simp only [bound, incoming, stage_node, joins_node, List.flatMap_append, List.flatMap_cons,
    List.mem_append, h.mem_names] at hv ⊢
  rw [Stage.names_of_flat hflat] at hv
  rcases hv with (hv | hv | hv | hv) | hv
  · exact Or.inl (Or.inl hv)
  · exact Or.inl (Or.inr (Or.inl hv))
  · exact Or.inl (Or.inr (Or.inr (Or.inl (hk hv))))
  · exact Or.inl (Or.inr (Or.inr (Or.inr hv)))
  · exact Or.inr hv

/-- Partial results are aggregated from what the joined query delivered. -/
theorem Shares.confined_joined (h : Shares a b (residual ++ keys) u.stage.outputs gs S)
    (hk : ∀ v ∈ u.defines, a.Knows v) (hu : u.Confined a) (hflat : u.stage.shape.Flat) :
    (u.withStage (·.aggregating keys S)).Confined b := by
  have hgrown : Grown a b u.defines (u.withStage (·.aggregating keys S)).defines := h.grown hflat
  cases u with
  | node t ks =>
      have hpartial : ∀ {v}, v ∈ S.partials.map (·.var) →
          v ∈ ((node t ks).withStage (·.aggregating keys S)).defines := fun hv =>
        mem_defines_node.mpr (Or.inl (Stage.mem_defines_iff.mpr (Or.inr (Or.inr hv))))
      refine hu.rebuild hgrown.subset (fun v hv => ?_) fun j hj =>
        ((confined_node.mp hu).2 j hj).extend h.arena fun v hv => hk v (defines_of_joined hj hv)
      rcases Stage.refersTo_iff.mp hv with ho | hw | hs | ⟨w, hw, hv⟩
      · exact (h.outputs v ho).imp .of_output hpartial
      · exact Or.inl (Stage.refersTo_iff.mpr (Or.inr (Or.inl hw)))
      · refine Or.inl (.of_output ?_)
        rcases List.mem_append.mp hs with hkey | hg
        · exact List.contains_iff_mem.mp (List.mem_filter.mp hkey).2
        · obtain ⟨g, hg, hinput⟩ := List.mem_filterMap.mp hg
          obtain ⟨x, hx, he⟩ := h.inputs g hg
          cases hinput.symm.trans he
          exact hx
      · have hw : w ∈ t.defines ∨ w ∈ S.partials.map (·.var) := by
          rw [Stage.mem_defines_iff]
          rcases Stage.mem_defines_iff.mp hw with hw | hw | hw
          · exact Or.inl (Or.inl hw)
          · exact Or.inl (Or.inr (Or.inl hw))
          · exact Or.inr hw
        rcases hw with hw | hw
        · rw [Arena.reads_of_extension h.arena (hk w (mem_defines_node.mpr (Or.inl hw)))] at hv
          exact Or.inl (Or.inr ⟨w, hw, hv⟩)
        · obtain ⟨g, hg, rfl⟩ := List.mem_map.mp hw
          obtain ⟨x, hx, he⟩ := h.inputs g hg
          rw [Arena.reads, h.definitions g hg, he] at hv
          exact Or.inl (.of_output (List.mem_singleton.mp hv ▸ hx))

/-- What is left to aggregate reads what it did, or partial results. -/
theorem Shares.confined (h : Shares a b (residual ++ keys) u.stage.outputs gs S)
    (hk : ∀ v ∈ (node s (before ++ (aliasName, u) :: after)).defines, a.Knows v)
    (hq : (node s (before ++ (aliasName, u) :: after)).Confined a) (hs : s.shape = .group keys gs)
    (hflat : u.stage.shape.Flat) :
    (node (s.regrouped keys S.combined)
      (before ++ (aliasName, u.withStage (·.aggregating keys S)) :: after)).Confined b := by
  have hmem : (aliasName, u) ∈ before ++ (aliasName, u) :: after := List.mem_append_cons_self
  have hku : ∀ v ∈ u.defines, a.Knows v := fun v hv => hk v (defines_of_joined hmem hv)
  have hdefines := Stage.defines_regrouped hs h.vars
  have hgrown : Grown a b u.defines (u.withStage (·.aggregating keys S)).defines := h.grown hflat
  refine hq.rebuild (fun v hv => ?_) (fun v hv => ?_)
    (confined_replace hq h.arena hk (h.confined_joined hku ((confined_node.mp hq).2 _ hmem) hflat))
  · have hv := defines_replace_subset hgrown.subset v hv
    rw [defines] at hv ⊢
    rwa [hdefines]
  · rcases Stage.refersTo_iff.mp hv with ho | hw | hshape | ⟨w, hw, hv⟩
    · exact Or.inl (.of_output ho)
    · exact Or.inl (Stage.refersTo_iff.mpr (Or.inr (Or.inl hw)))
    · have hold : ∀ {x}, x ∈ keys ++ gs.filterMap (·.input) → s.RefersTo a x := fun hx =>
        .of_shape (hs ▸ hx)
      rcases List.mem_append.mp hshape with hkey | hg
      · exact Or.inl (hold (List.mem_append_left _ hkey))
      · obtain ⟨g, hg, hinput⟩ := List.mem_filterMap.mp hg
        rcases h.combined g hg with ⟨hg, _⟩ | ⟨x, hx, he⟩
        · exact Or.inl (hold (List.mem_append_right _ (List.mem_filterMap.mpr ⟨g, hg, hinput⟩)))
        · cases hinput.symm.trans he
          refine Or.inr (defines_of_joined List.mem_append_cons_self ?_)
          cases u
          exact mem_defines_node.mpr (Or.inl (Stage.mem_defines_iff.mpr (Or.inr (Or.inr hx))))
    · rw [hdefines] at hw
      rw [Arena.reads_of_extension h.arena (hk w (mem_defines_node.mpr (Or.inl hw)))] at hv
      exact Or.inl (Or.inr ⟨w, hw, hv⟩)

/-- A grouping stage is sound when one of its joined queries has taken its share. -/
theorem Shares.sound (h : Shares a b (residual ++ keys) u.stage.outputs gs S)
    (hq : Sound a false pack (node s (before ++ (aliasName, u) :: after)))
    (hs : s.shape = .group keys gs) (hflat : u.stage.shape.Flat)
    (hresidual : ∀ v ∈ residue a s, v ∈ residual) :
    Sound b false pack (node (s.regrouped keys S.combined)
      (before ++ (aliasName, u.withStage (·.aggregating keys S)) :: after)) ∧
    Refits a b (node s (before ++ (aliasName, u) :: after)) (node (s.regrouped keys S.combined)
      (before ++ (aliasName, u.withStage (·.aggregating keys S)) :: after)) := by
  have hu : Sound a false true u := hq.joined List.mem_append_cons_self
  have hu' := h.sound_joined hu hflat
  have hdefines := Stage.defines_regrouped hs h.vars
  have hnames := Stage.names_regrouped hs h.vars
  have hgrown : Grown a b (node s (before ++ (aliasName, u) :: after)).defines
      (node (s.regrouped keys S.combined)
        (before ++ (aliasName, u.withStage (·.aggregating keys S)) :: after)).defines := by
    have hsame : ∀ ks, (node (s.regrouped keys S.combined) ks).defines = (node s ks).defines := by
      intro ks
      rw [defines, defines, hdefines]
    rw [hsame]
    exact grown_replace (h.grown hflat)
  refine ⟨?_, hgrown, hnames, ?_, fun hc => h.confined hq.formed.known hc hs hflat,
    .of_rests (forall₂_sites_replace Stage.Rests.refl ?_
      (forall₂_sites_withStage Stage.Rests.refl ?_))⟩
  · have hself := hq.formed.lawful _ (self_mem_parts _)
    refine hq.rebuild h.ordered (keys_replace _) (sound_replace hq h.arena hu') hgrown hself.names
      (fun ht => absurd ht Bool.false_ne_true) ?_ ?_
    · have hshape := hq.incoming_not_shape
      obtain ⟨_, ⟨hown, _, _⟩⟩ := hq
      -- What lets and conditions read the joined query must keep.
      have hresidue : ∀ v ∈ residue a s, v ∈ u.stage.outputs → v ∈ S.outputs := fun v hv hd =>
        h.keeps v hd (Or.inl (List.mem_append_left _ (hresidual v hv)))
      refine hown.rebuild h.arena (fun v hv => Or.inl hv) (fun w hw => hw)
        (fun v hv hr => h.mem_bound hflat hv (hresidue v hr)) (fun v hv => ?_)
        fun _ keep => by rintro ⟨⟩
      rcases (Stage.mem_uses_group rfl).mp hv with hk | ⟨g, hg, hpacked, hcount, rfl⟩
      · have huses : v ∈ s.uses pack := (Stage.mem_uses_group hs).mpr (Or.inl hk)
        refine h.mem_bound hflat (hown.uses v huses) fun hd => ?_
        exact h.keeps v hd (Or.inl (List.mem_append_right _ hk))
      · rcases h.combined g hg with ⟨hold, hno⟩ | ⟨w, hw, hinput⟩
        · have hb := hown.uses _ ((Stage.mem_uses_group hs).mpr
            (Or.inr ⟨g, hold, hpacked, hcount, rfl⟩))
          refine h.mem_bound hflat hb fun hd => ?_
          cases hinput : g.input with
          | some x =>
              rw [Stage.operand_of_input hcount hinput] at hd
              exact absurd hinput (hno x hd)
          | none =>
              -- The stage defines this aggregate, so it is not delivered to it.
              rw [Stage.operand_of_none hinput] at hd
              refine absurd ?_ (hshape g.var ?_)
              · rw [hs]
                exact List.mem_map_of_mem hold
              · refine List.mem_append_right _ (List.mem_flatMap.mpr
                  ⟨_, List.mem_append_cons_self, ?_⟩)
                rwa [Stage.names_of_flat hflat]
        · rw [Stage.operand_of_input hcount hinput]
          refine List.mem_append_left _ (List.mem_append_right _ ?_)
          refine List.mem_flatMap.mpr ⟨_, List.mem_append_cons_self, ?_⟩
          exact h.mem_names.mpr (h.results w hw)
    · intro v hv
      rw [hnames] at hv
      exact Or.inl hv
  · exact places_replace (by cases u; rfl) rfl
  · exact .of_shape rfl rfl rfl rfl rfl (hs ▸ fun _ => Shape.noConfusion) fun _ => Shape.noConfusion
  · exact .of_shape rfl rfl rfl rfl rfl hflat.ne_filter fun _ => Shape.noConfusion

/-! ## The shares of all joined queries -/

/-- The second query is the first one with a share of an aggregation by some keys: it groups
by those keys that it delivered. -/
structure TookShare (keys : List VarId) (u u' : Query) : Prop where
  flat : u.stage.shape.Flat
  joins : u'.joins = u.joins
  groups : ∃ gs, u'.stage.shape = .group (keys.filter u.stage.outputs.contains) gs

/-- The flat ones among the joined queries have taken their shares: those joined before,
the shares by their aliases, and those joined after. -/
inductive Placed (keys : List VarId) :
    List (String × Query) → List (String × Query) → List (String × Query) → Prop where
  | nil : Placed keys [] [] []
  | skip {j : String × Query} {js shared js' : List (String × Query)} :
      ¬ j.2.stage.shape.Flat → Placed keys js shared js' →
        Placed keys (j :: js) shared (j :: js')
  | take {aliasName : String} {u u' : Query} {js shared js' : List (String × Query)} :
      TookShare keys u u' → Placed keys js shared js' →
        Placed keys ((aliasName, u) :: js) ((aliasName, u') :: shared) ((aliasName, u') :: js')

theorem flat_of_takesShare (h : takesShare residual gs u = true) : u.stage.shape.Flat := by
  rw [takesShare] at h
  split at h
  · cases h
  · cases h
  · next hs => exact Or.inl hs
  · next selected hs => exact Or.inr ⟨selected, hs⟩

theorem takesShare_of_flat (hflat : u.stage.shape.Flat) (hvars : ∀ g ∈ gs, g.var ∉ residual) :
    takesShare residual gs u = true := by
  have hfree : takesShare.free residual gs u = true := by
    rw [takesShare.free, List.all_eq_true]
    intro g hg
    have hno : residual.contains g.var = false := by
      rw [List.contains_eq_mem]
      exact decide_eq_false (hvars g hg)
    rw [hno, Bool.and_false]
    rfl
  rcases hflat with hs | ⟨selected, hs⟩
  · rw [takesShare, hs]
    exact hfree
  · rw [takesShare, hs]
    exact hfree

/-- Lets and conditions of a sound stage read none of its aggregates. -/
theorem Sound.not_mem_residue (h : Sound a false pack (node s js)) (hs : s.shape = .group keys gs) :
    ∀ g ∈ gs, g.var ∉ residue a s := by
  have hshape := h.incoming_not_shape
  have hlets := h.lets_not_shape
  obtain ⟨_, ⟨hown, _, _⟩⟩ := h
  intro g hg hm
  have hvar : g.var ∈ s.shape.defines := by
    rw [hs]
    exact List.mem_map_of_mem hg
  have hbound : g.var ∈ (node s js).incoming ++ s.lets.map (·.2) := by
    rcases List.mem_append.mp hm with hm | hm
    · obtain ⟨l, hl, hv⟩ := List.mem_flatMap.mp hm
      exact hown.lets l.2 (List.mem_map_of_mem hl) _ hv
    · obtain ⟨w, hw, hv⟩ := List.mem_flatMap.mp hm
      exact hown.wheres w hw _ hv
  rcases List.mem_append.mp hbound with hm | hm
  · exact hshape _ hm hvar
  · exact hlets _ hm hvar

theorem residue_of_extension (hp : a.defs <+: b.defs) (hk : ∀ v ∈ s.lets.map (·.2), a.Knows v) :
    residue b s = residue a s := by
  rw [residue, residue]
  congr 1
  exact List.flatMap_congr fun l hl => Arena.reads_of_extension hp (hk l.2 (List.mem_map_of_mem hl))

/-- A grouping stage remains sound while one joined query after another takes its share. -/
theorem leads_shareAll (hq : Sound a false pack (node (s.regrouped keys gs) (before ++ js)))
    (hresidual : residue a s = residual) :
    (shareAll keys residual gs js).Leads a fun r b => ∃ js', Placed keys js r.1 js' ∧
      Sound b false pack (node (s.regrouped keys r.2) (before ++ js')) ∧
      Refits a b (node (s.regrouped keys gs) (before ++ js))
        (node (s.regrouped keys r.2) (before ++ js')) := by
  induction js generalizing gs before a with
  | nil => exact leads_pure ⟨[], .nil, hq, .refl⟩
  | cons j js ih =>
      have hlets : ∀ v ∈ s.lets.map (·.2), a.Knows v := hq.known_lets
      rw [shareAll]
      by_cases htakes : takesShare residual gs j.2 = true
      · rw [if_pos htakes]
        have hflat := flat_of_takesShare htakes
        have hu : Sound a false true j.2 := hq.joined List.mem_append_cons_self
        have hknown : ∀ v ∈ j.2.stage.outputs, a.Knows v := by
          intro v hv
          rw [← Stage.names_of_flat hflat] at hv
          exact hu.formed.known v (hu.supplied.delivers_defined v hv)
        refine (leads_share hq.formed.ordered hknown).bind ?_
        rintro _ b ⟨S, hS, rfl⟩
        obtain ⟨hstep, hfits⟩ := hS.sound hq rfl hflat fun v hv => hresidual ▸ hv
        rw [List.append_cons] at hstep
        have hsame := (residue_of_extension hS.arena hlets).trans hresidual
        refine (ih hstep hsame).bind ?_
        rintro r b' ⟨js', hplaced, hsound, hrest⟩
        simp only [List.append_assoc, List.singleton_append] at hsound hrest
        have hgroup : (j.2.withStage (·.aggregating keys S)).stage.shape =
            .group (keys.filter j.2.stage.outputs.contains) S.partials := by
          rw [stage_withStage]
          rfl
        exact leads_pure ⟨_, .take ⟨hflat, joins_withStage _ _, _, hgroup⟩ hplaced, hsound,
          hfits.trans hrest⟩
      · rw [if_neg htakes]
        have hvars : ∀ g ∈ gs, g.var ∉ residual := hresidual ▸ hq.not_mem_residue rfl
        have hnot : ¬ j.2.stage.shape.Flat := fun hflat => htakes (takesShare_of_flat hflat hvars)
        rw [List.append_cons] at hq
        refine (ih hq hresidual).mono ?_
        rintro r b ⟨js', hplaced, hsound, hfits⟩
        simp only [List.append_assoc, List.singleton_append] at hsound hfits
        exact ⟨_, .skip hnot hplaced, hsound, hfits⟩

end Query

/-! ## Counts -/

namespace Stage

variable {a : Arena} {s : Stage} {keys : List VarId} {gs : List Aggregate} {v : VarId}

/-- The grouping stage that delivers a count of its rows as well. -/
def counting (s : Stage) (keys : List VarId) (gs : List Aggregate) (v : VarId) : Stage :=
  { s with
    outputs := s.outputs.insert v
    shape := .group keys (gs ++ [⟨v, .count, none⟩]) }

/-- A count reads nothing. -/
theorem mem_uses_counting (hs : s.shape = .group keys gs) (hv : v ∉ s.shape.defines) {u : VarId}
    (h : u ∈ (s.counting keys gs v).uses true) : u ∈ s.uses true := by
  rw [mem_uses_group hs]
  refine ((mem_uses_group rfl).mp h).imp_right ?_
  rintro ⟨g, hg, hpacked, hcount, rfl⟩
  rcases List.mem_append.mp hg with hm | hm
  · refine ⟨g, hm, fun _ => ?_, hcount, rfl⟩
    rcases Ascending.mem_insert.mp (hpacked rfl) with he | ho
    · rw [hs, ← he] at hv
      exact absurd (List.mem_map_of_mem hm) hv
    · exact ho
  · rw [List.mem_singleton.mp hm] at hcount
    cases hcount

end Stage

namespace Query

variable {a b : Arena} {pack : Bool} {s t : Stage} {js js' before after : List (String × Query)}
  {aliasName : String} {q u : Query} {keys residual kept delivered counts : List VarId}
  {gs done : List Aggregate} {g : Aggregate} {S : Sharing} {v : VarId}

/-- A grouping query that counts its rows is sound. -/
theorem Sound.counting (h : Sound a false true u) (hs : u.stage.shape = .group keys gs)
    (hb : (a.define (.aggregated .count none)).2 = b)
    (hv : (a.define (.aggregated .count none)).1 = v) :
    Sound b false true (u.withStage (·.counting keys gs v)) ∧
      Grown a b u.defines (u.withStage (·.counting keys gs v)).defines := by
  have hextension : a.defs <+: b.defs := hb ▸ Arena.prefix_define
  have hordered : b.Ordered := hb ▸ h.formed.ordered.define (List.forall_mem_nil _)
  have hknows : b.Knows v := hb ▸ hv ▸ Arena.knows_define
  have hfresh : ¬ a.Knows v := hv ▸ Arena.not_knows_define
  cases u with
  | node t ks =>
      replace hs : t.shape = .group keys gs := hs
      have hgrown : Grown a b (node t ks).defines
          ((node t ks).withStage (·.counting keys gs v)).defines := by
        refine ⟨hextension, [v], ?_, List.nodup_singleton _, ?_⟩
        · show ((t.observed.values ++ t.lets.map (·.2) ++
            (gs ++ [(⟨v, .count, none⟩ : Aggregate)]).map (·.var)) ++ joinsDefine ks).Perm _
          simp only [defines, Stage.defines, hs, List.map_append, List.append_assoc]
          exact ((List.perm_append_comm.append_left _).append_left _).append_left _
        · intro x hx
          rw [List.mem_singleton.mp hx]
          exact ⟨hfresh, hknows⟩
      have hself := h.formed.lawful _ (self_mem_parts _)
      have hnot : v ∉ t.shape.defines := fun hm =>
        hfresh (h.formed.known v (mem_defines_node.mpr
          (Or.inl (Stage.mem_defines_iff.mpr (Or.inr (Or.inr hm))))))
      refine ⟨h.rebuild hordered rfl (fun j hj => (h.joined hj).grow hextension hordered) hgrown
        hself.names (fun ht => absurd ht Bool.false_ne_true) ?_ ?_, hgrown⟩
      · obtain ⟨_, ⟨hown, _, _⟩⟩ := h
        exact hown.rebuild hextension (fun x hx => Or.inl hx) (fun w hw => hw) (fun x hx _ => hx)
          (fun x hx => hown.uses x (Stage.mem_uses_counting hs hnot hx))
          fun ht => absurd ht.symm Bool.false_ne_true
      · intro x hx
        rcases Stage.mem_names_iff.mp hx with hk | ho
        · refine Or.inl (Stage.mem_names_iff.mpr (Or.inl ?_))
          rw [hs]
          exact hk
        · rcases Ascending.mem_insert.mp ho with rfl | ho
          · refine Or.inr ?_
            show x ∈ (gs ++ [(⟨x, .count, none⟩ : Aggregate)]).map (·.var)
            rw [List.map_append]
            exact List.mem_concat_self
          · exact Or.inl (Stage.mem_names_iff.mpr (Or.inr ho))

/-- A count of rows refers to nothing. -/
theorem Confined.counting (h : u.Confined a) (hk : ∀ v ∈ u.defines, a.Knows v)
    (hs : u.stage.shape = .group keys gs) (hb : (a.define (.aggregated .count none)).2 = b)
    (hv : (a.define (.aggregated .count none)).1 = v) :
    (u.withStage (·.counting keys gs v)).Confined b := by
  have hextension : a.defs <+: b.defs := hb ▸ Arena.prefix_define
  have hreads : b.reads v = [] := by
    rw [Arena.reads, ← hb, ← hv, Arena.definition?_define]
    rfl
  cases u with
  | node t ks =>
      replace hs : t.shape = .group keys gs := hs
      have hdefines : ∀ w, w ∈ (t.counting keys gs v).defines ↔ w ∈ t.defines ∨ w = v := by
        intro w
        simp only [Stage.mem_defines_iff, Stage.counting, hs, Shape.defines, List.map_append,
          List.mem_append, List.map_cons, List.map_nil, List.mem_singleton]
        tauto
      have hnew : v ∈ (node (t.counting keys gs v) ks).defines :=
        mem_defines_node.mpr (Or.inl ((hdefines v).mpr (Or.inr rfl)))
      refine h.rebuild (fun w hw => ?_) (fun w hw => ?_) fun j hj =>
        ((confined_node.mp h).2 j hj).extend hextension fun w hw => hk w (defines_of_joined hj hw)
      · exact mem_defines_node.mpr ((mem_defines_node.mp hw).imp_left fun hw =>
          (hdefines w).mpr (Or.inl hw))
      · rcases Stage.refersTo_iff.mp hw with ho | hw | hshape | ⟨x, hx, hread⟩
        · rcases Ascending.mem_insert.mp ho with rfl | ho
          · exact Or.inr hnew
          · exact Or.inl (.of_output ho)
        · exact Or.inl (Stage.refersTo_iff.mpr (Or.inr (Or.inl hw)))
        · have hsame : (t.counting keys gs v).shape.reads = t.shape.reads := by
            simp [Stage.counting, hs, Shape.reads]
          exact Or.inl (.of_shape (hsame ▸ hshape))
        · rcases (hdefines x).mp hx with hx | rfl
          · rw [Arena.reads_of_extension hextension (hk x (mem_defines_node.mpr (Or.inl hx)))]
              at hread
            exact Or.inl (Or.inr ⟨x, hx, hread⟩)
          · rw [hreads] at hread
            cases hread

/-- One joined query counts its rows. -/
theorem leads_countRows (hq : Sound a false pack (node s (before ++ (aliasName, u) :: after)))
    (hs : u.stage.shape = .group keys gs) :
    (countRows (aliasName, u)).Leads a fun r b => ∃ u', r.1 = (aliasName, u') ∧
      u'.joins = u.joins ∧ (∃ gs, u'.stage.shape = .group keys gs) ∧
      r.2 ∈ u'.stage.unpackedBag.names ∧ b.definition? r.2 = some (.aggregated .count none) ∧
      Sound b false pack (node s (before ++ (aliasName, u') :: after)) ∧
      Refits a b (node s (before ++ (aliasName, u) :: after))
        (node s (before ++ (aliasName, u') :: after)) := by
  have hu : Sound a false true u := hq.joined List.mem_append_cons_self
  obtain ⟨hsound, hgrown⟩ := hu.counting hs rfl rfl
  have hshape : ∀ v, (u.withStage (·.counting keys gs v)).stage.shape =
      .group keys (gs ++ [⟨v, .count, none⟩]) := by
    intro v
    rw [stage_withStage]
    rfl
  refine ⟨u.withStage (·.counting keys gs (a.define (.aggregated .count none)).1), ?_,
    joins_withStage _ _, ⟨_, hshape _⟩, ?_, Arena.definition?_define, ?_, ?_, rfl, ?_, fun hc => ?_,
    .of_rests (forall₂_sites_replace Stage.Rests.refl (.refl s)
      (forall₂_sites_withStage Stage.Rests.refl ?_))⟩
  · cases u with
    | node t ks =>
        replace hs : t.shape = .group keys gs := hs
        show (aliasName, Query.node { t with outputs := _, shape := _ } ks) = _
        rw [hs]
        rfl
  · rw [Stage.mem_names_iff, stage_withStage]
    exact Or.inr (Ascending.mem_insert.mpr (Or.inl rfl))
  · refine hq.replaceJoin hsound hgrown fun v hv _ => ?_
    rw [Stage.mem_names_iff] at hv ⊢
    rw [stage_withStage]
    rw [hs] at hv
    exact hv.imp_right fun ho => Ascending.mem_insert.mpr (Or.inr ho)
  · exact grown_replace hgrown
  · exact places_replace (by cases u; rfl) rfl
  · have hcu : u.Confined a := (confined_node.mp hc).2 _ List.mem_append_cons_self
    exact hc.replaceJoin hgrown.arena hq.formed.known (hcu.counting hu.formed.known hs rfl rfl)
      hgrown.subset
  · exact .of_shape rfl rfl rfl rfl rfl (hs ▸ fun _ => Shape.noConfusion) fun _ => Shape.noConfusion

/-- All joined queries that have taken a share count their rows. -/
theorem leads_mapM_countRows {shared : List (String × Query)} (hplaced : Placed keys js shared js')
    (hq : Sound a false pack (node s (before ++ js'))) :
    Leads (shared.mapM countRows) a fun r b => ∃ js'', Placed keys js (r.map (·.1)) js'' ∧
      Sound b false pack (node s (before ++ js'')) ∧
      Refits a b (node s (before ++ js')) (node s (before ++ js'')) ∧
      ∀ v ∈ r.map (·.2), v ∈ (node s (before ++ js'')).incoming ∧
        b.definition? v = some (.aggregated .count none) := by
  induction hplaced generalizing a before with
  | nil =>
      rw [List.mapM_nil]
      exact leads_pure ⟨[], .nil, hq, .refl, List.forall_mem_nil _⟩
  | skip hnot hplaced ih =>
      rw [List.append_cons] at hq
      refine (ih hq).mono ?_
      rintro r b ⟨js'', hplaced, hsound, hfits, hin⟩
      simp only [List.append_assoc, List.singleton_append] at hsound hfits hin
      exact ⟨_, .skip hnot hplaced, hsound, hfits, hin⟩
  | @take aliasName u u' js shared js' htook hplaced ih =>
      obtain ⟨hflat, hjoins, gs, hs⟩ := htook
      rw [List.mapM_cons]
      refine (leads_countRows hq hs).bind ?_
      rintro ⟨_, v⟩ b ⟨u'', rfl, hjoins', hgroup, hv, hcount, hstep, hfits⟩
      rw [List.append_cons] at hstep
      refine (ih hstep).bind ?_
      rintro r b' ⟨js'', hplaced, hsound, hrest, hin⟩
      simp only [List.append_assoc, List.singleton_append] at hsound hrest hin
      refine leads_pure ⟨_, .take ⟨hflat, hjoins'.trans hjoins, hgroup⟩ hplaced, hsound,
        hfits.trans hrest, ?_⟩
      intro x hx
      rcases List.mem_cons.mp hx with rfl | hx
      · have hknows := (List.getElem?_eq_some_iff.mp hcount).1
        refine ⟨List.mem_append_right _ (List.mem_flatMap.mpr
          ⟨_, List.mem_append_cons_self, hv⟩), ?_⟩
        rw [Arena.definition?_of_extension hrest.grown.arena hknows, hcount]
      · exact hin x hx

end Query

namespace Stage

variable {s : Stage} {keys : List VarId} {gs done : List Aggregate} {g : Aggregate} {v : VarId}

/-- The stage with a let that takes the place of a count. -/
def summing (s : Stage) (name : String) (v : VarId) : Stage :=
  { s with lets := s.lets ++ [(name, v)] }

end Stage

namespace Query

variable {a b : Arena} {pack : Bool} {s t : Stage} {js js' before after : List (String × Query)}
  {aliasName : String} {q u : Query} {keys residual kept delivered counts : List VarId}
  {gs done : List Aggregate} {g : Aggregate} {S : Sharing} {v : VarId}

/-- A product of counts refers to what is defined below. -/
theorem Confined.summing {name expr : String}
    (h : (node (s.regrouped keys (done ++ g :: gs)) js).Confined a)
    (hk : ∀ v ∈ (node (s.regrouped keys (done ++ g :: gs)) js).defines, a.Knows v)
    (hcounts : ∀ v ∈ counts, v ∈ (node (s.regrouped keys (done ++ g :: gs)) js).defines)
    (hextension : a.defs <+: b.defs)
    (hdefinition : b.definition? v = some (.computed name expr counts)) :
    (node ((s.summing name v).regrouped keys (done ++ ⟨g.var, .sum, some v⟩ :: gs)) js).Confined
      b := by
  have hdefines : ∀ w, w ∈ ((s.summing name v).regrouped keys
      (done ++ ⟨g.var, .sum, some v⟩ :: gs)).defines ↔
        w ∈ (s.regrouped keys (done ++ g :: gs)).defines ∨ w = v := by
    intro w
    simp only [Stage.mem_defines_iff, Stage.regrouped, Stage.summing, Shape.defines,
      List.map_append, List.map_cons, List.map_nil, List.mem_append, List.mem_cons]
    tauto
  have hold : ∀ w ∈ (node (s.regrouped keys (done ++ g :: gs)) js).defines,
      w ∈ (node ((s.summing name v).regrouped keys (done ++ ⟨g.var, .sum, some v⟩ :: gs))
        js).defines :=
    fun w hw => mem_defines_node.mpr ((mem_defines_node.mp hw).imp_left fun hw =>
      (hdefines w).mpr (Or.inl hw))
  have hnew : v ∈ (node ((s.summing name v).regrouped keys
      (done ++ ⟨g.var, .sum, some v⟩ :: gs)) js).defines :=
    mem_defines_node.mpr (Or.inl ((hdefines v).mpr (Or.inr rfl)))
  refine h.rebuild hold (fun w hw => ?_) fun j hj =>
    ((confined_node.mp h).2 j hj).extend hextension fun w hw => hk w (defines_of_joined hj hw)
  rcases Stage.refersTo_iff.mp hw with ho | hw | hshape | ⟨x, hx, hread⟩
  · exact Or.inl (.of_output ho)
  · exact Or.inl (Stage.refersTo_iff.mpr (Or.inr (Or.inl hw)))
  · have hreads : w ∈ (s.regrouped keys (done ++ g :: gs)).shape.reads ∨ w = v := by
      simp only [Stage.regrouped, Shape.reads, List.mem_append, List.mem_filterMap, List.mem_cons]
        at hshape ⊢
      rcases hshape with hkey | ⟨x, hx | rfl | hx, hinput⟩
      · exact Or.inl (Or.inl hkey)
      · exact Or.inl (Or.inr ⟨x, Or.inl hx, hinput⟩)
      · exact Or.inr (Option.some_inj.mp hinput).symm
      · exact Or.inl (Or.inr ⟨x, Or.inr (Or.inr hx), hinput⟩)
    rcases hreads with hw | rfl
    · exact Or.inl (.of_shape hw)
    · exact Or.inr hnew
  · rcases (hdefines x).mp hx with hx | rfl
    · rw [Arena.reads_of_extension hextension (hk x (mem_defines_node.mpr (Or.inl hx)))] at hread
      exact Or.inl (Or.inr ⟨x, hx, hread⟩)
    · rw [Arena.reads, hdefinition] at hread
      exact Or.inr (hold w (hcounts w hread))

theorem grown_summing {name : String} (hp : a.defs <+: b.defs) (hknows : b.Knows v)
    (hfresh : ¬ a.Knows v) : Grown a b (node (s.regrouped keys (done ++ g :: gs)) js).defines
      (node ((s.summing name v).regrouped keys (done ++ ⟨g.var, .sum, some v⟩ :: gs))
        js).defines := by
  refine ⟨hp, [v], ?_, List.nodup_singleton _, ?_⟩
  · show ((s.observed.values ++ (s.lets ++ [(name, v)]).map (·.2) ++
      (done ++ ⟨g.var, .sum, some v⟩ :: gs).map (·.var)) ++ joinsDefine js).Perm
      (((s.observed.values ++ s.lets.map (·.2)) ++ (done ++ g :: gs).map (·.var)) ++
        joinsDefine js ++ [v])
    have hvars : (done ++ ⟨g.var, .sum, some v⟩ :: gs).map (·.var) =
        (done ++ g :: gs).map (·.var) := by
      simp only [List.map_append, List.map_cons]
    rw [hvars, List.map_append]
    simp only [List.append_assoc]
    refine (List.Perm.append_left _ (List.Perm.append_left _ ?_))
    rw [← List.append_assoc _ (joinsDefine js)]
    exact List.perm_append_comm
  · intro x hx
    rw [List.mem_singleton.mp hx]
    exact ⟨hfresh, hknows⟩

/-- A count becomes the sum of a product of counts that come in. -/
theorem Sound.summing {name : String}
    (h : Sound a false pack (node (s.regrouped keys (done ++ g :: gs)) js))
    (hname : name ∉ s.lets.map (·.1)) (hcounts : ∀ v ∈ counts, v ∈ (node s js).incoming)
    (hrows : ∀ v ∈ counts, a.definition? v = some (.aggregated .count none))
    (hb : (a.define (.computed name (productExpr counts.length) counts)).2 = b)
    (hv : (a.define (.computed name (productExpr counts.length) counts)).1 = v) :
    Sound b false pack
      (node ((s.summing name v).regrouped keys (done ++ ⟨g.var, .sum, some v⟩ :: gs)) js) ∧
    Refits a b (node (s.regrouped keys (done ++ g :: gs)) js)
      (node ((s.summing name v).regrouped keys (done ++ ⟨g.var, .sum, some v⟩ :: gs)) js) := by
  have hextension : a.defs <+: b.defs := hb ▸ Arena.prefix_define
  have hknows : b.Knows v := hb ▸ hv ▸ Arena.knows_define
  have hfresh : ¬ a.Knows v := hv ▸ Arena.not_knows_define
  have hdefinition : b.definition? v = some (.computed name (productExpr counts.length) counts) :=
    hb ▸ hv ▸ Arena.definition?_define
  have hin : ∀ v ∈ (node s js).incoming, a.Knows v := h.known_incoming
  have hordered : b.Ordered := hb ▸ h.formed.ordered.define fun x hx => hin x (hcounts x hx)
  have hself := h.formed.lawful _ (self_mem_parts _)
  have hvars : (done ++ ⟨g.var, .sum, some v⟩ :: gs).map (·.var) =
      (done ++ g :: gs).map (·.var) := by
    simp only [List.map_append, List.map_cons]
  have hgrown : Grown a b (node (s.regrouped keys (done ++ g :: gs)) js).defines
      (node ((s.summing name v).regrouped keys (done ++ ⟨g.var, .sum, some v⟩ :: gs)) js).defines :=
    grown_summing hextension hknows hfresh
  have hnames : ((s.summing name v).regrouped keys
      (done ++ ⟨g.var, .sum, some v⟩ :: gs)).unpackedBag.names =
        (s.regrouped keys (done ++ g :: gs)).unpackedBag.names := by
    rw [Stage.names_group (s := (s.summing name v).regrouped _ _) rfl,
      Stage.names_group (s := s.regrouped _ _) rfl, hvars]
    rfl
  have hproduct : CountProduct a b (name, v) := by
    refine ⟨hfresh, counts, hdefinition, fun w hw => ?_⟩
    rw [Arena.definition?_of_extension hextension (hin w (hcounts w hw)), hrows w hw]
  refine ⟨?_, hgrown, hnames, rfl, fun hc =>
    hc.summing h.formed.known (fun w hw => h.incoming_defined w (hcounts w hw)) hextension
      hdefinition,
    relocates_of_product hproduct (.of_not_filter rfl rfl rfl (fun _ => Shape.noConfusion)
      fun _ => Shape.noConfusion) rfl rfl⟩
  refine h.rebuild hordered rfl (fun j hj => (h.joined hj).grow hextension hordered) hgrown ?_
    (fun ht => absurd ht Bool.false_ne_true) ?_ fun x hx => Or.inl (hnames ▸ hx)
  · show ((s.lets ++ [(name, v)]).map (·.1)).Nodup
    rw [List.map_append]
    exact (List.perm_append_singleton _ _).nodup_iff.mpr (List.nodup_cons.mpr ⟨hname, hself.names⟩)
  · obtain ⟨_, ⟨hown, _, _⟩⟩ := h
    have hlets : (s.summing name v).lets.map (·.2) = s.lets.map (·.2) ++ [v] := List.map_append
    have hkeep : ∀ x ∈ (node s js).incoming ++ s.lets.map (·.2),
        x ∈ (node s js).incoming ++ (s.summing name v).lets.map (·.2) := by
      intro x hx
      rw [hlets, ← List.append_assoc]
      exact List.mem_append_left _ hx
    refine hown.rebuild hextension (fun x hx => ?_) (fun w hw => hw) (fun x hx _ => hkeep x hx) ?_
      fun _ keep => by rintro ⟨⟩
    · refine (List.mem_append.mp (hlets ▸ hx)).imp_right fun hx => ?_
      rw [List.mem_singleton.mp hx, Arena.reads, hdefinition]
      exact ⟨⟨_, _, _, rfl⟩, fun y hy => List.mem_append_left _ (hcounts y hy)⟩
    · intro x hx
      rcases (Stage.mem_uses_group rfl).mp hx with hk | ⟨g', hg', hpacked, hcount, rfl⟩
      · exact hkeep x (hown.uses x ((Stage.mem_uses_group rfl).mpr (Or.inl hk)))
      · rw [List.mem_append, List.mem_cons] at hg'
        have hold : g' ∈ done ++ g :: gs →
            Stage.operand g' ∈ (node s js).incoming ++ (s.summing name v).lets.map (·.2) :=
              fun hm =>
          hkeep _ (hown.uses _ ((Stage.mem_uses_group rfl).mpr
            (Or.inr ⟨g', hm, hpacked, hcount, rfl⟩)))
        rcases hg' with hm | rfl | hm
        · exact hold (List.mem_append_left _ hm)
        · have hproduct : v ∈ (s.summing name v).lets.map (·.2) := by
            rw [hlets]
            exact List.mem_concat_self
          rw [Stage.operand_of_input hcount rfl]
          exact List.mem_append_right _ hproduct
        · exact hold (List.mem_append_right _ (List.mem_cons_of_mem _ hm))

theorem Placed.aliases {shared : List (String × Query)} (h : Placed keys js shared js') :
    Table.keys js' = Table.keys js := by
  induction h with
  | nil => rfl
  | skip _ _ ih => exact congrArg (_ :: ·) ih
  | take _ _ ih => exact congrArg (_ :: ·) ih

/-- The name of a new let is none that the stage uses. -/
theorem freshName_not_mem (q : Query) {base : String} (hb : Name.isValid base = true) :
    q.freshName base ∉ q.stage.lets.map (·.1) := by
  have havailable := isAvailable_freshName q hb
  simp only [isAvailable, Bool.and_eq_true] at havailable
  obtain ⟨⟨⟨⟨_, hlet⟩, _⟩, _⟩, _⟩ := havailable
  intro hm
  obtain ⟨l, hl, he⟩ := List.mem_map.mp hm
  have hne := List.lookup_eq_none_iff.mp (Option.isNone_iff_eq_none.mp hlet) l hl
  rw [← he, bne_self_eq_false] at hne
  cases hne

/-- One aggregate after the shares have been taken: a count of rows is made up from the
counts of the joined queries, another is left. -/
theorem leads_countOne {shared : List (String × Query)} (hplaced : Placed keys js shared js')
    (hq : Sound a false pack (node (s.regrouped keys (done ++ g :: gs)) js')) :
    (countOne (node s js) shared g).Leads a fun r b => ∃ s' js'', r.1 = node s' js ∧
      Placed keys js r.2.1 js'' ∧
      Sound b false pack (node (s'.regrouped keys (done ++ r.2.2 :: gs)) js'') ∧
      Refits a b (node (s.regrouped keys (done ++ g :: gs)) js')
        (node (s'.regrouped keys (done ++ r.2.2 :: gs)) js'') := by
  have hstay : Leads (pure (node s js, shared, g)) a fun r b => ∃ s' js'', r.1 = node s' js ∧
      Placed keys js r.2.1 js'' ∧
      Sound b false pack (node (s'.regrouped keys (done ++ r.2.2 :: gs)) js'') ∧
      Refits a b (node (s.regrouped keys (done ++ g :: gs)) js')
        (node (s'.regrouped keys (done ++ r.2.2 :: gs)) js'') :=
    leads_pure ⟨s, js', rfl, hplaced, hq, .refl⟩
  rw [countOne]
  split
  · next hhow hinput =>
      have hq' : Sound a false pack (node (s.regrouped keys (done ++ g :: gs)) ([] ++ js')) := hq
      refine (leads_mapM_countRows hplaced hq').bind ?_
      rintro counted b ⟨js'', hplaced', hsound, hfits, hcounts⟩
      have hvalid : Name.isValid "counts" = true := by decide +kernel
      obtain ⟨hsum, hrest⟩ := hsound.summing (freshName_not_mem (node s js) hvalid)
        (fun v hv => (hcounts v hv).1) (fun v hv => (hcounts v hv).2) rfl rfl
      exact ⟨_, js'', rfl, hplaced', hsum, hfits.trans hrest⟩
  · exact hstay

theorem leads_countAll {shared : List (String × Query)} (hplaced : Placed keys js shared js')
    (hq : Sound a false pack (node (s.regrouped keys (done ++ gs)) js')) :
    (countAll (node s js) shared gs).Leads a fun r b => ∃ s' js'', r.1 = node s' js ∧
      Placed keys js r.2.1 js'' ∧
      Sound b false pack (node (s'.regrouped keys (done ++ r.2.2)) js'') ∧
      Refits a b (node (s.regrouped keys (done ++ gs)) js')
        (node (s'.regrouped keys (done ++ r.2.2)) js'') := by
  induction gs generalizing done s js' shared a with
  | nil => exact leads_pure ⟨s, js', rfl, hplaced, hq, .refl⟩
  | cons g gs ih =>
      rw [countAll]
      refine (leads_countOne hplaced hq).bind ?_
      rintro ⟨_, shared₁, g₁⟩ b ⟨s₁, js₁, rfl, hplaced₁, hsound₁, hfits⟩
      rw [List.append_cons] at hsound₁
      refine (ih hplaced₁ hsound₁).bind ?_
      rintro ⟨_, shared₂, gs₂⟩ b' ⟨s₂, js₂, rfl, hplaced₂, hsound₂, hrest⟩
      simp only [List.append_assoc, List.singleton_append] at hsound₂ hrest
      exact leads_pure ⟨s₂, js₂, rfl, hplaced₂, hsound₂, hfits.trans hrest⟩

end Query

end CausalTrace
