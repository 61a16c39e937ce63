import CausalTrace.Proofs.Installable
import CausalTrace.Proofs.PushDown
import CausalTrace.Proofs.Supply

/-!
# Single moves

What one move of a let or a condition does to the tree: one joined query takes it, and
everything else stays. The query remains well-formed and supplied, and no stage binds a
variable twice that did not before.
-/

namespace CausalTrace

namespace Query

variable {a : Arena} {s : Stage} {js : List (String × Query)} {l : String × VarId} {w : Condition}
  {aliasName : String} {u q q' : Query}

/-! ## One joined query changes -/

/-- Among ascending aliases each occurs once. -/
theorem alias_ne_of_ascending {before after : List (String × Query)}
    (h : (Table.keys (before ++ (aliasName, u) :: after)).Pairwise fun x y => compare x y = .lt) :
    ∀ j ∈ before ++ after, j.1 ≠ aliasName := by
  rw [Table.keys, List.map_append, List.map_cons, List.pairwise_append, List.pairwise_cons] at h
  obtain ⟨_, ⟨hafter, _⟩, hbefore⟩ := h
  have hself : compare aliasName aliasName ≠ .lt := by
    rw [Std.ReflOrd.compare_self]
    decide
  rintro j hj rfl
  rcases List.mem_append.mp hj with hj | hj
  · exact hself (hbefore j.1 (List.mem_map_of_mem hj) j.1 List.mem_cons_self)
  · exact hself (hafter j.1 (List.mem_map_of_mem hj))

/-- One of the joined queries, among the others. -/
theorem updateJoin_eq {f : Query → Query} {before after : List (String × Query)}
    (h : (Table.keys (before ++ (aliasName, u) :: after)).Pairwise fun x y => compare x y = .lt) :
    (node s (before ++ (aliasName, u) :: after)).updateJoin aliasName f =
      node s (before ++ (aliasName, f u) :: after) := by
  have hne := alias_ne_of_ascending h
  have hkeep : ∀ ks : List (String × Query), (∀ j ∈ ks, j.1 ≠ aliasName) →
      ks.map (fun j => if j.1 = aliasName then (j.1, f j.2) else j) = ks := fun ks hks =>
    (List.map_congr_left fun j hj => if_neg (hks j hj)).trans (List.map_id ks)
  rw [updateJoin, List.map_append, List.map_cons, if_pos rfl,
    hkeep before fun j hj => hne j (List.mem_append_left _ hj),
    hkeep after fun j hj => hne j (List.mem_append_right _ hj)]

end Query

/-! ## Lets -/

namespace Stage

/-- The stage without one of its lets. -/
def withoutLet (s : Stage) (l : String × VarId) : Stage :=
  { s with lets := s.lets.filter (·.1 ≠ l.1) }

/-- The stage with one more let, which it delivers if that is needed. -/
def withLet (s : Stage) (l : String × VarId) (needed : Bool) : Stage :=
  { s with
    lets := s.lets ++ [l]
    outputs := if needed then s.outputs.insert l.2 else s.outputs }

/-- The stage with one more condition. -/
def withWhere (s : Stage) (w : Condition) : Stage := { s with wheres := s.wheres ++ [w] }

theorem lets_perm {s : Stage} {l : String × VarId}
    (hn : (s.lets.map (·.1)).Nodup) (hl : l ∈ s.lets) :
    s.lets.Perm (l :: (s.withoutLet l).lets) := by
  obtain ⟨before, after, hsplit⟩ := List.append_of_mem hl
  have hne : ∀ m ∈ before ++ after, m.1 ≠ l.1 := by
    rw [hsplit, List.map_append, List.map_cons, List.nodup_middle, List.nodup_cons] at hn
    rintro m hm he
    refine hn.1 ?_
    rw [← he, ← List.map_append]
    exact List.mem_map_of_mem hm
  have hkeep : ∀ ls : List (String × VarId), (∀ m ∈ ls, m.1 ≠ l.1) →
      ls.filter (·.1 ≠ l.1) = ls := fun ls hls =>
    List.filter_eq_self.mpr fun m hm => decide_eq_true (hls m hm)
  have hrest : (s.withoutLet l).lets = before ++ after := by
    show s.lets.filter _ = _
    rw [hsplit, List.filter_append, List.filter_cons, if_neg (by simp),
      hkeep before fun m hm => hne m (List.mem_append_left _ hm),
      hkeep after fun m hm => hne m (List.mem_append_right _ hm)]
  rw [hrest, hsplit]
  exact List.perm_middle

end Stage

/-- The shapes of stages that deliver all rows that arrive. -/
def Shape.Flat (shape : Shape) : Prop := shape = .unfinished ∨ ∃ selected, shape = .select selected

theorem Stage.names_of_flat {s : Stage} (h : s.shape.Flat) : s.unpackedBag.names = s.outputs := by
  rw [unpackedBag]
  rcases h with hs | ⟨selected, hs⟩
  · rw [hs]
    rfl
  · rw [hs]
    rfl

theorem Stage.uses_of_flat {s : Stage} (h : s.shape.Flat) : s.uses true = s.outputs := by
  rw [uses]
  rcases h with hs | ⟨selected, hs⟩
  · rw [hs]
  · rw [hs]
    rfl

namespace Query

variable {a : Arena} {s : Stage} {js before after : List (String × Query)} {l : String × VarId}
  {aliasName : String} {u q' : Query} {needed pack tight : Bool}

/-- A let can move from a stage into one of the queries it joins. -/
structure LetMoves (a : Arena) (s : Stage) (u : Query) (l : String × VarId) : Prop where
  mem : l ∈ s.lets
  name : u.stage.let? l.1 = none
  flat : u.stage.shape.Flat
  reads : ∀ v ∈ a.reads l.2, v ∈ u.stage.outputs
  some_reads : a.reads l.2 ≠ []

theorem letTarget?_eq_some (h : letTarget? a js l = some aliasName) : a.reads l.2 ≠ [] ∧
    ∃ before u after, js = before ++ (aliasName, u) :: after ∧ u.stage.let? l.1 = none ∧
      u.takesLet (a.reads l.2) = true := by
  rw [letTarget?] at h
  split at h
  · cases h
  · next hsome =>
      obtain ⟨j, hj, rfl⟩ := Option.map_eq_some_iff.mp h
      obtain ⟨hp, before, after, rfl, _⟩ := List.find?_eq_some_iff_append.mp hj
      rw [Bool.and_eq_true, Option.isNone_iff_eq_none] at hp
      rw [List.isEmpty_iff] at hsome
      exact ⟨hsome, before, j.2, after, rfl, hp.1, hp.2⟩

theorem takesLet_eq_true {args : List VarId} (h : u.takesLet args = true) :
    u.stage.shape.Flat ∧ ∀ v ∈ args, v ∈ u.stage.outputs := by
  rw [takesLet] at h
  split at h
  · next hs => exact ⟨Or.inl hs, fun v hv => List.contains_iff_mem.mp (List.all_eq_true.mp h v hv)⟩
  · next selected hs =>
      exact ⟨Or.inr ⟨selected, hs⟩, fun v hv =>
        List.contains_iff_mem.mp (List.all_eq_true.mp h v hv)⟩
  · cases h
  · cases h

/-- What one move of a let does. -/
theorem pushOneLet_eq_some (hf : Formed (Lawful tight) a (node s js))
    (h : (node s js).pushOneLet a = some (aliasName, q')) :
    ∃ l before u after, js = before ++ (aliasName, u) :: after ∧ LetMoves a s u l ∧
      q' = node (s.withoutLet l) (before ++ (aliasName, u.withStage
        (·.withLet l (((s.withoutLet l).needs a).contains l.2))) :: after) := by
  obtain ⟨⟨l, name⟩, hl, he⟩ := Option.map_eq_some_iff.mp h
  cases he
  obtain ⟨m, hm, ht⟩ := List.exists_of_findSome?_eq_some hl
  obtain ⟨name, ht, he⟩ := Option.map_eq_some_iff.mp ht
  cases he
  obtain ⟨hsome, before, u, after, rfl, hname, htakes⟩ := letTarget?_eq_some ht
  obtain ⟨hflat, hreads⟩ := takesLet_eq_true htakes
  refine ⟨l, before, u, after, rfl, ⟨hm, hname, hflat, hreads, hsome⟩, ?_⟩
  have haliases := (hf.lawful _ (self_mem_parts _)).aliases
  rw [moveLet]
  exact updateJoin_eq haliases

/-! ## A let that has moved -/

/-- What a joined query defines, neither the stage nor the other joined queries do. -/
theorem apart_of_nodup (hn : (node s (before ++ (aliasName, u) :: after)).defines.Nodup) :
    ∀ v ∈ u.defines, v ∉ s.defines ∧ ∀ j ∈ before ++ after, v ∉ j.2.defines := by
  rw [defines, joinsDefine_eq, List.flatMap_append, List.flatMap_cons] at hn
  obtain ⟨_, hjoins, hstage⟩ := List.nodup_append.mp hn
  intro v hv
  refine ⟨fun hs => hstage v hs v (by simp [hv]) rfl, fun j hj hd => ?_⟩
  obtain ⟨_, hrest, hbefore⟩ := List.nodup_append.mp hjoins
  obtain ⟨_, _, hafter⟩ := List.nodup_append.mp hrest
  rcases List.mem_append.mp hj with hj | hj
  · exact hbefore v (List.mem_flatMap.mpr ⟨j, hj, hd⟩) v (by simp [hv]) rfl
  · exact hafter v hv v (List.mem_flatMap.mpr ⟨j, hj, hd⟩) rfl

theorem LetMoves.mem_defines (hm : LetMoves a s u l) : l.2 ∈ s.defines :=
  Stage.mem_defines_iff.mpr (Or.inr (Or.inl (List.mem_map_of_mem hm.mem)))

theorem LetMoves.not_mem_defines (hm : LetMoves a s u l)
    (hn : (node s (before ++ (aliasName, u) :: after)).defines.Nodup) : l.2 ∉ u.defines :=
  fun hu => (apart_of_nodup hn _ hu).1 hm.mem_defines

/-- The variables bound at the stage: one that is needed comes in, another is gone. -/
theorem LetMoves.bound_perm (hm : LetMoves a s u l) (hnames : (s.lets.map (·.1)).Nodup)
    (hout : l.2 ∉ u.stage.outputs) :
    (node s (before ++ (aliasName, u) :: after)).bound.Perm ((if needed then [] else [l.2]) ++
      (node (s.withoutLet l)
        (before ++ (aliasName, u.withStage (·.withLet l needed)) :: after)).bound) := by
  have hlets := ((Stage.lets_perm hnames hm.mem).map (·.2)).count_eq
  have hu := Stage.names_of_flat hm.flat
  have hu' : ((u.withStage (·.withLet l needed)).stage).unpackedBag.names =
      if needed then u.stage.outputs.insert l.2 else u.stage.outputs := by
    rw [stage_withStage]
    exact Stage.names_of_flat (s := u.stage.withLet l needed) hm.flat
  have hobs : (s.withoutLet l).observed = s.observed := rfl
  refine List.perm_iff_count.mpr fun v => ?_
  have hv := hlets v
  simp only [bound, incoming, stage_node, joins_node, List.flatMap_append, List.flatMap_cons, hu,
    hu', hobs, List.count_append, List.map_cons, List.count_cons] at hv ⊢
  cases needed with
  | true =>
      have hinsert := (Ascending.insert_perm_cons hout).count_eq v
      simp only [if_true, List.count_cons, List.count_nil] at hinsert ⊢
      omega
  | false =>
      simp only [Bool.false_eq_true, if_false, List.count_cons, List.count_nil]
      omega

/-- Parts of a query whose first stage is changed: the whole, and the parts below. -/
theorem mem_parts_withStage {p : Query} {f : Stage → Stage} :
    p ∈ (u.withStage f).parts ↔ p = u.withStage f ∨ ∃ j ∈ u.joins, p ∈ j.2.parts := by
  cases u with
  | node t ks => exact mem_parts_node

theorem mem_parts_of_joins {p : Query} (h : ∃ j ∈ u.joins, p ∈ j.2.parts) : p ∈ u.parts := by
  cases u with
  | node t ks => exact mem_parts_node.mpr (Or.inr h)

/-- Aliases matter to a stage, not what goes by them. -/
theorem keys_replace (q : Query) :
    Table.keys (before ++ (aliasName, q) :: after) =
      Table.keys (before ++ (aliasName, u) :: after) := by
  simp [Table.keys]

theorem LetMoves.defines_perm (hm : LetMoves a s u l) (hnames : (s.lets.map (·.1)).Nodup) :
    (node (s.withoutLet l) (before ++ (aliasName, u.withStage (·.withLet l needed)) ::
      after)).defines.Perm (node s (before ++ (aliasName, u) :: after)).defines := by
  have hlets := ((Stage.lets_perm hnames hm.mem).map (·.2)).count_eq
  refine List.perm_iff_count.mpr fun v => ?_
  have hv := hlets v
  cases u with
  | node t ks =>
      simp only [defines, joinsDefine_eq, List.flatMap_append, List.flatMap_cons, withStage,
        Stage.defines, Stage.withLet, Stage.withoutLet, List.map_append, List.count_append,
        List.map_cons, List.count_cons, List.map_nil, List.count_nil] at hv ⊢
      omega

theorem LetMoves.formed (hm : LetMoves a s u l)
    (hf : Formed (Lawful tight) a (node s (before ++ (aliasName, u) :: after))) :
    Formed (Lawful tight) a (node (s.withoutLet l)
      (before ++ (aliasName, u.withStage (·.withLet l needed)) :: after)) := by
  have hself := hf.lawful _ (self_mem_parts _)
  have hlets : s.lets.Perm (l :: (s.withoutLet l).lets) := Stage.lets_perm hself.names hm.mem
  have hparts : ∀ p ∈ u.parts, p.Lawful tight := fun p hp => hf.lawful p
    (mem_parts_node.mpr (Or.inr ⟨_, List.mem_append_cons_self, hp⟩))
  refine hf.replace ⟨⟨?_, ?_⟩, hself.groups⟩ ?_ ?_
  · rw [joins_node, keys_replace]
    exact hself.aliases
  · have hn := hself.names
    rw [stage_node, (hlets.map (·.1)).nodup_iff, List.map_cons, List.nodup_cons] at hn
    exact hn.2
  · intro p hp
    rcases mem_parts_withStage.mp hp with rfl | hj
    · have hu := hparts u (self_mem_parts u)
      refine ⟨⟨by rw [joins_withStage]; exact hu.aliases, ?_⟩, fun _ keys gs hs => ?_⟩
      rotate_left
      · rw [stage_withStage] at hs
        have hflat : (Shape.group keys gs).Flat := hs ▸ hm.flat
        rcases hflat with h | ⟨_, h⟩
        · cases h
        · cases h
      have hnew : l.1 ∉ u.stage.lets.map (·.1) := by
        intro hmem
        obtain ⟨m, hm', he⟩ := List.mem_map.mp hmem
        have hne := List.lookup_eq_none_iff.mp hm.name m hm'
        rw [he, bne_self_eq_false] at hne
        cases hne
      rw [stage_withStage]
      show ((u.stage.lets ++ [l]).map (·.1)).Nodup
      rw [List.map_append]
      exact (List.perm_append_singleton _ _).nodup_iff.mpr (List.nodup_cons.mpr ⟨hnew, hu.names⟩)
    · exact hparts p (mem_parts_of_joins hj)
  · exact hm.defines_perm hself.names

/-- The stage that takes the let binds it as well. -/
theorem bound_withLet :
    (u.withStage (·.withLet l needed)).bound = u.bound ++ [l.2] := by
  cases u with
  | node t ks =>
      show _ ++ (t.lets ++ [l]).map (·.2) = (_ ++ t.lets.map (·.2)) ++ [l.2]
      rw [List.map_append, ← List.append_assoc]
      rfl

/-- A stage that takes a let is supplied with what the let reads. -/
theorem supplied_withLet {t : Stage} {incoming : List VarId} (h : t.Supplied a incoming true)
    (hflat : t.shape.Flat) (hreads : ∀ v ∈ a.reads l.2, v ∈ t.outputs)
    (hc : ∃ name expr args, a.definition? l.2 = some (.computed name expr args)) :
    (t.withLet l needed).Supplied a incoming true := by
  have hlets : (t.withLet l needed).lets.map (·.2) = t.lets.map (·.2) ++ [l.2] := List.map_append
  have hmono : ∀ v ∈ incoming ++ t.lets.map (·.2),
      v ∈ incoming ++ (t.withLet l needed).lets.map (·.2) := by
    intro v hv
    rw [hlets, ← List.append_assoc]
    exact List.mem_append_left _ hv
  have houtputs : ∀ v ∈ t.outputs, v ∈ incoming ++ t.lets.map (·.2) := by
    have huses := h.uses
    rw [Stage.uses_of_flat hflat] at huses
    exact huses
  refine h.rebuild (List.prefix_refl _) (fun v hv => ?_) (fun w hw => hw)
    (fun v hv _ => hmono v hv) ?_ fun h => absurd h.symm Bool.false_ne_true
  · rw [hlets] at hv
    refine (List.mem_append.mp hv).imp_right fun hv => ?_
    rw [List.mem_singleton.mp hv]
    exact ⟨hc, fun x hx => hmono x (houtputs x (hreads x hx))⟩
  · intro v hv
    rw [Stage.uses_of_flat (s := t.withLet l needed) hflat] at hv
    cases needed with
    | true =>
        rcases Ascending.mem_insert.mp hv with rfl | hv
        · rw [hlets]
          exact List.mem_append_right _ List.mem_concat_self
        · exact hmono v (houtputs v hv)
    | false => exact hmono v (houtputs v hv)

theorem LetMoves.supplied_joined (hm : LetMoves a s u l) (hu : u.Supplied a true)
    (hc : ∃ name expr args, a.definition? l.2 = some (.computed name expr args)) :
    (u.withStage (·.withLet l needed)).Supplied a true := by
  cases u with
  | node t ks =>
      obtain ⟨hown, hdelivers, hjoined⟩ := hu
      have hnames := Stage.names_of_flat (s := t.withLet l needed) hm.flat
      refine .node (supplied_withLet hown hm.flat hm.reads hc) (fun _ v hv => ?_) hjoined
      rw [hnames] at hv
      have hold : v ∈ t.outputs → v ∈ (node (t.withLet l needed) ks).defines := by
        intro ho
        have hflat : t.shape.Flat := hm.flat
        rw [← Stage.names_of_flat hflat] at ho
        rcases mem_defines_node.mp (hdelivers rfl v ho) with hs | hj
        · refine mem_defines_node.mpr (Or.inl ?_)
          rw [Stage.mem_defines_iff] at hs ⊢
          refine hs.imp_right (Or.imp_left fun hl => ?_)
          show v ∈ (t.lets ++ [l]).map (·.2)
          rw [List.map_append]
          exact List.mem_append_left _ hl
        · exact mem_defines_node.mpr (Or.inr hj)
      cases needed with
      | true =>
          rcases Ascending.mem_insert.mp hv with rfl | hv
          · refine mem_defines_node.mpr (Or.inl (Stage.mem_defines_iff.mpr (Or.inr (Or.inl ?_))))
            exact List.mem_map_of_mem List.mem_concat_self
          · exact hold hv
      | false => exact hold hv

/-- Of what was bound, only a let that the stage does not need is not bound any more. -/
theorem LetMoves.bound_of_needed {v : VarId} (hm : LetMoves a s u l)
    (hf : Formed (Lawful tight) a (node s (before ++ (aliasName, u) :: after)))
    (hneeded : l.2 ∈ (s.withoutLet l).needs a → needed = true) (hu : u.Supplied a true)
    (hv : v ∈ (node s (before ++ (aliasName, u) :: after)).bound)
    (hread : v = l.2 → v ∈ (s.withoutLet l).needs a) :
    v ∈ (node (s.withoutLet l) (before ++ (aliasName, u.withStage (·.withLet l needed)) ::
      after)).bound := by
  have hout : l.2 ∉ u.stage.outputs := by
    intro ho
    refine hm.not_mem_defines hf.distinct (hu.delivers_defined l.2 ?_)
    rw [Stage.names_of_flat hm.flat]
    exact ho
  have hperm : (node s (before ++ (aliasName, u) :: after)).bound.Perm
      ((if needed then [] else [l.2]) ++ (node (s.withoutLet l)
        (before ++ (aliasName, u.withStage (·.withLet l needed)) :: after)).bound) :=
    hm.bound_perm (hf.lawful _ (self_mem_parts _)).names hout
  rcases List.mem_append.mp (hperm.mem_iff.mp hv) with hgone | hv
  · split at hgone
    · cases hgone
    · next hno =>
        have he := List.mem_singleton.mp hgone
        exact absurd (hneeded (he ▸ hread he)) hno
  · exact hv

/-- What is still read at the stage is delivered to it. -/
theorem LetMoves.supplied (hm : LetMoves a s u l)
    (hf : Formed (Lawful tight) a (node s (before ++ (aliasName, u) :: after)))
    (hneeded : l.2 ∈ (s.withoutLet l).needs a → needed = true)
    (h : (node s (before ++ (aliasName, u) :: after)).Supplied a pack) :
    (node (s.withoutLet l) (before ++ (aliasName, u.withStage (·.withLet l needed)) ::
      after)).Supplied a pack := by
  obtain ⟨hown, hdelivers, hjoined⟩ := h
  have hself := hf.lawful _ (self_mem_parts _)
  have hu : u.Supplied a true := hjoined _ List.mem_append_cons_self
  have hlets : s.lets.Perm (l :: (s.withoutLet l).lets) := Stage.lets_perm hself.names hm.mem
  have hsub : ∀ v ∈ (s.withoutLet l).lets.map (·.2), v ∈ s.lets.map (·.2) := fun v hv =>
    (hlets.map (·.2)).mem_iff.mpr (List.mem_cons_of_mem _ hv)
  have hread : ∀ v ∈ (node s (before ++ (aliasName, u) :: after)).bound,
      (v = l.2 → v ∈ (s.withoutLet l).needs a) → v ∈ (node (s.withoutLet l)
        (before ++ (aliasName, u.withStage (·.withLet l needed)) :: after)).bound := fun v hv hr =>
    hm.bound_of_needed hf hneeded hu hv hr
  refine .node (hown.rebuild (List.prefix_refl _) (fun v hv => Or.inl (hsub v hv)) (fun w hw => hw)
    (fun v hv hr => hread v hv fun _ => Stage.needs_of_residue hr) ?_ hown.emits) ?_ ?_
  · intro x hx
    refine hread x (hown.uses x hx) fun he => ?_
    refine (Stage.needs_of_uses (s := s.withoutLet l) hx).resolve_right fun hd => ?_
    have hn := (List.nodup_append.mp hf.distinct).1
    exact (List.nodup_append.mp hn).2.2 l.2
      (List.mem_append_right _ (List.mem_map_of_mem hm.mem)) x hd he.symm
  · exact fun hp v hv => (hm.defines_perm hself.names).mem_iff.mpr (hdelivers hp v hv)
  · intro j hj
    rw [List.mem_append, List.mem_cons] at hj
    rcases hj with hj | rfl | hj
    · exact hjoined j (List.mem_append_left _ hj)
    · exact hm.supplied_joined hu (hown.computed l.2 (List.mem_map_of_mem hm.mem))
    · exact hjoined j (List.mem_append_right _ (List.mem_cons_of_mem _ hj))

/-- No stage binds a variable twice that did not before. -/
theorem LetMoves.unambiguous (hm : LetMoves a s u l)
    (hf : Formed (Lawful tight) a (node s (before ++ (aliasName, u) :: after)))
    (hu : u.Supplied a true) (h : (node s (before ++ (aliasName, u) :: after)).Unambiguous) :
    (node (s.withoutLet l)
      (before ++ (aliasName, u.withStage (·.withLet l needed)) :: after)).Unambiguous := by
  obtain ⟨hown, hjoined⟩ := unambiguous_node.mp h
  have hnot := hm.not_mem_defines hf.distinct
  have hout : l.2 ∉ u.stage.outputs := by
    intro ho
    refine hnot (hu.delivers_defined l.2 ?_)
    rw [Stage.names_of_flat hm.flat]
    exact ho
  refine unambiguous_node.mpr ⟨?_, fun j hj => ?_⟩
  · have hperm : (node s (before ++ (aliasName, u) :: after)).bound.Perm
        ((if needed then [] else [l.2]) ++ (node (s.withoutLet l)
          (before ++ (aliasName, u.withStage (·.withLet l needed)) :: after)).bound) :=
      hm.bound_perm (hf.lawful _ (self_mem_parts _)).names hout
    exact (List.nodup_append.mp (hperm.nodup_iff.mp hown)).2.1
  · rw [List.mem_append, List.mem_cons] at hj
    rcases hj with hj | rfl | hj
    · exact hjoined j (List.mem_append_left _ hj)
    · intro p hp
      have hold := hjoined _ List.mem_append_cons_self
      rcases mem_parts_withStage.mp hp with rfl | hp
      · rw [bound_withLet]
        refine (List.perm_append_singleton _ _).nodup_iff.mpr (List.nodup_cons.mpr ⟨?_, ?_⟩)
        · exact fun hb => hnot (hu.bound_defined l.2 hb)
        · exact hold u (self_mem_parts u)
      · exact hold p (mem_parts_of_joins hp)
    · exact hjoined j (List.mem_append_right _ (List.mem_cons_of_mem _ hj))

/-- A grouping stage that delivers keys and aggregates only passes nothing through. -/
theorem Lawful.passed_eq_nil {q : Query} (h : q.Lawful true) : q.stage.passed = [] := by
  rw [Stage.passed]
  split
  · next keys gs hs =>
      refine List.filter_eq_nil_iff.mpr fun v ho => ?_
      simp only [Bool.and_eq_true, Bool.not_eq_true', List.any_eq_false, beq_iff_eq]
      rintro ⟨hk, hg⟩
      rcases h.groups rfl keys gs hs v ho with hm | hm
      · rw [List.contains_iff_mem.mpr hm] at hk
        cases hk
      · obtain ⟨g, hm, he⟩ := List.mem_map.mp hm
        exact hg g hm he
  · rfl
  · rfl
  · rfl

theorem passes_of_tight {q : Query} (hf : Formed (Lawful true) a q) : q.Passes := by
  intro j hj p hp v hv
  rw [(hf.lawful p (mem_parts_of_joins ⟨j, hj, hp⟩)).passed_eq_nil] at hv
  cases hv

/-! ## What arrives after a move -/

/-- What a joined query delivers binds nothing that another part defines. -/
theorem delivered_eq_none {q : Query} {passes : List Pass} {v : VarId} (ho : a.Ordered)
    (hq : q.Scoped a true) (hv : v ∉ q.defines) :
    ∀ env ∈ q.stage.delivered (q.arrivals a passes), env v = none := by
  intro env he
  exact delivered_within hq (arrivals_within ho hq) env he v hv

/-- A step that does some work in a joined query in place of the stage itself. -/
theorem arrivals_of_push {s' : Stage} {u' : Query} {vs : List VarId} {f : Binding → Option Binding}
    (ho : a.Ordered) (hq : ∀ j ∈ before ++ after, j.2.Scoped a true) (hf : Binding.Local vs f)
    (hs : s'.source = s.source) (hobs : s'.observed = s.observed)
    (hfree : ∀ v ∈ vs, v ∉ s.observed.values)
    (hothers : ∀ j ∈ before ++ after, ∀ v ∈ vs, v ∉ j.2.defines)
    (hroot : ∀ base, s.arrive a base = (f base).bind (s'.arrive a))
    (hu : ∀ passes, u'.stage.delivered (u'.arrivals a passes) =
      (u.stage.delivered (u.arrivals a passes)).filterMap f) (passes : List Pass) :
    (node s' (before ++ (aliasName, u') :: after)).arrivals a passes =
      (node s (before ++ (aliasName, u) :: after)).arrivals a passes := by
  refine Stage.arrivals_of_meetings hf hs hobs hfree (fun passes => ?_) hroot
  have hnone : ∀ ks : List (String × Query), (∀ j ∈ ks, j ∈ before ++ after) →
      ∀ bag ∈ ks.map (fun j => j.2.stage.delivered (j.2.arrivals a passes)), ∀ env ∈ bag,
        ∀ v ∈ vs, env v = none := by
    intro ks hks bag hbag env henv v hv
    obtain ⟨j, hj, rfl⟩ := List.mem_map.mp hbag
    exact delivered_eq_none ho (hq j (hks j hj)) (hothers j (hks j hj) v hv) env henv
  simp only [joinsDeliver_eq, List.map_append, List.map_cons, hu]
  exact meetings_filterMap hf (hnone before fun j hj => List.mem_append_left _ hj)
    (hnone after fun j hj => List.mem_append_right _ hj)

theorem delivered_of_flat {t : Stage} {envs : List Binding} (h : t.shape.Flat) :
    t.delivered envs = envs := by
  rw [Stage.delivered]
  rcases h with hs | ⟨selected, hs⟩
  · rw [hs]
  · rw [hs]

/-- The stage that takes a let evaluates it on all that arrives. -/
theorem LetMoves.delivered (hm : LetMoves a s u l) (ho : a.Ordered) (hu : u.Supplied a true)
    (hnot : l.2 ∉ u.defines) (passes : List Pass) :
    (u.withStage (·.withLet l needed)).stage.delivered
        ((u.withStage (·.withLet l needed)).arrivals a passes) =
      (u.stage.delivered (u.arrivals a passes)).filterMap (·.compute a l.2) := by
  have hunbound : l.2 ∉ u.bound := fun hb => hnot (hu.bound_defined l.2 hb)
  cases u with
  | node t ks =>
      obtain ⟨hown, _, _⟩ := hu
      have hflat : t.shape.Flat := hm.flat
      have hflat' : (t.withLet l needed).shape.Flat := hm.flat
      show (t.withLet l needed).delivered _ = (t.delivered _).filterMap _
      rw [delivered_of_flat hflat', delivered_of_flat hflat]
      refine Stage.arrivals_filterMap rfl rfl fun base => ?_
      refine Stage.arrive_of_let_last ho ?_ rfl ?_ ?_ ?_
      · intro v
        show v ∈ (t.lets ++ [l]).map (·.2) ↔ _
        rw [List.map_append, List.mem_append, List.map_singleton, List.mem_singleton, List.mem_cons,
          or_comm]
      · exact fun hl => hunbound (List.mem_append_right _ hl)
      · exact fun v hv hr => hunbound (hown.lets v hv _ hr)
      · exact fun w hw hr => hunbound (hown.wheres w hw _ hr)

/-- Moving a let changes nothing of what arrives at the stage it leaves. -/
theorem LetMoves.arrivals (hm : LetMoves a s u l)
    (hf : Formed (Lawful tight) a (node s (before ++ (aliasName, u) :: after)))
    (hq : (node s (before ++ (aliasName, u) :: after)).Scoped a pack) (passes : List Pass) :
    (node (s.withoutLet l) (before ++ (aliasName, u.withStage (·.withLet l needed)) ::
        after)).arrivals a passes =
      (node s (before ++ (aliasName, u) :: after)).arrivals a passes := by
  obtain ⟨hown, hjoined⟩ := hq
  have hu := hjoined _ List.mem_append_cons_self
  have husupplied := (scoped_true_iff.mp hu).1
  have hself := hf.lawful _ (self_mem_parts _)
  have hlets : s.lets.Perm (l :: (s.withoutLet l).lets) := Stage.lets_perm hself.names hm.mem
  have hstage : s.defines.Nodup := (List.nodup_append.mp hf.distinct).1
  have hreads : ∀ v ∈ a.reads l.2, v ∈ u.defines := by
    intro v hv
    refine husupplied.delivers_defined v ?_
    rw [Stage.names_of_flat hm.flat]
    exact hm.reads v hv
  have hapart := apart_of_nodup hf.distinct
  have hsource : (s.withoutLet l).source = s.source := rfl
  have hobserved : (s.withoutLet l).observed = s.observed := rfl
  refine arrivals_of_push hf.ordered ?_ (Binding.local_compute l.2) hsource hobserved ?_ ?_ ?_
    (hm.delivered hf.ordered husupplied (hm.not_mem_defines hf.distinct)) passes
  · intro j hj
    refine hjoined j ?_
    rw [List.mem_append, List.mem_cons]
    exact (List.mem_append.mp hj).imp_right Or.inr
  · intro v hv hobs
    rcases List.mem_cons.mp hv with rfl | hv
    · rw [Stage.defines, List.append_assoc] at hstage
      exact (List.nodup_append.mp hstage).2.2 l.2 hobs l.2
        (List.mem_append_left _ (List.mem_map_of_mem hm.mem)) rfl
    · exact (hapart v (hreads v hv)).1 (Stage.mem_defines_iff.mpr (Or.inl hobs))
  · intro j hj v hv hd
    rcases List.mem_cons.mp hv with rfl | hv
    · have hn := hf.distinct
      rw [defines, joinsDefine_eq] at hn
      refine (List.nodup_append.mp hn).2.2 l.2 hm.mem_defines l.2
        (List.mem_flatMap.mpr ⟨j, ?_, hd⟩) rfl
      rw [List.mem_append, List.mem_cons]
      exact (List.mem_append.mp hj).imp_right Or.inr
    · exact (hapart v (hreads v hv)).2 j hj hd
  · intro base
    have hn : (l.2 :: (s.withoutLet l).lets.map (·.2)).Nodup := by
      refine ((hlets.map (·.2)).nodup_iff).mp ?_
      rw [Stage.defines] at hstage
      exact (List.nodup_append.mp (List.nodup_append.mp hstage).1).2.1
    refine Stage.arrive_of_let_first hf.ordered (fun v => (hlets.map (·.2)).mem_iff) rfl
      (List.nodup_cons.mp hn).1 fun v hv hmem => ?_
    have hmem' : v ∈ s.lets.map (·.2) := (hlets.map (·.2)).mem_iff.mpr hmem
    exact (hapart v (hreads v hv)).1 (Stage.mem_defines_iff.mpr (Or.inr (Or.inl hmem')))

/-! ## Conditions -/

/-- A condition can move from a stage into one of the queries it joins, and leaves the
others behind. -/
structure WhereMoves (s : Stage) (u : Query) (w : Condition) (left : List Condition) : Prop where
  perm : s.wheres.Perm (w :: left)
  takes : u.stage.shape.Flat ∧ (∀ v ∈ w.args, v ∈ u.stage.outputs) ∨
    ∃ keys gs, u.stage.shape = .group keys gs ∧ ∀ v ∈ w.args, v ∈ keys

variable {w : Condition} {left : List Condition}

theorem takesWhere_eq_true {args : List VarId} (h : u.takesWhere args = true) :
    u.stage.shape.Flat ∧ (∀ v ∈ args, v ∈ u.stage.outputs) ∨
      ∃ keys gs, u.stage.shape = .group keys gs ∧ ∀ v ∈ args, v ∈ keys := by
  have hall : ∀ {vs : List VarId}, args.all vs.contains = true → ∀ v ∈ args, v ∈ vs :=
    fun h v hv => List.contains_iff_mem.mp (List.all_eq_true.mp h v hv)
  rw [takesWhere] at h
  split at h
  · next hs => exact Or.inl ⟨Or.inl hs, hall h⟩
  · next selected hs => exact Or.inl ⟨Or.inr ⟨selected, hs⟩, hall h⟩
  · next keys gs hs => exact Or.inr ⟨keys, gs, hs, hall h⟩
  · cases h

theorem whereTarget?_eq_some (h : whereTarget? js w = some aliasName) :
    ∃ before u after, js = before ++ (aliasName, u) :: after ∧ u.takesWhere w.args = true := by
  rw [whereTarget?] at h
  split at h
  · cases h
  · obtain ⟨j, hj, rfl⟩ := Option.map_eq_some_iff.mp h
    obtain ⟨hp, before, after, rfl, _⟩ := List.find?_eq_some_iff_append.mp hj
    exact ⟨before, j.2, after, rfl, hp⟩

theorem movableWhere?_eq_some {ws : List Condition}
    (h : movableWhere? js ws = some (w, aliasName, left)) :
    ws.Perm (w :: left) ∧ whereTarget? js w = some aliasName := by
  induction ws generalizing left with
  | nil => cases h
  | cons v ws ih =>
      rw [movableWhere?] at h
      split at h
      · next hv =>
          cases h
          exact ⟨List.Perm.refl _, hv⟩
      · obtain ⟨⟨w', name, rest⟩, hr, he⟩ := Option.map_eq_some_iff.mp h
        cases he
        obtain ⟨hperm, htarget⟩ := ih hr
        exact ⟨(hperm.cons v).trans (List.Perm.swap ..), htarget⟩

/-- What one move of a condition does. -/
theorem pushOneWhere_eq_some (hf : Formed (Lawful tight) a (node s js))
    (h : (node s js).pushOneWhere = some (aliasName, q')) :
    ∃ w left before u after, js = before ++ (aliasName, u) :: after ∧ WhereMoves s u w left ∧
      q' = node { s with wheres := left }
        (before ++ (aliasName, u.withStage (·.withWhere w)) :: after) := by
  obtain ⟨⟨w, name, left⟩, hm, he⟩ := Option.map_eq_some_iff.mp h
  cases he
  obtain ⟨hperm, htarget⟩ := movableWhere?_eq_some hm
  obtain ⟨before, u, after, rfl, htakes⟩ := whereTarget?_eq_some htarget
  refine ⟨w, left, before, u, after, rfl, ⟨hperm, takesWhere_eq_true htakes⟩, ?_⟩
  have haliases := (hf.lawful _ (self_mem_parts _)).aliases
  exact updateJoin_eq haliases

theorem defines_withWhere : (u.withStage (·.withWhere w)).defines = u.defines := by
  cases u
  rfl

theorem bound_withWhere : (u.withStage (·.withWhere w)).bound = u.bound := by
  cases u
  rfl

/-- The variables in reach of a condition are bound where it moves to. -/
theorem WhereMoves.args_bound (hm : WhereMoves s u w left) (hu : u.Supplied a true) :
    ∀ v ∈ w.args, v ∈ u.bound := by
  intro v hv
  cases u with
  | node t ks =>
      obtain ⟨hown, _, _⟩ := hu
      refine hown.uses v ?_
      rcases hm.takes with ⟨hflat, hargs⟩ | ⟨keys, gs, hs, hargs⟩
      · have hflat' : t.shape.Flat := hflat
        rw [Stage.uses_of_flat hflat']
        exact hargs v hv
      · replace hs : t.shape = .group keys gs := hs
        rw [Stage.uses, hs]
        exact List.mem_append_left _ (hargs v hv)

theorem WhereMoves.formed (hm : WhereMoves s u w left)
    (hf : Formed (Lawful tight) a (node s (before ++ (aliasName, u) :: after))) :
    Formed (Lawful tight) a (node { s with wheres := left }
      (before ++ (aliasName, u.withStage (·.withWhere w)) :: after)) := by
  have hself := hf.lawful _ (self_mem_parts _)
  have hparts : ∀ p ∈ u.parts, p.Lawful tight := fun p hp => hf.lawful p
    (mem_parts_node.mpr (Or.inr ⟨_, List.mem_append_cons_self, hp⟩))
  refine hf.replace ⟨⟨?_, hself.names⟩, hself.groups⟩ ?_ ?_
  · rw [joins_node, keys_replace]
    exact hself.aliases
  · intro p hp
    rcases mem_parts_withStage.mp hp with rfl | hj
    · have hu := hparts u (self_mem_parts u)
      cases u
      exact ⟨⟨hu.aliases, hu.names⟩, hu.groups⟩
    · exact hparts p (mem_parts_of_joins hj)
  · simp only [defines, joinsDefine_eq, List.flatMap_append, List.flatMap_cons, defines_withWhere]
    exact List.Perm.refl _

/-- Moving a condition leaves bound what was bound. -/
theorem bound_whereMoved :
    (node { s with wheres := left }
      (before ++ (aliasName, u.withStage (·.withWhere w)) :: after)).bound =
      (node s (before ++ (aliasName, u) :: after)).bound := by
  have hu : (u.withStage (·.withWhere w)).stage.unpackedBag = u.stage.unpackedBag := by
    cases u
    rfl
  simp only [bound, incoming, stage_node, joins_node, List.flatMap_append, List.flatMap_cons, hu]

theorem WhereMoves.supplied_joined (hm : WhereMoves s u w left) (hu : u.Supplied a true) :
    (u.withStage (·.withWhere w)).Supplied a true := by
  have hargs := hm.args_bound hu
  cases u with
  | node t ks =>
      obtain ⟨hown, hdelivers, hjoined⟩ := hu
      refine .node ⟨hown.computed, hown.lets, ?_, hown.uses, hown.emits⟩ hdelivers hjoined
      intro v hv
      rcases List.mem_append.mp hv with hv | hv
      · exact hown.wheres v hv
      · rw [List.mem_singleton.mp hv]
        exact hargs

theorem WhereMoves.supplied (hm : WhereMoves s u w left)
    (h : (node s (before ++ (aliasName, u) :: after)).Supplied a pack) :
    (node { s with wheres := left }
      (before ++ (aliasName, u.withStage (·.withWhere w)) :: after)).Supplied a pack := by
  have hread : ∀ v ∈ (node s (before ++ (aliasName, u) :: after)).bound,
      v ∈ (node { s with wheres := left }
        (before ++ (aliasName, u.withStage (·.withWhere w)) :: after)).bound := by
    intro v hv
    rw [bound_whereMoved]
    exact hv
  have hdefines : (node { s with wheres := left }
      (before ++ (aliasName, u.withStage (·.withWhere w)) :: after)).defines =
        (node s (before ++ (aliasName, u) :: after)).defines := by
    simp only [defines, joinsDefine_eq, List.flatMap_append, List.flatMap_cons, defines_withWhere]
    rfl
  obtain ⟨hown, hdelivers, hjoined⟩ := h
  have hu : u.Supplied a true := hjoined _ List.mem_append_cons_self
  have hkept : ∀ v ∈ left, v ∈ s.wheres := fun v hv =>
    hm.perm.mem_iff.mpr (List.mem_cons_of_mem _ hv)
  refine .node (hown.rebuild (List.prefix_refl _) (fun v hv => Or.inl hv) hkept
    (fun v hv _ => hread v hv) (fun v hv => hread v (hown.uses v hv)) hown.emits) ?_ ?_
  · intro hp v hv
    rw [hdefines]
    exact hdelivers hp v hv
  · intro j hj
    rw [List.mem_append, List.mem_cons] at hj
    rcases hj with hj | rfl | hj
    · exact hjoined j (List.mem_append_left _ hj)
    · exact hm.supplied_joined hu
    · exact hjoined j (List.mem_append_right _ (List.mem_cons_of_mem _ hj))

theorem unambiguous_whereMoved (h : (node s (before ++ (aliasName, u) :: after)).Unambiguous) :
    (node { s with wheres := left }
      (before ++ (aliasName, u.withStage (·.withWhere w)) :: after)).Unambiguous := by
  obtain ⟨hown, hjoined⟩ := unambiguous_node.mp h
  refine unambiguous_node.mpr ⟨by rw [bound_whereMoved]; exact hown, fun j hj => ?_⟩
  rw [List.mem_append, List.mem_cons] at hj
  rcases hj with hj | rfl | hj
  · exact hjoined j (List.mem_append_left _ hj)
  · intro p hp
    have hold := hjoined _ List.mem_append_cons_self
    rcases mem_parts_withStage.mp hp with rfl | hp
    · rw [bound_withWhere]
      exact hold u (self_mem_parts u)
    · exact hold p (mem_parts_of_joins hp)
  · exact hjoined j (List.mem_append_right _ (List.mem_cons_of_mem _ hj))

/-- The stage that takes a condition tests it on all that it delivers. -/
theorem WhereMoves.delivered (hm : WhereMoves s u w left) (ho : a.Ordered) (passes : List Pass) :
    (u.withStage (·.withWhere w)).stage.delivered
        ((u.withStage (·.withWhere w)).arrivals a passes) =
      (u.stage.delivered (u.arrivals a passes)).filterMap w.test := by
  cases u with
  | node t ks =>
      have harrivals : (node (t.withWhere w) ks).arrivals a passes =
          ((node t ks).arrivals a passes).filterMap w.test :=
        Stage.arrivals_filterMap rfl rfl fun base =>
          Stage.arrive_of_where_last ho rfl (List.perm_append_singleton _ _)
      show t.delivered ((node (t.withWhere w) ks).arrivals a passes) = _
      rw [harrivals]
      rcases hm.takes with ⟨hflat, _⟩ | ⟨keys, gs, hs, hargs⟩
      · replace hflat : t.shape.Flat := hflat
        rw [stage_node, delivered_of_flat hflat, delivered_of_flat hflat]
      · exact Stage.delivered_filterMap_test hs hargs

/-- Moving a condition changes nothing of what arrives, whatever the stage computes. -/
theorem WhereMoves.arrivals_of_apart (hm : WhereMoves s u w left) (ho : a.Ordered)
    (hjoined : ∀ j ∈ before ++ (aliasName, u) :: after, j.2.Scoped a true)
    (hn : (node s (before ++ (aliasName, u) :: after)).defines.Nodup) (passes : List Pass) :
    (node { s with wheres := left } (before ++ (aliasName, u.withStage (·.withWhere w)) ::
        after)).arrivals a passes =
      (node s (before ++ (aliasName, u) :: after)).arrivals a passes := by
  have husupplied := (scoped_true_iff.mp (hjoined _ List.mem_append_cons_self)).1
  have hargs : ∀ v ∈ w.args, v ∈ u.defines := fun v hv =>
    husupplied.bound_defined v (hm.args_bound husupplied v hv)
  have hapart := apart_of_nodup hn
  have hsource : ({ s with wheres := left } : Stage).source = s.source := rfl
  have hobserved : ({ s with wheres := left } : Stage).observed = s.observed := rfl
  refine arrivals_of_push ho ?_ w.local_test hsource hobserved ?_ ?_ ?_ (hm.delivered ho) passes
  · intro j hj
    refine hjoined j ?_
    rw [List.mem_append, List.mem_cons]
    exact (List.mem_append.mp hj).imp_right Or.inr
  · exact fun v hv hobs =>
      (hapart v (hargs v hv)).1 (Stage.mem_defines_iff.mpr (Or.inl hobs))
  · exact fun j hj v hv => (hapart v (hargs v hv)).2 j hj
  · intro base
    refine Stage.arrive_of_where_first ho rfl hm.perm fun v hv hl => ?_
    exact (hapart v (hargs v hv)).1 (Stage.mem_defines_iff.mpr (Or.inr (Or.inl hl)))

/-- Moving a condition changes nothing of what arrives at the stage it leaves. -/
theorem WhereMoves.arrivals (hm : WhereMoves s u w left)
    (hf : Formed (Lawful tight) a (node s (before ++ (aliasName, u) :: after)))
    (hq : (node s (before ++ (aliasName, u) :: after)).Scoped a pack) (passes : List Pass) :
    (node { s with wheres := left } (before ++ (aliasName, u.withStage (·.withWhere w)) ::
        after)).arrivals a passes =
      (node s (before ++ (aliasName, u) :: after)).arrivals a passes := by
  obtain ⟨_, hjoined⟩ := hq
  exact hm.arrivals_of_apart hf.ordered hjoined hf.distinct passes

end Query

end CausalTrace
