import CausalTrace.Proofs.Relocating

/-!
# Sound queries

A query is sound when it is formed as it should be and every stage is supplied. Whoever
rewrites a query defines new variables only, and may replace a joined query by another
one that still delivers what is needed.
-/

namespace CausalTrace

/-- Variables have been added to a list, all of them new in the arena. -/
structure Grown (a a' : Arena) (vs vs' : List VarId) : Prop where
  arena : a.defs <+: a'.defs
  vars : ∃ new, vs'.Perm (vs ++ new) ∧ new.Nodup ∧ ∀ v ∈ new, ¬ a.Knows v ∧ a'.Knows v

namespace Grown

variable {a a' b : Arena} {us vs ws : List VarId}

theorem of_perm (h : ws.Perm vs) : Grown a a vs ws where
  arena := List.prefix_refl _
  vars := ⟨[], by rwa [List.append_nil], List.nodup_nil, List.forall_mem_nil _⟩

theorem trans (h : Grown a b us vs) (h' : Grown b a' vs ws) : Grown a a' us ws where
  arena := h.arena.trans h'.arena
  vars := by
    obtain ⟨new, hp, hn, hk⟩ := h.vars
    obtain ⟨new', hp', hn', hk'⟩ := h'.vars
    refine ⟨new ++ new', ?_, ?_, ?_⟩
    · rw [← List.append_assoc]
      exact hp'.trans (hp.append_right new')
    · refine List.nodup_append.mpr ⟨hn, hn', ?_⟩
      rintro v hv w hw rfl
      exact (hk' v hw).1 (hk v hv).2
    · intro v hv
      rcases List.mem_append.mp hv with hm | hm
      · exact ⟨(hk v hm).1, (hk v hm).2.of_extension h'.arena⟩
      · exact ⟨fun hknown => (hk' v hm).1 (hknown.of_extension h.arena), (hk' v hm).2⟩

/-- The order of the variables does not matter. -/
theorem congr {us' vs' : List VarId} (h : Grown a a' us vs) (hu : us.Perm us') (hv : vs.Perm vs') :
    Grown a a' us' vs' where
  arena := h.arena
  vars := by
    obtain ⟨new, hp, hn, hk⟩ := h.vars
    exact ⟨new, hv.symm.trans (hp.trans (hu.append_right new)), hn, hk⟩

theorem append_left (h : Grown a a' us vs) (ws : List VarId) :
    Grown a a' (ws ++ us) (ws ++ vs) where
  arena := h.arena
  vars := by
    obtain ⟨new, hp, hn, hk⟩ := h.vars
    refine ⟨new, ?_, hn, hk⟩
    rw [List.append_assoc]
    exact hp.append_left ws

theorem subset (h : Grown a a' us vs) : ∀ v ∈ us, v ∈ vs := by
  intro v hv
  obtain ⟨new, hp, _, _⟩ := h.vars
  exact hp.mem_iff.mpr (List.mem_append_left _ hv)

theorem known (h : Grown a a' us vs) (hk : ∀ v ∈ us, a.Knows v) : ∀ v ∈ vs, a'.Knows v := by
  obtain ⟨new, hp, _, hnew⟩ := h.vars
  intro v hv
  rcases List.mem_append.mp (hp.mem_iff.mp hv) with hv | hv
  · exact (hk v hv).of_extension h.arena
  · exact (hnew v hv).2

theorem nodup (h : Grown a a' us vs) (hk : ∀ v ∈ us, a.Knows v) (hn : us.Nodup) : vs.Nodup := by
  obtain ⟨new, hp, hnodup, hnew⟩ := h.vars
  refine hp.nodup_iff.mpr (List.nodup_append.mpr ⟨hn, hnodup, ?_⟩)
  rintro v hv w hw rfl
  exact (hnew v hw).1 (hk v hv)

end Grown

/-! ## Soundness -/

/-- What a stage computes with still comes in, and nothing else has to. -/
theorem Stage.Supplied.change {a a' : Arena} {s : Stage} {incoming incoming' : List VarId}
    {pack : Bool} (h : s.Supplied a incoming pack) (hp : a.defs <+: a'.defs)
    (hshape : ∀ v ∈ incoming, v ∉ s.shape.defines)
    (hlets : ∀ v ∈ s.lets.map (·.2), v ∉ s.shape.defines)
    (hi : ∀ v ∈ incoming, v ∈ s.needs a → v ∈ incoming') : s.Supplied a' incoming' pack := by
  have hkeep : ∀ v ∈ incoming ++ s.lets.map (·.2), v ∈ s.needs a →
      v ∈ incoming' ++ s.lets.map (·.2) := by
    intro v hv hn
    rcases List.mem_append.mp hv with hm | hm
    · exact List.mem_append_left _ (hi v hm hn)
    · exact List.mem_append_right _ hm
  refine h.rebuild hp (fun v hv => Or.inl hv) (fun w hw => hw)
    (fun v hv hr => hkeep v hv (needs_of_residue hr)) (fun v hv => ?_) h.emits
  have hb := h.uses v hv
  -- An aggregate is defined by the stage, so it cannot have come in.
  rcases needs_of_uses hv with hn | hd
  · exact hkeep v hb hn
  · rcases List.mem_append.mp hb with hm | hm
    · exact absurd hd (hshape v hm)
    · exact absurd hd (hlets v hm)

namespace Query

variable {a a' b : Arena} {tight pack : Bool} {s s' : Stage}
  {js js' before after : List (String × Query)}
  {aliasName : String} {q u u' q' : Query}

/-- A query that is formed as it should be, all its stages being supplied. -/
structure Sound (a : Arena) (tight pack : Bool) (q : Query) : Prop where
  formed : Formed (Lawful tight) a q
  supplied : q.Supplied a pack

/-- What optimizing a query leaves as it was, seen from outside. -/
structure Refits (a a' : Arena) (q q' : Query) : Prop where
  grown : Grown a a' q.defines q'.defines
  names : q'.stage.unpackedBag.names = q.stage.unpackedBag.names
  places : q'.places = q.places
  confined : q.Confined a → q'.Confined a'
  relocates : Relocates a a' q q'

theorem Refits.refl : Refits a a q q := ⟨.of_perm (List.Perm.refl _), rfl, rfl, id, .refl a q⟩

theorem Refits.trans (h : Refits a b q u) (h' : Refits b a' u q') : Refits a a' q q' :=
  ⟨h.grown.trans h'.grown, h'.names.trans h.names, h'.places.trans h.places,
    h'.confined ∘ h.confined, h.relocates.trans h'.relocates h.grown.arena h'.grown.arena⟩

theorem Sound.joined {j : String × Query} (h : Sound a tight pack (node s js)) (hj : j ∈ js) :
    Sound a tight true j.2 := by
  obtain ⟨hf, ⟨_, _, hjoined⟩⟩ := h
  exact ⟨hf.joined hj, hjoined j hj⟩

/-- A tight query is in scope, for it passes nothing through. -/
theorem Sound.scoped (h : Sound a true pack q) : q.Scoped a pack := by
  cases pack with
  | false => exact scoped_iff_supplied.mpr ⟨h.supplied, passes_of_tight h.formed⟩
  | true =>
      refine scoped_true_iff.mpr ⟨h.supplied, fun p hp v hv => ?_⟩
      rw [(h.formed.lawful p hp).passed_eq_nil] at hv
      cases hv

theorem Sound.known_lets (h : Sound a tight pack (node s js)) :
    ∀ v ∈ s.lets.map (·.2), a.Knows v := fun v hv =>
  h.formed.known v (mem_defines_node.mpr (Or.inl (Stage.mem_defines_iff.mpr (Or.inr (Or.inl hv)))))

theorem Sound.incoming_defined (h : Sound a tight pack (node s js)) :
    ∀ v ∈ (node s js).incoming, v ∈ (node s js).defines := by
  intro v hv
  refine mem_defines_node.mpr ?_
  rcases List.mem_append.mp hv with hv | hv
  · exact Or.inl (Stage.mem_defines_iff.mpr (Or.inl hv))
  · obtain ⟨j, hj, hv⟩ := List.mem_flatMap.mp hv
    exact Or.inr ⟨j, hj, (h.joined hj).supplied.delivers_defined v hv⟩

theorem Sound.known_incoming (h : Sound a tight pack (node s js)) :
    ∀ v ∈ (node s js).incoming, a.Knows v := fun v hv => h.formed.known v (h.incoming_defined v hv)

/-- What comes into a stage is defined there already, and no aggregate of the stage. -/
theorem Sound.incoming_not_shape (h : Sound a tight pack (node s js)) :
    ∀ v ∈ (node s js).incoming, v ∉ s.shape.defines := by
  have hn := h.formed.distinct
  rw [defines, Stage.defines] at hn
  obtain ⟨hstage, _, hapart⟩ := List.nodup_append.mp hn
  intro v hv hd
  rw [incoming, List.mem_append, stage_node, joins_node] at hv
  rcases hv with hv | hv
  · exact (List.nodup_append.mp hstage).2.2 v (List.mem_append_left _ hv) v hd rfl
  · obtain ⟨j, hj, hv⟩ := List.mem_flatMap.mp hv
    refine hapart v (List.mem_append_right _ hd) v ?_ rfl
    rw [joinsDefine_eq]
    exact List.mem_flatMap.mpr ⟨j, hj, (h.joined hj).supplied.delivers_defined v hv⟩

theorem Sound.lets_not_shape (h : Sound a tight pack (node s js)) :
    ∀ v ∈ s.lets.map (·.2), v ∉ s.shape.defines := by
  have hn := (List.nodup_append.mp h.formed.distinct).1
  rw [Stage.defines] at hn
  exact fun v hv hd => (List.nodup_append.mp hn).2.2 v (List.mem_append_right _ hv) v hd rfl

/-- A sound query stays so when the arena gets more definitions. -/
theorem Sound.grow (h : Sound a tight pack q) (hp : a.defs <+: a'.defs) (ho : a'.Ordered) :
    Sound a' tight pack q := by
  refine ⟨⟨ho, fun v hv => (h.formed.known v hv).of_extension hp, h.formed.distinct,
    h.formed.lawful⟩, ?_⟩
  induction q generalizing pack with
  | node s js ih =>
      have hi := h.incoming_not_shape
      have hl := h.lets_not_shape
      have hjoined : ∀ j ∈ js, j.2.Supplied a' true := fun j hj => ih j hj (h.joined hj)
      obtain ⟨_, ⟨hown, hdelivers, _⟩⟩ := h
      exact .node (hown.change hp hi hl fun v hv _ => hv) hdelivers hjoined

/-- A query is sound again when its stage and its joined queries are, and it delivers
no more than before, aggregates of its own apart. -/
theorem Sound.rebuild (h : Sound a tight pack (node s js)) (ho : a'.Ordered)
    (hkeys : Table.keys js' = Table.keys js) (hjoined : ∀ j ∈ js', Sound a' tight true j.2)
    (hg : Grown a a' (node s js).defines (node s' js').defines)
    (hlets : (s'.lets.map (·.1)).Nodup)
    (hgroups : tight = true → ∀ keys gs, s'.shape = .group keys gs →
      ∀ v ∈ s'.outputs, v ∈ keys ∨ v ∈ gs.map (·.var))
    (hown : s'.Supplied a' (node s' js').incoming pack)
    (hnames : ∀ v ∈ s'.unpackedBag.names, v ∈ s.unpackedBag.names ∨ v ∈ s'.shape.defines) :
    Sound a' tight pack (node s' js') := by
  have hself := h.formed.lawful _ (self_mem_parts _)
  refine ⟨formed_node ⟨⟨?_, hlets⟩, hgroups⟩ ho (fun j hj => (hjoined j hj).formed) ?_ ?_, ?_⟩
  · rw [joins_node, hkeys]
    exact hself.aliases
  · exact fun v hv => hg.known h.formed.known v (mem_defines_node.mpr (Or.inl hv))
  · exact hg.nodup h.formed.known h.formed.distinct
  · refine .node hown (fun hp v hv => ?_) fun j hj => (hjoined j hj).supplied
    obtain ⟨_, ⟨_, hdelivers, _⟩⟩ := h
    rcases hnames v hv with hv | hv
    · exact hg.subset v (hdelivers hp v hv)
    · exact mem_defines_node.mpr (Or.inl (Stage.mem_defines_iff.mpr (Or.inr (Or.inr hv))))

/-! ## One joined query in place of another -/

theorem joinsPlaces_eq (js : List (String × Query)) :
    joinsPlaces js = js.flatMap fun j => j.2.places := by
  induction js with
  | nil => rfl
  | cons j js ih => rw [joinsPlaces, ih, List.flatMap_cons]

theorem places_replace (h : u'.places = u.places) (hs : s'.source = s.source) :
    (node s' (before ++ (aliasName, u') :: after)).places =
      (node s (before ++ (aliasName, u) :: after)).places := by
  simp only [places, joinsPlaces_eq, List.flatMap_append, List.flatMap_cons, h, hs]

/-- What a joined query defines can be told apart from the rest. -/
theorem defines_replace_perm :
    (node s (before ++ (aliasName, u) :: after)).defines.Perm
      ((s.defines ++ (joinsDefine before ++ joinsDefine after)) ++ u.defines) := by
  simp only [defines, joinsDefine_eq, List.flatMap_append, List.flatMap_cons, List.append_assoc]
  exact ((List.perm_append_comm).append_left _).append_left _

theorem grown_replace (h : Grown a a' u.defines u'.defines) :
    Grown a a' (node s (before ++ (aliasName, u) :: after)).defines
      (node s (before ++ (aliasName, u') :: after)).defines :=
  (h.append_left _).congr defines_replace_perm.symm defines_replace_perm.symm

theorem sound_replace (h : Sound a tight pack (node s (before ++ (aliasName, u) :: after)))
    (hp : a.defs <+: a'.defs) (hu : Sound a' tight true u') :
    ∀ j ∈ before ++ (aliasName, u') :: after, Sound a' tight true j.2 := by
  intro j hj
  rw [List.mem_append, List.mem_cons] at hj
  rcases hj with hj | rfl | hj
  · exact (h.joined (List.mem_append_left _ hj)).grow hp hu.formed.ordered
  · exact hu
  · exact (h.joined (List.mem_append_right _ (List.mem_cons_of_mem _ hj))).grow hp hu.formed.ordered

/-- A joined query may be replaced by one that still delivers what the stage needs. -/
theorem Sound.replaceJoin (h : Sound a tight pack (node s (before ++ (aliasName, u) :: after)))
    (hu : Sound a' tight true u') (hg : Grown a a' u.defines u'.defines)
    (hnames : ∀ v ∈ u.stage.unpackedBag.names, v ∈ s.needs a → v ∈ u'.stage.unpackedBag.names) :
    Sound a' tight pack (node s (before ++ (aliasName, u') :: after)) := by
  have hself := h.formed.lawful _ (self_mem_parts _)
  have hin := h.incoming_not_shape
  have hlets := h.lets_not_shape
  refine h.rebuild hu.formed.ordered (keys_replace u')
    (sound_replace h hg.arena hu) (grown_replace hg)
    hself.names hself.groups ?_ fun v hv => Or.inl hv
  obtain ⟨_, ⟨hown, _, _⟩⟩ := h
  refine hown.change hg.arena hin hlets fun v hv hn => ?_
  simp only [incoming, stage_node, joins_node, List.flatMap_append, List.flatMap_cons,
    List.mem_append] at hv ⊢
  rcases hv with hv | hv | hv | hv
  · exact Or.inl hv
  · exact Or.inr (Or.inl hv)
  · exact Or.inr (Or.inr (Or.inl (hnames v hv hn)))
  · exact Or.inr (Or.inr (Or.inr hv))

/-- One that delivers the same fits in any case. -/
theorem Sound.refitJoin (h : Sound a tight pack (node s (before ++ (aliasName, u) :: after)))
    (hu : Sound a' tight true u') (hr : Refits a a' u u') :
    Sound a' tight pack (node s (before ++ (aliasName, u') :: after)) ∧
      Refits a a' (node s (before ++ (aliasName, u) :: after))
        (node s (before ++ (aliasName, u') :: after)) := by
  refine ⟨h.replaceJoin hu hr.grown fun v hv _ => ?_, ?_⟩
  · rw [hr.names]
    exact hv
  · refine ⟨grown_replace hr.grown, rfl, places_replace hr.places rfl, fun hc => ?_,
      hr.relocates.replace⟩
    have hjoined : u.Confined a := (confined_node.mp hc).2 _ List.mem_append_cons_self
    exact hc.replaceJoin hr.grown.arena h.formed.known (hr.confined hjoined) hr.grown.subset

end Query

/-! ## Leaving out what nobody needs -/

/-- The keys of a grouping stage. -/
def Shape.keys : Shape → List VarId
  | .group keys _ => keys
  | _ => []

namespace Stage

variable {s : Stage} {v : VarId} {needed : List VarId}

/-- A stage delivers its keys and its outputs. -/
theorem mem_names_iff : v ∈ s.unpackedBag.names ↔ v ∈ s.shape.keys ∨ v ∈ s.outputs := by
  have hnone : v ∈ s.outputs ↔ v ∈ ([] : List VarId) ∨ v ∈ s.outputs := by simp
  rw [unpackedBag]
  cases hs : s.shape with
  | unfinished => exact hnone
  | select selected => exact hnone
  | filter keep => exact hnone
  | group keys gs =>
      simp only [BagSpec.names, Shape.keys, packedKeys, packedAggregates, List.mem_append,
        List.map_map, List.mem_map, List.mem_filter, Function.comp_apply]
      constructor
      · rintro ((hk | ⟨ho, _⟩) | ⟨g, ⟨_, ho⟩, rfl⟩)
        · exact Or.inl hk
        · exact Or.inr ho
        · exact Or.inr (List.contains_iff_mem.mp ho)
      · rintro (hk | ho)
        · exact Or.inl (Or.inl hk)
        · by_cases hk : v ∈ keys
          · exact Or.inl (Or.inl hk)
          · by_cases hg : ∃ g ∈ gs, g.var = v
            · obtain ⟨g, hg, rfl⟩ := hg
              exact Or.inr ⟨g, ⟨hg, List.contains_iff_mem.mpr ho⟩, rfl⟩
            · refine Or.inl (Or.inr ⟨ho, ?_⟩)
              simp only [Bool.and_eq_true, Bool.not_eq_true', List.any_eq_false, beq_iff_eq]
              refine ⟨?_, fun g hm he => hg ⟨g, hm, he⟩⟩
              simpa using hk

theorem mem_uses_of_key {pack : Bool} (h : v ∈ s.shape.keys) : v ∈ s.uses pack := by
  rw [uses]
  cases hs : s.shape with
  | unfinished | select selected | filter keep =>
      rw [hs] at h
      cases h
  | group keys gs =>
      rw [hs] at h
      exact List.mem_append_left _ h

/-- The stage with only those outputs that are needed. -/
def keeping (s : Stage) (needed : List VarId) : Stage :=
  { s with outputs := s.outputs.filter needed.contains }

theorem mem_outputs_keeping : v ∈ (s.keeping needed).outputs ↔ v ∈ s.outputs ∧ v ∈ needed := by
  show v ∈ s.outputs.filter _ ↔ _
  rw [List.mem_filter, List.contains_iff_mem]

theorem uses_keeping (h : v ∈ (s.keeping needed).uses true) : v ∈ s.uses true := by
  have hkept : v ∈ (s.keeping needed).outputs → v ∈ s.outputs := fun ho =>
    (mem_outputs_keeping.mp ho).1
  have hshape : (s.keeping needed).shape = s.shape := rfl
  rw [uses, hshape] at h
  rw [uses]
  cases hs : s.shape with
  | unfinished =>
      rw [hs] at h
      exact hkept h
  | select selected =>
      rw [hs] at h
      exact hkept h
  | filter keep =>
      rw [hs] at h
      exact hkept h
  | group keys gs =>
      rw [hs] at h
      simp only [if_true, packedAggregates, List.mem_append, List.mem_map, List.mem_filter] at h ⊢
      refine h.imp_right ?_
      rintro ⟨g, ⟨⟨hg, ho⟩, hcount⟩, rfl⟩
      refine ⟨g, ⟨⟨hg, ?_⟩, hcount⟩, rfl⟩
      rw [List.contains_iff_mem] at ho ⊢
      exact (mem_outputs_keeping.mp ho).1

end Stage

namespace Query

variable {a : Arena} {tight pack : Bool} {s : Stage} {js before : List (String × Query)}
  {q u : Query} {needed : List VarId}

theorem pruneJoins_eq (js : List (String × Query)) :
    pruneJoins a needed js = js.map fun j => (j.1, j.2.pruneTo a needed) := by
  induction js with
  | nil => rfl
  | cons j js ih => rw [pruneJoins, ih, List.map_cons]

/-- What pruning does to a query that delivers something in vain. -/
theorem pruneTo_node (a : Arena) (s : Stage) (js : List (String × Query)) (needed : List VarId) :
    (node s js).pruneTo a needed = node s js ∨ (node s js).pruneTo a needed =
    node (s.keeping needed) (pruneJoins a ((s.keeping needed).needs a) js) := by
  rw [pruneTo]
  split
  · exact Or.inl rfl
  · exact Or.inr rfl

theorem defines_pruneTo (q : Query) (needed : List VarId) :
    (q.pruneTo a needed).defines = q.defines := by
  induction q generalizing needed with
  | node s js ih =>
      rcases pruneTo_node a s js needed with h | h
      · rw [h]
      · rw [h, pruneJoins_eq, defines, defines, joinsDefine_eq, joinsDefine_eq, List.flatMap_map]
        congr 1
        exact List.flatMap_congr fun j hj => ih j hj _

theorem places_pruneTo (q : Query) (needed : List VarId) :
    (q.pruneTo a needed).places = q.places := by
  induction q generalizing needed with
  | node s js ih =>
      rcases pruneTo_node a s js needed with h | h
      · rw [h]
      · rw [h, pruneJoins_eq, places, places, joinsPlaces_eq, joinsPlaces_eq, List.flatMap_map]
        congr 1
        exact List.flatMap_congr fun j hj => ih j hj _

/-- Pruning leaves the work of all stages. -/
theorem rests_pruneTo (q : Query) (needed : List VarId) :
    List.Forall₂ (Site Stage.Rests) q.sites (q.pruneTo a needed).sites := by
  induction q generalizing needed with
  | node s js ih =>
      rcases pruneTo_node a s js needed with h | h
      · rw [h]
        exact List.forall₂_same.mpr fun x _ => .refl Stage.Rests.refl x
      · rw [h, pruneJoins_eq]
        refine .cons ⟨rfl, ?_⟩ (forall₂_joinsSites_map fun j hj => ih j hj _)
        exact .of_filters rfl rfl rfl (fun _ => Iff.rfl) rfl rfl

/-- What is needed is still delivered. -/
theorem names_pruneTo {v : VarId} (hv : v ∈ q.stage.unpackedBag.names) (hn : v ∈ needed) :
    v ∈ (q.pruneTo a needed).stage.unpackedBag.names := by
  cases q with
  | node s js =>
      rcases pruneTo_node a s js needed with h | h
      · rw [h]
        exact hv
      · rw [h, stage_node, Stage.mem_names_iff]
        rw [stage_node, Stage.mem_names_iff] at hv
        exact hv.imp_right fun ho => Stage.mem_outputs_keeping.mpr ⟨ho, hn⟩

/-- A stage that delivers less is still sound. -/
theorem Sound.keeping (h : Sound a tight true (node s js)) :
    Sound a tight true (node (s.keeping needed) js) := by
  have hself := h.formed.lawful _ (self_mem_parts _)
  refine h.rebuild h.formed.ordered rfl (fun j hj => h.joined hj) (.of_perm (List.Perm.refl _))
    hself.names ?_ ?_ ?_
  · exact fun ht keys gs hs v hv =>
      hself.groups ht keys gs hs v (Stage.mem_outputs_keeping.mp hv).1
  · obtain ⟨_, ⟨hown, _, _⟩⟩ := h
    exact ⟨hown.computed, hown.lets, hown.wheres, fun v hv => hown.uses v (Stage.uses_keeping hv),
      hown.emits⟩
  · intro v hv
    rw [Stage.mem_names_iff] at hv ⊢
    exact Or.inl (hv.imp_right fun ho => (Stage.mem_outputs_keeping.mp ho).1)

/-- Joined queries may be pruned to what their stage needs, one after another. -/
theorem Sound.pruneJoins (hjs : ∀ j ∈ js, ∀ needed, Sound a tight true j.2 →
      Sound a tight true (j.2.pruneTo a needed))
    (h : Sound a tight pack (node s (before ++ js))) :
    Sound a tight pack (node s (before ++ pruneJoins a (s.needs a) js)) := by
  induction js generalizing before with
  | nil => exact h
  | cons j js ih =>
      have hu := hjs j List.mem_cons_self (s.needs a) (h.joined List.mem_append_cons_self)
      have hstep : Sound a tight pack
          (node s (before ++ (j.1, j.2.pruneTo a (s.needs a)) :: js)) := by
        refine h.replaceJoin hu (.of_perm ?_) fun v hv hn => names_pruneTo hv hn
        rw [defines_pruneTo]
      rw [List.append_cons] at hstep
      have hrest := ih (fun k hk => hjs k (List.mem_cons_of_mem _ hk)) hstep
      rwa [← List.append_cons] at hrest

theorem Sound.pruneTo (h : Sound a tight true q) : Sound a tight true (q.pruneTo a needed) := by
  induction q generalizing needed with
  | node s js ih =>
      rcases pruneTo_node a s js needed with he | he
      · rw [he]
        exact h
      · rw [he]
        have hkeeping : Sound a tight true (node (s.keeping needed) ([] ++ js)) := h.keeping
        exact hkeeping.pruneJoins fun j hj _ hs => ih j hj hs

/-- Where less is delivered, no more is referred to. -/
theorem Confined.pruneTo (h : q.Confined a) : (q.pruneTo a needed).Confined a := by
  induction q generalizing needed with
  | node s js ih =>
      rcases pruneTo_node a s js needed with he | he
      · rw [he]
        exact h
      · have hdefines := defines_pruneTo (a := a) (node s js) needed
        rw [he] at hdefines ⊢
        refine h.rebuild (fun v hv => hdefines ▸ hv) (fun v hv => Or.inl ?_) fun j hj => ?_
        · rcases Stage.refersTo_iff.mp hv with ho | hrest
          · exact .of_output (Stage.mem_outputs_keeping.mp ho).1
          · exact Stage.refersTo_iff.mpr (Or.inr hrest)
        · rw [pruneJoins_eq] at hj
          obtain ⟨k, hk, rfl⟩ := List.mem_map.mp hj
          exact ih k hk ((confined_node.mp h).2 k hk)

theorem Confined.prune (h : q.Confined a) : (q.prune a).Confined a := by
  cases q with
  | node s js =>
      rw [Query.prune, pruneJoins_eq]
      refine h.rebuild (fun v hv => ?_) (fun v hv => Or.inl hv) fun j hj => ?_
      · rcases mem_defines_node.mp hv with hv | ⟨j, hj, hv⟩
        · exact mem_defines_node.mpr (Or.inl hv)
        · refine mem_defines_node.mpr (Or.inr ⟨_, List.mem_map_of_mem hj, ?_⟩)
          rw [defines_pruneTo]
          exact hv
      · obtain ⟨k, hk, rfl⟩ := List.mem_map.mp hj
        exact ((confined_node.mp h).2 k hk).pruneTo

/-- Leaving out what nobody reads keeps a query sound. -/
theorem Sound.prune (h : Sound a tight pack q) :
    Sound a tight pack (q.prune a) ∧ Refits a a q (q.prune a) := by
  cases q with
  | node s js =>
      have hs : Sound a tight pack (node s ([] ++ js)) := h
      refine ⟨hs.pruneJoins fun j _ _ hj => hj.pruneTo, ?_, rfl, ?_, Confined.prune, .of_rests ?_⟩
      · rw [Query.prune, pruneJoins_eq, defines, defines, joinsDefine_eq, joinsDefine_eq,
          List.flatMap_map]
        refine .of_perm (List.Perm.of_eq ?_)
        congr 1
        exact List.flatMap_congr fun j _ => defines_pruneTo j.2 _
      · rw [Query.prune, pruneJoins_eq, places, places, joinsPlaces_eq, joinsPlaces_eq,
          List.flatMap_map]
        congr 1
        exact List.flatMap_congr fun j _ => places_pruneTo j.2 _
      · rw [Query.prune, pruneJoins_eq]
        exact .cons ⟨rfl, .refl s⟩ (forall₂_joinsSites_map fun j _ => rests_pruneTo j.2 _)

end Query

end CausalTrace
