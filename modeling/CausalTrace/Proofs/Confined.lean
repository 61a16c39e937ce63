import CausalTrace.Proofs.Moving

/-!
# Confined queries

A stage refers to what it reads or delivers, and to what its own variables are defined by.
A query is confined when every stage refers to nothing but what is defined at the stage or
below it.
-/

namespace CausalTrace

/-! ## References -/

namespace Stage

variable {a b : Arena} {s s' : Stage} {v w : VarId}

theorem mem_needs_iff : v ∈ s.needs a ↔ v ∈ s.outputs ∨ (∃ l ∈ s.lets, v ∈ a.reads l.2) ∨
    (∃ w ∈ s.wheres, v ∈ w.args) ∨ v ∈ s.shape.reads := by
  simp only [needs, List.mem_append, List.mem_flatMap, or_assoc]

/-- The stage reads or delivers the variable, or one of its own variables is defined by it. -/
def RefersTo (a : Arena) (s : Stage) (v : VarId) : Prop :=
  v ∈ s.needs a ∨ ∃ w ∈ s.defines, v ∈ a.reads w

theorem RefersTo.of_output (h : v ∈ s.outputs) : s.RefersTo a v :=
  Or.inl (mem_needs_iff.mpr (Or.inl h))

theorem RefersTo.of_where {w : Condition} (hw : w ∈ s.wheres) (h : v ∈ w.args) : s.RefersTo a v :=
  Or.inl (mem_needs_iff.mpr (Or.inr (Or.inr (Or.inl ⟨w, hw, h⟩))))

theorem RefersTo.of_shape (h : v ∈ s.shape.reads) : s.RefersTo a v :=
  Or.inl (mem_needs_iff.mpr (Or.inr (Or.inr (Or.inr h))))

/-- Lets read what they are defined by. -/
theorem refersTo_iff : s.RefersTo a v ↔ v ∈ s.outputs ∨ (∃ w ∈ s.wheres, v ∈ w.args) ∨
    v ∈ s.shape.reads ∨ ∃ w ∈ s.defines, v ∈ a.reads w := by
  rw [RefersTo, mem_needs_iff]
  constructor
  · rintro ((ho | ⟨l, hl, hv⟩ | hw | hs) | hd)
    · exact Or.inl ho
    · exact Or.inr
        (Or.inr (Or.inr ⟨l.2, mem_defines_iff.mpr (Or.inr (Or.inl (List.mem_map_of_mem hl))), hv⟩))
    · exact Or.inr (Or.inl hw)
    · exact Or.inr (Or.inr (Or.inl hs))
    · exact Or.inr (Or.inr (Or.inr hd))
  · rintro (ho | hw | hs | hd)
    · exact Or.inl (Or.inl ho)
    · exact Or.inl (Or.inr (Or.inr (Or.inl hw)))
    · exact Or.inl (Or.inr (Or.inr (Or.inr hs)))
    · exact Or.inr hd

theorem RefersTo.of_extension (h : s.RefersTo b v) (hp : a.defs <+: b.defs)
    (hk : ∀ w ∈ s.defines, a.Knows w) : s.RefersTo a v := by
  rw [refersTo_iff] at h ⊢
  refine h.imp_right fun h => h.imp_right fun h => h.imp_right ?_
  rintro ⟨w, hw, hv⟩
  exact ⟨w, hw, (Arena.reads_of_extension hp (hk w hw)) ▸ hv⟩

end Stage

namespace Query

variable {a b : Arena} {s s' : Stage} {js js' before after : List (String × Query)}
  {aliasName : String} {q u u' : Query} {v : VarId}

/-! ## Confinement -/

/-- Every stage refers only to what is defined there or below. -/
def Confined (a : Arena) (q : Query) : Prop :=
  ∀ p ∈ q.parts, ∀ v, p.stage.RefersTo a v → v ∈ p.defines

theorem confined_node : (node s js).Confined a ↔
    (∀ v, s.RefersTo a v → v ∈ (node s js).defines) ∧ ∀ j ∈ js, j.2.Confined a := by
  constructor
  · intro h
    exact ⟨h _ (self_mem_parts _), fun j hj p hp => h p (mem_parts_node.mpr (Or.inr ⟨j, hj, hp⟩))⟩
  · rintro ⟨hown, hjoined⟩ p hp
    rcases mem_parts_node.mp hp with rfl | ⟨j, hj, hp⟩
    · exact hown
    · exact hjoined j hj p hp

theorem defines_of_part {p : Query} (hp : p ∈ q.parts) : ∀ v ∈ p.defines, v ∈ q.defines := by
  induction q with
  | node s js ih =>
      rcases mem_parts_node.mp hp with rfl | ⟨j, hj, hp⟩
      · exact fun v hv => hv
      · exact fun v hv => defines_of_joined hj (ih j hj hp v hv)

theorem Confined.extend (h : q.Confined a) (hp : a.defs <+: b.defs)
    (hk : ∀ v ∈ q.defines, a.Knows v) : q.Confined b := by
  intro p hm v hv
  refine h p hm v (hv.of_extension hp fun w hw => hk w (defines_of_part hm w ?_))
  cases p
  exact mem_defines_node.mpr (Or.inl hw)

/-- A query stays confined when its stage refers to nothing more but what is defined. -/
theorem Confined.rebuild (h : (node s js).Confined a)
    (hdefines : ∀ v ∈ (node s js).defines, v ∈ (node s' js').defines)
    (hrefers : ∀ v, s'.RefersTo b v → s.RefersTo a v ∨ v ∈ (node s' js').defines)
    (hjoined : ∀ j ∈ js', j.2.Confined b) : (node s' js').Confined b := by
  refine confined_node.mpr ⟨fun v hv => ?_, hjoined⟩
  rcases hrefers v hv with hv | hv
  · exact hdefines v ((confined_node.mp h).1 v hv)
  · exact hv

/-- The joined queries are confined when one of them gives way to another. -/
theorem confined_replace (h : (node s (before ++ (aliasName, u) :: after)).Confined a)
    (hp : a.defs <+: b.defs)
    (hk : ∀ v ∈ (node s (before ++ (aliasName, u) :: after)).defines, a.Knows v)
    (hu : u'.Confined b) : ∀ j ∈ before ++ (aliasName, u') :: after, j.2.Confined b := by
  obtain ⟨_, hjoined⟩ := confined_node.mp h
  have hold : ∀ j ∈ before ++ after, j.2.Confined b := by
    intro j hj
    have hmem : j ∈ before ++ (aliasName, u) :: after := by
      rw [List.mem_append, List.mem_cons]
      exact (List.mem_append.mp hj).imp_right Or.inr
    exact (hjoined j hmem).extend hp fun v hv => hk v (defines_of_joined hmem hv)
  intro j hj
  rw [List.mem_append, List.mem_cons, or_left_comm, ← List.mem_append] at hj
  rcases hj with rfl | hj
  · exact hu
  · exact hold j hj

/-- What a joined query defines beside its stage it still defines. -/
theorem defines_replace_subset (hu : ∀ v ∈ u.defines, v ∈ u'.defines) :
    ∀ v ∈ (node s (before ++ (aliasName, u) :: after)).defines,
      v ∈ (node s (before ++ (aliasName, u') :: after)).defines := by
  intro v hv
  simp only [defines, joinsDefine_eq, List.flatMap_append, List.flatMap_cons,
    List.mem_append] at hv ⊢
  rcases hv with hv | hv | hv | hv
  · exact Or.inl hv
  · exact Or.inr (Or.inl hv)
  · exact Or.inr (Or.inr (Or.inl (hu v hv)))
  · exact Or.inr (Or.inr (Or.inr hv))

/-- One of the joined queries gives way to another that defines no less. -/
theorem Confined.replaceJoin (h : (node s (before ++ (aliasName, u) :: after)).Confined a)
    (hp : a.defs <+: b.defs)
    (hk : ∀ v ∈ (node s (before ++ (aliasName, u) :: after)).defines, a.Knows v)
    (hu : u'.Confined b) (hdefines : ∀ v ∈ u.defines, v ∈ u'.defines) :
    (node s (before ++ (aliasName, u') :: after)).Confined b :=
  h.rebuild (defines_replace_subset hdefines)
    (fun _ hv => Or.inl (hv.of_extension hp fun w hw => hk w (mem_defines_node.mpr (Or.inl hw))))
    (confined_replace h hp hk hu)

/-- A let that moves reads what the joined query delivers. -/
theorem LetMoves.confined {l : String × VarId} {needed : Bool} (hm : LetMoves a s u l)
    (hnames : (s.lets.map (·.1)).Nodup)
    (h : (node s (before ++ (aliasName, u) :: after)).Confined a)
    (hk : ∀ v ∈ (node s (before ++ (aliasName, u) :: after)).defines, a.Knows v) :
    (node (s.withoutLet l) (before ++ (aliasName, u.withStage (·.withLet l needed)) ::
      after)).Confined a := by
  have hperm : ∀ v, v ∈ (node (s.withoutLet l) (before ++ (aliasName,
      u.withStage (·.withLet l needed)) :: after)).defines ↔
        v ∈ (node s (before ++ (aliasName, u) :: after)).defines :=
    fun v => (hm.defines_perm hnames).mem_iff
  have hu : (u.withStage (·.withLet l needed)).Confined a := by
    have hconfined : u.Confined a := (confined_node.mp h).2 _ List.mem_append_cons_self
    have hreads := hm.reads
    cases u with
    | node t ks =>
        have hdefines : ∀ v, v ∈ (t.withLet l needed).defines ↔ v ∈ t.defines ∨ v = l.2 := by
          intro v
          simp only [Stage.mem_defines_iff, Stage.withLet, List.map_append, List.mem_append,
            List.map_cons, List.map_nil, List.mem_singleton]
          tauto
        refine hconfined.rebuild (fun v hv => ?_) (fun v hv => ?_) (confined_node.mp hconfined).2
        · rcases mem_defines_node.mp hv with hv | hv
          · exact mem_defines_node.mpr (Or.inl ((hdefines v).mpr (Or.inl hv)))
          · exact mem_defines_node.mpr (Or.inr hv)
        · rcases Stage.refersTo_iff.mp hv with ho | hw | hs | ⟨w, hw, hv⟩
          · have hout : v = l.2 ∨ v ∈ t.outputs := by
              cases needed with
              | true => exact Ascending.mem_insert.mp ho
              | false => exact Or.inr ho
            rcases hout with rfl | ho
            · exact Or.inr (mem_defines_node.mpr (Or.inl ((hdefines _).mpr (Or.inr rfl))))
            · exact Or.inl (.of_output ho)
          · exact Or.inl (Stage.refersTo_iff.mpr (Or.inr (Or.inl hw)))
          · exact Or.inl (.of_shape hs)
          · rcases (hdefines w).mp hw with hw | rfl
            · exact Or.inl (Or.inr ⟨w, hw, hv⟩)
            · -- The let that arrives reads outputs of the query that takes it.
              exact Or.inl (.of_output (hreads v hv))
  refine h.rebuild (fun v hv => (hperm v).mpr hv) (fun v hv => Or.inl ?_)
    (confined_replace h (List.prefix_refl _) hk hu)
  have hlets : ∀ w ∈ (s.withoutLet l).defines, w ∈ s.defines := by
    intro w hw
    rw [Stage.mem_defines_iff] at hw ⊢
    refine hw.imp_right fun hw => hw.imp_left fun hw => ?_
    obtain ⟨k, hk, rfl⟩ := List.mem_map.mp hw
    exact List.mem_map_of_mem (List.mem_filter.mp hk).1
  rcases Stage.refersTo_iff.mp hv with ho | hw | hs | ⟨w, hw, hv⟩
  · exact .of_output ho
  · exact Stage.refersTo_iff.mpr (Or.inr (Or.inl hw))
  · exact .of_shape hs
  · exact Or.inr ⟨w, hlets w hw, hv⟩

/-- A condition that moves reads what the joined query delivers or groups by. -/
theorem WhereMoves.confined {w : Condition} {left : List Condition} (hm : WhereMoves s u w left)
    (h : (node s (before ++ (aliasName, u) :: after)).Confined a)
    (hk : ∀ v ∈ (node s (before ++ (aliasName, u) :: after)).defines, a.Knows v) :
    (node { s with wheres := left } (before ++ (aliasName, u.withStage (·.withWhere w)) ::
      after)).Confined a := by
  have hu : (u.withStage (·.withWhere w)).Confined a := by
    have hconfined : u.Confined a := (confined_node.mp h).2 _ List.mem_append_cons_self
    have hargs : ∀ v ∈ w.args, u.stage.RefersTo a v := by
      rcases hm.takes with ⟨_, hargs⟩ | ⟨keys, gs, hs, hargs⟩
      · exact fun v hv => .of_output (hargs v hv)
      · refine fun v hv => .of_shape ?_
        rw [hs]
        exact List.mem_append_left _ (hargs v hv)
    cases u with
    | node t ks =>
        refine hconfined.rebuild (fun v hv => hv) (fun v hv => Or.inl ?_)
          (confined_node.mp hconfined).2
        rcases Stage.refersTo_iff.mp hv with ho | ⟨x, hx, hv⟩ | hs | hd
        · exact .of_output ho
        · rcases List.mem_append.mp hx with hx | hx
          · exact .of_where hx hv
          · exact hargs v (List.mem_singleton.mp hx ▸ hv)
        · exact .of_shape hs
        · exact Or.inr hd
  refine h.rebuild (defines_replace_subset fun v hv => ?_) (fun v hv => Or.inl ?_)
    (confined_replace h (List.prefix_refl _) hk hu)
  · rw [defines_withWhere]
    exact hv
  · rcases Stage.refersTo_iff.mp hv with ho | ⟨x, hx, hv⟩ | hs | hd
    · exact .of_output ho
    · exact .of_where (hm.perm.mem_iff.mpr (List.mem_cons_of_mem _ hx)) hv
    · exact .of_shape hs
    · exact Or.inr hd

end Query

end CausalTrace
