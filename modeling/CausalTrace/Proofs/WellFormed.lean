import CausalTrace.Proofs.Bindings
import CausalTrace.Proofs.Trees
import Mathlib.Data.List.Nodup

/-!
# Well-formed queries

What holds of every query that was built: every variable is defined once, and reads
earlier ones only. Building only ever adds definitions with new variables.
-/

namespace CausalTrace

/-! ## Arenas that grow -/

namespace Arena

variable {a a' : Arena} {d : Definition} {v : VarId}

/-- The variable has a definition. -/
def Knows (a : Arena) (v : VarId) : Prop := v.index < a.defs.length

theorem knows_of_definition (h : a.definition? v = some d) : a.Knows v :=
  (List.getElem?_eq_some_iff.mp h).1

theorem Knows.of_extension (hv : a.Knows v) (h : a.defs <+: a'.defs) : a'.Knows v :=
  Nat.lt_of_lt_of_le hv h.length_le

theorem definition?_of_extension (h : a.defs <+: a'.defs) (hv : a.Knows v) :
    a'.definition? v = a.definition? v := by
  obtain ⟨more, hmore⟩ := h
  rw [definition?, definition?, ← hmore]
  exact List.getElem?_append_left hv

theorem reads_of_extension (h : a.defs <+: a'.defs) (hv : a.Knows v) : a'.reads v = a.reads v := by
  rw [reads, reads, definition?_of_extension h hv]

theorem reads_define_of_knows (h : a.Knows v) : (a.define d).2.reads v = a.reads v := by
  have hd : (a.define d).2.definition? v = a.definition? v := List.getElem?_append_left h
  rw [reads, reads, hd]

theorem reads_define_self : (a.define d).2.reads (a.define d).1 = d.reads := by
  have hd : (a.define d).2.definition? (a.define d).1 = some d := List.getElem?_concat_length
  rw [reads, hd]

theorem reads_eq_nil (h : ¬ a.Knows v) : a.reads v = [] := by
  rw [reads, definition?, List.getElem?_eq_none (Nat.not_lt.mp h)]

theorem length_define : (a.define d).2.defs.length = a.defs.length + 1 := by
  show (a.defs ++ [d]).length = _
  rw [List.length_append]
  rfl

/-- A definition that reads known variables keeps the arena ordered. -/
theorem Ordered.define (ho : a.Ordered) (hd : ∀ u ∈ d.reads, a.Knows u) :
    (a.define d).2.Ordered := by
  intro v u hu
  rcases Nat.lt_trichotomy v.index a.defs.length with hlt | heq | hgt
  · rw [reads_define_of_knows hlt] at hu
    exact ho v u hu
  · have hv : v = (a.define d).1 := by
      cases v
      exact congrArg VarId.mk heq
    rw [hv, reads_define_self] at hu
    rw [heq]
    exact hd u hu
  · have hnot : ¬ (a.define d).2.Knows v := by
      rw [Knows, length_define]
      omega
    rw [reads_eq_nil hnot] at hu
    cases hu

theorem ordered_define_iff : (a.define d).2.Ordered ↔ a.Ordered ∧ ∀ u ∈ d.reads, a.Knows u := by
  refine ⟨fun h => ⟨fun v u hu => ?_, fun u hu => ?_⟩, fun h => h.1.define h.2⟩
  · by_cases hv : a.Knows v
    · exact h v u ((reads_define_of_knows hv).symm ▸ hu)
    · rw [reads_eq_nil hv] at hu
      cases hu
  · exact h (a.define d).1 u (reads_define_self.symm ▸ hu)

theorem ordered_empty : Arena.empty.Ordered := by
  intro v u hu
  rw [reads_eq_nil (Nat.not_lt_zero _)] at hu
  cases hu

end Arena

namespace Query

/-! ## Well-formedness -/

/-- Joins are listed by ascending aliases, and different lets go by different names. -/
structure Regular (q : Query) : Prop where
  aliases : q.joins.keys.Pairwise fun x y => compare x y = .lt
  names : (q.stage.lets.map (·.1)).Nodup

/-- A regular query; if it is tight, a grouping stage delivers keys and aggregates only. -/
structure Lawful (tight : Bool) (q : Query) : Prop extends Regular q where
  groups : tight = true → ∀ keys gs, q.stage.shape = .group keys gs →
    ∀ v ∈ q.stage.outputs, v ∈ keys ∨ v ∈ gs.map (·.var)

/-- Every variable of a query is defined once, and every part of it has a property. -/
structure Formed (P : Query → Prop) (a : Arena) (q : Query) : Prop where
  ordered : a.Ordered
  known : ∀ v ∈ q.defines, a.Knows v
  distinct : q.defines.Nodup
  lawful : ∀ p ∈ q.parts, P p

/-- A query as it is built. -/
abbrev WellFormed (a : Arena) (q : Query) : Prop := Formed (Lawful true) a q

/-! ## Growth -/

/-- One query is another with further definitions, all of them new. -/
structure Enlarged (a a' : Arena) (q q' : Query) : Prop where
  grows : a.defs.length ≤ a'.defs.length
  ordered : a.Ordered → a'.Ordered
  defines : ∃ new, q'.defines.Perm (q.defines ++ new) ∧ new.Nodup ∧
    ∀ v ∈ new, ¬ a.Knows v ∧ a'.Knows v
  lawful : (∀ p ∈ q.parts, p.Lawful true) → ∀ p ∈ q'.parts, p.Lawful true

variable {a a' b : Arena} {q q' u : Query}

theorem Enlarged.refl : Enlarged a a q q where
  grows := Nat.le_refl _
  ordered := id
  defines := ⟨[], by rw [List.append_nil], List.nodup_nil, List.forall_mem_nil _⟩
  lawful := id

theorem Enlarged.trans (h : Enlarged a b q u) (h' : Enlarged b a' u q') : Enlarged a a' q q' where
  grows := Nat.le_trans h.grows h'.grows
  ordered := h'.ordered ∘ h.ordered
  defines := by
    obtain ⟨new, hp, hn, hk⟩ := h.defines
    obtain ⟨new', hp', hn', hk'⟩ := h'.defines
    refine ⟨new ++ new', ?_, ?_, ?_⟩
    · rw [← List.append_assoc]
      exact hp'.trans (hp.append_right new')
    · refine List.nodup_append.mpr ⟨hn, hn', ?_⟩
      rintro v hv w hw rfl
      exact (hk' v hw).1 (hk v hv).2
    · intro v hv
      rcases List.mem_append.mp hv with hm | hm
      · exact ⟨(hk v hm).1, Nat.lt_of_lt_of_le (hk v hm).2 h'.grows⟩
      · exact ⟨fun hlt => (hk' v hm).1 (Nat.lt_of_lt_of_le hlt h.grows), (hk' v hm).2⟩
  lawful := h'.lawful ∘ h.lawful

theorem Enlarged.defines_subset (h : Enlarged a a' q q') : ∀ v ∈ q.defines, v ∈ q'.defines := by
  obtain ⟨new, hp, _, _⟩ := h.defines
  exact fun v hv => hp.mem_iff.mpr (List.mem_append_left _ hv)

theorem WellFormed.enlarge (h : WellFormed a q) (he : Enlarged a a' q q') : WellFormed a' q' where
  ordered := he.ordered h.ordered
  known := by
    obtain ⟨new, hp, _, hk⟩ := he.defines
    intro v hv
    rcases List.mem_append.mp (hp.mem_iff.mp hv) with hm | hm
    · exact Nat.lt_of_lt_of_le (h.known v hm) he.grows
    · exact (hk v hm).2
  distinct := by
    obtain ⟨new, hp, hn, hk⟩ := he.defines
    refine hp.nodup_iff.mpr (List.nodup_append.mpr ⟨h.distinct, hn, ?_⟩)
    rintro v hv w hw rfl
    exact (hk v hw).1 (h.known v hv)
  lawful := he.lawful h.lawful

/-- A well-formed query in an arena with more definitions. -/
theorem WellFormed.grow (h : WellFormed a q) {d : Definition} (hd : ∀ v ∈ d.reads, a.Knows v) :
    WellFormed (a.define d).2 q where
  ordered := h.ordered.define hd
  known v hv := by
    rw [Arena.Knows, Arena.length_define]
    exact Nat.lt_succ_of_lt (h.known v hv)
  distinct := h.distinct
  lawful := h.lawful

/-! ## Growth in one place -/

/-- A stage changes, and the queries it joins do not. -/
theorem Enlarged.of_stage {s s' : Stage} {js : List (String × Query)} (new : List VarId)
    (hg : a.defs.length ≤ a'.defs.length) (ho : a.Ordered → a'.Ordered)
    (hd : s'.defines.Perm (s.defines ++ new)) (hn : new.Nodup)
    (hk : ∀ v ∈ new, ¬ a.Knows v ∧ a'.Knows v)
    (hl : (node s js).Lawful true → (node s' js).Lawful true) :
    Enlarged a a' (node s js) (node s' js) where
  grows := hg
  ordered := ho
  defines := by
    refine ⟨new, ?_, hn, hk⟩
    rw [Query.defines, Query.defines]
    refine (hd.append_right _).trans ?_
    rw [List.append_assoc, List.append_assoc]
    exact List.perm_append_comm.append_left _
  lawful h := by
    intro p hp
    rcases mem_parts_node.mp hp with rfl | hj
    · exact hl (h _ (self_mem_parts _))
    · exact h p (mem_parts_node.mpr (Or.inr hj))

/-- A stage defines one more variable. -/
theorem Enlarged.of_definition {s s' : Stage} {js : List (String × Query)} {d : Definition}
    (hreads : ∀ u ∈ d.reads, a.Knows u) (hd : s'.defines.Perm (s.defines ++ [⟨a.defs.length⟩]))
    (hl : (node s js).Lawful true → (node s' js).Lawful true) :
    Enlarged a ⟨a.defs ++ [d]⟩ (node s js) (node s' js) := by
  have hgrows : (a.defs ++ [d]).length = a.defs.length + 1 := Arena.length_define
  refine Enlarged.of_stage [⟨a.defs.length⟩] ?_ (fun ho => ho.define hreads) hd
    (List.nodup_singleton _) ?_ hl
  · rw [hgrows]
    exact Nat.le_succ _
  · intro u hu
    rw [List.mem_singleton.mp hu]
    refine ⟨Nat.lt_irrefl _, ?_⟩
    show a.defs.length < (a.defs ++ [d]).length
    rw [hgrows]
    exact Nat.lt_succ_self _

/-- One of the joined queries changes. -/
theorem Enlarged.of_join {s : Stage} {before after : List (String × Query)} {aliasName : String}
    (h : Enlarged a a' q q') :
    Enlarged a a' (node s (before ++ (aliasName, q) :: after))
      (node s (before ++ (aliasName, q') :: after)) where
  grows := h.grows
  ordered := h.ordered
  defines := by
    obtain ⟨new, hp, hn, hk⟩ := h.defines
    refine ⟨new, ?_, hn, hk⟩
    simp only [Query.defines, joinsDefine_eq, List.flatMap_append, List.flatMap_cons,
      List.append_assoc]
    refine List.Perm.append_left _ (List.Perm.append_left _ ?_)
    refine (hp.append_right _).trans ?_
    rw [List.append_assoc]
    exact List.perm_append_comm.append_left _
  lawful hl := by
    have hmem : (aliasName, q) ∈ before ++ (aliasName, q) :: after := List.mem_append_cons_self
    have hq := h.lawful fun p hp => hl p (mem_parts_node.mpr (Or.inr ⟨_, hmem, hp⟩))
    have hself := hl _ (self_mem_parts _)
    intro p hp
    rcases mem_parts_node.mp hp with rfl | ⟨j, hj, hpj⟩
    · refine ⟨⟨?_, hself.names⟩, hself.groups⟩
      have ha := hself.aliases
      simp only [joins_node, Table.keys, List.map_append, List.map_cons] at ha ⊢
      exact ha
    · rw [List.mem_append, List.mem_cons] at hj
      rcases hj with hj | rfl | hj
      · exact hl p (mem_parts_node.mpr (Or.inr ⟨j, by simp [hj], hpj⟩))
      · exact hq p hpj
      · exact hl p (mem_parts_node.mpr (Or.inr ⟨j, by simp [hj], hpj⟩))

/-! ## Forming trees -/

section

variable {P : Query → Prop}

/-- A query is well-formed when its stage and the joined queries are, and share no
variables. -/
theorem formed_node {s : Stage} {js : List (String × Query)} (hl : P (node s js))
    (ho : a.Ordered) (hj : ∀ j ∈ js, Formed P a j.2) (hk : ∀ v ∈ s.defines, a.Knows v)
    (hn : (node s js).defines.Nodup) : Formed P a (node s js) where
  ordered := ho
  known v hv := by
    rcases mem_defines_node.mp hv with hv | ⟨j, hm, hv⟩
    · exact hk v hv
    · exact (hj j hm).known v hv
  distinct := hn
  lawful p hp := by
    rcases mem_parts_node.mp hp with rfl | ⟨j, hm, hp⟩
    · exact hl
    · exact (hj j hm).lawful p hp

theorem Formed.joined {s : Stage} {js : List (String × Query)} {j : String × Query}
    (h : Formed P a (node s js)) (hj : j ∈ js) : Formed P a j.2 where
  ordered := h.ordered
  known v hv := h.known v (defines_of_joined hj hv)
  distinct := by
    have hd := (List.nodup_append.mp h.distinct).2.1
    rw [joinsDefine_eq] at hd
    exact (List.nodup_flatMap.mp hd).1 j hj
  lawful p hp := h.lawful p (mem_parts_node.mpr (Or.inr ⟨j, hj, hp⟩))

/-- A stage and one of its joined queries change, and define together what they did. -/
theorem Formed.replace {s s' : Stage} {before after : List (String × Query)} {aliasName : String}
    (h : Formed P a (node s (before ++ (aliasName, q) :: after)))
    (hp : P (node s' (before ++ (aliasName, q') :: after))) (hq : ∀ p ∈ q'.parts, P p)
    (hd : (node s' (before ++ (aliasName, q') :: after)).defines.Perm
      (node s (before ++ (aliasName, q) :: after)).defines) :
    Formed P a (node s' (before ++ (aliasName, q') :: after)) where
  ordered := h.ordered
  known v hv := h.known v (hd.mem_iff.mp hv)
  distinct := hd.nodup_iff.mpr h.distinct
  lawful p hp' := by
    have hold : ∀ j ∈ before ++ after, ∀ p ∈ j.2.parts, P p := by
      intro j hj p hpj
      refine h.lawful p (mem_parts_node.mpr (Or.inr ⟨j, ?_, hpj⟩))
      rw [List.mem_append, List.mem_cons]
      exact (List.mem_append.mp hj).imp_right Or.inr
    rcases mem_parts_node.mp hp' with rfl | ⟨j, hj, hpj⟩
    · exact hp
    · rw [List.mem_append, List.mem_cons] at hj
      rcases hj with hj | rfl | hj
      · exact hold j (List.mem_append_left _ hj) p hpj
      · exact hq p hpj
      · exact hold j (List.mem_append_right _ hj) p hpj

end

end Query

end CausalTrace
