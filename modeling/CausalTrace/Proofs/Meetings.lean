import CausalTrace.Proofs.Moving

/-!
# Where bindings meet

A binding that arrives shows what each of the joined stages has delivered to it: of all that
meets, only one defines a variable. So it binds all that is bound where it arrives.
-/

namespace CausalTrace

namespace Stage

variable {a : Arena} {s : Stage} {env : Binding} {envs : List Binding} {v : VarId}

/-- A stage delivers what arrives, or groups that bind all that it names. -/
theorem binds_of_delivered (h : env ∈ s.delivered envs) :
    (env ∈ envs ∧ s.shape.defines = []) ∨ ∀ v ∈ s.unpackedBag.names, (env v).isSome := by
  rw [delivered] at h
  split at h
  · next hs => exact Or.inl ⟨h, by rw [hs]; rfl⟩
  · next hs => exact Or.inl ⟨h, by rw [hs]; rfl⟩
  · next hs => exact Or.inl ⟨List.mem_of_head? (Option.mem_toList.mp h), by rw [hs]; rfl⟩
  · next hs => exact Or.inl ⟨List.mem_of_getLast? (Option.mem_toList.mp h), by rw [hs]; rfl⟩
  · next keys gs hs =>
      obtain ⟨r, hr, rfl⟩ := List.mem_map.mp h
      rw [names_unpackedBag_group hs]
      exact Or.inr fun v hv => Binding.ofRow_isSome (length_of_mem_groupedRows hr) hv

/-- What arrives in a pass binds what the stage observes and what it computes. -/
theorem binds_of_arrive {base : Binding} {p : Pass} (ho : a.Ordered)
    (h : s.arrive a ((s.observedOn p).beside base) = some env)
    (hv : v ∈ s.observed.values ∨ v ∈ s.lets.map (·.2)) : (env v).isSome := by
  have hsolves := ((arrive_eq_some_iff ho).mp h).1
  by_cases hl : v ∈ s.lets.map (·.2)
  · exact hsolves.isSome v hl
  · have hobserved : (s.observedOn p v).isSome := by
      refine Binding.ofRow_isSome ?_ (hv.resolve_right hl)
      rw [Table.keys, Table.values, List.length_map, List.length_map, List.length_map]
    rw [hsolves.outside v hl, Binding.beside_apply, Option.isSome_or, hobserved, Bool.true_or]

end Stage

namespace Query

variable {a : Arena} {pack : Bool} {s : Stage} {js : List (String × Query)}
  {j : String × Query} {q : Query}
  {env m : Binding} {v : VarId} {passes : List Pass}

theorem not_defines_of_joined (hn : (node s js).defines.Nodup) (hj : j ∈ js)
    (hv : v ∈ j.2.defines) : v ∉ s.defines := by
  rw [defines, joinsDefine_eq] at hn
  exact fun hs => (List.nodup_append.mp hn).2.2 v hs v (List.mem_flatMap.mpr ⟨j, hj, hv⟩) rfl

/-- Where bindings of joined stages meet, nothing binds what none of them defines. -/
theorem meeting_eq_none (ho : a.Ordered) (hscoped : ∀ j ∈ js, j.2.Scoped a true)
    (hv : ∀ j ∈ js, v ∉ j.2.defines) (hm : m ∈ meetings (joinsDeliver a js passes)) :
    m v = none := by
  refine meetings_eq_none ?_ m hm
  rw [joinsDeliver_eq]
  intro bag hbag env henv
  obtain ⟨j, hj, rfl⟩ := List.mem_map.mp hbag
  exact delivered_eq_none ho (hscoped j hj) (hv j hj) env henv

/-- What the first of some joined stages defines, the others do not. -/
theorem not_defines_of_head (hn : (joinsDefine (j :: js)).Nodup) (hv : v ∈ j.2.defines) :
    ∀ k ∈ js, v ∉ k.2.defines := by
  rw [joinsDefine, joinsDefine_eq] at hn
  exact fun k hk hv' => (List.nodup_append.mp hn).2.2 v hv v (List.mem_flatMap.mpr ⟨k, hk, hv'⟩) rfl

/-- Where bindings of joined stages meet, the binding of each stage is seen. -/
theorem exists_delivered_of_meeting (ho : a.Ordered) (hscoped : ∀ j ∈ js, j.2.Scoped a true)
    (hn : (joinsDefine js).Nodup) (hm : m ∈ meetings (joinsDeliver a js passes)) (hj : j ∈ js) :
    ∃ env ∈ j.2.stage.delivered (j.2.arrivals a passes), ∀ v ∈ j.2.defines, m v = env v := by
  induction js generalizing m with
  | nil => cases hj
  | cons k js ih =>
      obtain ⟨hk, hjs⟩ := List.forall_mem_cons.mp hscoped
      have hrest : (joinsDefine js).Nodup := (List.nodup_append.mp hn).2.1
      rw [joinsDeliver, meetings] at hm
      obtain ⟨right, hright, hm⟩ := List.mem_flatMap.mp hm
      obtain ⟨left, hleft, rfl⟩ := List.mem_map.mp hm
      rcases List.mem_cons.mp hj with rfl | hj
      · refine ⟨left, hleft, fun v hv => ?_⟩
        rw [Binding.beside_apply, meeting_eq_none ho hjs (not_defines_of_head hn hv) hright,
          Option.or_none]
      · obtain ⟨env, henv, hsame⟩ := ih hjs hrest hright hj
        refine ⟨env, henv, fun v hv => ?_⟩
        have hnone : left v = none :=
          delivered_eq_none ho hk (fun hv' => not_defines_of_head hn hv' j hj hv) left hleft
        rw [Binding.beside_apply, hnone, Option.none_or, hsame v hv]

/-- What arrives shows what a joined stage has delivered. -/
theorem exists_delivered_of_arrival (ho : a.Ordered) (hscoped : ∀ j ∈ js, j.2.Scoped a true)
    (hn : (node s js).defines.Nodup) (h : env ∈ (node s js).arrivals a passes) (hj : j ∈ js) :
    ∃ past, past <:+ passes ∧ ∃ other ∈ j.2.stage.delivered (j.2.arrivals a past),
      ∀ v ∈ j.2.defines, env v = other v := by
  rw [arrivals, Stage.mem_arrivals_iff] at h
  obtain ⟨later, p, past, rfl, harrived⟩ := h
  obtain ⟨m, hm, harrive⟩ := Stage.mem_arrivalsIn harrived
  have hjoins : (joinsDefine js).Nodup := (List.nodup_append.mp hn).2.1
  obtain ⟨other, hother, hsame⟩ := exists_delivered_of_meeting ho hscoped hjoins hm hj
  refine ⟨_, List.suffix_append later _, other, hother, fun v hv => ?_⟩
  have hnot := not_defines_of_joined hn hj hv
  rw [Stage.mem_defines_iff, not_or, not_or] at hnot
  rw [((Stage.arrive_eq_some_iff ho).mp harrive).1.outside v hnot.2.1, Binding.beside_apply,
    Stage.observedOn_within p v hnot.1, Option.none_or, hsame v hv]

/-- What arrives binds all that is bound, and what is delivered all that it names. -/
theorem isSome_of_arrival (ho : a.Ordered) (hs : q.Scoped a pack) (hn : q.defines.Nodup) :
    (∀ env ∈ q.arrivals a passes, ∀ v ∈ q.bound, (env v).isSome) ∧
      (pack = true → ∀ env ∈ q.stage.delivered (q.arrivals a passes),
        ∀ v ∈ q.stage.unpackedBag.names, (env v).isSome) := by
  induction q generalizing pack passes with
  | node s js ih =>
      obtain ⟨hown, hjoined⟩ := hs
      have harrives :
          ∀ env ∈ (node s js).arrivals a passes, ∀ v ∈ (node s js).bound, (env v).isSome := by
        intro env henv v hv
        have hself : v ∈ s.observed.values ∨ v ∈ s.lets.map (·.2) → (env v).isSome := by
          intro hv
          rw [arrivals, Stage.mem_arrivals_iff] at henv
          obtain ⟨_, p, past, _, henv⟩ := henv
          obtain ⟨base, _, harrive⟩ := Stage.mem_arrivalsIn henv
          exact Stage.binds_of_arrive ho harrive hv
        rw [bound, incoming, List.mem_append, List.mem_append] at hv
        rcases hv with (hobserved | hd) | hl
        · exact hself (Or.inl hobserved)
        · obtain ⟨j, hj, hv⟩ := List.mem_flatMap.mp hd
          obtain ⟨past, _, other, hother, hsame⟩ :=
            exists_delivered_of_arrival ho hjoined hn henv hj
          rw [hsame v (delivered_defined (hjoined j hj) v hv)]
          rw [defines, joinsDefine_eq] at hn
          have hnj := (List.nodup_flatMap.mp (List.nodup_append.mp hn).2.1).1 j hj
          exact (ih j hj (hjoined j hj) hnj).2 rfl other hother v hv
        · exact hself (Or.inr hl)
      refine ⟨harrives, ?_⟩
      rintro rfl env henv v hv
      rcases Stage.binds_of_delivered henv with ⟨harrived, hnone⟩ | hbinds
      · rw [stage_node] at hnone
        refine harrives env harrived v ((hown.names v hv).resolve_right fun hd => ?_)
        rw [hnone] at hd
        cases hd
      · exact hbinds v hv

end Query

end CausalTrace
