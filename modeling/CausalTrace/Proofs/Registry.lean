import CausalTrace.Proofs.Recompiling

/-!
# Handing out names

The names of a plan are handed out one at a time. A variable keeps the name that it was given;
a new one gets the number of names handed out so far, a point, and its label. However often and
in whatever order variables come up, equal ones get equal names and different ones different
names, whatever their labels hold. Handed out in the order in which a plan mentions its variables,
they are the names of the plan.
-/

namespace CausalTrace

/-! ## Numbers that stay -/

section

variable {a : Arena} {u : VarId} {us : List VarId}

theorem firstMentions_prefix (us vs : List VarId) :
    firstMentions us <+: firstMentions (us ++ vs) := by
  induction vs using List.reverseRecOn with
  | nil => rw [List.append_nil]
  | append_singleton vs v ih =>
      rw [← List.append_assoc]
      by_cases hv : v ∈ us ++ vs
      · rw [firstMentions_append_of_mem hv]
        exact ih
      · rw [firstMentions_append_of_not_mem hv]
        exact ih.trans (List.prefix_append _ _)

/-- A name does not change with what is mentioned later. -/
theorem nameIn_append (hu : u ∈ us) (vs : List VarId) :
    nameIn a (firstMentions (us ++ vs)) u = nameIn a (firstMentions us) u := by
  obtain ⟨later, hlater⟩ := firstMentions_prefix us vs
  rw [nameIn, nameIn, ← hlater, List.idxOf_append_of_mem (mem_firstMentions.mpr hu)]

end

/-! ## The registry -/

/-- The names handed out so far. -/
abbrev Registry := Table VarId String

namespace Registry

variable {a : Arena} {known : Registry} {us vs : List VarId}

/-- The name of a variable, and all names handed out then. -/
def name (a : Arena) (known : Registry) (v : VarId) : String × Registry :=
  match known.find? v with
  | some given => (given, known)
  | none =>
      let given := Number.natText known.length ++ "." ++ a.label v
      (given, known.insert v given)

/-- The names of one variable after another. -/
def names (a : Arena) (known : Registry) : List VarId → List String
  | [] => []
  | v :: vs => (known.name a v).1 :: names a (known.name a v).2 vs

/-- The registry holds the names of these variables, numbered as they first came up. -/
structure Records (a : Arena) (known : Registry) (us : List VarId) : Prop where
  size : known.length = (firstMentions us).length
  given : ∀ v, known.find? v = if v ∈ us then some (nameIn a (firstMentions us) v) else none

theorem records_nil : Records a [] [] := ⟨rfl, fun _ => rfl⟩

/-- A variable that came up before keeps its name. -/
theorem Records.name_of_mem {v : VarId} (h : Records a known us) (hv : v ∈ us) :
    known.name a v = (nameIn a (firstMentions us) v, known) := by
  have hgiven := h.given v
  rw [if_pos hv] at hgiven
  rw [name, hgiven]

/-- The number of a new variable is how many came up before it. -/
theorem Records.name_of_not_mem {v : VarId} (h : Records a known us) (hv : v ∉ us) :
    known.find? v = none ∧
      known.name a v = (nameIn a (firstMentions (us ++ [v])) v,
        known.insert v (nameIn a (firstMentions (us ++ [v])) v)) := by
  have hgiven := h.given v
  rw [if_neg hv] at hgiven
  have hlast : (firstMentions (us ++ [v])).idxOf v = known.length := by
    rw [firstMentions_append_of_not_mem hv,
      List.idxOf_append_of_notMem (mt mem_firstMentions.mp hv), h.size]
    simp
  refine ⟨hgiven, ?_⟩
  rw [name, hgiven, nameIn, hlast]

/-- One more variable gets its name, and no other name changes. -/
theorem Records.step (h : Records a known us) (v : VarId) :
    (known.name a v).1 = nameIn a (firstMentions (us ++ [v])) v ∧
      Records a (known.name a v).2 (us ++ [v]) := by
  by_cases hv : v ∈ us
  · rw [h.name_of_mem hv]
    refine ⟨(nameIn_append hv _).symm, ?_, fun w => ?_⟩
    · rw [firstMentions_append_of_mem hv]
      exact h.size
    · have hmem : w ∈ us ++ [v] ↔ w ∈ us := by
        rw [List.mem_append, List.mem_singleton]
        exact or_iff_left_of_imp fun hw => hw ▸ hv
      simp only [h.given w, hmem, firstMentions_append_of_mem hv]
  · obtain ⟨hnew, hname⟩ := h.name_of_not_mem hv
    rw [hname]
    refine ⟨rfl, ?_, fun w => ?_⟩
    · rw [(Table.insert_perm_cons (Table.find?_eq_none_iff.mp hnew)).length_eq,
        firstMentions_append_of_not_mem hv, List.length_cons, List.length_append, h.size]
      rfl
    · by_cases hw : w = v
      · subst hw
        rw [Table.find?_insert_self, if_pos List.mem_append_cons_self]
      · rw [Table.find?_insert_ne hw, h.given w]
        by_cases hold : w ∈ us
        · rw [if_pos hold, if_pos (List.mem_append_left _ hold), nameIn_append hold _]
        · rw [if_neg hold, if_neg (by simp [hold, hw])]

theorem Records.names (h : Records a known us) :
    known.names a vs = vs.map (nameIn a (firstMentions (us ++ vs))) := by
  induction vs generalizing us known with
  | nil => rfl
  | cons v vs ih =>
      obtain ⟨hname, hnext⟩ := h.step v
      have hmem : v ∈ us ++ [v] := List.mem_append_cons_self
      rw [Registry.names, ih hnext, hname, ← nameIn_append hmem vs, List.append_assoc]
      rfl

/-- **Names are unique.** Of any variables that come up one after another, in any order and any
number of times, two get the same name if and only if they are the same. The names of a plan are
those that its variables get in the order of their mentions. -/
theorem names_unique (a : Arena) (vs : List VarId) :
    (names a [] vs).length = vs.length ∧
      (∀ i j : Fin vs.length, (names a [] vs)[i.val]? = (names a [] vs)[j.val]? ↔ vs[i] = vs[j]) ∧
      ∀ p : AdviceSpec VarId,
        (p.rename (nameIn a (firstMentions p.mentions))).mentions = names a [] p.mentions := by
  have hnames (us : List VarId) : names a [] us = us.map (nameIn a (firstMentions us)) :=
    records_nil.names
  refine ⟨by rw [hnames, List.length_map], fun i j => ?_, fun p => ?_⟩
  · have hget (k : Fin vs.length) :
        (names a [] vs)[k.val]? = some (nameIn a (firstMentions vs) vs[k]) := by
      rw [hnames, List.getElem?_map, List.getElem?_eq_getElem k.isLt]
      rfl
    rw [hget i, hget j, Option.some_inj]
    constructor
    · exact nameIn_inj (mem_firstMentions.mpr (List.getElem_mem i.isLt))
    · intro h
      rw [h]
  · rw [AdviceSpec.mentions_rename, hnames]

/-- Labels with points and digits in them, one within another. -/
example : names ⟨[.observed "" "a", .observed "" "0.a", .aggregated .sum (some ⟨1⟩)]⟩ []
    [⟨1⟩, ⟨0⟩, ⟨1⟩, ⟨2⟩] = ["0.0.a", "1.a", "0.0.a", "2.SUM(0.a)"] := by
  decide +kernel

end Registry

end CausalTrace
