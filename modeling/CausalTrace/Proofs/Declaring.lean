import CausalTrace.Proofs.Legible
import CausalTrace.Proofs.Sources
import Mathlib.Logic.ExistsUnique

/-!
# Variables stay distinct

However often queries are joined with themselves, with what was derived from them, or with
queries that contain them: every variable is defined at one stage of the tree, which is told
by the aliases that lead to it, under one name there, and no stage refers to any other
variable.
-/

namespace CausalTrace

namespace Query

variable {a : Arena} {s : Stage} {js : List (String × Query)} {q p : Query} {v : VarId}
  {path path' : List String} {o o' : Origin} {pack : Bool}

/-! ## Places in a tree -/

/-- The query that is reached through joins of these aliases. -/
def reached? (q : Query) : List String → Option Query
  | [] => some q
  | aliasName :: path => (q.joins.find? aliasName).bind (·.reached? path)

/-- The stage that is reached by a path defines the variable, as it says. -/
def DeclaresAt (q : Query) (path : List String) (o : Origin) (v : VarId) : Prop :=
  ∃ p, q.reached? path = some p ∧ (o, v) ∈ p.stage.origins

theorem declaresAt_nil : (node s js).DeclaresAt [] o v ↔ (o, v) ∈ s.origins := by
  constructor
  · rintro ⟨p, ⟨⟩, ho⟩
    exact ho
  · exact fun ho => ⟨_, rfl, ho⟩

theorem declaresAt_cons {aliasName : String} : (node s js).DeclaresAt (aliasName :: path) o v ↔
    ∃ u, Table.find? aliasName js = some u ∧ u.DeclaresAt path o v := by
  constructor
  · rintro ⟨p, hp, ho⟩
    obtain ⟨u, hu, hp⟩ := Option.bind_eq_some_iff.mp hp
    exact ⟨u, hu, p, hp, ho⟩
  · rintro ⟨u, hu, p, hp, ho⟩
    exact ⟨p, Option.bind_eq_some_iff.mpr ⟨u, hu, hp⟩, ho⟩

theorem defined_of_origin (h : (o, v) ∈ s.origins) : v ∈ s.defines := by
  rw [← Stage.map_origins]
  exact List.mem_map_of_mem h

theorem DeclaresAt.defined (h : q.DeclaresAt path o v) : v ∈ q.defines := by
  induction q generalizing path with
  | node s js ih =>
      cases path with
      | nil => exact mem_defines_node.mpr (Or.inl (defined_of_origin (declaresAt_nil.mp h)))
      | cons aliasName path =>
          obtain ⟨u, hu, h⟩ := declaresAt_cons.mp h
          have hm := Table.mem_of_find?_eq_some hu
          exact defines_of_joined hm (ih _ hm h)

/-- What a query defines is defined by some stage. -/
theorem exists_declaresAt (hr : ∀ p ∈ q.parts, p.joins.keys.Nodup) (hv : v ∈ q.defines) :
    ∃ path o, q.DeclaresAt path o v := by
  induction q with
  | node s js ih =>
      rcases mem_defines_node.mp hv with hv | ⟨j, hj, hv⟩
      · rw [← Stage.map_origins] at hv
        obtain ⟨⟨o, w⟩, ho, rfl⟩ := List.mem_map.mp hv
        exact ⟨[], o, declaresAt_nil.mpr ho⟩
      · obtain ⟨path, o, h⟩ :=
          ih j hj (fun p hp => hr p (mem_parts_node.mpr (Or.inr ⟨j, hj, hp⟩))) hv
        have hfind := Table.find?_of_mem (hr _ (self_mem_parts _)) hj
        exact ⟨j.1 :: path, o, declaresAt_cons.mpr ⟨j.2, hfind, h⟩⟩

/-- A stage does not define what is defined below it. -/
theorem not_declared_twice (hd : (node s js).defines.Nodup) (h : (o, v) ∈ s.origins)
    {j : String × Query} (hj : j ∈ js) (h' : j.2.DeclaresAt path' o' v) : False := by
  have hapart := (List.nodup_append.mp hd).2.2
  have hbelow : v ∈ joinsDefine js := by
    rw [joinsDefine_eq]
    exact List.mem_flatMap.mpr ⟨j, hj, h'.defined⟩
  exact hapart v (defined_of_origin h) v hbelow rfl

/-- Where every variable is defined once, none has two places. -/
theorem DeclaresAt.unique (hd : q.defines.Nodup) (h : q.DeclaresAt path o v)
    (h' : q.DeclaresAt path' o' v) : path = path' ∧ o = o' := by
  induction q generalizing path path' with
  | node s js ih =>
      cases path with
      | nil =>
          cases path' with
          | nil =>
              have hown : (s.origins.map (·.2)).Nodup := by
                rw [Stage.map_origins]
                exact (List.nodup_append.mp hd).1
              have he :=
                List.inj_on_of_nodup_map hown (declaresAt_nil.mp h) (declaresAt_nil.mp h') rfl
              exact ⟨rfl, congrArg (·.1) he⟩
          | cons aliasName path' =>
              obtain ⟨u, hu, h'⟩ := declaresAt_cons.mp h'
              exact (not_declared_twice hd (declaresAt_nil.mp h)
                (Table.mem_of_find?_eq_some hu) h').elim
      | cons aliasName path =>
          obtain ⟨u, hu, h⟩ := declaresAt_cons.mp h
          have hm := Table.mem_of_find?_eq_some hu
          cases path' with
          | nil => exact (not_declared_twice hd (declaresAt_nil.mp h') hm h).elim
          | cons aliasName' path' =>
              obtain ⟨u', hu', h'⟩ := declaresAt_cons.mp h'
              -- The variable is below one join only, so both paths start with its alias.
              have hsame := eq_of_joined_defines hd hm (Table.mem_of_find?_eq_some hu') h.defined
                h'.defined
              cases hsame
              have hdu : u.defines.Nodup := by
                have hjoins := (List.nodup_append.mp hd).2.1
                rw [joinsDefine_eq] at hjoins
                exact (List.nodup_flatMap.mp hjoins).1 _ hm
              obtain ⟨rfl, rfl⟩ := ih _ hm hdu h h'
              exact ⟨rfl, rfl⟩

/-! ## Variables in use -/

/-- What a stage of a closed query reads or delivers is defined there or below. -/
theorem Closed.needs_defined (hq : q.Closed a) (hs : q.Scoped a pack) :
    ∀ p ∈ q.parts, ∀ v ∈ p.stage.needs a, v ∈ p.defines := by
  induction q generalizing pack with
  | node s js ih =>
      intro p hp v hv
      rcases mem_parts_node.mp hp with rfl | ⟨j, hj, hp⟩
      · obtain ⟨hclosed, _⟩ := hq
        by_cases hown : v ∈ s.shape.defines
        · exact mem_defines_node.mpr (Or.inl (Stage.mem_defines_iff.mpr (Or.inr (Or.inr hown))))
        · exact bound_defined hs v (hclosed.needs v hv hown)
      · obtain ⟨_, hjoined⟩ := hq
        obtain ⟨_, hscoped⟩ := hs
        exact ih j hj (hjoined j hj) (hscoped j hj) p hp v hv

theorem reached_mem_parts (h : q.reached? path = some p) : p ∈ q.parts := by
  induction q generalizing path with
  | node s js ih =>
      cases path with
      | nil =>
          cases h
          exact self_mem_parts _
      | cons aliasName path =>
          obtain ⟨u, hu, h⟩ := Option.bind_eq_some_iff.mp h
          have hm := Table.mem_of_find?_eq_some hu
          exact mem_parts_node.mpr (Or.inr ⟨_, hm, ih _ hm h⟩)

/-- In every query that was built, each variable that a stage defines or refers to is defined
at one stage of the tree under one name, and the arena defines it as this stage says. -/
theorem declared_once_of_built (hq : q.Built a) :
    (∀ p ∈ q.parts, ∀ v, v ∈ p.stage.defines ∨ v ∈ p.stage.needs a →
      ∃! place : List String × Origin, q.DeclaresAt place.1 place.2 v) ∧
    ∀ path p o v, q.reached? path = some p → (o, v) ∈ p.stage.origins →
      ∃ d, a.definition? v = some d ∧ o.Describes p.stage.source d := by
  have hw := hq.wellFormed
  have haliases : ∀ p ∈ q.parts, p.joins.keys.Nodup := fun p hp =>
    Ascending.Sorted.nodup (hw.lawful p hp).aliases
  constructor
  · intro p hp v hv
    have hdefined : v ∈ p.defines := by
      rcases hv with hv | hv
      · cases p
        exact mem_defines_node.mpr (Or.inl hv)
      · exact hq.closed.needs_defined hq.scoped p hp v hv
    obtain ⟨path, o, h⟩ := exists_declaresAt haliases (defines_of_part hp v hdefined)
    refine ⟨(path, o), h, ?_⟩
    rintro ⟨path', o'⟩ h'
    obtain ⟨rfl, rfl⟩ := h.unique hw.distinct h'
    rfl
  · intro path p o v hp ho
    exact (hq.legible p (reached_mem_parts hp)).origins _ ho

/-! ## A sample -/

namespace Sample

/-- Visits, each with who visited, and what happened before. -/
def visits (user who : Nat) (js : List (String × Query)) : Query :=
  .node ⟨⟨none, ⟨"visit", ["user"]⟩⟩, [("user", ⟨user⟩)], [],
    [("who", ⟨who⟩)], [], [], .unfinished⟩ js

/-- Visits joined with a copy of them, and all of it joined with a copy once more. -/
def revisits : Query :=
  visits 0 1 [("again", visits 4 5 [("earlier", visits 6 7 [])]), ("earlier", visits 2 3 [])]

def visitArena (n : Nat) : Arena :=
  ⟨(List.range n).flatMap fun i => [.observed "" "user", .computed "who" "{}" [⟨2 * i⟩]]⟩

theorem built_revisits : revisits.Built (visitArena 4) := by
  have hwho : (unnamed ⟨"visit", ["user"]⟩).addLet "who" "{}" ["user"] |>.Yields .empty
      (visits 0 1 []) (visitArena 1) := by decide +kernel
  have hearlier : ((visits 0 1 []).join "earlier" (visits 0 1 []) none).Yields (visitArena 1)
      (visits 0 1 [("earlier", visits 2 3 [])]) (visitArena 2) := by decide +kernel
  have hagain : ((visits 0 1 [("earlier", visits 2 3 [])]).join "again"
      (visits 0 1 [("earlier", visits 2 3 [])]) none).Yields (visitArena 2) revisits
      (visitArena 4) := by decide +kernel
  have honce := (Built.unnamed ⟨"visit", ["user"]⟩).addLet hwho
  have htwice := honce.join honce hearlier
  exact htwice.join htwice hagain

end Sample

open Query.Sample in
theorem declared_once_revisits :
    ∃! place : List String × Origin, revisits.DeclaresAt place.1 place.2 ⟨7⟩ :=
  (declared_once_of_built built_revisits).1 (visits 6 7 []) (by decide +kernel) ⟨7⟩ (by decide)

end Query

end CausalTrace
