import CausalTrace.Proofs.Changes

/-!
# Legible queries

At every stage of a query that was built, the names of lets, of joins and short names are
different, contain no point and hide no field; a short name stands for itself beneath a
join of the stage; no field is observed twice; and every variable is defined in the arena as
the stage says it is.
-/

namespace CausalTrace

/-! ## Origins -/

/-- How a stage comes by a variable of its own. -/
inductive Origin where
  | observed (field : String)
  | constructed (name : String)
  | aggregated (how : Aggregation) (input : Option VarId)
deriving DecidableEq, Repr

namespace Origin

/-- What the definition of such a variable is, at a stage with this source. -/
def Describes (source : Source) : Origin → Definition → Prop
  | .observed field, d => d = .observed (source.aliasName.getD "") field
  | .constructed name, d => ∃ expr args, d = .computed name expr args
  | .aggregated how input, d => d = .aggregated how input

def mapVars (f : VarId → VarId) : Origin → Origin
  | .observed field => .observed field
  | .constructed name => .constructed name
  | .aggregated how input => .aggregated how (input.map f)

theorem Describes.mapVars {source : Source} {o : Origin} {d : Definition} (f : VarId → VarId)
    (h : o.Describes source d) : (o.mapVars f).Describes source (d.mapVars f) := by
  cases o with
  | observed field =>
      rw [Describes] at h
      rw [h]
      rfl
  | constructed name =>
      obtain ⟨expr, args, rfl⟩ := h
      exact ⟨expr, args.map f, rfl⟩
  | aggregated how input =>
      rw [Describes] at h
      rw [h]
      rfl

end Origin

/-- The aggregates of a shape. -/
def Shape.origins : Shape → List (Origin × VarId)
  | .group _ gs => gs.map fun g => (.aggregated g.how g.input, g.var)
  | .unfinished => []
  | .select _ => []
  | .filter _ => []

/-- The variables a stage defines, each with its origin. -/
def Stage.origins (s : Stage) : List (Origin × VarId) :=
  s.observed.map (fun (field, v) => (.observed field, v)) ++
    s.lets.map (fun (name, v) => (.constructed name, v)) ++ s.shape.origins

theorem Stage.map_origins (s : Stage) : s.origins.map (·.2) = s.defines := by
  have hshape : s.shape.origins.map (·.2) = s.shape.defines := by
    cases s.shape <;> simp [Shape.origins, Shape.defines]
  rw [origins, defines, List.map_append, List.map_append, hshape, List.map_map, List.map_map,
    Table.values]
  rfl

theorem Stage.origins_mapVars (f : VarId → VarId) (s : Stage) :
    (s.mapVars f).origins = s.origins.map fun o => (o.1.mapVars f, f o.2) := by
  have hshape : (s.shape.mapVars f).origins = s.shape.origins.map fun o =>
      (o.1.mapVars f, f o.2) := by
    cases s.shape <;> simp [Shape.mapVars, Shape.origins, Origin.mapVars]
  simp only [origins, mapVars, hshape, Table.mapValues, List.map_append, List.map_map]
  rfl

namespace Query

variable {a a' b : Arena} {s : Stage} {js before after : List (String × Query)}
  {q q' u u' other : Query} {name aliasName : String} {v : VarId}

/-! ## Legibility -/

/-- The first stage of a query is legible. -/
structure LegibleAt (a : Arena) (q : Query) : Prop where
  apart : q.declared.Nodup
  free : ∀ name ∈ q.declared, Name.isValid name ∧ q.stage.source.leavesFree name
  shorts : ∀ p ∈ q.stage.shorts, ∃ via ∈ q.joins.keys, p.2 = via ++ "." ++ p.1
  fields : q.stage.observed.keys.Nodup
  origins : ∀ o ∈ q.stage.origins, ∃ d, a.definition? o.2 = some d ∧ o.1.Describes q.stage.source d

/-- Every stage of the query is legible. -/
def Legible (a : Arena) (q : Query) : Prop := ∀ p ∈ q.parts, p.LegibleAt a

theorem legible_node :
    (node s js).Legible a ↔ (node s js).LegibleAt a ∧ ∀ j ∈ js, j.2.Legible a := by
  constructor
  · intro h
    exact ⟨h _ (self_mem_parts _), fun j hj p hp => h p (mem_parts_node.mpr (Or.inr ⟨j, hj, hp⟩))⟩
  · rintro ⟨hown, hjoined⟩ p hp
    rcases mem_parts_node.mp hp with rfl | ⟨j, hj, hp⟩
    · exact hown
    · exact hjoined j hj p hp

theorem LegibleAt.extend (h : q.LegibleAt a) (hp : a.defs <+: b.defs) : q.LegibleAt b := by
  refine ⟨h.apart, h.free, h.shorts, h.fields, fun o ho => ?_⟩
  obtain ⟨d, hd, hdescribes⟩ := h.origins o ho
  refine ⟨d, ?_, hdescribes⟩
  rw [Arena.definition?_of_extension hp (Arena.knows_of_definition hd), hd]

theorem Legible.extend (h : q.Legible a) (hp : a.defs <+: b.defs) : q.Legible b :=
  fun p hm => (h p hm).extend hp

theorem LegibleAt.aliases (h : q.LegibleAt a) : q.joins.keys.Nodup :=
  (List.nodup_append.mp (List.nodup_append.mp h.apart).1).2.1

/-- The first stage gets another shape or other variables, all of them described. -/
theorem LegibleAt.restage {t : Stage} (h : (node s js).LegibleAt a) (hsource : t.source = s.source)
    (hlets : t.lets = s.lets) (hshorts : t.shorts = s.shorts) (hfields : t.observed.keys.Nodup)
    (horigins : ∀ o ∈ t.origins, o ∈ s.origins ∨
      ∃ d, a.definition? o.2 = some d ∧ o.1.Describes s.source d) : (node t js).LegibleAt a := by
  obtain ⟨hapart, hfree, hpaths, _, hold⟩ := h
  simp only [declared, stage_node, joins_node] at hapart hfree hpaths hold
  refine ⟨?_, ?_, ?_, hfields, fun o ho => ?_⟩
  · simpa only [declared, stage_node, joins_node, hlets, hshorts] using hapart
  · simpa only [declared, stage_node, joins_node, hlets, hshorts, hsource] using hfree
  · simpa only [stage_node, joins_node, hshorts] using hpaths
  · rw [stage_node, hsource]
    exact (horigins o ho).elim (hold o) id

/-- One of the joined queries changes, under its old name. -/
theorem LegibleAt.rejoin (h : (node s (before ++ (aliasName, u) :: after)).LegibleAt a) :
    (node s (before ++ (aliasName, u') :: after)).LegibleAt a := by
  have hkeys : Table.keys (before ++ (aliasName, u') :: after) =
      Table.keys (before ++ (aliasName, u) :: after) := by simp [Table.keys]
  obtain ⟨hapart, hfree, hpaths, hfields, horigins⟩ := h
  simp only [declared, stage_node, joins_node, ← hkeys] at hapart hfree hpaths
  exact ⟨hapart, hfree, hpaths, hfields, horigins⟩

theorem Legible.rejoin (h : (node s (before ++ (aliasName, u) :: after)).Legible a)
    (hu : u'.Legible a) : (node s (before ++ (aliasName, u') :: after)).Legible a := by
  obtain ⟨hown, hjoined⟩ := legible_node.mp h
  refine legible_node.mpr ⟨hown.rejoin, fun j hj => ?_⟩
  rw [List.mem_append, List.mem_cons] at hj
  rcases hj with hj | rfl | hj
  · exact hjoined j (List.mem_append_left _ hj)
  · exact hu
  · exact hjoined j (List.mem_append_right _ (List.mem_cons_of_mem _ hj))

theorem Legible.joined {j : String × Query} (h : (node s js).Legible a) (hj : j ∈ js) :
    j.2.Legible a :=
  (legible_node.mp h).2 j hj

/-- A name that is free is declared. -/
theorem LegibleAt.declare (h : q.LegibleAt a) (q' : Query) (hn : q.isAvailable name)
    (hperm : q'.declared.Perm (name :: q.declared)) (hsource : q'.stage.source = q.stage.source) :
    q'.declared.Nodup ∧
      ∀ x ∈ q'.declared, Name.isValid x ∧ q'.stage.source.leavesFree x := by
  obtain ⟨hvalid, hfree, hnew⟩ := isAvailable_iff.mp hn
  refine ⟨hperm.nodup_iff.mpr (List.nodup_cons.mpr ⟨hnew, h.apart⟩), fun x hx => ?_⟩
  rw [hsource]
  rcases List.mem_cons.mp (hperm.mem_iff.mp hx) with rfl | hx
  · exact ⟨hvalid, hfree⟩
  · exact h.free x hx

/-! ## Changes -/

theorem legible_watch (a : Arena) (source : Source) : (Query.watch source).Legible a :=
  legible_node.mpr ⟨⟨List.nodup_nil, List.forall_mem_nil _, List.forall_mem_nil _, List.nodup_nil,
    List.forall_mem_nil _⟩, List.forall_mem_nil _⟩

theorem Mark.arena {x y : Arena × Query} (h : Mark x y) : x.1.defs <+: y.1.defs := by
  induction h with
  | observe _ => exact List.prefix_append _ _
  | deliver v => exact List.prefix_refl _
  | joined _ ih => exact ih

theorem legible_deliverAlso (h : q.Legible a) (v : VarId) :
    (q.withStage (·.deliverAlso v)).Legible a := by
  cases q with
  | node s js =>
      obtain ⟨hown, hjoined⟩ := legible_node.mp h
      exact legible_node.mpr ⟨hown.restage rfl rfl rfl hown.fields fun o ho => Or.inl ho, hjoined⟩

theorem legible_observe {field : String} (h : (node s js).Legible a)
    (hf : s.observed.find? field = none) :
    (node { s with observed := s.observed.insert field ⟨a.defs.length⟩ } js).Legible
      ⟨a.defs ++ [.observed (s.source.aliasName.getD "") field]⟩ := by
  have harena := List.prefix_append a.defs [Definition.observed (s.source.aliasName.getD "") field]
  obtain ⟨hown, hjoined⟩ := legible_node.mp (h.extend harena)
  have hnew := Table.find?_eq_none_iff.mp hf
  have hperm := Table.insert_perm_cons (a := (⟨a.defs.length⟩ : VarId)) hnew
  refine legible_node.mpr ⟨hown.restage rfl rfl rfl ?_ fun o ho => ?_, hjoined⟩
  · have hkeys := hperm.map fun p : String × VarId => p.1
    exact hkeys.nodup_iff.mpr (List.nodup_cons.mpr ⟨hnew, hown.fields⟩)
  · simp only [Stage.origins, List.mem_append, List.mem_map, hperm.mem_iff, List.mem_cons] at ho ⊢
    rcases ho with (⟨p, rfl | hp, rfl⟩ | hl) | hs
    · exact Or.inr ⟨_, List.getElem?_concat_length, rfl⟩
    · exact Or.inl (Or.inl (Or.inl ⟨p, hp, rfl⟩))
    · exact Or.inl (Or.inl (Or.inr hl))
    · exact Or.inl (Or.inr hs)

theorem Legible.mark {x y : Arena × Query} (h : x.2.Legible x.1) (hm : Mark x y) :
    y.2.Legible y.1 := by
  induction hm with
  | observe hf => exact legible_observe h hf
  | deliver v => exact legible_deliverAlso h v
  | joined hm ih =>
      refine (Legible.extend h hm.arena).rejoin (ih ?_)
      exact Legible.joined h List.mem_append_cons_self

/-- A new let is described by its definition. -/
theorem legible_addLet {expr : String} {args : List VarId} (h : q.Legible a)
    (hn : q.isAvailable name) :
    (q.withStage fun s => { s with lets := s.lets ++ [(name, ⟨a.defs.length⟩)] }).Legible
      ⟨a.defs ++ [.computed name expr args]⟩ := by
  have harena := List.prefix_append a.defs [Definition.computed name expr args]
  cases q with
  | node s js =>
      obtain ⟨hown, hjoined⟩ := legible_node.mp (h.extend harena)
      obtain ⟨hapart, hfree⟩ := hown.declare
        (node { s with lets := s.lets ++ [(name, ⟨a.defs.length⟩)] } js) hn (by
          simp only [declared, stage_node, joins_node, List.map_append, List.map_singleton,
            List.append_assoc]
          exact List.perm_middle) rfl
      refine legible_node.mpr ⟨⟨hapart, hfree, hown.shorts, hown.fields, fun o ho => ?_⟩, hjoined⟩
      have hold := hown.origins o
      simp only [Stage.origins, stage_node, List.map_append, List.map_singleton, List.mem_append,
        List.mem_singleton] at ho hold
      rcases ho with (ho | ho | rfl) | ho
      · exact hold (Or.inl (Or.inl ho))
      · exact hold (Or.inl (Or.inr ho))
      · exact ⟨_, List.getElem?_concat_length, expr, args, rfl⟩
      · exact hold (Or.inr ho)

theorem legible_finish {shape : Shape} (vs : List VarId) (h : q.Legible a)
    (hs : shape = .select vs ∨ shape = .group vs []) :
    (q.withStage fun s => { s with outputs := s.outputs.insertAll vs, shape := shape }).Legible
      a := by
  have hnone : shape.origins = [] := by
    rcases hs with rfl | rfl <;> rfl
  cases q with
  | node s js =>
      obtain ⟨hown, hjoined⟩ := legible_node.mp h
      refine legible_node.mpr ⟨hown.restage rfl rfl rfl hown.fields fun o ho => Or.inl ?_, hjoined⟩
      rw [Stage.origins, hnone, List.append_nil] at ho
      exact List.mem_append_left _ ho

theorem legible_addAggregate {keys : List VarId} {gs : List Aggregate} {how : Aggregation}
    {input : Option VarId} (h : q.Legible a) (hs : q.stage.shape = .group keys gs) :
    (q.withStage fun s =>
      { s with
        outputs := s.outputs.insert ⟨a.defs.length⟩
        shape := .group keys (gs ++ [⟨⟨a.defs.length⟩, how, input⟩]) }).Legible
      ⟨a.defs ++ [.aggregated how input]⟩ := by
  have harena := List.prefix_append a.defs [Definition.aggregated how input]
  cases q with
  | node s js =>
      obtain ⟨hown, hjoined⟩ := legible_node.mp (h.extend harena)
      refine legible_node.mpr ⟨hown.restage rfl rfl rfl hown.fields fun o ho => ?_, hjoined⟩
      rw [stage_node] at hs
      simp only [Stage.origins, hs, Shape.origins, List.map_append, List.map_singleton,
        List.mem_append, List.mem_singleton] at ho ⊢
      rcases ho with ho | ho | rfl
      · exact Or.inl (Or.inl ho)
      · exact Or.inl (Or.inr ho)
      · exact Or.inr ⟨_, List.getElem?_concat_length, rfl⟩

theorem legible_setJoin (h : q.Legible a) (hn : q.isAvailable name) (hu : u.Legible a) :
    (q.setJoin name u).Legible a := by
  cases q with
  | node s js =>
      obtain ⟨hown, hjoined⟩ := legible_node.mp h
      have hnew : name ∉ Table.keys js := fun hm => (isAvailable_iff.mp hn).2.2
        (List.mem_append_left _ (List.mem_append_right _ hm))
      have hperm := Table.insert_perm_cons (a := u) hnew
      have hkeys := hperm.map fun j : String × Query => j.1
      -- A new alias is one more declared name, wherever the table puts it.
      obtain ⟨hapart, hfree⟩ := hown.declare ((node s js).setJoin name u) hn (by
        simp only [declared, setJoin, stage_node, joins_node, List.append_assoc]
        exact ((hkeys.append_right _).append_left _).trans List.perm_middle) rfl
      refine legible_node.mpr ⟨⟨hapart, hfree, fun p hp => ?_, hown.fields, hown.origins⟩, ?_⟩
      · obtain ⟨via, hvia, hpath⟩ := hown.shorts p hp
        exact ⟨via, hkeys.mem_iff.mpr (List.mem_cons_of_mem _ hvia), hpath⟩
      · intro j hj
        rcases List.mem_cons.mp (hperm.mem_iff.mp hj) with rfl | hj
        · exact hu
        · exact hjoined j hj

/-- A short name stands for itself beneath the join that it is declared with. -/
theorem legible_addShort {via : String} (h : (node s js).Legible a) (hvia : via ∈ Table.keys js)
    (hn : (node s js).isAvailable name) :
    (node { s with shorts := s.shorts.insert name (via ++ "." ++ name) } js).Legible a := by
  obtain ⟨hown, hjoined⟩ := legible_node.mp h
  have hnew : name ∉ s.shorts.keys := fun hm => (isAvailable_iff.mp hn).2.2
    (List.mem_append_right _ hm)
  have hperm := Table.insert_perm_cons (a := via ++ "." ++ name) hnew
  have hkeys := hperm.map fun p : String × String => p.1
  obtain ⟨hapart, hfree⟩ := hown.declare
    (node { s with shorts := s.shorts.insert name (via ++ "." ++ name) } js) hn
    ((hkeys.append_left _).trans List.perm_middle) rfl
  refine legible_node.mpr ⟨⟨hapart, hfree, fun p hp => ?_, hown.fields, hown.origins⟩, hjoined⟩
  rcases List.mem_cons.mp (hperm.mem_iff.mp hp) with rfl | hp
  · exact ⟨via, hvia, rfl⟩
  · exact hown.shorts p hp

theorem legible_setJoinVia {existing : Query} {via : String}
    (h : (node s (before ++ (via, existing) :: after)).Legible a)
    (hn : (node s (before ++ (via, existing) :: after)).isAvailable name)
    (hnested : existing.isAvailable name) (hu : u.Legible a) :
    (node { s with shorts := s.shorts.insert name (via ++ "." ++ name) }
      (before ++ (via, existing.setJoin name u) :: after)).Legible a := by
  have hexisting : existing.Legible a := Legible.joined h List.mem_append_cons_self
  have hvia : via ∈ Table.keys (before ++ (via, existing) :: after) := by simp [Table.keys]
  exact (legible_addShort h hvia hn).rejoin (legible_setJoin hexisting hnested hu)

/-- What is joined is copied with its names. -/
theorem LegibleAt.mapVars {f : VarId → VarId} (h : q.LegibleAt a)
    (hf : ∀ v ∈ q.stage.defines, ∀ d, a.definition? v = some d →
      b.definition? (f v) = some (d.mapVars f)) : (q.mapVars f).LegibleAt b := by
  cases q with
  | node s js =>
      have hjoins : Table.keys (mapJoins f js) = Table.keys js := by
        rw [mapJoins_eq, Table.keys, Table.keys, List.map_map]
        rfl
      have hlets : (s.mapVars f).lets.map (·.1) = s.lets.map (·.1) := by
        rw [Stage.mapVars, List.map_map]
        rfl
      have hdeclared : ((node s js).mapVars f).declared = (node s js).declared := by
        rw [declared, declared, Query.mapVars, joins_node, stage_node, hlets, hjoins]
        rfl
      refine ⟨hdeclared ▸ h.apart, hdeclared ▸ h.free, fun p hp => ?_,
        fields_mapStage f s ▸ h.fields, ?_⟩
      · rw [Query.mapVars, joins_node, hjoins]
        exact h.shorts p hp
      · intro o ho
        rw [Query.mapVars, stage_node, Stage.origins_mapVars] at ho
        obtain ⟨r, hr, rfl⟩ := List.mem_map.mp ho
        obtain ⟨d, hd, hdescribes⟩ := h.origins r hr
        refine ⟨d.mapVars f, hf r.2 ?_ d hd, hdescribes.mapVars f⟩
        rw [← Stage.map_origins]
        exact List.mem_map_of_mem hr

theorem Legible.mapVars {f : VarId → VarId} (h : q.Legible a)
    (hf : ∀ v ∈ q.defines, ∀ d, a.definition? v = some d →
      b.definition? (f v) = some (d.mapVars f)) :
    (q.mapVars f).Legible b := by
  induction q with
  | node s js ih =>
      obtain ⟨hown, hjoined⟩ := legible_node.mp h
      rw [Query.mapVars, legible_node]
      refine ⟨hown.mapVars fun v hv => hf v (mem_defines_node.mpr (Or.inl hv)), fun j hj => ?_⟩
      rw [mapJoins_eq] at hj
      obtain ⟨k, hk, rfl⟩ := List.mem_map.mp hj
      exact ih k hk (hjoined k hk) fun v hv => hf v (defines_of_joined hk hv)

theorem legible_keep {f : Filter} (h : q.Legible a) (hk : q.keep f = .ok u) : u.Legible a := by
  obtain ⟨_, rfl⟩ := keep_eq_ok hk
  cases q with
  | node s js =>
      obtain ⟨hown, hjoined⟩ := legible_node.mp h
      refine legible_node.mpr ⟨hown.restage rfl rfl rfl hown.fields fun o ho => Or.inl ?_, hjoined⟩
      exact (List.mem_append.mp ho).elim (List.mem_append_left _) fun hm =>
        absurd hm List.not_mem_nil

theorem prepares_legible : Prepares Legible := by
  intro a b q other u filter hw ho h
  obtain ⟨w, hcopy, hkeep⟩ := prepare_cases h
  have hlegible : w.Legible b := by
    rcases hcopy with hc | ⟨rfl, rfl, _⟩
    · obtain ⟨f, hcopy, rfl⟩ := exists_copy hw.ordered hw.known hc
      refine ho.mapVars fun v hv d hd => ?_
      obtain ⟨d', hd', hnew⟩ := hcopy.copies v hv
      cases hd.symm.trans hd'
      exact hnew
    · exact ho
  rcases hkeep with rfl | ⟨f, hk⟩
  · exact hlegible
  · exact legible_keep hlegible hk

theorem Legible.change {x y : Arena × Query} (h : x.2.Legible x.1) (hc : Change Legible x y) :
    y.2.Legible y.1 := by
  cases hc with
  | extend hp => exact Legible.extend h hp
  | mark hm => exact Legible.mark h hm
  | @addWhere a q w =>
      cases q with
      | node s js =>
          obtain ⟨hown, hjoined⟩ := legible_node.mp h
          exact legible_node.mpr
            ⟨hown.restage rfl rfl rfl hown.fields fun o ho => Or.inl ho, hjoined⟩
  | addLet expr args hn => exact legible_addLet h hn
  | finish vs _ hs => exact legible_finish vs h hs
  | addAggregate how input hs => exact legible_addAggregate h hs
  | setJoin hn hu => exact legible_setJoin h hn hu
  | setJoinVia hn hnested hu => exact legible_setJoinVia h hn hnested hu

/-- Every query that was built is legible. -/
theorem Built.legible (h : Built a q) : q.Legible a :=
  h.of_changes prepares_legible legible_watch fun hx hc => Legible.change hx hc

end Query

end CausalTrace
