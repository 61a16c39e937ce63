import CausalTrace.Proofs.Instances
import CausalTrace.Proofs.Lasting
import CausalTrace.Proofs.Optimizing
import CausalTrace.Proofs.Script
import Mathlib.Data.List.Forall2

/-!
# Keys and aggregates by name

What a grouping query groups by and aggregates can be named where it is joined: a key by the
name that it was given, and an aggregate by its kind and its operand. Both go through one
list of names, so a key whose own name reads as an aggregate is out of reach.
-/

namespace CausalTrace

/-! ## Renamed queries -/

namespace Stage

variable {s : Stage} {f : VarId → VarId} {name : String}

theorem let?_mapVars : (s.mapVars f).let? name = (s.let? name).map f := by
  rw [let?, let?, mapVars]
  induction s.lets with
  | nil => rfl
  | cons l ls ih =>
      obtain ⟨n, v⟩ := l
      rw [List.map_cons, List.lookup_cons, List.lookup_cons]
      cases name == n
      · exact ih
      · rfl

theorem route_mapVars : (s.mapVars f).route name = match s.route name with
    | .bound v => .bound (f v)
    | r => r := by
  have hdirect : ∀ n, (s.mapVars f).direct? n = (s.direct? n).map fun
      | .bound v => .bound (f v)
      | r => r := by
    intro n
    rw [direct?, direct?, let?_mapVars]
    cases s.let? n with
    | some v => rfl
    | none =>
        show (s.source.field? n).map Route.exported = _
        cases s.source.field? n <;> rfl
  have hplain : ∀ n, (s.mapVars f).plainRoute n = match s.plainRoute n with
      | .bound v => .bound (f v)
      | r => r := by
    intro n
    rw [plainRoute, plainRoute, hdirect]
    cases s.direct? n <;> cases Name.hop n <;> rfl
  have hshorts : (s.mapVars f).shorts = s.shorts := rfl
  rw [route, route, hshorts, hdirect]
  split
  · exact hplain _
  · cases s.direct? name <;> cases Name.hop name <;> try rfl
    dsimp only [Option.map]
    split
    · exact hplain _
    · rfl

end Stage

namespace Query

section

variable {a b : Arena} {f : VarId → VarId} {vs : List VarId} {s : Stage} {q : Query} {name : String}
  {v : VarId}

/-- The aggregate of a kind and operand is the renamed one, as renaming keeps operands apart. -/
theorem find?_aggregates_mapVars (h : Renames a b f vs) {gs : List Aggregate}
    (hinput : ∀ g ∈ gs, ∀ u, g.input = some u → u ∈ vs) {operand : Option VarId}
    (hoperand : ∀ u, operand = some u → u ∈ vs) (how : Aggregation) :
    ((gs.map (·.mapVars f)).find? fun g => g.how == how && g.input == operand.map f) =
      (gs.find? fun g => g.how == how && g.input == operand).map (·.mapVars f) := by
  rw [List.find?_map]
  refine congrArg _ (List.find?_congr fun g hg => ?_)
  have hoperands : (g.input.map f == operand.map f) = (g.input == operand) := by
    cases hgi : g.input with
    | none => cases operand <;> rfl
    | some u =>
        cases operand with
        | none => rfl
        | some w => exact h.beq_map (hinput g hg u hgi) (hoperand w rfl)
  rw [Function.comp_apply, Aggregate.mapVars, hoperands]

/-- A renamed stage passes on the renamed variable, if names lead within it to renamed ones. -/
theorem passed?_mapVars (h : Renames a b f vs) (hs : s.Inside a vs)
    {leads leads' : String → Option VarId}
    (hleads : ∀ n v, leads n = some v → v ∈ vs ∧ leads' n = some (f v))
    (hv : s.passed? leads name = some v) : (s.mapVars f).passed? leads' name = some (f v) := by
  have hshape : (s.mapVars f).shape = s.shape.mapVars f := rfl
  have hfilter : ∀ {n : String} {us : List VarId}, (leads n).filter us.contains = some v →
      (leads' n).filter (us.map f).contains = some (f v) := by
    intro n us hn
    rw [Option.filter_eq_some_iff, List.contains_iff_mem] at hn ⊢
    exact ⟨(hleads n v hn.1).2, List.mem_map_of_mem hn.2⟩
  rw [Stage.passed?, hshape]
  rw [Stage.passed?] at hv
  cases hsh : s.shape with
  | unfinished | filter keep =>
      rw [hsh] at hv
      exact (hleads _ v hv).2
  | select selected =>
      rw [hsh] at hv
      exact hfilter hv
  | group keys gs =>
      rw [hsh] at hv
      have hinput : ∀ g ∈ gs, ∀ u, g.input = some u → u ∈ vs := fun g hg u hu =>
        hs.refers u (.of_shape (hsh ▸ List.mem_append_right _ (List.mem_filterMap.mpr ⟨g, hg, hu⟩)))
      have hfind : ∀ {how : Aggregation} {operand : Option VarId},
          (∀ w, operand = some w → w ∈ vs) →
          (gs.find? fun g => g.how == how && g.input == operand).map (·.var) = some v →
          ((gs.map (·.mapVars f)).find? fun g => g.how == how &&
            g.input == operand.map f).map (·.var) = some (f v) := by
        intro how operand hoperand hfound
        obtain ⟨g, hg, rfl⟩ := Option.map_eq_some_iff.mp hfound
        rw [find?_aggregates_mapVars h hinput hoperand, hg]
        rfl
      cases hname : Name.aggregate? name with
      | none =>
          simp only [hname] at hv ⊢
          exact hfilter hv
      | some p =>
          obtain ⟨how, operand⟩ := p
          cases operand with
          | none =>
              simp only [hname] at hv ⊢
              exact hfind (fun w hw => absurd hw (Option.some_ne_none w).symm) hv
          | some operand =>
              simp only [hname] at hv ⊢
              obtain ⟨w, hw, hfound⟩ := Option.bind_eq_some_iff.mp hv
              obtain ⟨hmem, hw'⟩ := hleads operand w hw
              refine Option.bind_eq_some_iff.mpr ⟨f w, hw', ?_⟩
              exact hfind (fun u hu => Option.some_inj.mp hu ▸ hmem) hfound

theorem stage_mapVars (f : VarId → VarId) (q : Query) :
    (q.mapVars f).stage = q.stage.mapVars f := by
  cases q
  rw [mapVars]
  rfl

/-- What a query delivers a renamed one delivers, if the same goes for what is settled. -/
theorem delivered?_mapVars_of (h : Renames a b f vs) (hq : q.Inside a vs)
    (hsettled : ∀ n v, q.settled? n = some v → v ∈ vs ∧ (q.mapVars f).settled? n = some (f v))
    (hv : q.delivered? name = some v) : v ∈ vs ∧ (q.mapVars f).delivered? name = some (f v) := by
  have hown : q.stage.Inside a vs := hq _ (self_mem_parts _)
  obtain ⟨hpassed, hout⟩ := delivered?_eq_some_iff.mp hv
  refine ⟨hown.outputs hout, delivered?_eq_some_iff.mpr ?_⟩
  rw [stage_mapVars, Stage.outputs_mapVars h hown]
  exact ⟨passed?_mapVars h hown hsettled hpassed, List.mem_map_of_mem hout⟩

/-- What is settled in a query is settled in a renamed one, on the renamed variable. -/
theorem settled?_mapVars (h : Renames a b f vs) (hq : q.Inside a vs)
    (hv : q.settled? name = some v) : v ∈ vs ∧ (q.mapVars f).settled? name = some (f v) := by
  induction q generalizing name v with
  | node s js ih =>
      have hown : s.Inside a vs := hq _ (self_mem_parts _)
      rw [settled?_node] at hv
      rw [mapVars, settled?_node, Stage.route_mapVars]
      cases hr : s.route name with
      | bound w =>
          rw [hr] at hv
          cases hv
          refine ⟨hown.defines (Stage.mem_defines_iff.mpr (Or.inr (Or.inl ?_))), rfl⟩
          exact Stage.mem_lets_of_bound hr
      | exported field =>
          rw [hr] at hv
          replace hv : s.observed.find? field = some v := hv
          have hmem : v ∈ s.observed.values :=
            List.mem_map_of_mem (f := (·.2)) (Table.mem_of_find?_eq_some hv)
          refine ⟨hown.defines (Stage.mem_defines_iff.mpr (Or.inl hmem)), ?_⟩
          show (s.observed.mapValues f).find? field = some (f v)
          rw [Table.find?_mapValues, hv]
          rfl
      | joined k rest =>
          rw [hr] at hv
          obtain ⟨u, hfind, hu⟩ := Option.bind_eq_some_iff.mp hv
          have hmem := Table.mem_of_find?_eq_some hfind
          have hinside : u.Inside a vs :=
            fun p hp => hq p (mem_parts_node.mpr (Or.inr ⟨_, hmem, hp⟩))
          have hfind' : Table.find? k (mapJoins f js) = some (u.mapVars f) := by
            rw [mapJoins_eq]
            exact (Table.find?_mapValues (mapVars f) js).trans (congrArg (Option.map _) hfind)
          simp only [hfind', Option.bind_some]
          exact delivered?_mapVars_of h hinside (fun n w hw => ih _ hmem hinside hw) hu
      | unknown n =>
          rw [hr] at hv
          cases hv

theorem delivered?_mapVars (h : Renames a b f vs) (hq : q.Inside a vs)
    (hv : q.delivered? name = some v) : (q.mapVars f).delivered? name = some (f v) :=
  (delivered?_mapVars_of h hq (fun _ _ hw => settled?_mapVars h hq hw) hv).2

end

end Query

/-! ## Names for aggregates -/

namespace Script.Aggregate

/-- What an aggregate is called in full. -/
def name : Aggregate → String
  | .count => "COUNT"
  | .of how operand => how.text ++ "(" ++ operand ++ ")"

/-- The name of the operand is read as it stands: it is not empty and has no blanks around it. -/
def Plain : Aggregate → Prop
  | .count => True
  | .of _ operand => operand ≠ "" ∧ Text.trim operand = operand

variable {x : Aggregate} {word : String}

theorem Plain.spelled (h : x.Plain) : x.Spelled x.name := by
  cases x with
  | count => exact .bare (by decide)
  | of how operand =>
      obtain ⟨hne, htrim⟩ := h
      have hkind : '(' ∉ how.text.toList := by cases how <;> decide
      have hsame : Text.sameLetters (Text.trim how.text) how.text = true := by cases how <;> decide
      have hspelled := Spelled.of hkind hsame (htrim.symm ▸ hne)
      rwa [htrim] at hspelled

theorem Spelled.ne_empty (h : x.Spelled word) : word ≠ "" := by
  rintro rfl
  have hnone : Name.aggregate? "" = none := by decide
  cases hnone.symm.trans (aggregate?_eq_some_iff.mpr ⟨x, h, rfl⟩)

end Script.Aggregate

/-! ## What a grouping query was asked for -/

/-- The aggregate is what was asked for, if names are read so. -/
def Aggregate.AskedFor (reads : String → VarId → Prop) (x : Script.Aggregate)
    (g : Aggregate) : Prop :=
  match x with
  | .count => g.how = .count ∧ g.input = none
  | .of how operand => g.how = how ∧ ∃ v, g.input = some v ∧ reads operand v

theorem Aggregate.AskedFor.imp {reads reads' : String → VarId → Prop}
    {x : Script.Aggregate} {g : Aggregate} (hreads : ∀ n v, reads n v → reads' n v)
    (h : g.AskedFor reads x) : g.AskedFor reads' x := by
  cases x with
  | count => exact h
  | of how operand => exact ⟨h.1, h.2.imp fun v hv => ⟨hv.1, hreads operand v hv.2⟩⟩

theorem Aggregate.AskedFor.mapVars {reads : String → VarId → Prop}
    {x : Script.Aggregate} {g : Aggregate} (h : g.AskedFor reads x) (f : VarId → VarId) :
    (g.mapVars f).AskedFor (fun n w => ∃ v, reads n v ∧ f v = w) x := by
  cases x with
  | count => exact ⟨h.1, congrArg (Option.map f) h.2⟩
  | of how operand =>
      obtain ⟨hhow, v, hinput, hv⟩ := h
      exact ⟨hhow, f v, congrArg (Option.map f) hinput, v, hv, rfl⟩

/-- The stage groups by what these names stand for and aggregates what was asked for, call by call,
if names are read so within it. From outside, a key is led to by its name, unless that reads as an
aggregate, and by every name for an aggregate an aggregate of that kind and operand. -/
def Shape.Addressed (shape : Shape) (names : List String) (xs : List Script.Aggregate)
    (reads leads : String → VarId → Prop) : Prop :=
  ∃ keys gs, shape = .group keys gs ∧
    List.Forall₂ (fun name key => reads name key ∧
      (name ≠ "" → Name.aggregate? name = none → leads name key)) names keys ∧
    List.Forall₂ (fun x g => g.AskedFor reads x ∧ ∀ word, x.Spelled word →
      ∃ g' ∈ gs, g'.how = g.how ∧ g'.input = g.input ∧ leads word g'.var) xs gs

theorem Shape.Addressed.mapVars {shape : Shape} {names : List String} {xs : List Script.Aggregate}
    {reads reads' leads leads' : String → VarId → Prop} {f : VarId → VarId}
    (h : shape.Addressed names xs reads leads) (hreads : ∀ n v, reads n v → reads' n (f v))
    (hleads : ∀ n v, n ≠ "" → leads n v → leads' n (f v)) :
    (shape.mapVars f).Addressed names xs reads' leads' := by
  obtain ⟨keys, gs, rfl, hnames, hxs⟩ := h
  refine ⟨keys.map f, gs.map (·.mapVars f), rfl, ?_, ?_⟩
  · refine List.forall₂_map_right_iff.mpr (hnames.imp fun name key ⟨hread, hlead⟩ => ?_)
    exact ⟨hreads name key hread, fun hne hname => hleads name key hne (hlead hne hname)⟩
  · refine List.forall₂_map_right_iff.mpr
      (hxs.imp fun x g ⟨hasked, hlead⟩ => ⟨?_, fun word hword => ?_⟩)
    · exact (hasked.mapVars f).imp fun n w ⟨v, hread, hv⟩ => hv ▸ hreads n v hread
    · obtain ⟨g', hg', hhow, hinput, hword'⟩ := hlead word hword
      exact ⟨g'.mapVars f, List.mem_map_of_mem hg', hhow, congrArg (Option.map f) hinput,
        hleads word _ hword.ne_empty hword'⟩

namespace Query

/-- A query that was built, with the names that it was told to group by and the aggregates that
were added since. -/
inductive Grouped : Arena → Query → List String → List Script.Aggregate → Prop where
  | groupBy {a b : Arena} {q q' : Query} {names : List String} :
      Built a q → (q.groupBy names).Yields a q' b → Grouped b q' names []
  | aggregate {a b : Arena} {q q' : Query} {names : List String} {xs : List Script.Aggregate}
      (x : Script.Aggregate) :
      Grouped a q names xs → (x.build q).Yields a q' b → Grouped b q' names (xs ++ [x])
  | call {a b : Arena} {q q' : Query} {names : List String} {xs : List Script.Aggregate} :
      Grouped a q names xs → Call Built (a, q) (b, q') → q'.stage.shape = q.stage.shape →
        Grouped b q' names xs

variable {a b c : Arena} {q q' u other : Query} {names : List String} {xs : List Script.Aggregate}
  {x : Script.Aggregate} {aliasName via : String} {filter : Option Filter}

theorem Grouped.built (h : Grouped a q names xs) : q.Built a := by
  induction h with
  | groupBy hq h => exact hq.groupBy h
  | aggregate x _ h ih =>
      cases x with
      | count => exact ih.count h
      | of how operand => exact ih.aggregate h
  | call _ hc _ ih => exact ih.call hc

theorem shape_addAggregate {how : Aggregation} {input : Option VarId} {keys : List VarId}
    {gs : List Aggregate} (hs : q.stage.shape = .group keys gs)
    (h : (q.addAggregate how input).Yields a q' b) :
    ∃ w, q'.stage.shape = .group keys (gs ++ [⟨w, how, input⟩]) := by
  rw [addAggregate, hs] at h
  obtain ⟨w, c, _, h⟩ := Build.yields_bind.mp h
  obtain ⟨rfl, rfl⟩ := Build.yields_pure.mp h
  exact ⟨w, by rw [stage_withStage]⟩

theorem exists_group_of_addAggregate {how : Aggregation} {input : Option VarId}
    (h : (q.addAggregate how input).Yields a q' b) : ∃ keys gs, q.stage.shape = .group keys gs := by
  rw [addAggregate] at h
  split at h
  · next keys gs hs => exact ⟨keys, gs, hs⟩
  · exact (Build.not_yields_throw h).elim

theorem shape_join (h : (q.join aliasName other filter).Yields a q' b) :
    q'.stage.shape = q.stage.shape := by
  obtain ⟨_, _, _, h⟩ := Build.yields_bind.mp h
  obtain ⟨_, _, _, h⟩ := Build.yields_bind.mp h
  obtain ⟨rfl, rfl⟩ := Build.yields_pure.mp h
  rfl

theorem shape_joinVia (h : (q.joinVia via aliasName other filter).Yields a q' b) :
    q'.stage.shape = q.stage.shape := by
  obtain ⟨_, _, _, h⟩ := Build.yields_bind.mp h
  split at h
  · exact (Build.not_yields_throw h).elim
  · obtain ⟨_, _, _, h⟩ := Build.yields_bind.mp h
    obtain ⟨_, _, _, h⟩ := Build.yields_bind.mp h
    obtain ⟨rfl, rfl⟩ := Build.yields_pure.mp h
    rw [stage_withStage]
    rfl

/-- Every query that groups was told what by, and what to aggregate since. -/
theorem Built.exists_grouped {keys : List VarId} {gs : List Aggregate} (hq : q.Built a)
    (hs : q.stage.shape = .group keys gs) : ∃ names xs, Grouped a q names xs := by
  -- Conditions, lets and selections are for unfinished queries only, and leave none that groups.
  have hfinish : ∀ {q u : Query} {a b : Arena} {step : String} {names : List String}
      {vs : List VarId}, q.requireUnfinished step = .ok () → (q.inputs names).Yields a (u, vs) b →
      u.stage.shape = .unfinished :=
    fun hu hi => (resolved_inputs hi).1.shape.trans (requireUnfinished_eq_ok hu)
  induction hq generalizing keys gs with
  | unnamed t => cases hs
  | named h =>
      rw [Query.named] at h
      split at h
      · cases h
        cases hs
      · cases h
  | grow hq hd ih =>
      obtain ⟨names, xs, hg⟩ := ih hs
      exact ⟨names, xs, hg.call (.define hd) rfl⟩
  | addWhere hq h ih =>
      obtain ⟨_, _, hu, h⟩ := Build.yields_bind.mp h
      obtain ⟨hok, rfl⟩ := Build.yields_liftExcept.mp hu
      obtain ⟨⟨u, vs⟩, _, hi, h⟩ := Build.yields_bind.mp h
      obtain ⟨rfl, rfl⟩ := Build.yields_pure.mp h
      rw [stage_withStage] at hs
      cases (hfinish hok hi).symm.trans hs
  | addLet hq h ih =>
      obtain ⟨_, _, hu, h⟩ := Build.yields_bind.mp h
      obtain ⟨hok, rfl⟩ := Build.yields_liftExcept.mp hu
      obtain ⟨_, _, ha, h⟩ := Build.yields_bind.mp h
      obtain ⟨_, rfl⟩ := Build.yields_liftExcept.mp ha
      obtain ⟨⟨u, vs⟩, _, hi, h⟩ := Build.yields_bind.mp h
      obtain ⟨_, _, _, h⟩ := Build.yields_bind.mp h
      obtain ⟨rfl, rfl⟩ := Build.yields_pure.mp h
      rw [stage_withStage] at hs
      cases (hfinish hok hi).symm.trans hs
  | select hq h ih =>
      obtain ⟨_, _, _, h⟩ := Build.yields_bind.mp h
      obtain ⟨_, _, _, h⟩ := Build.yields_bind.mp h
      obtain ⟨rfl, rfl⟩ := Build.yields_pure.mp h
      rw [stage_withStage] at hs
      cases hs
  | groupBy hq h ih => exact ⟨_, _, .groupBy hq h⟩
  | @aggregate a a' q q' name how hq h ih =>
      obtain ⟨⟨u, v⟩, _, hi, hadd⟩ := Build.yields_bind.mp h
      obtain ⟨_, _, hu⟩ := exists_group_of_addAggregate hadd
      obtain ⟨names, xs, hg⟩ := ih ((resolved_input hi).1.shape.symm.trans hu)
      exact ⟨names, _, hg.aggregate (.of how name) h⟩
  | count hq h ih =>
      obtain ⟨_, _, hu⟩ := exists_group_of_addAggregate h
      obtain ⟨names, xs, hg⟩ := ih hu
      exact ⟨names, _, hg.aggregate .count h⟩
  | join hq ho h ih _ =>
      have hsame := shape_join h
      obtain ⟨names, xs, hg⟩ := ih (hsame.symm.trans hs)
      exact ⟨names, xs, hg.call (.join ho h) hsame⟩
  | joinTracepoint hq h ih =>
      have hsame := shape_join h
      obtain ⟨names, xs, hg⟩ := ih (hsame.symm.trans hs)
      exact ⟨names, xs, hg.call (.joinTracepoint h) hsame⟩
  | joinVia hq ho h ih _ =>
      have hsame := shape_joinVia h
      obtain ⟨names, xs, hg⟩ := ih (hsame.symm.trans hs)
      exact ⟨names, xs, hg.call (.joinVia ho h) hsame⟩

/-- The names stand for the keys and the calls for the aggregates, one for one. -/
theorem Grouped.recorded (h : Grouped a q names xs) : ∃ keys gs, q.stage.shape = .group keys gs ∧
    List.Forall₂ (fun name key => q.settled? name = some key) names keys ∧
    List.Forall₂ (Aggregate.AskedFor fun n v => q.settled? n = some v) xs gs := by
  induction h with
  | @groupBy a b q q' names hq h =>
      obtain ⟨vs, hshape⟩ : ∃ vs, q'.stage.shape = .group vs [] := by
        obtain ⟨_, _, _, hrest⟩ := Build.yields_bind.mp h
        obtain ⟨⟨u, vs⟩, _, _, hrest⟩ := Build.yields_bind.mp hrest
        obtain ⟨rfl, rfl⟩ := Build.yields_pure.mp hrest
        exact ⟨vs, by rw [stage_withStage]⟩
      have hread : Resolves (a, q) (b, q') names vs := .groupBy h hshape
      exact ⟨vs, [], hshape, hread.settled hq, .nil⟩
  | @aggregate a b q q' names xs x hg h ih =>
      obtain ⟨keys, gs, hs, hnames, hxs⟩ := ih
      have hcall : Call Built (a, q) (b, q') := by
        cases x with
        | count => exact .count h
        | of how operand => exact .aggregate h
      have hretains : q.Retains q' := hcall.retains hg.built
      have hadded : ∃ g, q'.stage.shape = .group keys (gs ++ [g]) ∧
          g.AskedFor (fun n v => q'.settled? n = some v) x := by
        cases x with
        | count =>
            obtain ⟨w, hs'⟩ := shape_addAggregate hs h
            exact ⟨_, hs', rfl, rfl⟩
        | of how operand =>
            obtain ⟨⟨u, v⟩, _, hi, hadd⟩ := Build.yields_bind.mp h
            obtain ⟨w, hs'⟩ := shape_addAggregate ((resolved_input hi).1.shape.trans hs) hadd
            have hread : Resolves (a, q) (b, q') [operand] [v] := .aggregate h hs'
            exact ⟨_, hs', rfl, v, rfl, (List.forall₂_cons.mp (hread.settled hg.built)).1⟩
      obtain ⟨g, hs', hg'⟩ := hadded
      refine ⟨keys, gs ++ [g], hs', hnames.imp fun n v => hretains n v, ?_⟩
      exact List.rel_append (hxs.imp fun x g => .imp hretains) (.cons hg' .nil)
  | @call a b q q' names xs hg hc hshape ih =>
      obtain ⟨keys, gs, hs, hnames, hxs⟩ := ih
      have hretains : q.Retains q' := hc.retains hg.built
      refine ⟨keys, gs, hshape.trans hs, hnames.imp fun n v => hretains n v, ?_⟩
      exact hxs.imp fun x g => .imp hretains

/-- All keys and aggregates are delivered, each under every name for it. -/
theorem Grouped.addressed (h : Grouped a q names xs) :
    q.stage.shape.Addressed names xs (fun n v => q.settled? n = some v)
      (fun n v => q.delivered? n = some v) := by
  obtain ⟨keys, gs, hs, hnames, hxs⟩ := h.recorded
  have hrooted := h.built.rooted
  rw [Rooted, hs] at hrooted
  have hmem {α β : Type} {R : α → β → Prop} {as : List α} {bs : List β}
      (hab : List.Forall₂ R as bs) : List.Forall₂ (fun a b => b ∈ bs ∧ R a b) as bs :=
    .flip ((List.forall₂_and_left _ _).mpr ⟨fun _ hb => hb, hab.flip⟩)
  refine ⟨keys, gs, hs, ?_, ?_⟩
  · refine (hmem hnames).imp ?_
    rintro name key ⟨hkey, hsettled⟩
    refine ⟨hsettled, fun _ hname => ?_⟩
    refine delivered?_eq_some_iff.mpr ⟨?_, (hrooted key).mpr (Or.inl hkey)⟩
    rw [Stage.passed?, hs]
    simp only [hname]
    exact Option.filter_eq_some_iff.mpr ⟨hsettled, List.contains_iff_mem.mpr hkey⟩
  · refine (hmem hxs).imp ?_
    rintro x g ⟨hg, hasked⟩
    refine ⟨hasked, fun word hword => ?_⟩
    -- The first aggregate that fits is of the same kind and operand as the one asked for.
    have hself : (g.how == g.how && g.input == g.input) = true := by simp
    obtain ⟨g', hfind⟩ := Option.isSome_iff_exists.mp
      (List.find?_isSome (p := fun g' => g'.how == g.how && g'.input == g.input) |>.mpr
        ⟨g, hg, hself⟩)
    have hg' : g' ∈ gs := List.mem_of_find?_eq_some hfind
    obtain ⟨hhow, hinput⟩ : g'.how = g.how ∧ g'.input = g.input := by
      simpa using List.find?_some hfind
    refine ⟨g', hg', hhow, hinput, delivered?_eq_some_iff.mpr ⟨?_, (hrooted _).mpr (Or.inr ?_)⟩⟩
    · have hname := Script.aggregate?_eq_some_iff.mpr ⟨x, hword, rfl⟩
      rw [Stage.passed?, hs]
      cases x with
      | count =>
          obtain ⟨hcount, hnone⟩ := hasked
          rw [hcount, hnone] at hfind
          simp only [hname, Script.Aggregate.pair, hfind]
          rfl
      | of how operand =>
          obtain ⟨rfl, v, hv, hread⟩ := hasked
          rw [hv] at hfind
          simp only [hname, Script.Aggregate.pair, hread, Option.bind_some, hfind]
          rfl
    · exact List.mem_map_of_mem hg'

/-! ## Joining a grouping query -/

theorem Copiable.prepare (h : Copiable a other) (hp : (q.prepare other filter).Yields a u b) :
    ∃ f, Renames a b f other.defines ∧
      (other.mapVars f = u ∨ ∃ k, (other.mapVars f).keep k = .ok u) := by
  obtain ⟨w, hcopy | ⟨rfl, rfl, _⟩, hkept⟩ := prepare_cases hp
  · obtain ⟨f, hcopied, rfl⟩ := exists_copy h.sound.formed.ordered h.sound.formed.known hcopy
    exact ⟨f, h.renames hcopied, hkept⟩
  · exact ⟨id, h.keeps fun _ _ => rfl, h.inside.mapVars_id.symm ▸ hkept⟩

/-- A grouping query is joined as it is or as a copy. -/
theorem Grouped.prepare (h : Grouped a other names xs)
    (hp : (q.prepare other filter).Yields a u b) :
    ∃ f, Renames a b f other.defines ∧ u = other.mapVars f := by
  obtain ⟨f, hrenames, rfl | ⟨k, hk⟩⟩ := h.built.copiable.prepare hp
  · exact ⟨f, hrenames, rfl⟩
  · obtain ⟨keys, gs, hs, _⟩ := h.recorded
    have hunfinished := (keep_eq_ok hk).1
    rw [stage_mapVars] at hunfinished
    have hgroup : (other.stage.mapVars f).shape = other.stage.shape.mapVars f := rfl
    rw [hgroup, hs] at hunfinished
    cases hunfinished

theorem prepare_of_apart (hapart : ∀ v ∈ other.defines, v ∉ q.defines)
    (h : (q.prepare other none).Yields a u b) : u = other ∧ a = b := by
  have hshared : other.defines.any q.defines.contains = false := by
    rw [List.any_eq_false]
    exact fun v hv hm => hapart v hv (List.contains_iff_mem.mp hm)
  rw [Query.prepare, hshared] at h
  obtain ⟨w, c, hc, h⟩ := Build.yields_bind.mp h
  obtain ⟨rfl, rfl⟩ := Build.yields_pure.mp hc
  obtain ⟨rfl, rfl⟩ := Build.yields_pure.mp h
  exact ⟨rfl, rfl⟩

/-! ## Paths -/

theorem hop_path {left right : String} (hleft : Name.isValid left) (hright : right ≠ "") :
    Name.hop (left ++ "." ++ right) = some (left, right) := by
  simp only [Name.isValid, Bool.and_eq_true, Bool.not_eq_true', List.contains_eq_mem,
    decide_eq_false_iff_not] at hleft
  have hcut : Text.cut '.' (left ++ "." ++ right) = some (left, right) :=
    Text.cut_eq_some_iff.mpr ⟨by simp, hleft.1.2⟩
  rw [Name.hop, hcut]
  simp [hleft.1.1, hright]

/-- A path is no let. -/
theorem LegibleAt.let?_path (hl : q.LegibleAt a) (left right : String) :
    q.stage.let? (left ++ "." ++ right) = none := by
  refine Stage.let?_eq_none_iff.mpr fun hm => ?_
  exact Name.ne_of_isValid (hl.free _ (List.mem_append_left _ (List.mem_append_left _ hm))).1
    _ _ rfl

/-- A path is no short name. -/
theorem LegibleAt.shorts_path (hl : q.LegibleAt a) (left right : String) :
    q.stage.shorts.find? (left ++ "." ++ right) = none := by
  refine Table.find?_eq_none_iff.mpr fun hm => ?_
  exact Name.ne_of_isValid (hl.free _ (List.mem_append_right _ hm)).1 _ _ rfl

theorem LegibleAt.direct?_path (hl : q.LegibleAt a) (left right : String) :
    q.stage.direct? (left ++ "." ++ right) =
      (q.stage.source.field? (left ++ "." ++ right)).map .exported := by
  rw [Stage.direct?, hl.let?_path]

theorem LegibleAt.plainRoute_path (hl : q.LegibleAt a) {left right : String}
    (hleft : Name.isValid left) (hright : right ≠ "")
    (hfield : q.stage.source.field? (left ++ "." ++ right) = none) :
    q.stage.plainRoute (left ++ "." ++ right) = .joined left right := by
  rw [Stage.plainRoute, hl.direct?_path, hfield, hop_path hleft hright]
  rfl

/-- A path starts at a join, or at the join that its first hop is short for. -/
theorem LegibleAt.route_path (hl : q.LegibleAt a) {left right : String} (hleft : Name.isValid left)
    (hright : right ≠ "") (hfield : q.stage.source.field? (left ++ "." ++ right) = none) :
    q.stage.route (left ++ "." ++ right) = match q.stage.shorts.find? left with
      | some path => q.stage.plainRoute (path ++ "." ++ right)
      | none => .joined left right := by
  rewrite [Stage.route, hl.shorts_path, hl.direct?_path, hfield, hop_path hleft hright]
  rfl

/-- What a query delivers is settled where it is joined, under a path. -/
theorem LegibleAt.settled?_path (hl : q.LegibleAt a) (hfind : q.joins.find? aliasName = some u)
    (hshort : q.stage.shorts.find? aliasName = none) {name : String} (hname : name ≠ "")
    (hfield : q.stage.source.field? (aliasName ++ "." ++ name) = none) :
    q.settled? (aliasName ++ "." ++ name) = u.delivered? name := by
  have hvalid : Name.isValid aliasName :=
    (hl.free _ (List.mem_append_left _ (List.mem_append_right _
      (List.mem_map_of_mem (Table.mem_of_find?_eq_some hfind))))).1
  have hroute : q.stage.route (aliasName ++ "." ++ name) = .joined aliasName name := by
    rw [hl.route_path hvalid hname hfield, hshort]
  cases q with
  | node s js =>
      rw [stage_node] at hroute
      rw [joins_node] at hfind
      rw [settled?_node, hroute]
      simp only [hfind, Option.bind_some]

/-! ## Names at a joined query -/

/-- A name that leads to a joined query leads to what that one delivers. -/
theorem exists_input_of_route {name rest : String} {v : VarId}
    (hroute : q.stage.route name = .joined aliasName rest)
    (hfind : q.joins.find? aliasName = some u)
    (h : (u.output rest).Yields a (u', v) b) : ∃ q', (q.input name).Yields a (q', v) b := by
  cases q with
  | node s js =>
      rw [stage_node] at hroute
      obtain ⟨before, after, rfl, hbefore⟩ := Table.exists_append_of_find? hfind
      have hjs : (inputFrom aliasName rest (before ++ (aliasName, u) :: after)).Yields a
          (before ++ (aliasName, u') :: after, v) b := by
        rw [inputFrom_append hbefore]
        exact Build.yields_bind.mpr ⟨_, b, h, Build.yields_pure.mpr ⟨rfl, rfl⟩⟩
      rw [input, hroute]
      exact ⟨_, Build.yields_bind.mpr ⟨_, b, hjs, Build.yields_pure.mpr ⟨rfl, rfl⟩⟩⟩

/-- An unfinished query, or one that keeps a row, delivers whatever its own names lead to. -/
theorem output_of_open {name : String} {v : VarId}
    (hopen : q.stage.shape = .unfinished ∨ ∃ k, q.stage.shape = .filter k)
    (h : (q.input name).Yields a (u, v) b) :
    (q.output name).Yields a (u.withStage (·.deliverAlso v), v) b := by
  rw [output, deliver]
  rcases hopen with hs | ⟨k, hs⟩ <;> rw [hs] <;>
    exact Build.yields_bind.mpr ⟨(u, v), b, h, Build.yields_pure.mpr ⟨rfl, rfl⟩⟩

theorem parts_of_find? (hfind : q.joins.find? aliasName = some u) : u.parts ⊆ q.parts := by
  intro p hp
  rw [← node_stage_joins q]
  exact mem_parts_node.mpr (Or.inr ⟨_, Table.mem_of_find?_eq_some hfind, hp⟩)

/-- The keys and aggregates of a query that is joined directly are settled from the start, and no
further call changes that. -/
theorem Grouped.join {z : Arena × Query} (hg : Grouped a other names xs) (hq : q.Built a)
    (h : (q.join aliasName other filter).Yields a q' b)
    (hcalls : Relation.ReflTransGen (Call Built) (b, q') z) :
    ∃ f u, Renames a b f other.defines ∧ u = other.mapVars f ∧ q'.joins.find? aliasName = some u ∧
      u.stage.shape.Addressed names xs (fun n v => (u.input n).Yields b (u, v) b) fun n v =>
        q.stage.source.field? (aliasName ++ "." ++ n) = none →
          (z.2.input (aliasName ++ "." ++ n)).Yields z.1 (z.2, v) z.1 := by
  have hq' : q'.Built b := hq.join hg.built h
  obtain ⟨_, _, ha, h⟩ := Build.yields_bind.mp h
  obtain ⟨havailable, rfl⟩ := Build.yields_liftExcept.mp ha
  obtain ⟨u, c, hp, h⟩ := Build.yields_bind.mp h
  obtain ⟨rfl, rfl⟩ := Build.yields_pure.mp h
  obtain ⟨f, hrenames, rfl⟩ := hg.prepare hp
  have hinside := hg.built.copiable.inside
  have hfind : (q.setJoin aliasName (other.mapVars f)).joins.find? aliasName =
      some (other.mapVars f) :=
    Table.find?_insert_self ..
  have hshort : (q.setJoin aliasName (other.mapVars f)).stage.shorts.find? aliasName = none := by
    have hnew := (isAvailable_iff.mp (isAvailable_of_require havailable)).2.2
    exact Table.find?_eq_none_iff.mpr fun hm => hnew (List.mem_append_right _ hm)
  refine ⟨f, _, hrenames, rfl, hfind, ?_⟩
  rw [stage_mapVars]
  refine hg.addressed.mapVars (fun n v hv => ?_) fun n v hne hv hfield => ?_
  · have hsettled := (settled?_mapVars hrenames hinside hv).2
    exact input_of_settled (fun p hp => hq'.neat p (parts_of_find? hfind hp)) hsettled _
  · have hsettled :
        (q.setJoin aliasName (other.mapVars f)).settled? (aliasName ++ "." ++ n) = some (f v) := by
      rw [(hq'.legible _ (self_mem_parts _)).settled?_path hfind hshort hne hfield]
      exact delivered?_mapVars hrenames hinside hv
    exact input_of_settled (hq'.calls hcalls).neat (retains_calls hq' hcalls _ _ hsettled) _

/-- What is joined beneath a query shares nothing with it, so that it is copied once at most. -/
theorem joinVia_cases {existing : Query} (hq : WellFormed a q) (ho : WellFormed a other)
    (hfind : q.joins.find? via = some existing)
    (h : (q.joinVia via aliasName other filter).Yields a q' b) :
    ∃ u, (q.prepare other filter).Yields a u b ∧ existing.isAvailable aliasName ∧
      q' = (q.setJoin via (existing.setJoin aliasName u)).withStage fun s =>
        { s with shorts := s.shorts.insert aliasName (via ++ "." ++ aliasName) } := by
  obtain ⟨_, _, ha, h⟩ := Build.yields_bind.mp h
  obtain ⟨_, rfl⟩ := Build.yields_liftExcept.mp ha
  rw [hfind] at h
  obtain ⟨u, c, hp, h⟩ := Build.yields_bind.mp h
  obtain ⟨nested, d, hn, h⟩ := Build.yields_bind.mp h
  obtain ⟨rfl, rfl⟩ := Build.yields_pure.mp h
  obtain ⟨_, _, hna, hn⟩ := Build.yields_bind.mp hn
  obtain ⟨hnested, rfl⟩ := Build.yields_liftExcept.mp hna
  obtain ⟨w, e, hnp, hn⟩ := Build.yields_bind.mp hn
  obtain ⟨rfl, rfl⟩ := Build.yields_pure.mp hn
  have hapart : ∀ v ∈ u.defines, v ∉ existing.defines := by
    intro v hv hm
    refine (prepared_of_prepare hq ho hp).apart v hv ?_
    rw [← node_stage_joins q]
    exact defines_of_joined (Table.mem_of_find?_eq_some hfind) hm
  obtain ⟨rfl, rfl⟩ := prepare_of_apart hapart hnp
  exact ⟨_, hp, isAvailable_of_require hnested, rfl⟩

/-- A path that starts with a short name leads through the query joined in between. -/
theorem LegibleAt.exists_input_beneath {nested : Query} {name : String}
    {v : VarId} (hl : q.LegibleAt a)
    (hshort : q.stage.shorts.find? aliasName = some (via ++ "." ++ aliasName))
    (hfind : q.joins.find? via = some nested) (hname : name ≠ "")
    (hown : q.stage.source.field? (aliasName ++ "." ++ name) = none)
    (hlong : q.stage.source.field? (via ++ "." ++ aliasName ++ "." ++ name) = none)
    (h : (nested.output (aliasName ++ "." ++ name)).Yields b (u, v) c) :
    ∃ q', (q.input (aliasName ++ "." ++ name)).Yields b (q', v) c := by
  have halias : Name.isValid aliasName := (hl.free _ (List.mem_append_right _
    (List.mem_map_of_mem (Table.mem_of_find?_eq_some hshort)))).1
  have hvia : Name.isValid via := (hl.free _ (List.mem_append_left _ (List.mem_append_right _
    (List.mem_map_of_mem (Table.mem_of_find?_eq_some hfind))))).1
  have hrest : aliasName ++ "." ++ name ≠ "" := fun he => by
    simpa using congrArg String.toList he
  have hpath : via ++ "." ++ aliasName ++ "." ++ name = via ++ "." ++
      (aliasName ++ "." ++ name) := by
    simp only [String.append_assoc]
  refine exists_input_of_route ?_ hfind h
  rw [hpath] at hlong
  rw [hl.route_path halias hname hown, hshort]
  show q.stage.plainRoute (via ++ "." ++ aliasName ++ "." ++ name) = _
  rw [hpath]
  exact hl.plainRoute_path hvia hrest hlong

/-- A query joined beneath another one that passes on whatever its own names lead to. -/
theorem Grouped.joinVia {existing : Query} (hg : Grouped a other names xs) (hq : q.Built a)
    (hfind : q.joins.find? via = some existing)
    (hopen : existing.stage.shape = .unfinished ∨ ∃ k, existing.stage.shape = .filter k)
    (h : (q.joinVia via aliasName other filter).Yields a q' b) :
    ∃ f nested u, Renames a b f other.defines ∧ u = other.mapVars f ∧
      q'.joins.find? via = some nested ∧
      nested.joins.find? aliasName = some u ∧
      u.stage.shape.Addressed names xs (fun n v => (u.input n).Yields b (u, v) b) fun n v =>
        q.stage.source.field? (aliasName ++ "." ++ n) = none →
        q.stage.source.field? (via ++ "." ++ aliasName ++ "." ++ n) = none →
        existing.stage.source.field? (aliasName ++ "." ++ n) = none →
          ∃ u', (q'.input (aliasName ++ "." ++ n)).Yields b (u', v) b := by
  have hq' : q'.Built b := hq.joinVia hg.built h
  have hinside := hg.built.copiable.inside
  obtain ⟨u, hp, hnested, rfl⟩ := joinVia_cases hq.wellFormed hg.built.wellFormed hfind h
  obtain ⟨f, hrenames, rfl⟩ := hg.prepare hp
  generalize hu : existing.setJoin aliasName (other.mapVars f) = nested at hq' ⊢
  generalize hr : (q.setJoin via nested).withStage (fun s =>
    { s with shorts := s.shorts.insert aliasName (via ++ "." ++ aliasName) }) = r at hq' ⊢
  have hbeneath : nested.joins.find? aliasName = some (other.mapVars f) :=
    hu ▸ Table.find?_insert_self ..
  have hfound : r.joins.find? via = some nested := by
    rw [← hr, joins_withStage]
    exact Table.find?_insert_self ..
  have hpath : r.stage.shorts.find? aliasName = some (via ++ "." ++ aliasName) := by
    rw [← hr, stage_withStage]
    exact Table.find?_insert_self ..
  have hsource : r.stage.source = q.stage.source := by
    rw [← hr, stage_withStage]
    rfl
  have hshort : nested.stage.shorts.find? aliasName = none := by
    rw [← hu]
    exact Table.find?_eq_none_iff.mpr fun hm =>
      (isAvailable_iff.mp hnested).2.2 (List.mem_append_right _ hm)
  have hneat : nested.Neat false := fun p hp => hq'.neat p (parts_of_find? hfound hp)
  have hnestedStage : nested.stage = existing.stage := hu ▸ rfl
  refine ⟨f, nested, _, hrenames, rfl, hfound, hbeneath, ?_⟩
  rw [stage_mapVars]
  refine hg.addressed.mapVars (fun n v hv => ?_) fun n v hne hv hown hlong hexisting => ?_
  · have hsettled := (settled?_mapVars hrenames hinside hv).2
    exact input_of_settled (fun p hp => hneat p (parts_of_find? hbeneath hp)) hsettled b
  · rw [← hsource] at hown hlong
    rw [← hnestedStage] at hexisting hopen
    have hlegible := hq'.legible _ (parts_of_find? hfound (self_mem_parts _))
    have hsettled : nested.settled? (aliasName ++ "." ++ n) = some (f v) := by
      rw [hlegible.settled?_path hbeneath hshort hne hexisting]
      exact delivered?_mapVars hrenames hinside hv
    exact (hq'.legible _ (self_mem_parts _)).exists_input_beneath hpath hfound hne hown hlong
      (output_of_open hopen (input_of_settled hneat hsettled b))

/-- **Keys and aggregates go by name.** A grouping query (`Built.exists_grouped` finds the calls of
any) is joined as it is or as a copy, and what it groups by and aggregates is what its calls asked
for, one for one. After any further calls the alias with the name of a key leads to that key, and
the alias with a name for an aggregate leads to an aggregate of that kind and operand; nothing is
marked for it. They lead there, too, right after the query is joined beneath one that neither
selects nor groups. The name of a key must not be empty or read as that of an aggregate. A field
goes before a join, so no tracepoint on the way may export one of the name looked for: that is the
alias with the name, and beneath another query also the longer name that this stands for. -/
theorem grouped_names_lead (hg : Grouped a other names xs) (hq : q.Built a) :
    (∀ x ∈ xs, x.Plain → x.Spelled x.name) ∧
    (∀ q' b z, (q.join aliasName other filter).Yields a q' b →
      Relation.ReflTransGen (Call Built) (b, q') z →
      ∃ f u, Renames a b f other.defines ∧ u = other.mapVars f ∧ q'.joins.find? aliasName = some u ∧
        u.stage.shape.Addressed names xs (fun n v => (u.input n).Yields b (u, v) b) fun n v =>
          q.stage.source.field? (aliasName ++ "." ++ n) = none →
            (z.2.input (aliasName ++ "." ++ n)).Yields z.1 (z.2, v) z.1) ∧
    ∀ existing q' b, q.joins.find? via = some existing →
      (existing.stage.shape = .unfinished ∨ ∃ k, existing.stage.shape = .filter k) →
      (q.joinVia via aliasName other filter).Yields a q' b →
      ∃ f nested u, Renames a b f other.defines ∧ u = other.mapVars f ∧
        q'.joins.find? via = some nested ∧ nested.joins.find? aliasName = some u ∧
        u.stage.shape.Addressed names xs (fun n v => (u.input n).Yields b (u, v) b) fun n v =>
          q.stage.source.field? (aliasName ++ "." ++ n) = none →
          q.stage.source.field? (via ++ "." ++ aliasName ++ "." ++ n) = none →
          existing.stage.source.field? (aliasName ++ "." ++ n) = none →
            ∃ q'', (q'.input (aliasName ++ "." ++ n)).Yields b (q'', v) b :=
  ⟨fun _ _ hx => hx.spelled, fun _ _ _ h hcalls => hg.join hq h hcalls,
    fun _ _ _ hfind hopen h => hg.joinVia hq hfind hopen h⟩

namespace Sample

def batch : Tracepoint := ⟨"batch", ["host", "count"]⟩

/-- Batches by their first observed field. -/
def byField (observed : Table String VarId) (outputs : Ascending VarId)
    (gs : List Aggregate) : Query :=
  .node ⟨⟨none, batch⟩, observed, [], [], [], outputs, .group [⟨0⟩] gs⟩ []

/-- How many items the batches of a host have, and how many batches there are. -/
def byHost : Query :=
  byField [("count", ⟨1⟩), ("host", ⟨0⟩)] [⟨0⟩, ⟨2⟩, ⟨3⟩]
    [⟨⟨2⟩, .sum, some ⟨1⟩⟩, ⟨⟨3⟩, .count, none⟩]

def byHostArena : Arena :=
  ⟨[.observed "" "host", .observed "" "count", .aggregated .sum (some ⟨1⟩),
    .aggregated .count none]⟩

/-- Requests after sessions, with batches known of. -/
def requests (shorts : Table String String) (before beneath : List (String × Query)) : Query :=
  .node { Stage.watch ⟨some "r", request⟩ with shorts := shorts }
    (before ++ [("s", .node (.watch ⟨none, session⟩) beneath)])

/-- How many batches there are of each count. -/
def byCount : Query := byField [("count", ⟨0⟩)] [⟨0⟩, ⟨1⟩] [⟨⟨1⟩, .count, none⟩]

def byCountArena : Arena := ⟨[.observed "" "count", .aggregated .count none]⟩

theorem grouped_byHost : Grouped byHostArena byHost ["host"] [.of .sum "count", .count] := by
  have hgroup : ((Query.unnamed batch).groupBy ["host"]).Yields .empty
      (byField [("host", ⟨0⟩)] [⟨0⟩] []) ⟨byHostArena.defs.take 1⟩ := by decide +kernel
  have hsum : ((byField [("host", ⟨0⟩)] [⟨0⟩] []).aggregate "count" .sum).Yields
      ⟨byHostArena.defs.take 1⟩
      (byField [("count", ⟨1⟩), ("host", ⟨0⟩)] [⟨0⟩, ⟨2⟩] [⟨⟨2⟩, .sum, some ⟨1⟩⟩])
      ⟨byHostArena.defs.take 3⟩ := by decide +kernel
  have hcount :
      (byField [("count", ⟨1⟩), ("host", ⟨0⟩)] [⟨0⟩, ⟨2⟩] [⟨⟨2⟩, .sum, some ⟨1⟩⟩]).count.Yields
      ⟨byHostArena.defs.take 3⟩ byHost byHostArena := by decide +kernel
  exact ((Grouped.groupBy (.unnamed batch) hgroup).aggregate
    (.of .sum "count") hsum).aggregate .count hcount

theorem grouped_byCount : Grouped byCountArena byCount ["count"] [.count] := by
  have hgroup : ((Query.unnamed batch).groupBy ["count"]).Yields .empty
      (byField [("count", ⟨0⟩)] [⟨0⟩] []) ⟨byCountArena.defs.take 1⟩ := by decide +kernel
  have hcount : (byField [("count", ⟨0⟩)] [⟨0⟩] []).count.Yields ⟨byCountArena.defs.take 1⟩ byCount
      byCountArena := by decide +kernel
  exact (Grouped.groupBy (.unnamed batch) hgroup).aggregate .count hcount

theorem built_requests {a : Arena} (ha : a.Ordered) : (requests [] [] []).Built a := by
  have hnamed : Query.named "r" request = .ok (.watch ⟨some "r", request⟩) := rfl
  have hjoin : (Query.joinTracepoint (.watch ⟨some "r", request⟩) "s" session none).Yields .empty
      (requests [] [] []) .empty := rfl
  exact ((Built.named hnamed).joinTracepoint hjoin).extend List.nil_prefix ha

/-- In full, the names for what `byHost` was asked for lead to its variables. -/
theorem leads_of_addressed {reads leads : String → VarId → Prop}
    (hplain : ∀ x ∈ [.of .sum "count", Script.Aggregate.count], x.Plain → x.Spelled x.name)
    (h : byHost.stage.shape.Addressed ["host"] [.of .sum "count", .count] reads leads) :
    leads "host" ⟨0⟩ ∧ leads "SUM(count)" ⟨2⟩ ∧ leads "COUNT" ⟨3⟩ := by
  obtain ⟨keys, gs, hs, hkeys, hxs⟩ := h
  cases hs
  obtain ⟨⟨_, hhost⟩, _⟩ := List.forall₂_cons.mp hkeys
  obtain ⟨⟨_, hsum⟩, hrest⟩ := List.forall₂_cons.mp hxs
  obtain ⟨⟨_, hcount⟩, _⟩ := List.forall₂_cons.mp hrest
  obtain ⟨g, hg, hhow, _, hsum⟩ := hsum _ (hplain _ (by simp) ⟨by decide, by decide⟩)
  obtain ⟨g', hg', hhow', _, hcount⟩ := hcount _ (hplain _ (by simp) trivial)
  simp only [List.mem_cons, List.not_mem_nil, or_false] at hg hg'
  obtain rfl | rfl := hg
  · obtain rfl | rfl := hg'
    · cases hhow'
    · exact ⟨hhost (by decide) (by decide), hsum, hcount⟩
  · cases hhow

end Sample

open Query.Sample

/-- A key of the name `count` is out of reach: where it is joined, the name leads to the number of
rows. -/
theorem key_out_of_reach : Grouped byCountArena byCount ["count"] [.count] ∧
    (requests [] [] []).Built byCountArena ∧
      byCount.stage.shape = .group [⟨0⟩] [⟨⟨1⟩, .count, none⟩] ∧
      (byCount.input "count").Yields byCountArena (byCount, ⟨0⟩) byCountArena ∧
      ((requests [] [] []).join "b" byCount none).Yields byCountArena
        (requests [] [("b", byCount)] []) byCountArena ∧
      ((requests [] [("b", byCount)] []).input "b.count").Yields byCountArena
        (requests [] [("b", byCount)] [], ⟨1⟩) byCountArena := by
  refine ⟨grouped_byCount, built_requests grouped_byCount.built.wellFormed.ordered, rfl,
    ?_, ?_, ?_⟩ <;>
    decide +kernel

theorem grouped_names_lead_byHost :
    (∃ q', ((requests [] [] []).join "b" byHost none).Yields byHostArena q' byHostArena ∧
      (q'.input "b.host").Yields byHostArena (q', ⟨0⟩) byHostArena ∧
      (q'.input "b.SUM(count)").Yields byHostArena (q', ⟨2⟩) byHostArena ∧
      (q'.input "b.COUNT").Yields byHostArena (q', ⟨3⟩) byHostArena) ∧
    ∃ q', ((requests [] [] []).joinVia "s" "b" byHost none).Yields byHostArena q' byHostArena ∧
      (∃ u, (q'.input "b.host").Yields byHostArena (u, ⟨0⟩) byHostArena) ∧
      (∃ u, (q'.input "b.SUM(count)").Yields byHostArena (u, ⟨2⟩) byHostArena) ∧
      ∃ u, (q'.input "b.COUNT").Yields byHostArena (u, ⟨3⟩) byHostArena := by
  have hjoin : ((requests [] [] []).join "b" byHost none).Yields byHostArena
      (requests [] [("b", byHost)] []) byHostArena := by decide +kernel
  have hbelow : ((requests [] [] []).joinVia "s" "b" byHost none).Yields byHostArena
      (requests [("b", "s.b")] [] [("b", byHost)]) byHostArena := by decide +kernel
  obtain ⟨hwords, hdirect, hvia⟩ := @grouped_names_lead _ _ _ _ _ "b" "s" none grouped_byHost
    (built_requests grouped_byHost.built.wellFormed.ordered)
  refine ⟨⟨_, hjoin, ?_⟩, _, hbelow, ?_⟩
  · obtain ⟨_, _, _, _, hu, h⟩ := hdirect _ _ _ hjoin .refl
    cases hu
    obtain ⟨hhost, hsum, hcount⟩ := leads_of_addressed hwords h
    exact ⟨hhost rfl, hsum rfl, hcount rfl⟩
  · obtain ⟨_, _, _, _, _, hnested, hu, h⟩ := hvia _ _ _ rfl (.inl rfl) hbelow
    cases hnested
    cases hu
    obtain ⟨hhost, hsum, hcount⟩ := leads_of_addressed hwords h
    exact ⟨hhost rfl rfl rfl, hsum rfl rfl rfl, hcount rfl rfl rfl⟩

end Query

end CausalTrace
