import CausalTrace.Proofs.Declaring
import CausalTrace.Proofs.Layout
import CausalTrace.Proofs.Neat

/-!
# Names keep their meaning

What a name once led to at a stage it leads to for good. That a name is settled, in that
resolving it again observes nothing and marks nothing, is read off the tree; no later change
disturbs it, because a name can be declared only where it led nowhere before.
-/

namespace CausalTrace

/-! ## Names that may be declared -/

theorem Name.hop_eq_none {name : String} (h : Name.isValid name) : Name.hop name = none := by
  simp only [isValid, Bool.and_eq_true, Bool.not_eq_true', List.contains_eq_mem,
    decide_eq_false_iff_not] at h
  rw [hop, Text.cut_eq_none_iff.mpr h.1.2]
  rfl

theorem Name.ne_of_isValid {name : String} (h : Name.isValid name) (left right : String) :
    name ≠ left ++ "." ++ right := by
  rintro rfl
  simp [isValid] at h

theorem Source.field?_eq_none {source : Source} {name : String} (hv : Name.isValid name)
    (hf : source.leavesFree name) : source.field? name = none := by
  rw [leavesFree] at hf
  rw [field?]
  cases ha : source.aliasName with
  | some aliasName =>
      simp only [Name.hop_eq_none hv]
      rfl
  | none =>
      simp only [ha, Bool.not_eq_true'] at hf
      simp only [hf, Bool.false_eq_true, if_false]

namespace Stage

variable {s t : Stage} {name fresh : String}

theorem direct?_congr (hsource : t.source = s.source) (hlets : t.lets = s.lets) :
    t.direct? = s.direct? := by
  funext n
  rw [direct?, direct?, let?, let?, hsource, hlets]

theorem plainRoute_congr (h : t.direct? = s.direct?) : t.plainRoute = s.plainRoute := by
  funext n
  rw [plainRoute, plainRoute, h]

/-- Names that lead to a let or a field lead there as before, except for one that is new and
contains no point; then no route changes but that of the new name. -/
theorem route_congr (hshorts : t.shorts = s.shorts)
    (hdirect : ∀ n, n ≠ fresh → t.direct? n = s.direct? n) (hvalid : Name.isValid fresh)
    (hpaths : ∀ p ∈ s.shorts, ∃ via, p.2 = via ++ "." ++ p.1) (hne : name ≠ fresh) :
    t.route name = s.route name := by
  -- A short name stands for a path, and no path is a name that can be declared.
  have hplain : ∀ left right, t.plainRoute (left ++ "." ++ right) =
      s.plainRoute (left ++ "." ++ right) := by
    intro left right
    rw [plainRoute, plainRoute, hdirect _ (Name.ne_of_isValid hvalid left right).symm]
  rw [route, route, hdirect name hne, hshorts]
  cases hshort : s.shorts.find? name with
  | some path =>
      obtain ⟨via, hpath⟩ := hpaths _ (Table.mem_of_find?_eq_some hshort)
      simp only at hpath ⊢
      rw [hpath, hplain]
  | none =>
      simp only
      split
      · rfl
      · rfl
      · split
        · rw [hplain]
        · rfl

/-- A new short name changes no route but its own and those that start with it. -/
theorem route_addShort {path : String} (hnew : s.shorts.find? fresh = none) (hne : name ≠ fresh)
    (hfirst : ∀ rest, s.route name ≠ .joined fresh rest) :
    ({ s with shorts := s.shorts.insert fresh path } : Stage).route name = s.route name := by
  have hplain : ({ s with shorts := s.shorts.insert fresh path } : Stage).plainRoute =
      s.plainRoute :=
    rfl
  have hdirect : ({ s with shorts := s.shorts.insert fresh path } : Stage).direct? = s.direct? :=
    rfl
  rw [route] at hfirst ⊢
  rw [Table.find?_insert_ne hne, hplain, hdirect, route]
  cases hshort : s.shorts.find? name with
  | some path' => rfl
  | none =>
      cases hd : s.direct? name with
      | some r => rfl
      | none =>
          cases hh : Name.hop name with
          | none => rfl
          | some hop =>
              obtain ⟨first, rest⟩ := hop
              have hne' : first ≠ fresh := by
                rintro rfl
                simp only [hshort, hd, hh, hnew] at hfirst
                exact hfirst rest rfl
              simp only [Table.find?_insert_ne hne']

theorem passed?_congr (h : t.shape = s.shape) : t.passed? = s.passed? := by
  funext leads name
  rw [passed?, passed?, h]

/-- Every field the stage observes is one variable, and every variable one field. -/
def ObservesOnce (a : Arena) (s : Stage) : Prop :=
  s.observed.keys.Nodup ∧
    ∀ o ∈ s.observed, a.definition? o.2 = some (.observed (s.source.aliasName.getD "") o.1)

end Stage

namespace Query

variable {a b c : Arena} {s t : Stage} {js before after : List (String × Query)}
  {q q' u u' : Query} {name aliasName : String} {names : List String} {v w : VarId} {r : Route}

/-! ## Routes -/

/-- A name that may be declared leads nowhere. -/
theorem route_of_isAvailable (hn : q.isAvailable name) : q.stage.route name = .unknown name := by
  obtain ⟨hvalid, hfree, hnew⟩ := isAvailable_iff.mp hn
  simp only [declared, List.mem_append, not_or] at hnew
  obtain ⟨⟨hlet, _⟩, hshort⟩ := hnew
  have hdirect : q.stage.direct? name = none := by
    rw [Stage.direct?, Stage.let?_eq_none_iff.mpr hlet, Source.field?_eq_none hvalid hfree]
    rfl
  rw [Stage.route, Table.find?_eq_none_iff.mpr hshort, hdirect, Name.hop_eq_none hvalid]

/-- The name leads to a variable or a field of the first stage, or on to a joined query. -/
def Takes (q : Query) (name : String) (r : Route) : Prop :=
  q.stage.route name = r ∧ match r with
    | .bound _ => True
    | .exported _ => True
    | .joined aliasName _ => aliasName ∈ q.joins.keys
    | .unknown _ => False

theorem Takes.ne (h : q.Takes name r) {fresh : String} (hn : q.isAvailable fresh) :
    name ≠ fresh := by
  rintro rfl
  obtain ⟨hr, htakes⟩ := h
  rw [route_of_isAvailable hn] at hr
  rw [← hr] at htakes
  exact htakes

theorem Takes.restage (h : (node s js).Takes name r) (hsource : t.source = s.source)
    (hlets : t.lets = s.lets) (hshorts : t.shorts = s.shorts) : (node t js).Takes name r := by
  obtain ⟨hr, htakes⟩ := h
  have hdirect := Stage.direct?_congr hsource hlets
  refine ⟨?_, htakes⟩
  rw [← hr]
  simp only [stage_node, Stage.route, hdirect, hshorts, Stage.plainRoute_congr hdirect]

/-- A new let changes no route that is taken. -/
theorem Takes.addLet {fresh : String} (h : (node s js).Takes name r)
    (hl : (node s js).LegibleAt a) (hn : (node s js).isAvailable fresh) :
    (node { s with lets := s.lets ++ [(fresh, w)] } js).Takes name r := by
  have hne := h.ne hn
  obtain ⟨hr, htakes⟩ := h
  obtain ⟨hvalid, _, _⟩ := isAvailable_iff.mp hn
  have hdirect : ∀ n, n ≠ fresh →
      ({ s with lets := s.lets ++ [(fresh, w)] } : Stage).direct? n = s.direct? n := by
    intro n hn
    have hlet : ({ s with lets := s.lets ++ [(fresh, w)] } : Stage).let? n = s.let? n := by
      rw [Stage.let?, Stage.let?, List.lookup_append, List.lookup_cons, beq_false_of_ne hn]
      exact Option.or_none
    rw [Stage.direct?, Stage.direct?, hlet]
  refine ⟨hr ▸ Stage.route_congr rfl hdirect hvalid (fun p hp => ?_) hne, htakes⟩
  obtain ⟨via, _, hpath⟩ := hl.shorts p hp
  exact ⟨via, hpath⟩

/-- A new short name changes no route that is taken. -/
theorem Takes.addShort {fresh path : String} (h : (node s js).Takes name r)
    (hn : (node s js).isAvailable fresh) :
    (node { s with shorts := s.shorts.insert fresh path } js).Takes name r := by
  have hne := h.ne hn
  obtain ⟨rfl, htakes⟩ := h
  obtain ⟨_, _, hnew⟩ := isAvailable_iff.mp hn
  simp only [declared, List.mem_append, not_or] at hnew
  refine ⟨Stage.route_addShort (Table.find?_eq_none_iff.mpr hnew.2) hne fun rest hr => ?_, htakes⟩
  rw [stage_node, hr] at htakes
  exact hnew.1.2 htakes

/-! ## Settled names -/

mutual

/-- The variable that a name is settled on: all on its way is observed and delivered already. -/
def settled? (name : String) : Query → Option VarId
  | .node s js =>
      match s.route name with
      | .bound v => some v
      | .exported field => s.observed.find? field
      | .joined aliasName rest => settledFrom? aliasName rest js
      | .unknown _ => none

def settledFrom? (aliasName rest : String) : List (String × Query) → Option VarId
  | [] => none
  | (k, q) :: js =>
      if k = aliasName then
        (q.stage.passed? (fun name => q.settled? name) rest).filter q.stage.outputs.contains
      else settledFrom? aliasName rest js

end

/-- The variable that a name is settled on for the stage that joins the query. -/
def delivered? (q : Query) (name : String) : Option VarId :=
  (q.stage.passed? (fun name => q.settled? name) name).filter q.stage.outputs.contains

theorem settledFrom?_eq {rest : String} :
    settledFrom? aliasName rest js = (Table.find? aliasName js).bind (·.delivered? rest) := by
  induction js with
  | nil => rfl
  | cons j js ih =>
      obtain ⟨k, u⟩ := j
      rw [settledFrom?, Table.find?]
      split
      · rfl
      · exact ih

theorem settled?_node : (node s js).settled? name = match s.route name with
    | .bound v => some v
    | .exported field => s.observed.find? field
    | .joined aliasName rest => (Table.find? aliasName js).bind (·.delivered? rest)
    | .unknown _ => none := by
  rw [settled?]
  simp only [settledFrom?_eq]

theorem delivered?_eq_some_iff : q.delivered? name = some v ↔
    q.stage.passed? (fun n => q.settled? n) name = some v ∧ v ∈ q.stage.outputs := by
  rw [delivered?, Option.filter_eq_some_iff, List.contains_iff_mem]

/-! ## Resolving settles -/

theorem settled?_restage {t : Stage} (hroute : t.route = s.route)
    (hobserved : t.observed = s.observed) :
    (node t js).settled? name = (node s js).settled? name := by
  rw [settled?_node, settled?_node, hroute, hobserved]

theorem settled?_deliverAlso : (q.withStage (·.deliverAlso w)).settled? name = q.settled? name := by
  cases q
  exact settled?_restage rfl rfl

/-- What a joined query has delivered is settled, as the name was that it resolved. -/
theorem delivered_of_deliver {input : String → Build (Query × VarId)}
    (hinput : ∀ {n u x}, (input n).Yields a (u, x) b →
      u.settled? n = some x ∧ u.stage.shape = q.stage.shape)
    (h : (q.deliver input name).Yields a (q', v) b) : q'.delivered? name = some v := by
  obtain ⟨u, known, rfl, hpassed, hknown⟩ := passed_of_deliver h
  have hshape : u.stage.shape = q.stage.shape := by
    rcases hknown with ⟨rfl, _⟩ | ⟨n, x, hi, _⟩
    · rfl
    · exact (hinput hi).2
  have hsettled : ∀ n x, known.lookup n = some x → u.settled? n = some x := by
    rcases hknown with ⟨_, _, rfl⟩ | ⟨n, x, hi, rfl⟩
    · intro m y hm
      cases hm
    · intro m y hm
      obtain ⟨rfl, rfl⟩ : m = n ∧ x = y := by
        rw [List.lookup_cons] at hm
        split at hm
        · next heq => exact ⟨beq_iff_eq.mp heq, Option.some_inj.mp hm⟩
        · cases hm
      exact (hinput hi).1
  refine delivered?_eq_some_iff.mpr ?_
  cases u with
  | node t ks =>
      refine ⟨?_, Ascending.mem_insert.mpr (Or.inl rfl)⟩
      have hpass := Stage.passed?_mono hsettled hpassed
      rw [← Stage.passed?_congr hshape] at hpass
      simp only [settled?_deliverAlso]
      exact hpass

/-- Once a name is resolved it is settled on the variable it led to. -/
theorem settled_input (hl : q.Legible a) (h : (q.input name).Yields a (q', v) b) :
    q'.settled? name = some v := by
  induction q generalizing name v a b q' with
  | node s js ih =>
      rw [input] at h
      split at h
      · next hr =>
          obtain ⟨he, rfl⟩ := Build.yields_pure.mp h
          cases he
          rw [settled?_node, hr]
      · next field hr =>
          obtain ⟨⟨s', x⟩, c, ho, h⟩ := Build.yields_bind.mp h
          obtain ⟨he, rfl⟩ := Build.yields_pure.mp h
          cases he
          rw [Stage.observe] at ho
          split at ho
          · next hf =>
              obtain ⟨he, rfl⟩ := Build.yields_pure.mp ho
              cases he
              rw [settled?_node, hr]
              exact hf
          · obtain ⟨y, d, hd, ho⟩ := Build.yields_bind.mp ho
            obtain ⟨rfl, rfl⟩ := Build.yields_define.mp hd
            obtain ⟨he, rfl⟩ := Build.yields_pure.mp ho
            cases he
            -- Observing a field changes no route.
            have hroute : ({ s with observed := s.observed.insert field ⟨a.defs.length⟩ } :
                Stage).route name = .exported field := hr
            rw [settled?_node, hroute]
            exact Table.find?_insert_self ..
      · next aliasName rest hr =>
          obtain ⟨⟨js', x⟩, c, hj, h⟩ := Build.yields_bind.mp h
          obtain ⟨he, rfl⟩ := Build.yields_pure.mp h
          cases he
          obtain ⟨before, u, u', after, rfl, rfl, hu⟩ := inputFrom_eq hj
          obtain ⟨hown, hjoined⟩ := legible_node.mp hl
          have hmem : (aliasName, u) ∈ before ++ (aliasName, u) :: after :=
            List.mem_append_cons_self
          have hfind : Table.find? aliasName (before ++ (aliasName, u') :: after) = some u' :=
            Table.find?_of_mem hown.rejoin.aliases List.mem_append_cons_self
          rw [settled?_node, hr]
          simp only [hfind, Option.bind_some]
          refine delivered_of_deliver (fun hi => ⟨ih _ hmem (hjoined _ hmem) hi, ?_⟩) hu
          exact (resolved_input hi).1.shape
      · exact (Build.not_yields_throw h).elim

/-! ## Settled names last -/

/-- Names stay settled, for the own stage of the query. -/
def Retains (q q' : Query) : Prop := ∀ name v, q.settled? name = some v → q'.settled? name = some v

/-- Names stay settled, for the stage that joins the query. -/
def Serves (q q' : Query) : Prop :=
  ∀ name v, q.delivered? name = some v → q'.delivered? name = some v

theorem Retains.serves (h : q.Retains q') (hshape : q'.stage.shape = q.stage.shape)
    (houtputs : ∀ v ∈ q.stage.outputs, v ∈ q'.stage.outputs) : q.Serves q' := by
  intro name v hv
  obtain ⟨hpassed, hout⟩ := delivered?_eq_some_iff.mp hv
  refine delivered?_eq_some_iff.mpr ⟨?_, houtputs v hout⟩
  rw [Stage.passed?_congr hshape]
  exact Stage.passed?_mono h hpassed

/-- Names stay settled if routes that are taken, observed variables and joins stay. -/
theorem retains_node {t : Stage} {ks : List (String × Query)}
    (hroute : ∀ {name r}, (node s js).Takes name r → (node t ks).Takes name r)
    (hobserved : ∀ {field v}, s.observed.find? field = some v → t.observed.find? field = some v)
    (hjoins : ∀ {k u}, Table.find? k js = some u → ∃ u', Table.find? k ks = some u' ∧ u.Serves u') :
    (node s js).Retains (node t ks) := by
  intro name v hv
  rw [settled?_node] at hv ⊢
  split at hv
  · next w hr =>
      have ht : t.route name = .bound w := (hroute ⟨hr, trivial⟩).1
      rw [ht]
      exact hv
  · next field hr =>
      have ht : t.route name = .exported field := (hroute ⟨hr, trivial⟩).1
      rw [ht]
      exact hobserved hv
  · next k rest hr =>
      obtain ⟨u, hfind, hu⟩ := Option.bind_eq_some_iff.mp hv
      have hk : k ∈ Table.keys js := List.mem_map_of_mem (Table.mem_of_find?_eq_some hfind)
      have ht : t.route name = .joined k rest := (hroute ⟨hr, hk⟩).1
      obtain ⟨u', hfind', hserves⟩ := hjoins hfind
      rw [ht]
      exact Option.bind_eq_some_iff.mpr ⟨u', hfind', hserves _ _ hu⟩
  · cases hv

/-- Nothing but the shape, the conditions and the outputs of the first stage changes, and fields
may be observed. -/
theorem retains_restage {t : Stage} (hsource : t.source = s.source) (hlets : t.lets = s.lets)
    (hshorts : t.shorts = s.shorts)
    (hobserved : ∀ {field v}, s.observed.find? field = some v → t.observed.find? field = some v) :
    (node s js).Retains (node t js) :=
  retains_node (fun h => h.restage hsource hlets hshorts) hobserved
    fun hfind => ⟨_, hfind, fun _ _ h => h⟩

/-- One of the joined queries changes, and serves as before. -/
theorem retains_rejoin (hl : (node s (before ++ (aliasName, u) :: after)).LegibleAt a)
    (h : u.Serves u') :
    (node s (before ++ (aliasName, u) :: after)).Retains
      (node s (before ++ (aliasName, u') :: after)) := by
  refine retains_node (fun htakes => ?_) id fun {k w} hfind => ?_
  · obtain ⟨hr, htakes⟩ := htakes
    refine ⟨hr, ?_⟩
    simpa [Table.keys] using htakes
  · have hmem := Table.mem_of_find?_eq_some hfind
    have hrest : ∀ {x}, x ∈ before ++ after → x ∈ before ++ (aliasName, u') :: after := by
      intro x hx
      simp only [List.mem_append, List.mem_cons] at hx ⊢
      tauto
    have hfind' : ∀ {x}, (k, x) ∈ before ++ (aliasName, u') :: after →
        Table.find? k (before ++ (aliasName, u') :: after) = some x :=
      fun hx => Table.find?_of_mem hl.rejoin.aliases hx
    rw [List.mem_append, List.mem_cons, or_left_comm, ← List.mem_append] at hmem
    rcases hmem with heq | hmem
    · cases heq
      exact ⟨u', hfind' List.mem_append_cons_self, h⟩
    · exact ⟨w, hfind' (hrest hmem), fun _ _ h => h⟩

theorem retains_mark {x y : Arena × Query} (hl : x.2.Legible x.1) (h : Mark x y) :
    x.2.Retains y.2 ∧ x.2.Serves y.2 := by
  induction h with
  | @observe a s js field hf =>
      have hretains : (node s js).Retains
          (node { s with observed := s.observed.insert field ⟨a.defs.length⟩ } js) := by
        refine retains_restage rfl rfl rfl fun {f v} hv => ?_
        have hne : f ≠ field := by
          rintro rfl
          cases hf.symm.trans hv
        exact (Table.find?_insert_ne hne _ _).trans hv
      exact ⟨hretains, hretains.serves rfl fun v hv => hv⟩
  | @deliver a q v =>
      have hretains : q.Retains (q.withStage (·.deliverAlso v)) :=
        fun name w hw => settled?_deliverAlso.trans hw
      cases q
      exact ⟨hretains, hretains.serves rfl fun w hw => Ascending.mem_insert.mpr (Or.inr hw)⟩
  | joined hm ih =>
      obtain ⟨hown, hjoined⟩ := legible_node.mp hl
      obtain ⟨_, hserves⟩ := ih (hjoined _ List.mem_append_cons_self)
      have hretains := retains_rejoin hown hserves
      exact ⟨hretains, hretains.serves rfl fun v hv => hv⟩

theorem retains_setJoin (hn : q.isAvailable name) : q.Retains (q.setJoin name u) := by
  have hnew : name ∉ q.joins.keys := fun hm => (isAvailable_iff.mp hn).2.2
    (List.mem_append_left _ (List.mem_append_right _ hm))
  cases q with
  | node s js =>
      refine retains_node (fun htakes => ?_) id fun {k w} hfind => ⟨w, ?_, fun _ _ h => h⟩
      · obtain ⟨hr, htakes⟩ := htakes
        refine ⟨hr, ?_⟩
        have hkeys := (Table.insert_perm_cons (a := u) hnew).map fun j : String × Query => j.1
        split at htakes
        · trivial
        · trivial
        · exact hkeys.mem_iff.mpr (List.mem_cons_of_mem _ htakes)
        · exact htakes
      · have hne : k ≠ name := by
          rintro rfl
          exact hnew (List.mem_map_of_mem (Table.mem_of_find?_eq_some hfind))
        exact (Table.find?_insert_ne hne _ _).trans hfind

/-- No change to a query disturbs a name that is settled. -/
theorem retains_change {x y : Arena × Query} (hl : x.2.Legible x.1) (h : Change Legible x y) :
    x.2.Retains y.2 := by
  cases h with
  | extend _ => exact fun _ _ hv => hv
  | mark hm => exact (retains_mark hl hm).1
  | @addWhere _ q _ =>
      cases q
      exact retains_restage rfl rfl rfl id
  | @addLet a q _ _ _ hn =>
      cases q
      exact retains_node (fun h => h.addLet (hl _ (self_mem_parts _)) hn) id
        fun hfind => ⟨_, hfind, fun _ _ h => h⟩
  | @finish _ q _ _ _ _ =>
      cases q
      exact retains_restage rfl rfl rfl id
  | @addAggregate _ q _ _ _ _ _ =>
      cases q
      exact retains_restage rfl rfl rfl id
  | setJoin hn _ => exact retains_setJoin hn
  | @setJoinVia a s before after u existing via name hn hnested _ =>
      -- The short name comes first, and then the joined query gives way to one that joins more.
      have hshort : (node s (before ++ (via, existing) :: after)).Retains
          (node { s with shorts := s.shorts.insert name (via ++ "." ++ name) }
            (before ++ (via, existing) :: after)) :=
        retains_node (fun h => h.addShort hn) id fun hfind => ⟨_, hfind, fun _ _ h => h⟩
      have hvia : via ∈ Table.keys (before ++ (via, existing) :: after) := by simp [Table.keys]
      have hown := legible_addShort hl hvia hn _ (self_mem_parts _)
      have hserves : existing.Serves (existing.setJoin name u) :=
        (retains_setJoin hnested).serves rfl fun v hv => hv
      exact fun m v hv => retains_rejoin hown hserves m v (hshort m v hv)

/-! ## Settled names resolve without marks -/

theorem inputFrom_of_find? {rest : String} (hfind : Table.find? aliasName js = some u)
    (h : (u.output rest).Yields b (u, v) b) : (inputFrom aliasName rest js).Yields b (js, v) b := by
  obtain ⟨before, after, rfl, hbefore⟩ := Table.exists_append_of_find? hfind
  rw [inputFrom_append hbefore]
  exact Build.yields_bind.mpr ⟨(u, v), b, h, Build.yields_pure.mpr ⟨rfl, rfl⟩⟩

theorem deliver_of_delivered? {input : String → Build (Query × VarId)}
    (hsorted : q.stage.outputs.Sorted)
    (hinput : ∀ {n x}, q.settled? n = some x → (input n).Yields b (q, x) b)
    (h : q.delivered? name = some v) : (q.deliver input name).Yields b (q, v) b := by
  obtain ⟨hpassed, hout⟩ := delivered?_eq_some_iff.mp h
  have hmarked : q.withStage (·.deliverAlso v) = q := by
    cases q with
    | node s js =>
        have hinsert : s.outputs.insert v = s.outputs := Ascending.insert_of_mem hsorted hout
        rw [withStage, Stage.deliverAlso, hinsert]
  have hpure :
      (pure (q.withStage (·.deliverAlso v), v) : Build (Query × VarId)).Yields b (q, v) b :=
    Build.yields_pure.mpr ⟨by rw [hmarked], rfl⟩
  rw [Stage.passed?] at hpassed
  rw [deliver]
  cases hs : q.stage.shape with
  | group keys gs =>
      rw [hs] at hpassed
      cases hname : Name.aggregate? name with
      | none =>
          simp only [hname] at hpassed ⊢
          obtain ⟨hv, hk⟩ := Option.filter_eq_some_iff.mp hpassed
          refine Build.yields_bind.mpr ⟨(q, v), b, hinput hv, ?_⟩
          simp only [hk, if_true]
          exact hpure
      | some r =>
          obtain ⟨how, operand⟩ := r
          cases operand with
          | none =>
              simp only [hname] at hpassed ⊢
              obtain ⟨g, hfind, rfl⟩ := Option.map_eq_some_iff.mp hpassed
              refine Build.yields_bind.mpr ⟨(q, none), b, Build.yields_pure.mpr ⟨rfl, rfl⟩, ?_⟩
              simp only [hfind]
              exact hpure
          | some operand =>
              simp only [hname] at hpassed ⊢
              obtain ⟨w, hw, hfound⟩ := Option.bind_eq_some_iff.mp hpassed
              obtain ⟨g, hfind, rfl⟩ := Option.map_eq_some_iff.mp hfound
              refine Build.yields_bind.mpr ⟨(q, w), b, hinput hw, Build.yields_bind.mpr
                ⟨(q, some w), b, Build.yields_pure.mpr ⟨rfl, rfl⟩, ?_⟩⟩
              simp only [hfind]
              exact hpure
  | select selected =>
      rw [hs] at hpassed
      obtain ⟨hv, hk⟩ := Option.filter_eq_some_iff.mp hpassed
      refine Build.yields_bind.mpr ⟨(q, v), b, hinput hv, ?_⟩
      simp only [hk, if_true]
      exact hpure
  | unfinished | filter keep =>
      rw [hs] at hpassed
      exact Build.yields_bind.mpr ⟨(q, v), b, hinput hpassed, hpure⟩

/-- A name that is settled resolves to its variable, and nothing is marked. -/
theorem input_of_settled (hn : q.Neat false) (h : q.settled? name = some v) (b : Arena) :
    (q.input name).Yields b (q, v) b := by
  induction q generalizing name v with
  | node s js ih =>
      obtain ⟨_, hjoined⟩ := neat_node.mp hn
      rw [settled?_node] at h
      rw [input]
      cases hr : s.route name with
      | bound w =>
          rw [hr] at h
          cases h
          exact Build.yields_pure.mpr ⟨rfl, rfl⟩
      | exported field =>
          rw [hr] at h
          refine Build.yields_bind.mpr ⟨(s, v), b, ?_, Build.yields_pure.mpr ⟨rfl, rfl⟩⟩
          simp only [Stage.observe, h]
          exact Build.yields_pure.mpr ⟨rfl, rfl⟩
      | joined k rest =>
          rw [hr] at h
          obtain ⟨u, hfind, hu⟩ := Option.bind_eq_some_iff.mp h
          have hmem := Table.mem_of_find?_eq_some hfind
          refine Build.yields_bind.mpr ⟨(js, v), b, inputFrom_of_find? hfind ?_,
            Build.yields_pure.mpr ⟨rfl, rfl⟩⟩
          exact deliver_of_delivered? (hjoined _ hmem).stage.outputs
            (fun hx => ih _ hmem (hjoined _ hmem) hx) hu
      | unknown n =>
          rw [hr] at h
          cases h

/-! ## Names of earlier calls -/

/-- A call read these names as these variables: as the arguments of its condition or its let, as
what it selects or groups by, or as what it aggregates. -/
inductive Resolves : Arena × Query → Arena × Query → List String → List VarId → Prop where
  | addWhere {a a' : Arena} {q q' : Query} {expr : String} {names : List String}
      {vs : List VarId} :
      (q.addWhere expr names).Yields a q' a' →
      q'.stage.wheres = q.stage.wheres ++ [⟨expr, vs⟩] → Resolves (a, q) (a', q') names vs
  | addLet {a a' : Arena} {q q' : Query} {name expr : String} {names : List String} {w : VarId}
      {vs : List VarId} :
      (q.addLet name expr names).Yields a q' a' → q'.stage.lets = q.stage.lets ++ [(name, w)] →
      a'.definition? w = some (.computed name expr vs) → Resolves (a, q) (a', q') names vs
  | select {a a' : Arena} {q q' : Query} {names : List String} {vs : List VarId} :
      (q.select names).Yields a q' a' → q'.stage.shape = .select vs →
      Resolves (a, q) (a', q') names vs
  | groupBy {a a' : Arena} {q q' : Query} {names : List String} {vs : List VarId} :
      (q.groupBy names).Yields a q' a' → q'.stage.shape = .group vs [] →
      Resolves (a, q) (a', q') names vs
  | aggregate {a a' : Arena} {q q' : Query} {name : String} {how : Aggregation}
      {keys : List VarId} {gs : List Aggregate} {v w : VarId} :
      (q.aggregate name how).Yields a q' a' →
      q'.stage.shape = .group keys (gs ++ [⟨w, how, some v⟩]) → Resolves (a, q) (a', q') [name] [v]

/-- Changes disturb no name that is settled. -/
theorem Changes.retains {x y : Arena × Query} (hl : x.2.Legible x.1) (h : Changes Legible x y) :
    x.2.Retains y.2 := by
  intro name v hv
  have hboth : y.2.Legible y.1 ∧ y.2.settled? name = some v :=
    Changes.preserve (R := fun a q => q.Legible a ∧ q.settled? name = some v)
      (fun hx hc => ⟨Legible.change hx.1 hc, retains_change hx.1 hc _ _ hx.2⟩) ⟨hl, hv⟩ h
  exact hboth.2

theorem settled_inputs {vs : List VarId} (hl : q.Legible a)
    (h : (q.inputs names).Yields a (q', vs) b) :
    List.Forall₂ (fun name v => q'.settled? name = some v) names vs := by
  induction names generalizing q a vs with
  | nil =>
      obtain ⟨he, rfl⟩ := Build.yields_pure.mp h
      cases he
      exact .nil
  | cons name names ih =>
      obtain ⟨⟨u, v⟩, c, hi, h⟩ := Build.yields_bind.mp h
      obtain ⟨⟨u', ws⟩, d, hs, h⟩ := Build.yields_bind.mp h
      obtain ⟨he, rfl⟩ := Build.yields_pure.mp h
      cases he
      have hlegible : u.Legible c :=
        Changes.preserve (R := fun a q => q.Legible a) Legible.change hl (marks_input hi).changes
      refine .cons ?_ (ih hlegible hs)
      exact Changes.retains hlegible (marks_inputs hs).changes name v (settled_input hl hi)

/-- What a call reads is resolved before the one change that it is for. -/
theorem Resolves.inputs {x y : Arena × Query} {vs : List VarId} (h : Resolves x y names vs) :
    ∃ b u, (x.2.inputs names).Yields x.1 (u, vs) b ∧ Changes Legible (b, u) y := by
  cases h with
  | addWhere h hwheres =>
      obtain ⟨_, _, hu, h⟩ := Build.yields_bind.mp h
      obtain ⟨_, rfl⟩ := Build.yields_liftExcept.mp hu
      obtain ⟨⟨u, ws⟩, b, hi, h⟩ := Build.yields_bind.mp h
      obtain ⟨rfl, rfl⟩ := Build.yields_pure.mp h
      rw [stage_withStage, (resolved_inputs hi).1.wheres] at hwheres
      cases List.append_cancel_left hwheres
      exact ⟨b, u, hi, .single (.addWhere _)⟩
  | addLet h hlets hd =>
      obtain ⟨_, _, hu, h⟩ := Build.yields_bind.mp h
      obtain ⟨_, rfl⟩ := Build.yields_liftExcept.mp hu
      obtain ⟨_, _, ha, h⟩ := Build.yields_bind.mp h
      obtain ⟨havailable, rfl⟩ := Build.yields_liftExcept.mp ha
      obtain ⟨⟨u, ws⟩, b, hi, h⟩ := Build.yields_bind.mp h
      obtain ⟨v, c, hv, h⟩ := Build.yields_bind.mp h
      obtain ⟨rfl, rfl⟩ := Build.yields_define.mp hv
      obtain ⟨rfl, rfl⟩ := Build.yields_pure.mp h
      rw [stage_withStage, (resolved_inputs hi).1.lets] at hlets
      cases List.append_cancel_left hlets
      cases hd.symm.trans List.getElem?_concat_length
      have hn := (marks_inputs hi).isAvailable (isAvailable_of_require havailable)
      exact ⟨b, u, hi, .single (.addLet _ _ hn)⟩
  | select h hshape =>
      obtain ⟨_, _, hu, h⟩ := Build.yields_bind.mp h
      obtain ⟨hunfinished, rfl⟩ := Build.yields_liftExcept.mp hu
      obtain ⟨⟨u, ws⟩, b, hi, h⟩ := Build.yields_bind.mp h
      obtain ⟨rfl, rfl⟩ := Build.yields_pure.mp h
      rw [stage_withStage] at hshape
      cases hshape
      have hold := (resolved_inputs hi).1.shape.trans (requireUnfinished_eq_ok hunfinished)
      exact ⟨b, u, hi, .single (.finish _ hold (Or.inl rfl))⟩
  | groupBy h hshape =>
      obtain ⟨_, _, hu, h⟩ := Build.yields_bind.mp h
      obtain ⟨hunfinished, rfl⟩ := Build.yields_liftExcept.mp hu
      obtain ⟨⟨u, ws⟩, b, hi, h⟩ := Build.yields_bind.mp h
      obtain ⟨rfl, rfl⟩ := Build.yields_pure.mp h
      rw [stage_withStage] at hshape
      cases hshape
      have hold := (resolved_inputs hi).1.shape.trans (requireUnfinished_eq_ok hunfinished)
      exact ⟨b, u, hi, .single (.finish _ hold (Or.inr rfl))⟩
  | aggregate h hshape =>
      obtain ⟨⟨u, x⟩, b, hi, h⟩ := Build.yields_bind.mp h
      have hchanges := changes_addAggregate (P := Legible) h
      dsimp only at h
      rw [addAggregate] at h
      split at h
      · obtain ⟨_, c, hd, h⟩ := Build.yields_bind.mp h
        obtain ⟨rfl, rfl⟩ := Build.yields_define.mp hd
        obtain ⟨rfl, rfl⟩ := Build.yields_pure.mp h
        rw [stage_withStage] at hshape
        obtain ⟨_, hgs⟩ := Shape.group.inj hshape
        cases (List.append_inj' hgs rfl).2
        exact ⟨b, u, Build.yields_bind.mpr ⟨(u, _), b, hi, Build.yields_pure.mpr ⟨rfl, rfl⟩⟩,
          hchanges⟩
      · exact (Build.not_yields_throw h).elim

theorem LegibleAt.observesOnce (h : q.LegibleAt a) : q.stage.ObservesOnce a := by
  refine ⟨h.fields, fun o ho => ?_⟩
  obtain ⟨d, hd, rfl⟩ := h.origins (.observed o.1, o.2)
    (List.mem_append_left _ (List.mem_append_left _ (List.mem_map_of_mem ho)))
  exact hd

/-- A call that reads names is a call. -/
theorem Resolves.call {x y : Arena × Query} {J : Arena → Query → Prop} {vs : List VarId}
    (h : Resolves x y names vs) : Call J x y := by
  cases h with
  | addWhere h _ => exact .addWhere h
  | addLet h _ _ => exact .addLet h
  | select h _ => exact .select h
  | groupBy h _ => exact .groupBy h
  | aggregate h _ => exact .aggregate h

/-- Names that a call on a built query reads are settled when it is done. -/
theorem Resolves.settled {x y : Arena × Query} {vs : List VarId} (h : Resolves x y names vs)
    (hx : Built x.1 x.2) : List.Forall₂ (fun name v => y.2.settled? name = some v) names vs := by
  obtain ⟨b, u, hi, hchanges⟩ := h.inputs
  have hu : u.Legible b :=
    Changes.preserve (R := fun a q => q.Legible a) Legible.change hx.legible
      (marks_inputs hi).changes
  exact (settled_inputs hx.legible hi).imp fun name v hv => Changes.retains hu hchanges name v hv

theorem Call.retains {x y : Arena × Query} (hx : Built x.1 x.2) (h : Call Built x y) :
    x.2.Retains y.2 :=
  Changes.retains hx.legible (h.changes prepares_legible legible_watch
    (fun _ _ ho => ⟨ho.wellFormed, ho.legible⟩) hx.wellFormed)

/-- No run of calls disturbs a name that is settled. -/
theorem retains_calls {x y : Arena × Query} (hx : Built x.1 x.2)
    (h : Relation.ReflTransGen (Call Built) x y) : x.2.Retains y.2 := by
  induction h with
  | refl => exact fun _ _ hv => hv
  | tail hcalls hc ih => exact fun name v hv => hc.retains (hx.calls hcalls) name v (ih name v hv)

/-- **Names keep their meaning.** Names that a call on a built query read as variables resolve to
the same variables after any further calls, and nothing is observed or marked for it. No stage
observes a field twice. -/
theorem resolved_names_last {x y z : Arena × Query} {vs : List VarId} (hx : Built x.1 x.2)
    (h : Resolves x y names vs) (hcalls : Relation.ReflTransGen (Call Built) y z) :
    List.Forall₂ (fun name v => (z.2.input name).Yields z.1 (z.2, v) z.1) names vs ∧
      ∀ p ∈ z.2.parts, p.stage.ObservesOnce z.1 := by
  have hy := hx.call h.call
  have hz := hy.calls hcalls
  refine ⟨(h.settled hx).imp fun name v hv => ?_, fun p hp => (hz.legible p hp).observesOnce⟩
  exact input_of_settled hz.neat (retains_calls hy hcalls name v hv) _

/-! ## A sample -/

namespace Sample

/-- Visits that a visit was compared with, and what is joined beneath the first of them. -/
def revisited (wheres : List Condition) (shorts : Table String String)
    (js : List (String × Query)) : Query :=
  let earlier := (visits 6 7 []).withStage (·.deliverAlso ⟨7⟩)
  let again := (visits 4 5 (("earlier", earlier) :: js)).withStage (·.deliverAlso ⟨7⟩)
  (visits 0 1 [("again", again), ("earlier", visits 2 3 [])]).withStage fun s =>
    { s with wheres := wheres, shorts := shorts }

def compared : List Condition := [⟨"{0} == {1}", [⟨1⟩, ⟨7⟩]⟩]

end Sample

open Query.Sample in
/-- A short name for a visit before the one compared with takes no path away from it. -/
theorem revisited_names_last :
    List.Forall₂ (fun name v =>
      ((revisited compared [("first", "again.first")]
        [("first", .watch ⟨none, ⟨"visit", ["user"]⟩⟩)]).input
        name).Yields (visitArena 4) (revisited compared [("first", "again.first")]
          [("first", .watch ⟨none, ⟨"visit", ["user"]⟩⟩)], v) (visitArena 4))
      ["who", "again.earlier.who"] [⟨1⟩, ⟨7⟩] := by
  have hwhere : (revisits.addWhere "{0} == {1}" ["who", "again.earlier.who"]).Yields (visitArena 4)
      (revisited compared [] []) (visitArena 4) := by decide +kernel
  have hjoin : ((revisited compared [] []).joinVia "again" "first"
      (.unnamed ⟨"visit", ["user"]⟩) none).Yields (visitArena 4)
      (revisited compared [("first", "again.first")]
        [("first", .watch ⟨none, ⟨"visit", ["user"]⟩⟩)]) (visitArena 4) := by decide +kernel
  have hvisits := (Built.unnamed ⟨"visit", ["user"]⟩).extend (List.nil_prefix)
    built_revisits.wellFormed.ordered
  exact (resolved_names_last built_revisits (.addWhere hwhere (by decide +kernel))
    (.single (.joinVia hvisits hjoin))).1

end Query

end CausalTrace
