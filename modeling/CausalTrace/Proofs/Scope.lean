import CausalTrace.Proofs.Bindings
import CausalTrace.Proofs.Steps
import CausalTrace.Proofs.Trees

/-!
# Which queries compile

A query compiles if and only if it is in scope: at every stage, all that lets,
conditions and the output read is bound there. That lets can be put in order then
follows, because definitions read earlier variables only.
-/

namespace CausalTrace

/-! ## Picking the first -/

section

variable {α : Type} {p : α → Bool} {xs ys : List α} {y : α}

theorem pickFirst_holds (h : pickFirst p xs = some (y, ys)) : p y = true := by
  induction xs generalizing ys with
  | nil => cases h
  | cons x xs ih =>
      rw [pickFirst] at h
      split at h
      · next hx =>
          cases h
          exact hx
      · obtain ⟨⟨z, zs⟩, hz, he⟩ := Option.map_eq_some_iff.mp h
        cases he
        exact ih hz

theorem pickFirst_perm (h : pickFirst p xs = some (y, ys)) : (y :: ys).Perm xs := by
  induction xs generalizing ys with
  | nil => cases h
  | cons x xs ih =>
      rw [pickFirst] at h
      split at h
      · cases h
        exact List.Perm.refl _
      · obtain ⟨⟨z, zs⟩, hz, he⟩ := Option.map_eq_some_iff.mp h
        cases he
        exact (List.Perm.swap x y zs).trans ((ih hz).cons x)

theorem pickFirst_eq_none (h : pickFirst p xs = none) : ∀ x ∈ xs, p x = false := by
  induction xs with
  | nil => exact List.forall_mem_nil _
  | cons x xs ih =>
      rw [pickFirst] at h
      split at h
      · cases h
      · next hx =>
          refine List.forall_mem_cons.mpr ⟨Bool.eq_false_iff.mpr hx, ?_⟩
          exact ih (Option.map_eq_none_iff.mp h)

end

/-! ## Lets in order -/

/-- Lets that are what their variables are defined as, none reading a variable
before it is bound. -/
def Ready (a : Arena) (bound : List VarId) : List (LetSpec VarId) → Prop
  | [] => True
  | l :: ls =>
      (∃ name, a.definition? l.name = some (.computed name l.expr l.args)) ∧
        (∀ u ∈ l.args, u ∈ bound) ∧ Ready a (l.name :: bound) ls

theorem Ready.mono {a : Arena} : ∀ {ls : List (LetSpec VarId)} {bound bound' : List VarId},
    (∀ v ∈ bound, v ∈ bound') → Ready a bound ls → Ready a bound' ls
  | [], _, _, _, _ => trivial
  | l :: ls, bound, bound', hb, ⟨hd, hargs, hr⟩ => by
      refine ⟨hd, fun u hu => hb u (hargs u hu), hr.mono ?_⟩
      intro v hv
      rcases List.mem_cons.mp hv with rfl | hv
      · exact List.mem_cons_self
      · exact List.mem_cons_of_mem _ (hb v hv)

theorem Arena.reads_computed {a : Arena} {v : VarId} {name expr : String} {args : List VarId}
    (h : a.definition? v = some (.computed name expr args)) : a.reads v = args := by
  rw [Arena.reads, h]
  rfl

theorem orderLets_eq_ok {a : Arena} {place : String} {bound pending : List VarId}
    {ls : List (LetSpec VarId)} (h : orderLets a place bound pending = .ok ls) :
    Ready a bound ls ∧ (ls.map (·.name)).Perm pending := by
  induction bound, pending using orderLets.induct a generalizing ls with
  | case1 bound =>
      rw [orderLets] at h
      cases h
      exact ⟨trivial, List.Perm.refl _⟩
  | case2 bound stuck others hp =>
      rw [orderLets] at h
      split at h
      · cases h
      · next hs =>
          rw [hp] at hs
          cases hs
  | case3 bound stuck others v rest hp name expr args hd ih =>
      rw [orderLets] at h
      split at h
      · cases h
      · next v' rest' hs =>
          rw [hp] at hs
          cases hs
          rw [hd] at h
          obtain ⟨later, hl, he⟩ := bind_eq_ok_iff.mp h
          cases he
          obtain ⟨hr, hperm⟩ := ih hl
          have hargs : ∀ u ∈ args, u ∈ bound := by
            have hready := pickFirst_holds hp
            rw [Arena.reads_computed hd] at hready
            simpa using hready
          exact ⟨⟨⟨name, hd⟩, hargs, hr⟩, (hperm.cons v).trans (pickFirst_perm hp)⟩
  | case4 bound stuck others v rest hp hd =>
      rw [orderLets] at h
      split at h
      · cases h
      · next v' rest' hs =>
          rw [hp] at hs
          cases hs
          split at h
          · next hdef => exact (hd _ _ _ hdef).elim
          · cases h

/-- Of some variables, one comes before all others. -/
theorem exists_least : ∀ {vs : List VarId}, vs ≠ [] → ∃ v ∈ vs, ∀ u ∈ vs, v.index ≤ u.index
  | [v], _ => ⟨v, List.mem_singleton_self v, by simp⟩
  | v :: w :: vs, _ => by
      obtain ⟨u, hu, hmin⟩ := exists_least (List.cons_ne_nil w vs)
      rcases Nat.le_total v.index u.index with hle | hle
      · refine ⟨v, List.mem_cons_self, List.forall_mem_cons.mpr ⟨Nat.le_refl _, ?_⟩⟩
        exact fun x hx => Nat.le_trans hle (hmin x hx)
      · refine ⟨u, List.mem_cons_of_mem _ hu, List.forall_mem_cons.mpr ⟨hle, hmin⟩⟩

theorem orderLets_isOk {a : Arena} {place : String} {bound pending : List VarId}
    (ho : a.Ordered)
    (hd : ∀ v ∈ pending, ∃ name expr args, a.definition? v = some (.computed name expr args))
    (hb : ∀ v ∈ pending, ∀ u ∈ a.reads v, u ∈ bound ∨ u ∈ pending) :
    ∃ ls, orderLets a place bound pending = .ok ls := by
  induction bound, pending using orderLets.induct a with
  | case1 bound =>
      rw [orderLets]
      exact ⟨[], rfl⟩
  | case2 bound stuck others hp =>
      obtain ⟨v, hv, hmin⟩ := exists_least (List.cons_ne_nil stuck others)
      have hready : (a.reads v).all bound.contains = true := by
        rw [List.all_eq_true]
        intro u hu
        rcases hb v hv u hu with hm | hm
        · exact List.contains_iff_mem.mpr hm
        · exact absurd (ho v u hu) (Nat.not_lt.mpr (hmin u hm))
      rw [pickFirst_eq_none hp v hv] at hready
      cases hready
  | case3 bound stuck others v rest hp name expr args hdef ih =>
      have hperm := pickFirst_perm hp
      have hsub : ∀ u ∈ rest, u ∈ stuck :: others := fun u hu =>
        hperm.subset (List.mem_cons_of_mem _ hu)
      obtain ⟨ls, hls⟩ := ih (fun u hu => hd u (hsub u hu)) (by
        intro u hu x hx
        rcases hb u (hsub u hu) x hx with hm | hm
        · exact Or.inl (List.mem_cons_of_mem _ hm)
        · rcases List.mem_cons.mp (hperm.mem_iff.mpr hm) with rfl | hm
          · exact Or.inl List.mem_cons_self
          · exact Or.inr hm)
      rw [orderLets]
      split
      · next hs =>
          rw [hp] at hs
          cases hs
      · next v' rest' hs =>
          rw [hp] at hs
          cases hs
          rw [hdef, hls]
          exact ⟨_, rfl⟩
  | case4 bound stuck others v rest hp hnone =>
      obtain ⟨name, expr, args, hdef⟩ := hd v ((pickFirst_perm hp).subset List.mem_cons_self)
      exact (hnone name expr args hdef).elim

/-- What lets in order read is bound, or another let. -/
theorem Ready.reads {a : Arena} : ∀ {ls : List (LetSpec VarId)} {bound : List VarId},
    Ready a bound ls → ∀ l ∈ ls, ∀ u ∈ l.args, u ∈ bound ∨ u ∈ ls.map (·.name)
  | [], _, _ => List.forall_mem_nil _
  | l :: ls, bound, ⟨_, hargs, hr⟩ => by
      rintro k (_ | ⟨_, hk⟩) u hu
      · exact Or.inl (hargs u hu)
      · rcases hr.reads k hk u hu with hm | hm
        · rcases List.mem_cons.mp hm with rfl | hm
          · exact Or.inr List.mem_cons_self
          · exact Or.inl hm
        · exact Or.inr (List.mem_cons_of_mem _ hm)

theorem Ready.definition {a : Arena} : ∀ {ls : List (LetSpec VarId)} {bound : List VarId},
    Ready a bound ls → ∀ l ∈ ls, ∃ name, a.definition? l.name = some (.computed name l.expr l.args)
  | [], _, _ => List.forall_mem_nil _
  | l :: ls, bound, ⟨hd, _, hr⟩ => by
      rintro k (_ | ⟨_, hk⟩)
      · exact hd
      · exact hr.definition k hk

/-! ## Stages in scope -/

theorem requireBound_eq_ok_iff {a : Arena} {reader place : String} {bound vs : List VarId} :
    requireBound a reader place bound vs = .ok () ↔ ∀ v ∈ vs, v ∈ bound := by
  rw [requireBound]
  cases h : vs.find? fun v => !bound.contains v with
  | none =>
      have hall := List.find?_eq_none.mp h
      refine ⟨fun _ v hv => ?_, fun _ => rfl⟩
      simpa using hall v hv
  | some v =>
      refine ⟨fun he => (nomatch he), fun hall => ?_⟩
      have hv := List.find?_some h
      have hm := hall v (List.mem_of_find?_eq_some h)
      rw [List.contains_iff_mem.mpr hm] at hv
      cases hv

namespace Stage

/-- The variables that have to be bound where a stage delivers. -/
def owes (s : Stage) (pack : Bool) : List VarId :=
  if pack then s.packedBag.reads else s.emittedBag.reads

/-- Everything a stage reads is bound there, given what comes in. -/
structure Scoped (a : Arena) (incoming : List VarId) (pack : Bool) (s : Stage) : Prop where
  computed : ∀ v ∈ s.lets.map (·.2), ∃ name expr args,
    a.definition? v = some (.computed name expr args)
  lets : ∀ v ∈ s.lets.map (·.2), ∀ u ∈ a.reads v, u ∈ incoming ++ s.lets.map (·.2)
  wheres : ∀ w ∈ s.wheres, ∀ v ∈ w.args, v ∈ incoming ++ s.lets.map (·.2)
  delivers : ∀ v ∈ s.owes pack, v ∈ incoming ++ s.lets.map (·.2)
  /-- A stage that keeps one row has to be joined. -/
  emits : pack = false → ∀ keep, s.shape ≠ .filter keep

/-- Where the rows of a stage go. -/
def output (s : Stage) (packAs : BagId) (pack : Bool) : OutputSpec VarId :=
  if pack then .pack packAs s.packedBag else .emit packAs.query s.emittedBag

end Stage

/-- A plan is the one of a stage, its lets in some order that is ready. -/
structure Plans (a : Arena) (s : Stage) (unpack : List (UnpackSpec VarId)) (packAs : BagId)
    (pack : Bool) (ls : List (LetSpec VarId)) (plan : AdviceSpec VarId) : Prop where
  ready : Ready a (s.observed.values ++ unpack.flatMap (·.bag.names)) ls
  names : (ls.map (·.name)).Perm (s.lets.map (·.2))
  plan_eq : plan = ⟨s.observed.values, unpack, ls, s.wheres.map fun w => ⟨w.expr, w.args⟩,
    s.output packAs pack⟩

section

variable {a : Arena} {s : Stage} {unpack : List (UnpackSpec VarId)} {packAs : BagId} {pack : Bool}

theorem planStage_eq_ok {plan : AdviceSpec VarId}
    (h : planStage a s unpack packAs pack = .ok plan) :
    s.Scoped a (s.observed.values ++ unpack.flatMap (·.bag.names)) pack ∧
      ∃ ls, Plans a s unpack packAs pack ls plan := by
  rw [planStage] at h
  obtain ⟨ls, hls, h⟩ := bind_eq_ok_iff.mp h
  obtain ⟨_, hw, h⟩ := bind_eq_ok_iff.mp h
  obtain ⟨hready, hnames⟩ := orderLets_eq_ok hls
  have hcomputed : ∀ v ∈ s.lets.map (·.2), ∃ name expr args,
      a.definition? v = some (.computed name expr args) := by
    intro v hv
    obtain ⟨l, hl, rfl⟩ := List.mem_map.mp (hnames.mem_iff.mpr hv)
    obtain ⟨name, hd⟩ := hready.definition l hl
    exact ⟨name, l.expr, l.args, hd⟩
  have hlets : ∀ v ∈ s.lets.map (·.2), ∀ u ∈ a.reads v,
      u ∈ s.observed.values ++ unpack.flatMap (·.bag.names) ++ s.lets.map (·.2) := by
    intro v hv u hu
    obtain ⟨l, hl, rfl⟩ := List.mem_map.mp (hnames.mem_iff.mpr hv)
    obtain ⟨name, hd⟩ := hready.definition l hl
    rw [Arena.reads_computed hd] at hu
    rcases hready.reads l hl u hu with hm | hm
    · exact List.mem_append_left _ hm
    · exact List.mem_append_right _ (hnames.mem_iff.mp hm)
  have hwheres : ∀ w ∈ s.wheres, ∀ v ∈ w.args,
      v ∈ s.observed.values ++ unpack.flatMap (·.bag.names) ++ s.lets.map (·.2) :=
    fun w hm => requireBound_eq_ok_iff.mp (forM_eq_ok_iff.mp hw w hm)
  cases pack with
  | true =>
      obtain ⟨_, hd, h⟩ := bind_eq_ok_iff.mp h
      cases h
      exact ⟨⟨hcomputed, hlets, hwheres, requireBound_eq_ok_iff.mp hd, fun h => (nomatch h)⟩,
        ls, hready, hnames, rfl⟩
  | false =>
      obtain ⟨_, hd, h⟩ := bind_eq_ok_iff.mp h
      have hemits : ∀ keep, s.shape ≠ .filter keep := by
        intro keep hk
        rw [hk] at h
        cases h
      refine ⟨⟨hcomputed, hlets, hwheres, requireBound_eq_ok_iff.mp hd, fun _ => hemits⟩,
        ls, hready, hnames, ?_⟩
      split at h
      · next keep hk => exact absurd hk (hemits keep)
      · cases h
        rfl

theorem planStage_isOk (ho : a.Ordered)
    (hs : s.Scoped a (s.observed.values ++ unpack.flatMap (·.bag.names)) pack) :
    ∃ plan, planStage a s unpack packAs pack = .ok plan := by
  have hlets : ∃ ls, orderLets a s.source.tracepoint.name
      (s.observed.values ++ unpack.flatMap (·.bag.names)) (s.lets.map (·.2)) = .ok ls :=
    orderLets_isOk ho hs.computed fun v hv u hu => List.mem_append.mp (hs.lets v hv u hu)
  obtain ⟨ls, hls⟩ := hlets
  have hw : (s.wheres.forM fun w => requireBound a ("where '" ++ w.expr ++ "'")
      s.source.tracepoint.name (s.observed.values ++ unpack.flatMap (·.bag.names)
        ++ s.lets.map (·.2)) w.args) = .ok () :=
    forM_eq_ok_iff.mpr fun w hm => requireBound_eq_ok_iff.mpr (hs.wheres w hm)
  have hd := hs.delivers
  refine ⟨⟨s.observed.values, unpack, ls, s.wheres.map fun w => ⟨w.expr, w.args⟩,
    s.output packAs pack⟩, ?_⟩
  rw [planStage, hls]
  refine bind_eq_ok_iff.mpr ⟨ls, rfl, bind_eq_ok_iff.mpr ⟨(), hw, ?_⟩⟩
  cases pack with
  | true => exact bind_eq_ok_iff.mpr ⟨(), requireBound_eq_ok_iff.mpr hd, rfl⟩
  | false =>
      refine bind_eq_ok_iff.mpr ⟨(), requireBound_eq_ok_iff.mpr hd, ?_⟩
      split
      · next keep hk => exact absurd hk (hs.emits rfl keep)
      · rfl

end

/-! ## Compiled trees -/

namespace Query

/-- What comes into the stage of a query: what it observes, and what the joined
queries deliver. -/
def incoming (q : Query) : List VarId :=
  q.stage.observed.values ++ q.joins.flatMap fun j => j.2.stage.unpackedBag.names

/-- All variables bound at the stage of a query. -/
def bound (q : Query) : List VarId := q.incoming ++ q.stage.lets.map (·.2)

/-- Everything that a stage of the query reads is bound there. -/
inductive Scoped (a : Arena) : Bool → Query → Prop where
  | node {pack : Bool} {s : Stage} {js : List (String × Query)}
      (own : s.Scoped a (Query.node s js).incoming pack)
      (joined : ∀ j ∈ js, Scoped a true j.2) : Scoped a pack (.node s js)

mutual

/-- The tracepoints of the stages, joined ones first. -/
def places : Query → List String
  | .node s js => joinsPlaces js ++ [s.source.tracepoint.name]

def joinsPlaces : List (String × Query) → List String
  | [] => []
  | (_, q) :: js => q.places ++ joinsPlaces js

end

section

variable {a : Arena} {id : QueryId} {pack : Bool} {start : Nat} {s : Stage}
  {js : List (String × Query)} {weaves : List WeaveSpec} {unpack : List (UnpackSpec VarId)}

/-- The weave of a stage under a plan. -/
def weave (a : Arena) (s : Stage) (own : BagId) (plan : AdviceSpec VarId) : WeaveSpec :=
  ⟨own, s.source.tracepoint.name, s.observed.keys,
    plan.rename (nameIn a (firstMentions plan.mentions))⟩

theorem compileFrom_node_eq_ok_iff {c : Compiled} :
    compileFrom a id pack start (.node s js) = .ok c ↔
      ∃ joined unpack plan, compileJoins a id start js = .ok (joined, unpack) ∧
        planStage a s unpack ⟨id, start + joined.length⟩ pack = .ok plan ∧
        c = ⟨joined, weave a s ⟨id, start + joined.length⟩ plan⟩ := by
  rw [compileFrom, bind_eq_ok_iff]
  constructor
  · rintro ⟨⟨joined, unpack⟩, hj, h⟩
    obtain ⟨plan, hp, he⟩ := bind_eq_ok_iff.mp h
    cases he
    exact ⟨joined, unpack, plan, hj, hp, rfl⟩
  · rintro ⟨joined, unpack, plan, hj, hp, rfl⟩
    exact ⟨(joined, unpack), hj, bind_eq_ok_iff.mpr ⟨plan, hp, rfl⟩⟩

theorem compileJoins_cons_eq_ok_iff {j : String × Query} :
    compileJoins a id start (j :: js) = .ok (weaves, unpack) ↔
      ∃ c later unpackLater, compileFrom a id true start j.2 = .ok c ∧
        compileJoins a id (start + c.weaves.length) js = .ok (later, unpackLater) ∧
        weaves = c.weaves ++ later ∧
        unpack = ⟨c.own.adviceId, j.2.stage.unpackedBag⟩ :: unpackLater := by
  rw [compileJoins, bind_eq_ok_iff]
  constructor
  · rintro ⟨c, hc, h⟩
    obtain ⟨⟨later, unpackLater⟩, hl, he⟩ := bind_eq_ok_iff.mp h
    cases he
    exact ⟨c, later, unpackLater, hc, hl, rfl, rfl⟩
  · rintro ⟨c, later, unpackLater, hc, hl, rfl, rfl⟩
    exact ⟨c, hc, bind_eq_ok_iff.mpr ⟨(later, unpackLater), hl, rfl⟩⟩

/-- What joined queries bind, whatever their bags are called. -/
theorem names_of_compileJoins (h : compileJoins a id start js = .ok (weaves, unpack)) :
    unpack.flatMap (·.bag.names) = js.flatMap fun j => j.2.stage.unpackedBag.names := by
  induction js generalizing start weaves unpack with
  | nil =>
      cases h
      rfl
  | cons j js ih =>
      obtain ⟨c, later, unpackLater, _, hl, _, rfl⟩ := compileJoins_cons_eq_ok_iff.mp h
      rw [List.flatMap_cons, List.flatMap_cons, ih hl]

theorem scoped_of_compileFrom {q : Query} {c : Compiled}
    (h : q.compileFrom a id pack start = .ok c) : q.Scoped a pack := by
  induction q generalizing pack start c with
  | node s js ih =>
      obtain ⟨joined, unpack, plan, hj, hp, rfl⟩ := compileFrom_node_eq_ok_iff.mp h
      have hown := (planStage_eq_ok hp).1
      rw [names_of_compileJoins hj] at hown
      refine .node hown ?_
      clear hown hp h
      induction js generalizing start joined unpack with
      | nil => exact List.forall_mem_nil _
      | cons j js ihjs =>
          obtain ⟨c, later, unpackLater, hc, hl, _, _⟩ := compileJoins_cons_eq_ok_iff.mp hj
          refine List.forall_mem_cons.mpr ⟨ih j List.mem_cons_self hc, ?_⟩
          exact ihjs (fun k hk => ih k (List.mem_cons_of_mem _ hk)) _ _ hl

theorem compileFrom_isOk {q : Query} (ho : a.Ordered) (hq : q.Scoped a pack) :
    ∃ c, q.compileFrom a id pack start = .ok c := by
  induction q generalizing pack start with
  | node s js ih =>
      obtain ⟨hown, hjoined⟩ := hq
      have hjs : ∃ r, compileJoins a id start js = .ok r := by
        clear hown
        induction js generalizing start with
        | nil => exact ⟨_, rfl⟩
        | cons j js ihjs =>
            obtain ⟨c, hc⟩ := ih j List.mem_cons_self (hjoined j List.mem_cons_self)
            obtain ⟨⟨later, unpackLater⟩, hl⟩ := ihjs
              (fun k hk => ih k (List.mem_cons_of_mem _ hk))
              (fun k hk => hjoined k (List.mem_cons_of_mem _ hk))
            exact ⟨_, compileJoins_cons_eq_ok_iff.mpr ⟨c, later, unpackLater, hc, hl, rfl, rfl⟩⟩
      obtain ⟨⟨joined, unpack⟩, hj⟩ := hjs
      rw [incoming, joins_node, ← names_of_compileJoins hj] at hown
      obtain ⟨plan, hp⟩ :
          ∃ plan, planStage a s unpack ⟨id, start + joined.length⟩ pack = .ok plan :=
        planStage_isOk ho hown
      exact ⟨_, compileFrom_node_eq_ok_iff.mpr ⟨joined, unpack, plan, hj, hp, rfl⟩⟩

/-- Every weave of a compiled query is that of the plan of some stage. -/
theorem exists_plan_of_mem_weaves {q : Query} {c : Compiled}
    (h : q.compileFrom a id pack start = .ok c) : ∀ w ∈ c.weaves, ∃ s unpack own pack plan,
      planStage a s unpack own pack = .ok plan ∧ own.query = id ∧ w = weave a s own plan := by
  induction q generalizing pack start c with
  | node s js ih =>
      obtain ⟨joined, unpack, plan, hj, hp, rfl⟩ := compileFrom_node_eq_ok_iff.mp h
      intro w hm
      rcases List.mem_append.mp hm with hw | hw
      · clear hp h hm
        induction js generalizing start joined unpack with
        | nil =>
            cases hj
            cases hw
        | cons j js ihjs =>
            obtain ⟨c, later, unpackLater, hc, hl, rfl, _⟩ := compileJoins_cons_eq_ok_iff.mp hj
            rcases List.mem_append.mp hw with hw | hw
            · exact ih j List.mem_cons_self hc w hw
            · exact ihjs (fun k hk => ih k (List.mem_cons_of_mem _ hk)) _ _ hl hw
      · exact ⟨s, unpack, _, pack, plan, hp, rfl, List.mem_singleton.mp hw⟩

/-- The weaves stand where the stages do. -/
theorem places_of_compileFrom {q : Query} {c : Compiled}
    (h : q.compileFrom a id pack start = .ok c) : c.weaves.map (·.tracepoint) = q.places := by
  induction q generalizing pack start c with
  | node s js ih =>
      obtain ⟨joined, unpack, plan, hj, hp, rfl⟩ := compileFrom_node_eq_ok_iff.mp h
      rw [Compiled.weaves, List.map_append, places]
      congr 1
      clear hp h
      induction js generalizing start joined unpack with
      | nil =>
          cases hj
          rfl
      | cons j js ihjs =>
          obtain ⟨c, later, unpackLater, hc, hl, rfl, _⟩ := compileJoins_cons_eq_ok_iff.mp hj
          rw [List.map_append, ih j List.mem_cons_self hc, joinsPlaces]
          rw [ihjs (fun k hk => ih k (List.mem_cons_of_mem _ hk)) _ _ hl]

/-- Over ordered definitions, compiling succeeds on the queries in scope. -/
theorem compile_isOk_iff {q : Query} (ho : a.Ordered) :
    (∃ c, q.compile a id = .ok c) ↔ q.Scoped a false := by
  constructor
  · rintro ⟨c, hc⟩
    obtain ⟨r, hr, _⟩ := bind_eq_ok_iff.mp hc
    exact scoped_of_compileFrom hr
  · intro hq
    obtain ⟨r, hr⟩ : ∃ r, q.compileFrom a id false 0 = .ok r := compileFrom_isOk ho hq
    exact ⟨⟨id, r.weaves⟩, bind_eq_ok_iff.mpr ⟨r, hr, rfl⟩⟩

end

end Query

/-! ## Scope and definitions -/

namespace Stage

variable {a : Arena} {s : Stage} {v : VarId}

theorem mem_defines_iff :
    v ∈ s.defines ↔ v ∈ s.observed.values ∨ v ∈ s.lets.map (·.2) ∨ v ∈ s.shape.defines := by
  rw [defines, List.mem_append, List.mem_append, or_assoc]

/-- What a joined stage delivers is bound there, or an aggregate of its own. -/
theorem Scoped.names {incoming : List VarId} (h : s.Scoped a incoming true) :
    ∀ v ∈ s.unpackedBag.names, v ∈ incoming ++ s.lets.map (·.2) ∨ v ∈ s.shape.defines := by
  intro v hv
  have hd := h.delivers v
  rw [owes, if_pos rfl, packedBag] at hd
  rw [unpackedBag] at hv
  cases hs : s.shape with
  | unfinished =>
      rw [hs] at hd hv
      exact Or.inl (hd hv)
  | select selected =>
      rw [hs] at hd hv
      exact Or.inl (hd hv)
  | filter keep =>
      rw [hs] at hd hv
      exact Or.inl (hd hv)
  | group keys gs =>
      rw [hs] at hd hv
      rcases List.mem_append.mp hv with hk | hg
      · exact Or.inl (hd (List.mem_append_left _ hk))
      · rw [List.map_map] at hg
        obtain ⟨g, hm, rfl⟩ := List.mem_map.mp hg
        exact Or.inr (List.mem_map_of_mem (List.mem_filter.mp hm).1)

end Stage

namespace Query

theorem bound_defined {a : Arena} {q : Query} {pack : Bool} (h : q.Scoped a pack) :
    ∀ v ∈ q.bound, v ∈ q.defines := by
  induction q generalizing pack with
  | node s js ih =>
      obtain ⟨hown, hjoined⟩ := h
      intro v hv
      rcases List.mem_append.mp hv with hi | hl
      · rcases List.mem_append.mp hi with ho | hj
        · exact mem_defines_node.mpr (Or.inl (Stage.mem_defines_iff.mpr (Or.inl ho)))
        · obtain ⟨⟨aliasName, u⟩, hm, hn⟩ := List.mem_flatMap.mp hj
          refine defines_of_joined hm ?_
          have hu := hjoined _ hm
          cases u with
          | node t ks =>
              have hb := ih _ hm hu
              cases hu with
              | node hown' _ =>
                  rcases hown'.names v hn with hb' | hd
                  · exact hb v hb'
                  · exact mem_defines_node.mpr
                      (Or.inl (Stage.mem_defines_iff.mpr (Or.inr (Or.inr hd))))
      · exact mem_defines_node.mpr (Or.inl (Stage.mem_defines_iff.mpr (Or.inr (Or.inl hl))))

/-- What a joined query delivers, it defines. -/
theorem delivered_defined {a : Arena} {q : Query} (h : q.Scoped a true) :
    ∀ v ∈ q.stage.unpackedBag.names, v ∈ q.defines := by
  intro v hv
  have hb := bound_defined h v
  cases h with
  | node hown _ =>
      rcases hown.names v hv with hm | hd
      · exact hb hm
      · exact mem_defines_node.mpr (Or.inl (Stage.mem_defines_iff.mpr (Or.inr (Or.inr hd))))

end Query

end CausalTrace
