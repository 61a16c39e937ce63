import CausalTrace.Proofs.Naming
import CausalTrace.Proofs.Scope

/-!
# Plans over places

Resolving turns the names of a plan into places in a row. A row that holds the
values of the bound variables, in the order in which they are bound, fares in the
resolved plan as its binding does at the stage.
-/

namespace CausalTrace

/-! ## Places -/

section

variable {ν μ : Type} [DecidableEq ν] [DecidableEq μ] {f : ν → μ} {vs : List ν} {v : ν}

theorem idxOf?_eq_some_of_mem (h : v ∈ vs) : vs.idxOf? v = some (vs.idxOf v) := by
  induction vs with
  | nil => cases h
  | cons w vs ih =>
      rw [List.idxOf?_cons, List.idxOf_cons]
      by_cases hw : w = v
      · simp [hw]
      · have hv : v ∈ vs := (List.mem_cons.mp h).resolve_left (Ne.symm hw)
        have hb : (w == v) = false := beq_eq_false_iff_ne.mpr hw
        rw [ih hv, hb]
        rfl

/-- Renaming that keeps the bound names apart keeps their places. -/
theorem idxOf?_map (hf : ∀ u ∈ vs, ∀ v, f u = f v → u = v) :
    (vs.map f).idxOf? (f v) = vs.idxOf? v := by
  induction vs with
  | nil => rfl
  | cons w vs ih =>
      obtain ⟨hw, hvs⟩ := List.forall_mem_cons.mp hf
      have hiff : f w = f v ↔ w = v := ⟨hw v, congrArg f⟩
      rw [List.map_cons, List.idxOf?_cons, List.idxOf?_cons, ih hvs]
      simp only [beq_iff_eq, hiff]

end

theorem all_congr_of_mem {α : Type} {xs : List α} {p q : α → Bool} (h : ∀ x ∈ xs, p x = q x) :
    xs.all p = xs.all q := by
  induction xs with
  | nil => rfl
  | cons x xs ih =>
      obtain ⟨hx, hxs⟩ := List.forall_mem_cons.mp h
      rw [List.all_cons, List.all_cons, hx, ih hxs]

theorem nodup_append_singleton {α : Type} {xs : List α} {x : α} :
    (xs ++ [x]).Nodup ↔ xs.Nodup ∧ x ∉ xs := by
  rw [List.nodup_append]
  constructor
  · rintro ⟨hxs, _, hne⟩
    exact ⟨hxs, fun hm => hne x hm x (List.mem_singleton_self x) rfl⟩
  · rintro ⟨hxs, hm⟩
    refine ⟨hxs, List.pairwise_singleton _ x, ?_⟩
    rintro y hy z hz rfl
    exact hm (List.mem_singleton.mp hz ▸ hy)

theorem row_getD_idxOf {env : Binding} {vs : List VarId} {v : VarId} (h : v ∈ vs) :
    (env.row vs).getD (vs.idxOf v) .null = env.get v := by
  have hi := List.idxOf_lt_length_of_mem h
  have hr : (env.row vs)[vs.idxOf v]? = some (env.get v) := by
    rw [Binding.row, List.getElem?_map, List.getElem?_eq_getElem hi, List.getElem_idxOf hi]
    rfl
  rw [List.getD_eq_getElem?_getD, hr, Option.getD_some]

/-- A row extended by the value of one more variable. -/
theorem row_append_value {env : Binding} {vs : List VarId} {v : VarId} {x : Value} (h : v ∉ vs) :
    env.row vs ++ [x] = (env.set v x).row (vs ++ [v]) := by
  have hvs : env.row vs = (env.set v x).row vs := by
    refine List.map_congr_left ?_
    intro u hu
    have hne : u ≠ v := fun e => h (e ▸ hu)
    rw [Binding.get, Binding.get, Binding.set_of_ne hne]
  rw [Binding.row_append, ← hvs, Binding.row, Binding.row, List.map_singleton,
    Binding.get_of_eq_some Binding.set_self]

namespace Advice

/-! ## Binding names -/

theorem bind_eq_ok_iff_not_mem {bound r : List String} {name : String} :
    bind bound name = .ok r ↔ name ∉ bound ∧ r = bound ++ [name] := by
  rw [bind]
  by_cases h : name ∈ bound
  · rw [if_pos (List.contains_iff_mem.mpr h)]
    exact ⟨fun he => (nomatch he), fun hr => absurd h hr.1⟩
  · rw [if_neg (fun hc => h (List.contains_iff_mem.mp hc))]
    constructor
    · rintro ⟨⟩
      exact ⟨h, rfl⟩
    · rintro ⟨_, rfl⟩
      rfl

/-- Names can be bound if and only if all are different. -/
theorem foldlM_bind_eq_ok_iff {names bound r : List String} (hb : bound.Nodup) :
    names.foldlM bind bound = .ok r ↔ (bound ++ names).Nodup ∧ r = bound ++ names := by
  induction names generalizing bound with
  | nil =>
      rw [List.append_nil]
      constructor
      · rintro ⟨⟩
        exact ⟨hb, rfl⟩
      · rintro ⟨_, rfl⟩
        rfl
  | cons name names ih =>
      rw [List.foldlM_cons, bind_eq_ok_iff, List.append_cons]
      constructor
      · rintro ⟨next, hn, h⟩
        obtain ⟨hm, rfl⟩ := bind_eq_ok_iff_not_mem.mp hn
        exact (ih (nodup_append_singleton.mpr ⟨hb, hm⟩)).mp h
      · rintro ⟨hn, rfl⟩
        have hb' : (bound ++ [name]).Nodup := (List.nodup_append.mp hn).1
        have hm := (nodup_append_singleton.mp hb').2
        exact ⟨_, bind_eq_ok_iff_not_mem.mpr ⟨hm, rfl⟩, (ih hb').mpr ⟨hn, rfl⟩⟩

theorem place_eq_ok {bound : List String} {reader name : String} {i : Nat}
    (h : bound.idxOf? name = some i) : place bound reader name = .ok i := by
  rw [place, h]

/-- What lets that could be bound have bound. -/
theorem bindLets_eq_ok {ls : List (LetSpec String)} {bound r : List String}
    {ts : List BoundTemplate} (hb : bound.Nodup) (h : bindLets bound ls = .ok (r, ts)) :
    (bound ++ ls.map (·.name)).Nodup ∧ r = bound ++ ls.map (·.name) := by
  induction ls generalizing bound ts with
  | nil =>
      cases h
      rw [List.map_nil, List.append_nil]
      exact ⟨hb, rfl⟩
  | cons l ls ih =>
      rw [bindLets] at h
      obtain ⟨args, _, h⟩ := bind_eq_ok_iff.mp h
      obtain ⟨next, hn, h⟩ := bind_eq_ok_iff.mp h
      obtain ⟨⟨r', ts'⟩, hl, he⟩ := bind_eq_ok_iff.mp h
      cases he
      obtain ⟨hm, rfl⟩ := bind_eq_ok_iff_not_mem.mp hn
      obtain ⟨hn', hr⟩ := ih (nodup_append_singleton.mpr ⟨hb, hm⟩) hl
      rw [List.map_cons, List.append_cons]
      exact ⟨hn', hr⟩

end Advice

/-! ## Resolved parts of a plan -/

/-- A template over variables with the places of its arguments. -/
def templateOver (bound : List VarId) (expr : String) (args : List VarId) : BoundTemplate :=
  ⟨Template.parse expr, args.map bound.idxOf⟩

/-- The templates of lets, each over what is bound before it. -/
def templatesOver : List VarId → List (LetSpec VarId) → List BoundTemplate
  | _, [] => []
  | bound, l :: ls => templateOver bound l.expr l.args :: templatesOver (bound ++ [l.name]) ls

theorem value?_templateOver {env : Binding} {bound args : List VarId} {expr : String}
    (h : ∀ v ∈ args, v ∈ bound) :
    (templateOver bound expr args).value? (env.row bound) =
      Template.value? expr (env.row args) := by
  have hargs : (args.map bound.idxOf).map ((env.row bound).getD · .null) = env.row args := by
    rw [List.map_map]
    exact List.map_congr_left fun v hv => row_getD_idxOf (h v hv)
  rw [BoundTemplate.value?, templateOver, Template.value?]
  cases Template.parse expr with
  | error e => rfl
  | ok t =>
      rw [← hargs]

/-- The lets of a resolved plan do to a row what they do to its binding. -/
theorem computeLets_templatesOver {a : Arena} {ls : List (LetSpec VarId)} {bound : List VarId}
    {env : Binding} (hr : Ready a bound ls) (hn : (bound ++ ls.map (·.name)).Nodup) :
    Advice.computeLets (templatesOver bound ls) (env.row bound) =
      ((ls.map (·.name)).foldlM (Binding.compute a) env).map
        (·.row (bound ++ ls.map (·.name))) := by
  induction ls generalizing bound env with
  | nil =>
      rw [List.map_nil, List.append_nil]
      rfl
  | cons l ls ih =>
      obtain ⟨⟨name, hd⟩, hargs, hr⟩ := hr
      rw [List.map_cons, List.append_cons] at hn ⊢
      have hm : l.name ∉ bound := (nodup_append_singleton.mp (List.nodup_append.mp hn).1).2
      have hval : a.evaluate? env l.name = Template.value? l.expr (env.row l.args) := by
        rw [Arena.evaluate?, hd]
      have hr' : Ready a (bound ++ [l.name]) ls :=
        hr.mono fun _ hu => (List.perm_append_singleton _ _).mem_iff.mpr hu
      rw [templatesOver, Advice.computeLets, List.foldlM_cons, List.foldlM_cons,
        value?_templateOver hargs, Binding.compute, hval]
      cases Template.value? l.expr (env.row l.args) with
      | none => rfl
      | some x =>
          rw [Option.map_some, Option.map_some, row_append_value hm]
          exact ih hr' hn

/-! ## Resolved plans -/

namespace BagSpec

variable {ν μ : Type}

theorem names_rename (f : ν → μ) (b : BagSpec ν) : (b.rename f).names = b.names.map f := by
  cases b with
  | tuple vars => rfl
  | filter keep vars => rfl
  | groupBy keys aggregates =>
      simp [rename, names]

theorem arity_rename (f : ν → μ) (b : BagSpec ν) : (b.rename f).arity = b.arity := by
  rw [arity, names_rename, List.length_map, arity]

theorem create_rename (f : ν → μ) (id : BagId) (b : BagSpec ν) (enabled : Bool) :
    Bag.create id (b.rename f) enabled = Bag.create id b enabled := by
  cases enabled <;> cases b <;> simp [rename, Bag.create, Function.comp_def]

theorem start_rename (f : ν → μ) (b : BagSpec ν) :
    Gathered.start (b.rename f) = Gathered.start b := by
  cases b <;> simp [rename, Gathered.start, Function.comp_def]

end BagSpec

/-- Where rows go, and the sinks with the one that is made for them. -/
def OutputSpec.target {ν : Type} (o : OutputSpec ν) (sinks : Sinks) (enabled : Bool) :
    Target × Sinks :=
  match o with
  | .pack id bag => (.pack (Bag.create id bag enabled), sinks)
  | .emit id bag => ((.emit (sinks.create id bag).1), (sinks.create id bag).2)

namespace AdviceSpec

variable {ν : Type}

def incoming (p : AdviceSpec ν) : List ν := p.observe ++ p.unpack.flatMap (·.bag.names)

def bound (p : AdviceSpec ν) : List ν := p.incoming ++ p.lets.map (·.name)

theorem bound_rename {μ : Type} (f : ν → μ) (p : AdviceSpec ν) :
    (p.rename f).bound = p.bound.map f := by
  simp only [bound, incoming, rename, List.map_append, List.map_flatMap, List.flatMap_map,
    List.map_map, BagSpec.names_rename]
  rfl

/-- A plan over variables with all of them resolved to places. -/
def resolved (f : VarId → String) (enabled : Bool) (target : Target) (p : AdviceSpec VarId) :
    Advice where
  spec := p.rename f
  unpacks := p.unpack.map fun u => ⟨Bag.create u.bagId u.bag enabled, u.bag.arity⟩
  lets := templatesOver p.incoming p.lets
  wheres := p.wheres.map fun w => templateOver p.bound w.expr w.args
  projection := p.output.bag.names.map p.bound.idxOf?
  target := target

end AdviceSpec

namespace Advice

theorem nodup_of_create {spec : AdviceSpec String} {sinks : Sinks} {enabled : Bool}
    {r : Advice × Sinks} (h : create spec sinks enabled = .ok r) : spec.bound.Nodup := by
  rw [create] at h
  obtain ⟨bound, hb, h⟩ := bind_eq_ok_iff.mp h
  obtain ⟨hn, rfl⟩ := (foldlM_bind_eq_ok_iff List.nodup_nil).mp hb
  obtain ⟨bound, hb, h⟩ := bind_eq_ok_iff.mp h
  obtain ⟨hn, rfl⟩ := (foldlM_bind_eq_ok_iff hn).mp hb
  obtain ⟨⟨bound, ts⟩, hl, _⟩ := bind_eq_ok_iff.mp h
  exact (bindLets_eq_ok hn hl).1

section

variable {f : VarId → String} {vs args : List VarId}

theorem places_eq_ok {reader : String} (hf : ∀ u ∈ vs, ∀ v, f u = f v → u = v)
    (h : ∀ v ∈ args, v ∈ vs) :
    (args.map f).mapM (place (vs.map f) reader) = .ok (args.map vs.idxOf) := by
  rw [List.mapM_map]
  refine mapM_eq_ok_map fun v hv => place_eq_ok ?_
  rw [idxOf?_map hf, idxOf?_eq_some_of_mem (h v hv)]

theorem placesIfBound_eq_ok {reader : String} (hf : ∀ u ∈ vs, ∀ v, f u = f v → u = v)
    (h : ∀ v ∈ args, v ∈ vs) :
    ((args.map f).mapM fun v => do return some (← place (vs.map f) reader v)) =
      .ok (args.map vs.idxOf?) := by
  rw [List.mapM_map]
  refine mapM_eq_ok_map fun v hv => ?_
  have hp := idxOf?_eq_some_of_mem (h v hv)
  rw [hp]
  refine bind_eq_ok_iff.mpr ⟨vs.idxOf v, place_eq_ok ?_, rfl⟩
  rw [idxOf?_map hf, hp]

theorem project_eq_ok {reader : String} {bag : BagSpec VarId}
    (hf : ∀ u ∈ vs, ∀ v, f u = f v → u = v) (h : ∀ v ∈ bag.reads, v ∈ vs) :
    project (vs.map f) reader (bag.rename f) = .ok (bag.names.map vs.idxOf?) := by
  cases bag with
  | tuple vars => exact placesIfBound_eq_ok hf h
  | filter keep vars => exact placesIfBound_eq_ok hf h
  | groupBy keys aggregates =>
      have hk : ∀ v ∈ keys, v ∈ vs := fun v hv => h v (List.mem_append_left _ hv)
      have hg : ∀ g ∈ aggregates, g.how ≠ .count → g.name ∈ vs := by
        intro g hg hc
        refine h g.name (List.mem_append_right _ (List.mem_map_of_mem ?_))
        exact List.mem_filter.mpr ⟨hg, bne_iff_ne.mpr hc⟩
      rw [BagSpec.rename, project]
      refine bind_eq_ok_iff.mpr ⟨_, placesIfBound_eq_ok hf hk, ?_⟩
      refine bind_eq_ok_iff.mpr ⟨aggregates.map fun g => vs.idxOf? g.name, ?_, ?_⟩
      · rw [List.mapM_map]
        refine mapM_eq_ok_map fun g hm => ?_
        have hplace : g.how ≠ .count → place (vs.map f) reader (f g.name) = .ok (vs.idxOf g.name) ∧
            vs.idxOf? g.name = some (vs.idxOf g.name) := by
          intro hc
          have hp := idxOf?_eq_some_of_mem (hg g hm hc)
          refine ⟨place_eq_ok ?_, hp⟩
          rw [idxOf?_map hf, hp]
        simp only [Function.comp_apply]
        cases hc : g.how with
        | count => exact congrArg Except.ok (idxOf?_map hf)
        | sum | min | max =>
            obtain ⟨hp, hi⟩ := hplace (by rw [hc]; decide)
            rw [hi]
            exact bind_eq_ok_iff.mpr ⟨_, hp, rfl⟩
      · rw [BagSpec.names, List.map_append, List.map_map]
        rfl

/-- Lets that can be put in order can be resolved. -/
theorem bindLets_map {a : Arena} {ls : List (LetSpec VarId)}
    (hf : ∀ u ∈ vs ++ ls.map (·.name), ∀ v, f u = f v → u = v) (hr : Ready a vs ls)
    (hn : (vs ++ ls.map (·.name)).Nodup) :
    bindLets (vs.map f) (ls.map fun l => ⟨f l.name, l.expr, l.args.map f⟩) =
      .ok ((vs ++ ls.map (·.name)).map f, templatesOver vs ls) := by
  induction ls generalizing vs with
  | nil =>
      rw [List.map_nil, List.map_nil, List.append_nil]
      rfl
  | cons l ls ih =>
      obtain ⟨hd, hargs, hr⟩ := hr
      rw [List.map_cons, List.append_cons] at hf hn
      have hvs : ∀ u ∈ vs, ∀ v, f u = f v → u = v := fun u hu =>
        hf u (List.mem_append_left _ (List.mem_append_left _ hu))
      have hm : l.name ∉ vs := (nodup_append_singleton.mp (List.nodup_append.mp hn).1).2
      have hbind : bind (vs.map f) (f l.name) = .ok ((vs ++ [l.name]).map f) := by
        refine bind_eq_ok_iff_not_mem.mpr ⟨fun hmem => ?_, List.map_append ..⟩
        obtain ⟨u, hu, he⟩ := List.mem_map.mp hmem
        exact hm (hvs u hu l.name he ▸ hu)
      have hr' : Ready a (vs ++ [l.name]) ls :=
        hr.mono fun _ hu => (List.perm_append_singleton _ _).mem_iff.mpr hu
      rw [List.map_cons, List.map_cons, List.append_cons, bindLets]
      refine bind_eq_ok_iff.mpr ⟨_, places_eq_ok hvs hargs, ?_⟩
      refine bind_eq_ok_iff.mpr ⟨_, hbind, ?_⟩
      exact bind_eq_ok_iff.mpr ⟨_, ih hf hr' hn, rfl⟩

end

/-- A plan that binds different variables, and reads what it has bound, can be
resolved. -/
theorem create_rename {a : Arena} {p : AdviceSpec VarId} {f : VarId → String} {sinks : Sinks}
    {enabled : Bool} (hf : ∀ u ∈ p.bound, ∀ v, f u = f v → u = v)
    (hr : Ready a p.incoming p.lets) (hw : ∀ w ∈ p.wheres, ∀ v ∈ w.args, v ∈ p.bound)
    (hd : ∀ v ∈ p.output.bag.reads, v ∈ p.bound) (hn : p.bound.Nodup) :
    create (p.rename f) sinks enabled =
      .ok (p.resolved f enabled (p.output.target sinks enabled).1,
        (p.output.target sinks enabled).2) := by
  have hnf : (p.bound.map f).Nodup := by
    refine List.pairwise_map.mpr (List.Pairwise.imp_of_mem ?_ hn)
    intro u v hu _ hne he
    exact hne (hf u hu v he)
  have hfin : ∀ u ∈ p.incoming, ∀ v, f u = f v → u = v := fun u hu =>
    hf u (List.mem_append_left _ hu)
  have hunpack : (p.rename f).unpack.flatMap (·.bag.names) =
      (p.unpack.flatMap (·.bag.names)).map f := by
    simp only [AdviceSpec.rename, List.flatMap_map, List.map_flatMap, BagSpec.names_rename]
  have hincoming : (p.rename f).observe ++ (p.rename f).unpack.flatMap (·.bag.names) =
      p.incoming.map f := by
    rw [hunpack, AdviceSpec.incoming, List.map_append]
    rfl
  have hni : (p.incoming.map f).Nodup := by
    rw [AdviceSpec.bound, List.map_append] at hnf
    exact (List.nodup_append.mp hnf).1
  have hno : ([] ++ (p.rename f).observe).Nodup := by
    rw [← hincoming] at hni
    exact (List.nodup_append.mp hni).1
  have hunpacks : (p.rename f).unpack.map (fun u =>
      (⟨Bag.create u.bagId u.bag enabled, u.bag.arity⟩ : Unpacking)) =
      p.unpack.map fun u => ⟨Bag.create u.bagId u.bag enabled, u.bag.arity⟩ := by
    simp only [AdviceSpec.rename, List.map_map, Function.comp_def, BagSpec.create_rename,
      BagSpec.arity_rename]
  have hwheres : (p.rename f).wheres.mapM (bindWhere (p.bound.map f)) =
      .ok (p.wheres.map fun w => templateOver p.bound w.expr w.args) := by
    rw [AdviceSpec.rename, List.mapM_map]
    refine mapM_eq_ok_map fun w hm => ?_
    exact bind_eq_ok_iff.mpr ⟨_, places_eq_ok hf (hw w hm), rfl⟩
  rw [create]
  refine bind_eq_ok_iff.mpr ⟨_, (foldlM_bind_eq_ok_iff List.nodup_nil).mpr ⟨hno, rfl⟩, ?_⟩
  refine bind_eq_ok_iff.mpr ⟨p.incoming.map f, ?_, ?_⟩
  · refine (foldlM_bind_eq_ok_iff hno).mpr ?_
    rw [List.nil_append, hincoming]
    exact ⟨hni, rfl⟩
  refine bind_eq_ok_iff.mpr ⟨_, bindLets_map hf hr hn, ?_⟩
  refine bind_eq_ok_iff.mpr ⟨_, hwheres, ?_⟩
  rw [hunpacks]
  cases ho : p.output with
  | pack id bag =>
      rw [ho] at hd
      have hout : (p.rename f).output = .pack id (bag.rename f) := by rw [AdviceSpec.rename, ho]
      rw [hout]
      refine bind_eq_ok_iff.mpr ⟨_, project_eq_ok hf hd, ?_⟩
      rw [BagSpec.create_rename]
      simp only [AdviceSpec.resolved, ho]
      rfl
  | emit id bag =>
      rw [ho] at hd
      have hout : (p.rename f).output = .emit id (bag.rename f) := by rw [AdviceSpec.rename, ho]
      rw [hout]
      refine bind_eq_ok_iff.mpr ⟨_, project_eq_ok hf hd, ?_⟩
      rw [Sinks.create, BagSpec.start_rename]
      simp only [AdviceSpec.resolved, ho]
      rfl

/-! ## Running a resolved plan -/

/-- The value of a variable in a row over the bound ones; others are null. -/
theorem map_idxOf?_row {env : Binding} {vs : List VarId} (v : VarId) :
    ((vs.idxOf? v).map ((env.row vs).getD · .null)).getD .null =
      if v ∈ vs then env.get v else .null := by
  by_cases h : v ∈ vs
  · rw [idxOf?_eq_some_of_mem h, if_pos h, Option.map_some, Option.getD_some, row_getD_idxOf h]
  · rw [List.idxOf?_eq_none_iff.mpr h, if_neg h]
    rfl

/-- A row of bound variables fares in a resolved plan as its binding does. -/
theorem deliver?_resolved {a : Arena} {p : AdviceSpec VarId} {f : VarId → String}
    {enabled : Bool} {t : Target} (hr : Ready a p.incoming p.lets) (hn : p.bound.Nodup)
    (hw : ∀ w ∈ p.wheres, ∀ v ∈ w.args, v ∈ p.bound) (env : Binding) :
    (p.resolved f enabled t).deliver? (env.row p.incoming) =
      (((p.lets.map (·.name)).foldlM (Binding.compute a) env).filter fun env =>
        p.wheres.all fun w => Template.value? w.expr (env.row w.args) == some (.bool true)).map
        fun env => p.output.bag.names.map fun v => if v ∈ p.bound then env.get v else .null := by
  rw [deliver?]
  simp only [AdviceSpec.resolved]
  rw [computeLets_templatesOver hr hn]
  cases (p.lets.map (·.name)).foldlM (Binding.compute a) env with
  | none => rfl
  | some env =>
      have hall : (p.wheres.map fun w => templateOver p.bound w.expr w.args).all
          (·.holds (env.row p.bound)) =
          p.wheres.all fun w => Template.value? w.expr (env.row w.args) == some (.bool true) := by
        rw [List.all_map]
        refine all_congr_of_mem fun w hm => ?_
        show (_ == _) = (_ == _)
        rw [value?_templateOver (hw w hm)]
      simp only [Option.map_some, Option.bind_eq_bind, Option.bind_some, List.map_map]
      rw [← AdviceSpec.bound, hall]
      rw [Option.filter_some]
      split
      · rw [Option.map_some]
        exact congrArg some (List.map_congr_left fun v _ => map_idxOf?_row v)
      · rfl

end Advice

end CausalTrace
