import CausalTrace.Proofs.Renaming
import Mathlib.Data.List.Find

/-!
# Compiling renamed queries

Every choice that compiling makes, which lets are ready, what is not bound, what is mentioned
first, turns out the same when variables are renamed. So a query and the renamed one compile
to the same weaves, or fail with the same error.
-/

namespace CausalTrace

/-! ## Choices of the compiler -/

section

variable {a b : Arena} {f : VarId → VarId} {vs us ws bound pending : List VarId}
  {place reader : String}

theorem pickFirst_map {α β : Type} (g : α → β) (p : β → Bool) (xs : List α) :
    pickFirst p (xs.map g) = (pickFirst (p ∘ g) xs).map fun r => (g r.1, r.2.map g) := by
  induction xs with
  | nil => rfl
  | cons x xs ih =>
      rw [List.map_cons, pickFirst, pickFirst, ih]
      simp only [Function.comp_apply]
      split
      · rfl
      · cases pickFirst (p ∘ g) xs <;> rfl

theorem pickFirst_congr {α : Type} {p p' : α → Bool} {xs : List α} (h : ∀ x ∈ xs, p x = p' x) :
    pickFirst p xs = pickFirst p' xs := by
  induction xs with
  | nil => rfl
  | cons x xs ih =>
      obtain ⟨hx, hxs⟩ := List.forall_mem_cons.mp h
      rw [pickFirst, pickFirst, hx, ih hxs]

theorem find?_unbound_map (h : Renames a b f vs) (hb : bound ⊆ vs) (hus : us ⊆ vs) :
    (us.map f).find? (fun v => !(bound.map f).contains v) =
      (us.find? fun v => !bound.contains v).map f := by
  rw [List.find?_map]
  congr 1
  refine List.find?_congr fun v hv => ?_
  rw [Function.comp_apply, h.contains_map hb (hus hv)]

theorem requireBound_map (h : Renames a b f vs) (hb : bound ⊆ vs) (hus : us ⊆ vs) :
    requireBound b reader place (bound.map f) (us.map f) =
      requireBound a reader place bound us := by
  rw [requireBound, requireBound, find?_unbound_map h hb hus]
  cases hfind : us.find? fun v => !bound.contains v with
  | none => rfl
  | some v =>
      have hv := hus (List.mem_of_find?_eq_some hfind)
      rw [Option.map_some]
      simp only [h.label_eq hv]

theorem stuckLet_map (h : Renames a b f vs) (hb : bound ⊆ vs) {v : VarId} (hv : v ∈ vs) :
    stuckLet b place (bound.map f) (f v) = stuckLet a place bound v := by
  have hmissing : ((b.reads (f v)).find? fun u => !(bound.map f).contains u).map b.label =
      ((a.reads v).find? fun u => !bound.contains u).map a.label := by
    have hreads : a.reads v ⊆ vs := h.closed v hv
    rw [h.reads_eq hv, find?_unbound_map h hb hreads, Option.map_map]
    cases hfind : (a.reads v).find? fun u => !bound.contains u with
    | none => rfl
    | some u => exact congrArg some (h.label_eq (hreads (List.mem_of_find?_eq_some hfind)))
  rw [stuckLet, stuckLet, hmissing, h.label_eq hv]

def LetSpec.rename {ν μ : Type} (f : ν → μ) (l : LetSpec ν) : LetSpec μ :=
  ⟨f l.name, l.expr, l.args.map f⟩

theorem orderLets_of_stuck {stuck : VarId} {others : List VarId}
    (h : pickFirst (fun v => (a.reads v).all bound.contains) (stuck :: others) = none) :
    orderLets a place bound (stuck :: others) = .error (stuckLet a place bound stuck) := by
  rw [orderLets]
  split
  · rfl
  · next hs => cases h.symm.trans hs

theorem orderLets_of_pick {v : VarId} {rest args : List VarId} {name expr : String}
    (h : pickFirst (fun v => (a.reads v).all bound.contains) pending = some (v, rest))
    (hd : a.definition? v = some (.computed name expr args)) : orderLets a place bound pending =
      (orderLets a place (v :: bound) rest).map (⟨v, expr, args⟩ :: ·) := by
  cases pending with
  | nil => cases h
  | cons stuck others =>
      rw [orderLets]
      split
      · next hs => cases h.symm.trans hs
      · next hs =>
          cases h.symm.trans hs
          rw [hd]
          cases orderLets a place (v :: bound) rest <;> rfl

theorem orderLets_of_other {v : VarId} {rest : List VarId}
    (h : pickFirst (fun v => (a.reads v).all bound.contains) pending = some (v, rest))
    (hd : ∀ name expr args, a.definition? v ≠ some (.computed name expr args)) :
    orderLets a place bound pending =
      .error (.planning (a.label v ++ " is constructed but is not a let")) := by
  cases pending with
  | nil => cases h
  | cons stuck others =>
      rw [orderLets]
      split
      · next hs => cases h.symm.trans hs
      · next hs =>
          cases h.symm.trans hs
          split
          · next hc => exact absurd hc (hd _ _ _)
          · rfl

/-- The same lets are ready, in the same order, and the same one is stuck. -/
theorem orderLets_map (h : Renames a b f vs) (hb : bound ⊆ vs) (hp : pending ⊆ vs) :
    orderLets b place (bound.map f) (pending.map f) =
      (orderLets a place bound pending).map (List.map (LetSpec.rename f)) := by
  have hpick : ∀ {bound pending : List VarId}, bound ⊆ vs → pending ⊆ vs →
      pickFirst (fun v => (b.reads v).all (bound.map f).contains) (pending.map f) =
        (pickFirst (fun v => (a.reads v).all bound.contains) pending).map
          fun r => (f r.1, r.2.map f) := by
    intro bound pending hb hp
    rw [pickFirst_map]
    congr 1
    refine pickFirst_congr fun v hv => ?_
    rw [Function.comp_apply, h.reads_eq (hp hv), List.all_map]
    exact all_congr_of_mem fun u hu => h.contains_map hb (h.closed v (hp hv) u hu)
  -- Every let that is picked is bound for the next round, here and in the renamed list.
  induction bound, pending using orderLets.induct a with
  | case1 bound =>
      rw [List.map_nil, orderLets, orderLets]
      rfl
  | case2 bound stuck others hnone =>
      have hnone' := hpick hb hp
      rw [hnone, Option.map_none, List.map_cons] at hnone'
      rw [orderLets_of_stuck hnone, List.map_cons, orderLets_of_stuck hnone',
        stuckLet_map h hb (hp List.mem_cons_self)]
      rfl
  | case3 bound stuck others v rest hpicked name expr args hd ih =>
      have hsub : v :: rest ⊆ vs := fun u hu => hp ((pickFirst_perm hpicked).subset hu)
      obtain ⟨hv, hrest⟩ := List.cons_subset.mp hsub
      obtain ⟨d, hd', hcopy⟩ := h.copies v hv
      cases hd.symm.trans hd'
      have hpicked' := hpick hb hp
      rw [hpicked, Option.map_some] at hpicked'
      rw [orderLets_of_pick hpicked hd, orderLets_of_pick hpicked' hcopy, ← List.map_cons,
        ih (List.cons_subset.mpr ⟨hv, hb⟩) hrest]
      cases orderLets a place (v :: bound) rest <;> rfl
  | case4 bound stuck others v rest hpicked hd =>
      have hv : v ∈ vs := hp ((pickFirst_perm hpicked).subset List.mem_cons_self)
      obtain ⟨d, hd', hcopy⟩ := h.copies v hv
      have hother : ∀ name expr args,
          b.definition? (f v) ≠ some (.computed name expr args) := by
        intro name expr args hc
        rw [hcopy] at hc
        cases d with
        | computed name expr args => exact hd name expr args hd'
        | observed source field => cases hc
        | aggregated how input => cases hc
      have hpicked' := hpick hb hp
      rw [hpicked, Option.map_some] at hpicked'
      rw [orderLets_of_other hpicked hd, orderLets_of_other hpicked' hother, h.label_eq hv]
      rfl

end

/-! ## Plans -/

def UnpackSpec.rename {ν μ : Type} (f : ν → μ) (u : UnpackSpec ν) : UnpackSpec μ :=
  ⟨u.bagId, u.bag.rename f⟩

namespace AdviceSpec

variable {ν μ κ : Type} {p : AdviceSpec ν}

theorem mentions_rename (f : ν → μ) (p : AdviceSpec ν) :
    (p.rename f).mentions = p.mentions.map f := by
  have hbag : (p.rename f).output.bag = p.output.bag.rename f := by
    rw [rename]
    cases p.output <;> rfl
  rw [mentions, mentions, hbag, BagSpec.mentions_rename]
  simp only [rename, List.map_append, List.map_flatMap, List.flatMap_map, BagSpec.mentions_rename,
    List.map_cons]

theorem rename_rename (f : ν → μ) (g : μ → κ) (p : AdviceSpec ν) :
    (p.rename f).rename g = p.rename (g ∘ f) := by
  obtain ⟨observe, unpack, lets, wheres, output⟩ := p
  cases output <;> simp [rename, BagSpec.rename_rename]

/-- A plan is renamed by what becomes of the variables it mentions. -/
theorem rename_congr {f g : ν → μ} (h : ∀ v ∈ p.mentions, f v = g v) : p.rename f = p.rename g := by
  obtain ⟨observe, unpack, lets, wheres, output⟩ := p
  simp only [mentions, List.mem_append, List.mem_flatMap, List.mem_cons, or_assoc] at h
  have hobserve : observe.map f = observe.map g := List.map_congr_left fun v hv => h v (Or.inl hv)
  have hunpack : unpack.map (fun u => (⟨u.bagId, u.bag.rename f⟩ : UnpackSpec μ)) =
      unpack.map fun u => ⟨u.bagId, u.bag.rename g⟩ :=
    List.map_congr_left fun u hu => congrArg (UnpackSpec.mk u.bagId)
      (BagSpec.rename_congr fun v hv => h v (Or.inr (Or.inl ⟨u, hu, hv⟩)))
  have hlets : lets.map (fun l => (⟨f l.name, l.expr, l.args.map f⟩ : LetSpec μ)) =
      lets.map fun l => ⟨g l.name, l.expr, l.args.map g⟩ := by
    refine List.map_congr_left fun l hl => ?_
    have hargs : l.args.map f = l.args.map g :=
      List.map_congr_left fun v hv => h v (Or.inr (Or.inr (Or.inl ⟨l, hl, Or.inr hv⟩)))
    rw [h l.name (Or.inr (Or.inr (Or.inl ⟨l, hl, Or.inl rfl⟩))), hargs]
  have hwheres : wheres.map (fun w => (⟨w.expr, w.args.map f⟩ : WhereSpec μ)) =
      wheres.map fun w => ⟨w.expr, w.args.map g⟩ :=
    List.map_congr_left fun w hw => congrArg (WhereSpec.mk w.expr) (List.map_congr_left fun v hv =>
      h v (Or.inr (Or.inr (Or.inr (Or.inl ⟨w, hw, hv⟩)))))
  have hbag : output.bag.rename f = output.bag.rename g :=
    BagSpec.rename_congr fun v hv => h v (Or.inr (Or.inr (Or.inr (Or.inr hv))))
  rw [rename, rename, hobserve, hunpack, hlets, hwheres]
  cases output with
  | pack id bag => exact congrArg (fun bag => AdviceSpec.mk _ _ _ _ (.pack id bag)) hbag
  | emit id bag => exact congrArg (fun bag => AdviceSpec.mk _ _ _ _ (.emit id bag)) hbag

end AdviceSpec

section

variable {a b : Arena} {f : VarId → VarId} {vs : List VarId} {s : Stage}
  {unpack : List (UnpackSpec VarId)} {own : BagId} {pack : Bool} {plan : AdviceSpec VarId}

/-- All variables in the bags are among these. -/
def UnpackSpec.Inside (vs : List VarId) (unpack : List (UnpackSpec VarId)) : Prop :=
  ∀ u ∈ unpack, ∀ v ∈ u.bag.mentions, v ∈ vs

/-- The renamed plan goes on as the plan does, and is renamed at the end. -/
theorem bind_of_map {ε α α' β β' : Type} {x : Except ε α} {x' : Except ε α'} {k : α → Except ε β}
    {k' : α' → Except ε β'} {g : α → α'} {r : β → β'} (hx : x' = x.map g)
    (hk : ∀ v, x = .ok v → k' (g v) = (k v).map r) : (x' >>= k') = (x >>= k).map r := by
  subst hx
  cases x with
  | error e => rfl
  | ok v => exact hk v rfl

theorem bind_of_eq {ε α β β' : Type} {x x' : Except ε α} {k : α → Except ε β} {k' : α → Except ε β'}
    {r : β → β'} (hx : x' = x) (hk : ∀ v, x = .ok v → k' v = (k v).map r) :
    (x' >>= k') = (x >>= k).map r :=
  bind_of_map (g := id) (hx.trans (congrFun Except.map_id x).symm) hk

theorem forM_congr {ε α : Type} {f g : α → Except ε PUnit} {xs : List α} (h : ∀ x ∈ xs, f x = g x) :
    xs.forM f = xs.forM g := by
  induction xs with
  | nil => rfl
  | cons x xs ih =>
      obtain ⟨hx, hxs⟩ := List.forall_mem_cons.mp h
      rw [List.forM, List.forM, hx, ih hxs]

/-- A renamed stage has the renamed plan, or fails as the stage does. -/
theorem planStage_mapVars (h : Renames a b f vs) (hs : s.Inside a vs)
    (hu : UnpackSpec.Inside vs unpack) :
    planStage b (s.mapVars f) (unpack.map (·.rename f)) own pack =
      (planStage a s unpack own pack).map (·.rename f) := by
  have hobserve : (s.mapVars f).observed.values = s.observed.values.map f := by
    simp [Stage.mapVars, Table.mapValues, Table.values]
  have hnames : (unpack.map (·.rename f)).flatMap (·.bag.names) =
      (unpack.flatMap (·.bag.names)).map f := by
    simp [UnpackSpec.rename, List.flatMap_map, List.map_flatMap, BagSpec.names_rename]
  have hlets : (s.mapVars f).lets.map (·.2) = (s.lets.map (·.2)).map f := by
    simp [Stage.mapVars]
  have hincoming : s.observed.values ++ unpack.flatMap (·.bag.names) ⊆ vs := by
    refine List.append_subset.mpr
      ⟨fun v hv => hs.defines (Stage.mem_defines_iff.mpr (Or.inl hv)), ?_⟩
    intro v hv
    obtain ⟨u, hm, hv⟩ := List.mem_flatMap.mp hv
    exact hu u hm v (Stage.mem_mentions_of_names hv)
  have hpending : s.lets.map (·.2) ⊆ vs := fun v hv =>
    hs.defines (Stage.mem_defines_iff.mpr (Or.inr (Or.inl hv)))
  have hbound := List.append_subset.mpr ⟨hincoming, hpending⟩
  have hwheres : (s.mapVars f).wheres.map (fun w => (⟨w.expr, w.args⟩ : WhereSpec VarId)) =
      (s.wheres.map fun w => (⟨w.expr, w.args⟩ : WhereSpec VarId)).map
        fun w => ⟨w.expr, w.args.map f⟩ := by
    simp [Stage.mapVars]
  have hshape : (s.mapVars f).shape = s.shape.mapVars f := rfl
  rw [planStage, planStage, hobserve, hnames, hlets, hwheres, ← List.map_append, ← List.map_append]
  -- Lets, conditions and outputs fail on the same variable, if they fail, in this order.
  refine bind_of_map (orderLets_map h hincoming hpending) fun ls _ => ?_
  refine bind_of_eq (x := s.wheres.forM _) ?_ fun _ _ => ?_
  · exact (List.forM_map ..).trans (forM_congr fun w hw =>
      requireBound_map h hbound fun v hv => hs.refers v (.of_where hw hv))
  cases pack with
  | true =>
      rw [Stage.packedBag_mapVars h hs, BagSpec.reads_rename]
      refine bind_of_eq (requireBound_map h hbound ?_) fun _ _ => rfl
      exact fun v hv => hs.packed v (Stage.mem_mentions_of_reads hv)
  | false =>
      rw [Stage.emittedBag_mapVars h hs, BagSpec.reads_rename, hshape]
      refine bind_of_eq (requireBound_map h hbound ?_) fun _ _ => ?_
      · exact fun v hv => hs.emitted v (Stage.mem_mentions_of_reads hv)
      · cases s.shape <;> rfl

/-- All names of a plan come from its stage or its bags. -/
theorem mentions_of_planStage (hs : s.Inside a vs) (hu : UnpackSpec.Inside vs unpack)
    (h : planStage a s unpack own pack = .ok plan) : ∀ v ∈ plan.mentions, v ∈ vs := by
  obtain ⟨_, ls, hplans⟩ := planStage_eq_ok h
  rw [hplans.plan_eq]
  intro v hv
  simp only [AdviceSpec.mentions, List.mem_append, or_assoc] at hv
  rcases hv with ho | hb | hl | hw | hd
  · exact hs.defines (Stage.mem_defines_iff.mpr (Or.inl ho))
  · obtain ⟨u, hm, hv⟩ := List.mem_flatMap.mp hb
    exact hu u hm v hv
  · obtain ⟨l, hm, hv⟩ := List.mem_flatMap.mp hl
    have hname : l.name ∈ s.defines :=
      Stage.mem_defines_iff.mpr (Or.inr (Or.inl (hplans.names.subset (List.mem_map_of_mem hm))))
    rcases List.mem_cons.mp hv with rfl | hv
    · exact hs.defines hname
    · obtain ⟨name, hd⟩ := hplans.ready.definition l hm
      exact hs.refers v (Or.inr ⟨l.name, hname, (Arena.reads_computed hd).symm ▸ hv⟩)
  · obtain ⟨w, hm, hv⟩ := List.mem_flatMap.mp hw
    obtain ⟨c, hc, rfl⟩ := List.mem_map.mp hm
    exact hs.refers v (.of_where hc hv)
  · rw [Stage.output] at hd
    split at hd
    · exact hs.packed v hd
    · exact hs.emitted v hd

end

/-! ## Queries -/

namespace Query

variable {a b : Arena} {f : VarId → VarId} {vs : List VarId} {q : Query} {s : Stage}
  {js : List (String × Query)} {id : QueryId} {own : BagId} {pack : Bool} {start : Nat}
  {plan : AdviceSpec VarId} {weaves : List WeaveSpec} {unpack : List (UnpackSpec VarId)}

/-- All variables of the query are among these, and the outputs of its stages are in order. -/
def Inside (a : Arena) (vs : List VarId) (q : Query) : Prop := ∀ p ∈ q.parts, p.stage.Inside a vs

/-- Names in a plan tell its variables apart by number, so renamed ones have the same names. -/
theorem weave_mapVars (h : Renames a b f vs) (hm : ∀ v ∈ plan.mentions, v ∈ vs) :
    weave b (s.mapVars f) own (plan.rename f) = weave a s own plan := by
  have hfirst : firstMentions plan.mentions ⊆ vs := fun v hv => hm v (mem_firstMentions.mp hv)
  rw [weave, weave, fields_mapStage, AdviceSpec.mentions_rename, h.firstMentions_map hm,
    AdviceSpec.rename_rename]
  congr 1
  exact AdviceSpec.rename_congr fun v hv => h.nameIn_map hfirst (hm v hv)

theorem inside_of_compileJoins (hjs : ∀ j ∈ js, j.2.Inside a vs)
    (h : compileJoins a id start js = .ok (weaves, unpack)) : UnpackSpec.Inside vs unpack := by
  induction js generalizing start weaves unpack with
  | nil =>
      cases h
      exact List.forall_mem_nil _
  | cons j js ih =>
      obtain ⟨hj, hjs⟩ := List.forall_mem_cons.mp hjs
      obtain ⟨c, later, unpackLater, _, hl, _, rfl⟩ := compileJoins_cons_eq_ok_iff.mp h
      exact List.forall_mem_cons.mpr ⟨(hj j.2 (self_mem_parts _)).unpacked, ih hjs hl⟩

/-- A renamed query compiles to the same weaves, or fails as the query does. -/
theorem compileFrom_mapVars (h : Renames a b f vs) (hq : q.Inside a vs) :
    (q.mapVars f).compileFrom b id pack start = q.compileFrom a id pack start := by
  induction q generalizing pack start with
  | node s js ih =>
      have hown : s.Inside a vs := hq _ (self_mem_parts _)
      have hjoined : ∀ j ∈ js, j.2.Inside a vs := fun j hj p hp =>
        hq p (mem_parts_node.mpr (Or.inr ⟨j, hj, hp⟩))
      have hjs : compileJoins b id start (mapJoins f js) =
          (compileJoins a id start js).map fun r => (r.1, r.2.map (·.rename f)) := by
        clear hq
        induction js generalizing start with
        | nil => rfl
        | cons j js ihjs =>
            have hj := hjoined j List.mem_cons_self
            obtain ⟨aliasName, ⟨t, ks⟩⟩ := j
            have hbag : ((node t ks).mapVars f).stage.unpackedBag = t.unpackedBag.rename f := by
              rw [mapVars]
              exact Stage.unpackedBag_mapVars h (hj _ (self_mem_parts _))
            rw [mapJoins, compileJoins, compileJoins]
            refine bind_of_eq (ih _ List.mem_cons_self hj) fun c _ => ?_
            refine bind_of_map (ihjs (fun k hk => ih k (List.mem_cons_of_mem _ hk))
              fun k hk => hjoined k (List.mem_cons_of_mem _ hk)) fun r _ => ?_
            rw [hbag]
            rfl
      rw [mapVars, compileFrom, compileFrom]
      -- The bags to unpack are renamed ones, but the weaves of the joined queries are the same.
      refine (bind_of_map hjs fun r hr => ?_).trans (congrFun Except.map_id _)
      refine bind_of_map (planStage_mapVars h hown (inside_of_compileJoins hjoined hr))
        fun plan hplan => ?_
      have hmentions := mentions_of_planStage hown (inside_of_compileJoins hjoined hr) hplan
      exact congrArg (fun w => Except.ok (Compiled.mk r.1 w)) (weave_mapVars h hmentions)

theorem compile_mapVars (h : Renames a b f vs) (hq : q.Inside a vs) :
    (q.mapVars f).compile b id = q.compile a id := by
  rw [compile, compile, compileFrom_mapVars h hq]

end Query

end CausalTrace
