import CausalTrace.Proofs.Narrowing
import CausalTrace.Proofs.Pushed
import CausalTrace.Proofs.Resolvable
import CausalTrace.Proofs.Sources

/-!
# Pruning preserves results

An optimizer that moves nothing still leaves out the outputs of joined stages that nobody
reads. The pruned query compiles and is installed as the original is, and it hands the
same rows to its sink while its grouping stages take the same bindings.

They need not. To an aggregate its operand also says which bindings count, so what is
dropped for an aggregate that nobody reads is kept once the aggregate is left out.
-/

namespace CausalTrace

open Defining

/-- Nothing moves. Optimizing leaves out what nobody reads, and that is all. -/
def Moves.none : Moves := ⟨false, false, false⟩

namespace Query

variable {a b : Arena} {pack : Bool} {s s' : Stage} {js js' : List (String × Query)}
  {q q' u u' : Query} {v : VarId} {p : Pass} {passes earlier : List Pass}

/-! ## Aggregates that are not delivered -/

/-- A grouping stage of the query aggregates the variable and does not deliver it. -/
def Withholds (q : Query) (v : VarId) : Prop :=
  ∃ p ∈ q.parts, v ∈ p.stage.shape.defines ∧ v ∉ p.stage.outputs

instance : Decidable (q.Withholds v) :=
  inferInstanceAs (Decidable (∃ p ∈ q.parts, v ∈ p.stage.shape.defines ∧ v ∉ p.stage.outputs))

theorem withholds_node : (node s js).Withholds v ↔
    v ∈ s.shape.defines ∧ v ∉ s.outputs ∨ ∃ j ∈ js, j.2.Withholds v := by
  constructor
  · rintro ⟨p, hp, hv⟩
    rcases mem_parts_node.mp hp with rfl | ⟨j, hj, hp⟩
    · exact Or.inl hv
    · exact Or.inr ⟨j, hj, p, hp, hv⟩
  · rintro (hv | ⟨j, hj, p, hp, hv⟩)
    · exact ⟨_, self_mem_parts _, hv⟩
    · exact ⟨p, mem_parts_node.mpr (Or.inr ⟨j, hj, hp⟩), hv⟩

theorem Withholds.defined (h : q.Withholds v) : v ∈ q.defines := by
  induction q with
  | node s js ih =>
      rcases withholds_node.mp h with ⟨hv, _⟩ | ⟨j, hj, hv⟩
      · exact mem_defines_node.mpr (Or.inl (Stage.mem_defines_iff.mpr (Or.inr (Or.inr hv))))
      · exact defines_of_joined hj (ih j hj hv)

/-- What a joined query withholds is not defined where it is joined. -/
theorem Withholds.not_mem_defines {j : String × Query} (h : j.2.Withholds v) (hj : j ∈ js)
    (hn : (node s js).defines.Nodup) : v ∉ s.defines := by
  obtain ⟨before, after, rfl⟩ := List.append_of_mem hj
  exact (apart_of_nodup hn v h.defined).1

/-- What a query withholds is bound at its stage nowhere, and is not delivered. -/
theorem not_withholds (hs : q.Scoped a pack) (hn : q.defines.Nodup) :
    (∀ v ∈ q.bound, ¬ q.Withholds v) ∧
      (pack = true → ∀ v ∈ q.stage.unpackedBag.names, ¬ q.Withholds v) := by
  induction q generalizing pack with
  | node s js ih =>
      obtain ⟨hown, hjoined⟩ := hs
      have hshape := shape_not_bound hn hjoined
      have hbound : ∀ v ∈ (node s js).bound, ¬ (node s js).Withholds v := by
        intro v hv hw
        rcases withholds_node.mp hw with ⟨hd, _⟩ | ⟨j, hj, hw⟩
        · exact hshape v hd hv
        · rw [bound, incoming, List.mem_append, List.mem_append] at hv
          rcases hv with (ho | hd) | hl
          · exact hw.not_mem_defines hj hn (Stage.mem_defines_iff.mpr (Or.inl ho))
          · -- The query that delivers it would be the one that withholds it.
            obtain ⟨k, hk, hv⟩ := List.mem_flatMap.mp hd
            obtain rfl := eq_of_joined_defines hn hj hk hw.defined
              (delivered_defined (hjoined k hk) v hv)
            rw [defines, joinsDefine_eq] at hn
            have hnj := (List.nodup_flatMap.mp (List.nodup_append.mp hn).2.1).1 j hj
            exact (ih j hj (hjoined j hj) hnj).2 rfl v hv hw
          · exact hw.not_mem_defines hj hn (Stage.mem_defines_iff.mpr (Or.inr (Or.inl hl)))
      refine ⟨hbound, ?_⟩
      rintro rfl v hv hw
      rcases hown.names v hv with hb | hd
      · exact hbound v hb hw
      · -- Of its own aggregates it withholds those that are no outputs; keys it reads.
        rcases withholds_node.mp hw with ⟨_, ho⟩ | ⟨j, hj, hw⟩
        · have hkey := (Stage.mem_names_iff.mp hv).resolve_right ho
          exact hshape v hd (hown.delivers v
            (Stage.mem_owes_iff.mpr (Or.inl (Stage.mem_uses_of_key hkey))))
        · exact hw.not_mem_defines hj hn (Stage.mem_defines_iff.mpr (Or.inr (Or.inr hd)))

/-! ## Pruned queries -/

/-- The same tree of stages, of which some have left out outputs. -/
inductive Pruned : Query → Query → Prop where
  | node {s s' : Stage} {js js' : List (String × Query)} (stage : s.Narrowed s')
      (joined : List.Forall₂ (fun j j' => Pruned j.2 j'.2) js js') :
      Pruned (.node s js) (.node s' js')

theorem Pruned.refl : q.Pruned q := by
  induction q with
  | node s js ih => exact .node .refl (List.forall₂_same.mpr ih)

theorem Pruned.trans (h : q.Pruned u) (h' : u.Pruned q') : q.Pruned q' := by
  induction q generalizing u q' with
  | node s js ih =>
      cases h with
      | node hs hjs =>
          cases h' with
          | node ht hks =>
              refine .node (hs.trans ht) ?_
              rename_i ks ls
              clear hs ht
              induction hjs generalizing ls with
              | nil =>
                  cases hks
                  exact .nil
              | cons hu _ ihjs =>
                  cases hks with
                  | cons hv hks =>
                      exact .cons (ih _ List.mem_cons_self hu hv)
                        (ihjs (fun j hj => ih j (List.mem_cons_of_mem _ hj)) hks)

/-- Stages of a pruned query are stages of the query, pruned. -/
theorem Pruned.exists_part (h : q.Pruned q') : ∀ p' ∈ q'.parts, ∃ p ∈ q.parts, p.Pruned p' := by
  induction q generalizing q' with
  | node s js ih =>
      have hself := h
      cases h with
      | node hs hjs =>
          intro p' hp'
          rcases mem_parts_node.mp hp' with rfl | ⟨j', hj', hp'⟩
          · exact ⟨_, self_mem_parts _, hself⟩
          · obtain ⟨j, hj, hu⟩ := exists_of_forall₂ hjs hj'
            obtain ⟨p, hp, hpruned⟩ := ih j hj hu p' hp'
            exact ⟨p, mem_parts_node.mpr (Or.inr ⟨j, hj, hp⟩), hpruned⟩

theorem pruned_replace {before after : List (String × Query)}
    {aliasName : String} (h : u.Pruned u') :
    (node s (before ++ (aliasName, u) :: after)).Pruned
      (node s (before ++ (aliasName, u') :: after)) :=
  .node .refl (List.rel_append (List.forall₂_same.mpr fun _ _ => .refl)
    (.cons h (List.forall₂_same.mpr fun _ _ => .refl)))

theorem pruned_pruneTo (q : Query) (needed : List VarId) : q.Pruned (q.pruneTo a needed) := by
  induction q generalizing needed with
  | node s js ih =>
      rcases pruneTo_node a s js needed with h | h
      · rw [h]
        exact .refl
      · rw [h, pruneJoins_eq]
        refine .node (Stage.narrowed_keeping needed) (List.forall₂_map_right_iff.mpr ?_)
        exact List.forall₂_same.mpr fun j hj => ih j hj _

theorem pruned_prune (q : Query) : q.Pruned (q.prune a) ∧ (q.prune a).stage = q.stage := by
  cases q with
  | node s js =>
      rw [prune, pruneJoins_eq]
      refine ⟨.node .refl (List.forall₂_map_right_iff.mpr ?_), rfl⟩
      exact List.forall₂_same.mpr fun j _ => pruned_pruneTo j.2 _

/-- An optimizer that moves nothing prunes, and leaves the first stage as it is. -/
theorem leads_pruned (n : Nat) (q : Query) :
    (optimizeWithin .none n q).Leads a fun q' b => b = a ∧ q.Pruned q' ∧ q'.stage = q.stage := by
  induction n generalizing q with
  | zero => exact leads_pure ⟨rfl, .refl, rfl⟩
  | succ n ih =>
      cases q with
      | node s js =>
          have hkeeps : Keeps (optimizeWithin .none n) fun q' b =>
              b = a ∧ (node s js).Pruned q' ∧ q'.stage = s := by
            rintro t before after aliasName u b ⟨rfl, hpruned, rfl⟩
            refine (ih u).mono ?_
            rintro u' c ⟨rfl, hu, _⟩
            exact ⟨rfl, hpruned.trans (pruned_replace hu), rfl⟩
          have hstart : a = a ∧ (node s js).Pruned (node s ([] ++ js)) ∧
              (node s ([] ++ js)).stage = s := ⟨rfl, .refl, rfl⟩
          refine leads_phases
            (D := fun q' reached b => reached = [] ∧ b = a ∧ (node s js).Pruned q' ∧ q'.stage = s)
            (R := fun q' b => b = a ∧ (node s js).Pruned q' ∧ q'.stage = s)
            (S := fun q' b => b = a ∧ (node s js).Pruned q' ∧ q'.stage = s)
            (leads_mapM_keep hkeeps hstart) (fun _ _ h => ⟨rfl, h⟩) ?_
            (fun h => absurd h Bool.false_ne_true) (fun _ _ _ h => h) ?_
          · rintro q' _ b ⟨rfl, h⟩
            exact leads_pure h
          · rintro q' b ⟨hb, hpruned, hstage⟩
            obtain ⟨hprune, hsame⟩ := pruned_prune (a := b) q'
            exact ⟨hb, hpruned.trans hprune, hsame.trans hstage⟩

/-! ## What arrives -/

/-- Over some passes, the grouping stages of a query take the same bindings with and
without the aggregates that another query withholds. -/
def TakesAlike (a : Arena) (q q' : Query) (passes : List Pass) : Prop :=
  ∀ p ∈ q.parts, ∀ env ∈ p.arrivals a passes,
    (∀ g ∈ p.stage.packs, ¬ q'.Withholds g.var → g.takes env = true) →
      ∀ g ∈ p.stage.packs, g.takes env = true

instance : Decidable (q.TakesAlike a q' passes) :=
  inferInstanceAs (Decidable (∀ p ∈ q.parts, ∀ env ∈ p.arrivals a passes,
    (∀ g ∈ p.stage.packs, ¬ q'.Withholds g.var → g.takes env = true) →
      ∀ g ∈ p.stage.packs, g.takes env = true))

theorem TakesAlike.joined {j j' : String × Query}
    (h : (node s js).TakesAlike a (node s' js') passes)
    (hj : j ∈ js) (hj' : j' ∈ js') : j.2.TakesAlike a j'.2 passes := by
  intro p hp env henv htakes
  refine h p (mem_parts_node.mpr (Or.inr ⟨j, hj, hp⟩)) env henv fun g hg hw => ?_
  exact htakes g hg fun hw' => hw (withholds_node.mpr (Or.inr ⟨j', hj', hw'⟩))

theorem TakesAlike.past (h : q.TakesAlike a q' (p :: earlier)) : q.TakesAlike a q' earlier := by
  intro r hr env henv
  refine h r hr env ?_
  cases r with
  | node s js =>
      rw [arrivals_cons]
      exact List.mem_append_left _ henv

/-- Of what arrives, the first stage takes the same. -/
theorem TakesAlike.stage (h : q.TakesAlike a q' passes) (hstage : q.stage.Narrowed q'.stage) :
    ∀ env ∈ q.arrivals a passes, (∀ g ∈ q'.stage.packs, g.takes env = true) →
      ∀ g ∈ q.stage.packs, g.takes env = true := by
  intro env henv hkept
  refine h q (self_mem_parts q) env henv fun g hg hw => hkept g ?_
  rw [hstage.packs_eq, List.mem_filter]
  refine ⟨hg, List.contains_iff_mem.mpr ?_⟩
  by_contra hout
  exact hw ⟨q', self_mem_parts q', hstage.shape ▸ Stage.mem_defines_of_packs hg, hout⟩

theorem Pruned.stage (h : q.Pruned q') : q.stage.Narrowed q'.stage := by
  obtain ⟨hstage, _⟩ := h
  exact hstage

/-- A pruned query delivers the same of what arrives, for all but the variables it withholds. -/
theorem Pruned.delivered (h : u.Pruned u') (hu : Sound a true true u) (hu' : Sound a true true u')
    (htakes : u.TakesAlike a u' passes)
    (harrivals : List.Forall₂ (Binding.AgreeOff u'.Withholds) (u.arrivals a passes)
      (u'.arrivals a passes)) :
    List.Forall₂ (Binding.AgreeOff u'.Withholds) (u.stage.delivered (u.arrivals a passes))
      (u'.stage.delivered (u'.arrivals a passes)) := by
  have hscoped := hu'.scoped
  refine h.stage.delivered (hu.formed.lawful u (self_mem_parts u)).passed_eq_nil
    (hu'.formed.lawful u' (self_mem_parts u')).passed_eq_nil ?_ ?_ (htakes.stage h.stage) harrivals
  · exact fun v hv hout => ⟨u', self_mem_parts u', h.stage.shape ▸ hv, hout⟩
  · exact fun v hv => (not_withholds hscoped hu'.formed.distinct).1 v (hscoped.uses_bound v hv)

/-- At a pruned query the same arrives, for all but the variables it withholds. -/
theorem Pruned.arrivals (h : q.Pruned q') (hq : Sound a true pack q) (hq' : Sound a true pack q')
    (htakes : q.TakesAlike a q' passes) :
    List.Forall₂ (Binding.AgreeOff q'.Withholds) (q.arrivals a passes) (q'.arrivals a passes) := by
  induction q generalizing q' pack passes with
  | node s js ih =>
      cases h with
      | @node _ s' _ js' hstage hjoined =>
          have hscoped := hq'.scoped
          have hbound := (not_withholds hscoped hq'.formed.distinct).1
          obtain ⟨hown, _⟩ := hscoped
          -- What the joined queries withhold, the whole query withholds.
          have hjoins : ∀ {passes}, (Query.node s js).TakesAlike a (Query.node s' js') passes →
              List.Forall₂ (List.Forall₂ (Binding.AgreeOff (Query.node s' js').Withholds))
                (joinsDeliver a js passes) (joinsDeliver a js' passes) := by
            intro passes htakes
            rw [joinsDeliver_eq, joinsDeliver_eq]
            refine List.forall₂_map_left_iff.mpr (List.forall₂_map_right_iff.mpr ?_)
            obtain ⟨hlength, hpruned⟩ := List.forall₂_iff_zip.mp hjoined
            refine List.forall₂_iff_zip.mpr ⟨hlength, fun {j j'} hzip => ?_⟩
            obtain ⟨hj, hj'⟩ := List.of_mem_zip hzip
            have hu := hq.joined hj
            have hu' := hq'.joined hj'
            have halike := htakes.joined hj hj'
            have hdelivered := (hpruned hzip).delivered hu hu' halike
              (ih j hj (hpruned hzip) hu hu' halike)
            exact hdelivered.imp fun _ _ he => he.mono fun v hv =>
              withholds_node.mpr (Or.inr ⟨j', hj', hv⟩)
          induction passes with
          | nil => exact .nil
          | cons p earlier ihp =>
              rw [arrivals_cons, arrivals_cons, ← hstage.arrivalsIn]
              refine List.rel_append (ihp htakes.past)
                (Stage.arrivalsIn_agreeOff ?_ ?_ (hjoins htakes))
              · exact fun v hv u hu => hbound u (hown.lets v hv u hu)
              · exact fun w hw v hv => hbound v (hown.wheres w hw v hv)

/-! ## Results -/

/-- A query that is pruned below its first stage results in the same rows. -/
theorem Pruned.results (h : q.Pruned q') (hstage : q'.stage = q.stage) (hq : Sound a true false q)
    (hq' : Sound a true false q') (htakes : q.TakesAlike a q' passes) :
    q'.results a passes = q.results a passes := by
  have hscoped := hq'.scoped
  have hread : ∀ v ∈ q'.stage.uses false, ¬ q'.Withholds v := fun v hv =>
    (not_withholds hscoped hq'.formed.distinct).1 v (hscoped.uses_bound v hv)
  have hrows : (q.arrivals a passes).map q'.stage.resultRow =
      (q'.arrivals a passes).map q'.stage.resultRow :=
    map_eq_of_forall₂ ((h.arrivals hq hq' htakes).imp
      fun _ _ he => Stage.resultRow_congr (he.agree hread))
  rw [Query.results, Query.results, ← hrows, hstage]

/-- A pruned query repeats no key that the query does not repeat. -/
theorem Pruned.unambiguous (h : q.Pruned q') (hq : Sound a true pack q) (hq' : Sound a true pack q')
    (hn : q.Neat false) (hn' : q'.Neat false) (hone : q.Unambiguous) : q'.Unambiguous := by
  rw [hq.unambiguous_iff hn] at hone
  rw [hq'.unambiguous_iff hn']
  cases h with
  | node _ hjoined =>
      intro j' hj' p' hp'
      obtain ⟨j, hj, hu⟩ := exists_of_forall₂ hjoined hj'
      obtain ⟨p, hp, hpruned⟩ := hu.exists_part p' hp'
      rw [hpruned.stage.shape]
      exact hone j hj p hp

end Query

namespace Engine

open Query

variable {config : Config} {e : Engine} {q q' : Query} {b : Arena}

/-- The pruned form of a query that was built compiles, defines no variables, and is
installed under the same number if the query can be installed. It hands the same rows to
its sink over all passes in which both take the same bindings. -/
theorem emissions_of_pruned (hreach : Reachable config e)
    (hoptimize : config.optimizeQueries = false)
    (hbaggage : config.baggageEnabled = true) (hq : q.Built e.catalog.arena)
    (hp : (q.optimize .none).run e.catalog.arena = (q', b)) :
    b = e.catalog.arena ∧ (∀ id, ∃ c, q'.compile e.catalog.arena id = .ok c) ∧
      ∀ id e', e.install q = (.ok id, e') → ∃ e'', e.install q' = (.ok id, e'') ∧
        ∀ passes, q.TakesAlike e.catalog.arena q' passes.reverse →
          emissions id (e'', .empty) passes = emissions id (e', .empty) passes := by
  rw [← hreach.config_eq] at hoptimize hbaggage
  have hsound := hq.sound hq.scoped
  obtain ⟨rfl, hpruned, hstage⟩ := (leads_pruned q.depth q).of_run hp
  have hneat' := (leads_neat q.depth hq.neat).of_run hp
  have hleads :=
    leads_optimizeWithin (m := .none) (fun h => absurd h Bool.false_ne_true) q.depth hsound
  have hsound' := (hleads.of_run hp).1
  have hscoped' := hsound'.scoped
  refine ⟨rfl, fun id => (compile_isOk_iff hsound'.formed.ordered).mpr hscoped', fun id e' h => ?_⟩
  obtain rfl := (install_eq_ok h).1
  have hunambiguous := ((install_isOk_iff hoptimize hsound.formed.ordered).mp ⟨e', h⟩).2
  obtain ⟨e'', h'⟩ := (install_isOk_iff hoptimize hsound.formed.ordered).mpr
    ⟨hscoped', hpruned.unambiguous hsound hsound' hq.neat hneat' hunambiguous⟩
  refine ⟨e'', h', fun passes htakes => ?_⟩
  rw [(emissions_of_formed hreach.orderly hoptimize hbaggage hsound.formed h passes).1,
    (emissions_of_formed hreach.orderly hoptimize hbaggage hsound'.formed h' passes).1]
  exact hpruned.results hstage hsound hsound' htakes

namespace Sample

/-- The users that logged in, each with the greatest number it logged in as. -/
def numbers (outputs : Ascending VarId) : Query :=
  .node ⟨⟨none, login⟩, [("user", ⟨0⟩)], [], [], [], outputs,
    .group [⟨0⟩] [⟨⟨1⟩, .max, some ⟨0⟩⟩]⟩ []

/-- Orders with every user that logged in before them. Nobody reads the numbers. -/
def customers (outputs : Ascending VarId) : Query :=
  .node ⟨⟨some "o", order⟩, [("item", ⟨2⟩)], [], [], [], [⟨0⟩, ⟨2⟩], .select [⟨0⟩, ⟨2⟩]⟩
    [("l", numbers outputs)]

def numbersArena : Arena := ⟨[.observed "" "user", .aggregated .max (some ⟨0⟩)]⟩

def customersArena : Arena :=
  ⟨[.observed "" "user", .aggregated .max (some ⟨0⟩), .observed "o" "item"]⟩

theorem built_customers : (customers [⟨0⟩, ⟨1⟩]).Built customersArena := by
  have hgroup : (Query.groupBy (.unnamed login) ["user"]).Yields .empty
      (.node ⟨⟨none, login⟩, [("user", ⟨0⟩)], [], [], [], [⟨0⟩], .group [⟨0⟩] []⟩ [])
      ⟨[.observed "" "user"]⟩ := rfl
  have hmax : (Query.aggregate (.node ⟨⟨none, login⟩, [("user", ⟨0⟩)], [], [], [], [⟨0⟩],
      .group [⟨0⟩] []⟩ []) "user" .max).Yields ⟨[.observed "" "user"]⟩ (numbers [⟨0⟩, ⟨1⟩])
      numbersArena := by decide +kernel
  have hnamed : Query.named "o" order = .ok (.watch ⟨some "o", order⟩) := rfl
  have hjoin :
      (Query.join (.watch ⟨some "o", order⟩) "l" (numbers [⟨0⟩, ⟨1⟩]) none).Yields numbersArena
      (.node (.watch ⟨some "o", order⟩) [("l", numbers [⟨0⟩, ⟨1⟩])]) numbersArena := rfl
  have hselect : (Query.select (.node (.watch ⟨some "o", order⟩) [("l", numbers [⟨0⟩, ⟨1⟩])])
      ["l.user", "o.item"]).Yields numbersArena (customers [⟨0⟩, ⟨1⟩]) customersArena := by
    decide +kernel
  have huser := (Query.Built.named hnamed).grow (d := .observed "" "user") (List.forall_mem_nil _)
  have hwatch := huser.grow (d := .aggregated .max (some ⟨0⟩))
    (List.forall_mem_singleton.mpr Nat.zero_lt_one)
  have hmost := ((Query.Built.unnamed login).groupBy hgroup).aggregate hmax
  exact (hwatch.join hmost hjoin).select hselect

def serving : Build Query := do
  let g ← Query.groupBy (.unnamed login) ["user"]
  let g ← g.aggregate "user" .max
  let q ← Query.join (.watch ⟨some "o", order⟩) "l" g none
  q.select ["l.user", "o.item"]

/-- An engine in which the customers have been built. -/
def shop : Engine := ((Engine.start ⟨false, true, false, 1000⟩).buildQuery serving).2

theorem prune_customers :
    ((customers [⟨0⟩, ⟨1⟩]).optimize .none).run customersArena =
      (customers [⟨0⟩], customersArena) :=
  rfl

theorem reachable_shop : Reachable ⟨false, true, false, 1000⟩ shop := .buildQuery serving .start

theorem arena_shop : shop.catalog.arena = customersArena := by decide +kernel

theorem install_customers : (shop.install (customers [⟨0⟩, ⟨1⟩])).1 = .ok ⟨1⟩ := by decide +kernel

end Sample

open Engine.Sample in
theorem emissions_customers :
    emissions ⟨1⟩ ((shop.install (customers [⟨0⟩])).2, .empty) logins =
      [[.int 0, .int 7], [.int 4, .int 7], [.int 3, .int 7]] := by
  obtain ⟨_, _, hsame⟩ := emissions_of_pruned reachable_shop rfl rfl (arena_shop ▸ built_customers)
    (arena_shop ▸ prune_customers)
  obtain ⟨e'', h, hrun⟩ := hsame _ _ (Prod.ext install_customers rfl)
  have htakes : (customers [⟨0⟩, ⟨1⟩]).TakesAlike customersArena
      (customers [⟨0⟩]) logins.reverse := by
    decide +kernel
  rw [h, hrun logins (arena_shop ▸ htakes)]
  decide +kernel

open Engine.Sample in
/-- Without the numbers of users an order finds users whose names are no numbers. With
the numbers it does not, although nobody reads them. -/
theorem exists_emissions_of_pruned_ne :
    ∃ (e e' e'' : Engine) (q q' : Query) (passes : List Pass),
      Reachable ⟨false, true, false, 1000⟩ e ∧ q.Built e.catalog.arena ∧
        (q.optimize .none).run e.catalog.arena = (q', e.catalog.arena) ∧
        e.install q = (.ok ⟨1⟩, e') ∧ e.install q' = (.ok ⟨1⟩, e'') ∧
        emissions ⟨1⟩ (e', .empty) passes = [] ∧
        emissions ⟨1⟩ (e'', .empty) passes = [[.str "ann", .int 3], [.str "bob", .int 3]] := by
  have hinstall' : (shop.install (customers [⟨0⟩])).1 = .ok ⟨1⟩ := by decide +kernel
  refine ⟨shop, _, _, customers [⟨0⟩, ⟨1⟩], customers [⟨0⟩], passes, reachable_shop,
    arena_shop ▸ built_customers, arena_shop ▸ prune_customers, Prod.ext install_customers rfl,
    Prod.ext hinstall' rfl, ?_, ?_⟩
  · decide +kernel
  · decide +kernel

end Engine

end CausalTrace
