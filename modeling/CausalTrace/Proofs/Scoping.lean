import CausalTrace.Proofs.Slots

/-!
# Plans that can be resolved

A plan is resolved if and only if it is well scoped: its names are bound once each, and read only
where they are bound. The sink of a plan is made when nothing can fail any more, so a plan that is
not well scoped leaves the sinks alone. One that is never leaves its rows when it runs.
-/

namespace CausalTrace

/-- Every name of a plan is bound once, and before it is read. -/
structure AdviceSpec.WellScoped (p : AdviceSpec String) : Prop where
  /-- What is observed, the columns of the bags and the lets have different names. -/
  distinct : p.bound.Nodup
  /-- A let reads what comes in and the lets before it. -/
  lets : ∀ before l after, p.lets = before ++ l :: after →
    ∀ name ∈ l.args, name ∈ p.incoming ++ before.map (·.name)
  wheres : ∀ w ∈ p.wheres, ∀ name ∈ w.args, name ∈ p.bound
  /-- The operands of counts need not be bound. -/
  output : ∀ name ∈ p.output.bag.reads, name ∈ p.bound

namespace Advice

variable {bound args : List String} {name : String}

/-! ## What each step needs -/

theorem exists_place_iff (reader : String) :
    (∃ i, place bound reader name = .ok i) ↔ name ∈ bound := by
  constructor
  · rintro ⟨i, h⟩
    obtain ⟨hi, hname, _⟩ := List.idxOf?_eq_some_iff.mp (idxOf?_of_place h)
    exact hname ▸ List.getElem_mem hi
  · intro h
    exact ⟨_, place_eq_ok (idxOf?_eq_some_of_mem h)⟩

theorem exists_places_iff (reader : String) :
    (∃ places, args.mapM (place bound reader) = .ok places) ↔ ∀ name ∈ args, name ∈ bound := by
  simp only [exists_mapM_eq_ok_iff, exists_place_iff]

theorem exists_bindWhere_iff {w : WhereSpec String} :
    (∃ t, bindWhere bound w = .ok t) ↔ ∀ name ∈ w.args, name ∈ bound := by
  rw [← exists_places_iff ("where " ++ w.expr)]
  exact exists_bind_pure_eq_ok_iff

theorem exists_bindLets_iff {ls : List (LetSpec String)} (hb : bound.Nodup) :
    (∃ r, bindLets bound ls = .ok r) ↔ (bound ++ ls.map (·.name)).Nodup ∧
      ∀ before l after, ls = before ++ l :: after →
        ∀ name ∈ l.args, name ∈ bound ++ before.map (·.name) := by
  induction ls generalizing bound with
  | nil =>
      refine ⟨fun _ => ⟨by simpa using hb, fun before l after h => ?_⟩, fun _ => ⟨_, rfl⟩⟩
      exact absurd h (by simp)
  | cons l ls ih =>
      rw [List.map_cons, List.append_cons, bindLets, exists_bind_eq_ok_iff]
      constructor
      · rintro ⟨places, hp, hbind⟩
        obtain ⟨next, hn, hrest⟩ := exists_bind_eq_ok_iff.mp hbind
        obtain ⟨hm, rfl⟩ := bind_eq_ok_iff_not_mem.mp hn
        obtain ⟨rest, hrest, _⟩ := exists_bind_eq_ok_iff.mp hrest
        obtain ⟨hnodup, hlets⟩ := (ih (nodup_append_singleton.mpr ⟨hb, hm⟩)).mp ⟨rest, hrest⟩
        refine ⟨hnodup, fun before l' after hsplit => ?_⟩
        -- The first let has nothing before it, and the others have it before them.
        cases before with
        | nil =>
            obtain ⟨rfl, _⟩ := List.cons.inj hsplit
            simpa using (exists_places_iff _).mp ⟨places, hp⟩
        | cons first before =>
            obtain ⟨rfl, hls⟩ := List.cons.inj hsplit
            simpa using hlets before l' after hls
      · rintro ⟨hnodup, hlets⟩
        have hb' : (bound ++ [l.name]).Nodup := (List.nodup_append.mp hnodup).1
        have hm : l.name ∉ bound := (nodup_append_singleton.mp hb').2
        have hargs : ∀ name ∈ l.args, name ∈ bound := by simpa using hlets [] l ls rfl
        have hrest : ∃ r, bindLets (bound ++ [l.name]) ls = .ok r := by
          refine (ih hb').mpr ⟨hnodup, fun before l' after hsplit => ?_⟩
          simpa using hlets (l :: before) l' after (congrArg (l :: ·) hsplit)
        obtain ⟨places, hp⟩ := (exists_places_iff _).mpr hargs
        refine ⟨places, hp, exists_bind_eq_ok_iff.mpr ⟨_, bind_eq_ok_iff_not_mem.mpr ⟨hm, rfl⟩, ?_⟩⟩
        exact exists_bind_pure_eq_ok_iff.mpr hrest

theorem exists_placesIfBound_iff (reader : String) :
    (∃ places, (args.mapM fun v => do return some (← place bound reader v)) = .ok places) ↔
      ∀ name ∈ args, name ∈ bound := by
  rw [exists_mapM_eq_ok_iff]
  refine forall₂_congr fun name _ => ?_
  rw [exists_bind_pure_eq_ok_iff, exists_place_iff]

theorem exists_project_iff (reader : String) {bag : BagSpec String} :
    (∃ ps, project bound reader bag = .ok ps) ↔ ∀ name ∈ bag.reads, name ∈ bound := by
  cases bag with
  | tuple vars => exact exists_placesIfBound_iff reader
  | filter keep vars => exact exists_placesIfBound_iff reader
  | groupBy keys aggregates =>
      have hreads : (∀ name ∈ (BagSpec.groupBy keys aggregates).reads, name ∈ bound) ↔
          (∀ name ∈ keys, name ∈ bound) ∧ ∀ g ∈ aggregates, g.how ≠ .count → g.name ∈ bound := by
        rw [BagSpec.reads, List.forall_mem_append, List.forall_mem_map]
        simp
      have hplaced : ∀ g : AggregateSpec String,
          (∃ q, (do return some (← place bound reader g.name)) = .ok q) ↔ g.name ∈ bound :=
        fun g => exists_bind_pure_eq_ok_iff.trans (exists_place_iff reader)
      rw [hreads, ← exists_placesIfBound_iff reader, project, exists_bind_eq_ok_iff]
      constructor
      · rintro ⟨ks, hks, hgs⟩
        refine ⟨⟨ks, hks⟩, fun g hg hcount => ?_⟩
        have hstep := exists_mapM_eq_ok_iff.mp (exists_bind_pure_eq_ok_iff.mp hgs) g hg
        cases hhow : g.how with
        | count => exact absurd hhow hcount
        | sum | min | max =>
            rw [hhow] at hstep
            exact (hplaced g).mp hstep
      · rintro ⟨⟨ks, hks⟩, hoperands⟩
        refine ⟨ks, hks, exists_bind_pure_eq_ok_iff.mpr (exists_mapM_eq_ok_iff.mpr fun g hg => ?_)⟩
        cases hhow : g.how with
        | count => exact ⟨_, rfl⟩
        | sum | min | max => exact (hplaced g).mpr (hoperands g hg (by rw [hhow]; decide))

variable {p : AdviceSpec String} {sinks : Sinks} {enabled : Bool}

theorem wellScoped_of_create {r : Advice × Sinks} (h : create p sinks enabled = .ok r) :
    p.WellScoped := by
  obtain ⟨a, sinks'⟩ := r
  obtain ⟨_, bound, reader, hl, hw, hp⟩ := parts_of_create h
  have hdistinct := nodup_of_create h
  have hincoming : p.incoming.Nodup := (List.nodup_append.mp hdistinct).1
  obtain rfl : bound = p.bound := (bindLets_eq_ok hincoming hl).2
  constructor
  · exact hdistinct
  · exact ((exists_bindLets_iff hincoming).mp ⟨_, hl⟩).2
  · exact fun w hmem => exists_bindWhere_iff.mp (exists_mapM_eq_ok_iff.mp ⟨_, hw⟩ w hmem)
  · exact (exists_project_iff reader).mp ⟨_, hp⟩

/-- Where a plan is well scoped, no step of resolving it fails. -/
theorem exists_create_of_wellScoped (h : p.WellScoped) (sinks : Sinks) (enabled : Bool) :
    ∃ r, create p sinks enabled = .ok r := by
  have hincoming : p.incoming.Nodup := (List.nodup_append.mp h.distinct).1
  have hobserve : ([] ++ p.observe).Nodup := (List.nodup_append.mp hincoming).1
  obtain ⟨⟨bound, ts⟩, hl⟩ := (exists_bindLets_iff hincoming).mpr ⟨h.distinct, h.lets⟩
  obtain rfl : bound = p.bound := (bindLets_eq_ok hincoming hl).2
  have hw : ∃ ws, p.wheres.mapM (bindWhere p.bound) = .ok ws :=
    exists_mapM_eq_ok_iff.mpr fun w hmem => exists_bindWhere_iff.mpr (h.wheres w hmem)
  have hp := h.output
  rw [create, exists_bind_eq_ok_iff]
  refine ⟨_, (foldlM_bind_eq_ok_iff List.nodup_nil).mpr ⟨hobserve, rfl⟩, ?_⟩
  rw [exists_bind_eq_ok_iff]
  refine ⟨_, (foldlM_bind_eq_ok_iff hobserve).mpr ⟨hincoming, rfl⟩, ?_⟩
  rw [exists_bind_eq_ok_iff]
  refine ⟨_, hl, ?_⟩
  obtain ⟨ws, hw⟩ := hw
  rw [exists_bind_eq_ok_iff]
  refine ⟨ws, hw, ?_⟩
  cases hout : p.output with
  | pack id bag =>
      rw [hout] at hp
      exact exists_bind_pure_eq_ok_iff.mpr ((exists_project_iff _).mpr hp)
  | emit id bag =>
      rw [hout] at hp
      exact exists_bind_pure_eq_ok_iff.mpr ((exists_project_iff _).mpr hp)

/-! ## Making the sink -/

/-- Resolves a plan where the sinks are at hand: the sink of a plan that emits is made in its place,
between the other steps. -/
def setUp (spec : AdviceSpec String) (baggageEnabled : Bool) :
    ExceptT Error (StateM Sinks) Advice := do
  let bound ← liftM (spec.observe.foldlM bind [])
  let bound ← liftM ((spec.unpack.flatMap (·.bag.names)).foldlM bind bound)
  let unpacks := spec.unpack.map fun u =>
    ⟨Bag.create u.bagId u.bag baggageEnabled, u.bag.arity⟩
  let (bound, lets) ← liftM (bindLets bound spec.lets)
  let wheres ← liftM (spec.wheres.mapM (bindWhere bound))
  match spec.output with
  | .pack bagId bag =>
      let projection ← liftM (project bound "pack" bag)
      return ⟨spec, unpacks, lets, wheres, projection, .pack (Bag.create bagId bag baggageEnabled)⟩
  | .emit outputId bag =>
      let projection ← liftM (project bound "emit" bag)
      let sink ← modifyGet (·.create outputId bag)
      return ⟨spec, unpacks, lets, wheres, projection, .emit sink⟩

/-- What resolving gives, and the sinks it leaves: those before, if it fails. -/
def outcome (sinks : Sinks) : Except Error (Advice × Sinks) → Except Error Advice × Sinks
  | .ok (a, sinks') => (.ok a, sinks')
  | .error e => (.error e, sinks)

/-- A step that leaves the sinks alone fails on both sides, or goes on from its result. -/
theorem run_liftM_bind {α : Type} {x : Except Error α} {f : α → ExceptT Error (StateM Sinks) Advice}
    {g : α → Except Error (Advice × Sinks)} (h : ∀ y, (f y).run sinks = outcome sinks (g y)) :
    (liftM x >>= f).run sinks = outcome sinks (x >>= g) := by
  cases x with
  | error e => rfl
  | ok y => exact h y

theorem run_setUp (p : AdviceSpec String) (enabled : Bool) (sinks : Sinks) :
    (setUp p enabled).run sinks = outcome sinks (create p sinks enabled) := by
  rw [setUp, create]
  refine run_liftM_bind fun observed => ?_
  refine run_liftM_bind fun incoming => ?_
  refine run_liftM_bind fun bindings => ?_
  refine run_liftM_bind fun wheres => ?_
  cases p.output with
  | pack id bag => exact run_liftM_bind fun projection => rfl
  | emit id bag => exact run_liftM_bind fun projection => rfl

/-- Resolving succeeds for well-scoped plans and for no others. Where it fails, the sinks are those
from before; where it succeeds, no run leaves its rows, however many values are observed. -/
theorem setUp_wellScoped (p : AdviceSpec String) (enabled : Bool) (sinks : Sinks) :
    ((∃ a sinks', (setUp p enabled).run sinks = (.ok a, sinks')) ↔ p.WellScoped) ∧
    (∀ e sinks', (setUp p enabled).run sinks = (.error e, sinks') →
      create p sinks enabled = .error e ∧ sinks' = sinks) ∧
    ∀ a sinks', (setUp p enabled).run sinks = (.ok a, sinks') →
      create p sinks enabled = .ok (a, sinks') ∧
      ∀ (version : UInt64) (reached : Sinks) (b : Baggage) (observed : Row),
        a.runInPlace version reached b observed = .ok (a.run version reached b observed) := by
  rw [run_setUp]
  cases hcreate : create p sinks enabled with
  | error e =>
      refine ⟨⟨?_, fun h => ?_⟩, ?_, ?_⟩
      · rintro ⟨a, sinks', ⟨⟩⟩
      · obtain ⟨r, hr⟩ := exists_create_of_wellScoped h sinks enabled
        cases hcreate.symm.trans hr
      · rintro e' sinks' ⟨⟩
        exact ⟨rfl, rfl⟩
      · rintro a sinks' ⟨⟩
  | ok r =>
      refine ⟨⟨fun _ => wellScoped_of_create hcreate, fun _ => ⟨r.1, r.2, rfl⟩⟩, ?_, ?_⟩
      · rintro e sinks' ⟨⟩
      · rintro a sinks' ⟨⟩
        exact ⟨rfl, runInPlace_eq hcreate⟩

namespace Sample

/-- What the items of a shop bring in, and how many there are: the operand of the count is bound
nowhere. -/
def takings : AdviceSpec String where
  observe := ["shop"]
  unpack := [⟨⟨⟨0⟩, 0⟩, .tuple ["item", "price"]⟩]
  lets := [⟨"gross", "{} * 2", ["price"]⟩]
  wheres := []
  output := .emit ⟨0⟩ (.groupBy ["shop"] [⟨"gross", .sum⟩, ⟨"calls", .count⟩])

/-- Here the let reads the name it binds. -/
def circular : AdviceSpec String := { takings with lets := [⟨"gross", "{} * 2", ["gross"]⟩] }

end Sample

open Advice.Sample in
/-- A plan of four names that is given six values, and a plan that cannot be resolved. -/
theorem setUp_wellScoped_takings : takings.WellScoped ∧ ¬ circular.WellScoped ∧
    (∀ sinks, ((setUp circular true).run sinks).2 = sinks) ∧
    ∃ a sinks, (setUp takings true).run (.start false 1000) = (.ok a, sinks) ∧
      (a.runInPlace 0 sinks shelf [.str "north", .int 1, .int 2, .int 3, .int 4, .int 5]).map
        (·.1) = .ok ⟨2, 0, 2⟩ := by
  have hfails : ∀ sinks, ∃ e, (setUp circular true).run sinks = (.error e, sinks) :=
    fun sinks => ⟨_, rfl⟩
  have hok : (create takings (.start false 1000) true).isOk := by decide +kernel
  obtain ⟨⟨a, sinks⟩, hcreate⟩ := exists_of_isOk hok
  have hstats : (create takings (.start false 1000) true).toOption.map (fun r =>
      (r.1.run 0 r.2 shelf [.str "north", .int 1, .int 2, .int 3, .int 4, .int 5]).1) =
      some ⟨2, 0, 2⟩ := by decide +kernel
  rw [hcreate] at hstats
  have hset : (setUp takings true).run (.start false 1000) = (.ok a, sinks) := by
    rw [run_setUp, hcreate]
    rfl
  obtain ⟨hiff, _, hruns⟩ := setUp_wellScoped takings true (.start false 1000)
  refine ⟨hiff.mp ⟨a, sinks, hset⟩, fun h => ?_, fun sinks => ?_, a, sinks, hset, ?_⟩
  · obtain ⟨hcircular, _, _⟩ := setUp_wellScoped circular true (.start false 1000)
    obtain ⟨_, _, hok⟩ := hcircular.mpr h
    obtain ⟨e, herror⟩ := hfails (.start false 1000)
    cases hok.symm.trans herror
  · obtain ⟨e, herror⟩ := hfails sinks
    rw [herror]
  · rw [(hruns a sinks hset).2]
    exact congrArg Except.ok (Option.some.inj hstats)

end Advice

end CausalTrace
