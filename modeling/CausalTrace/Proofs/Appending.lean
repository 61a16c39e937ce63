import CausalTrace.Proofs.Sharing
import CausalTrace.Proofs.Optimizing
import CausalTrace.Query.Grammar

/-!
# Appending definitions

Whatever is done with queries, in good order or not, whether it succeeds or fails: the arena
only gets more definitions. None is ever changed or taken away.
-/

namespace CausalTrace

/-! ## Steps that append -/

/-- Steps that do no more to any arena than to append definitions. -/
def Defining.Appends {α : Type} (x : Defining α) : Prop :=
  ∀ a, x.Leads a fun _ b => a.defs <+: b.defs

/-- The same for steps that may fail: what they defined before they fail is appended. -/
def Build.Appends {α : Type} (x : Build α) : Prop := Defining.Appends x.run

namespace Defining

variable {α β : Type} {x : Defining α} {f : α → Defining β}

theorem appends_pure (r : α) : Appends (pure r) := fun _ => leads_pure (List.prefix_refl _)

theorem appends_get : Appends get := fun _ => leads_get (List.prefix_refl _)

theorem appends_define (d : Definition) : (define d).Appends := fun a => by
  show a.defs <+: (a.define d).2.defs
  exact Arena.prefix_define

theorem Appends.bind (h : x.Appends) (hf : ∀ r, (f r).Appends) : Appends (x >>= f) := fun a =>
  (h a).bind fun r b hab => (hf r b).mono fun _ _ hbc => hab.trans hbc

theorem appends_mapM {f : α → Defining β} {xs : List α} (h : ∀ x ∈ xs, (f x).Appends) :
    (xs.mapM f).Appends := by
  induction xs with
  | nil => exact appends_pure _
  | cons x xs ih =>
      obtain ⟨hx, hxs⟩ := List.forall_mem_cons.mp h
      rw [List.mapM_cons]
      exact hx.bind fun _ => (ih hxs).bind fun _ => appends_pure _

theorem appends_foldlM {f : β → α → Defining β} {xs : List α} (h : ∀ r x, (f r x).Appends) (r : β) :
    (xs.foldlM f r).Appends := by
  induction xs generalizing r with
  | nil => exact appends_pure _
  | cons x xs ih =>
      rw [List.foldlM_cons]
      exact (h r x).bind fun r' => ih r'

end Defining

namespace Build

variable {α β : Type} {x : Build α} {f : α → Build β}

theorem Appends.of_yields (h : x.Appends) {a a' : Arena} {r : α} (hy : x.Yields a r a') :
    a.defs <+: a'.defs :=
  (h a).of_run hy

theorem appends_pure (r : α) : Appends (pure r) := Defining.appends_pure _

theorem appends_throw (e : Error) : Appends (throw e : Build α) := Defining.appends_pure _

theorem appends_liftExcept (y : Except Error α) : Appends (liftM y) := by
  cases y <;> exact Defining.appends_pure _

theorem appends_get : Appends get := fun a => by
  show a.defs <+: a.defs
  exact List.prefix_refl _

theorem appends_define (d : Definition) : (define d).Appends := fun a => by
  show a.defs <+: (a.define d).2.defs
  exact Arena.prefix_define

/-- What follows a step that failed is not taken. -/
theorem Appends.bind (h : x.Appends) (hf : ∀ r, (f r).Appends) : Appends (x >>= f) := by
  show Defining.Appends (x.run >>= ExceptT.bindCont f)
  refine Defining.Appends.bind h fun r => ?_
  cases r with
  | error e => exact Defining.appends_pure _
  | ok r => exact hf r

/-- Nothing follows an error. -/
theorem appends_throw_bind (e : Error) (f : α → Build β) : Appends (throw e >>= f) := fun _ =>
  List.prefix_refl _

theorem appends_foldlM {f : β → α → Build β} {xs : List α} (h : ∀ r x, (f r x).Appends) (r : β) :
    (xs.foldlM f r).Appends := by
  induction xs generalizing r with
  | nil => exact appends_pure _
  | cons x xs ih =>
      rw [List.foldlM_cons]
      exact (h r x).bind fun r' => ih r'

end Build

/-! ## Resolving names -/

open Build in
theorem Stage.appends_observe (s : Stage) (field : String) : (s.observe field).Appends := by
  rw [observe]
  split
  · exact appends_pure _
  · exact (appends_define _).bind fun _ => appends_pure _

namespace Query

open Build

variable {q other : Query} {name : String}

theorem appends_deliver {input : String → Build (Query × VarId)}
    (h : ∀ name, (input name).Appends) : (q.deliver input name).Appends := by
  rw [deliver]
  split
  · split
    · next how operand _ =>
        cases operand with
        | none =>
            refine (appends_pure (q, none)).bind fun r => ?_
            dsimp only
            split
            · exact appends_pure _
            · exact appends_throw _
        | some operand =>
            refine (h operand).bind fun r => (appends_pure (r.1, some r.2)).bind fun r => ?_
            dsimp only
            split
            · exact appends_pure _
            · exact appends_throw _
    · refine (h name).bind fun r => ?_
      dsimp only
      split
      · exact appends_pure _
      · exact appends_throw _
  · refine (h name).bind fun r => ?_
    dsimp only
    split
    · exact appends_pure _
    · exact appends_throw _
  · exact (h name).bind fun _ => appends_pure _
  · exact (h name).bind fun _ => appends_pure _

theorem appends_inputFrom {js : List (String × Query)}
    (h : ∀ j ∈ js, ∀ name, (j.2.input name).Appends) (aliasName rest : String) :
    (inputFrom aliasName rest js).Appends := by
  induction js with
  | nil =>
      rw [inputFrom]
      exact appends_throw _
  | cons j js ih =>
      obtain ⟨hj, hjs⟩ := List.forall_mem_cons.mp h
      rw [inputFrom]
      split
      · exact (appends_deliver hj).bind fun _ => appends_pure _
      · exact (ih hjs).bind fun _ => appends_pure _

theorem appends_input (q : Query) (name : String) : (q.input name).Appends := by
  induction q generalizing name with
  | node s js ih =>
      rw [input]
      split
      · exact appends_pure _
      · exact (s.appends_observe _).bind fun _ => appends_pure _
      · exact (appends_inputFrom ih _ _).bind fun _ => appends_pure _
      · exact appends_throw _

theorem appends_inputs (q : Query) (names : List String) : (q.inputs names).Appends := by
  induction names generalizing q with
  | nil => exact appends_pure _
  | cons name names ih =>
      rw [inputs]
      exact (q.appends_input name).bind fun r => (ih r.1).bind fun _ => appends_pure _

/-! ## Builder calls -/

theorem appends_addWhere (q : Query) (expr : String) (args : List String) :
    (q.addWhere expr args).Appends :=
  (appends_liftExcept _).bind fun _ => (q.appends_inputs args).bind fun _ => appends_pure _

theorem appends_addLet (q : Query) (name expr : String) (args : List String) :
    (q.addLet name expr args).Appends :=
  (appends_liftExcept _).bind fun _ => (appends_liftExcept _).bind fun _ =>
    (q.appends_inputs args).bind fun _ => (appends_define _).bind fun _ => appends_pure _

theorem appends_select (q : Query) (names : List String) : (q.select names).Appends :=
  (appends_liftExcept _).bind fun _ => (q.appends_inputs names).bind fun _ => appends_pure _

theorem appends_groupBy (q : Query) (names : List String) : (q.groupBy names).Appends :=
  (appends_liftExcept _).bind fun _ => (q.appends_inputs names).bind fun _ => appends_pure _

theorem appends_addAggregate (q : Query) (how : Aggregation) (input : Option VarId) :
    (q.addAggregate how input).Appends := by
  rw [addAggregate]
  split
  · exact (appends_define _).bind fun _ => appends_pure _
  · exact appends_throw _

theorem appends_aggregate (q : Query) (name : String) (how : Aggregation) :
    (q.aggregate name how).Appends :=
  (q.appends_input name).bind fun r => r.1.appends_addAggregate how _

theorem appends_renew (renamed : List (VarId × VarId)) (v : VarId) : (renew renamed v).Appends := by
  refine appends_get.bind fun a => ?_
  split
  · exact (appends_define _).bind fun _ => appends_pure _
  · exact appends_pure _

theorem appends_instantiate (q : Query) : q.instantiate.Appends :=
  (appends_foldlM appends_renew _).bind fun _ => appends_pure _

theorem appends_prepare (q other : Query) (filter : Option Filter) :
    (q.prepare other filter).Appends := by
  rw [prepare]
  cases filter with
  | none =>
      split
      · exact other.appends_instantiate.bind fun _ => appends_pure _
      · exact (appends_pure other).bind fun _ => appends_pure _
  | some f =>
      split
      · exact other.appends_instantiate.bind fun _ => appends_liftExcept _
      · exact (appends_pure other).bind fun _ => appends_liftExcept _

theorem appends_join (q other : Query) (aliasName : String) (filter : Option Filter) :
    (q.join aliasName other filter).Appends :=
  (appends_liftExcept _).bind fun _ => (q.appends_prepare other filter).bind fun _ => appends_pure _

theorem appends_joinVia (q other : Query) (via aliasName : String) (filter : Option Filter) :
    (q.joinVia via aliasName other filter).Appends := by
  refine (appends_liftExcept _).bind fun _ => ?_
  split
  · exact appends_throw _
  · next existing _ =>
      exact (q.appends_prepare other filter).bind fun u =>
        (existing.appends_join u aliasName none).bind fun _ => appends_pure _

end Query

/-! ## Texts -/

namespace Grammar

open Build

variable {c : Catalog} {q : Query} {words : List String}

theorem appends_joinLine : (joinLine c q words).Appends := by
  unfold joinLine
  split
  · split
    · exact appends_throw _
    · split
      · exact appends_throw _
      · split
        · exact appends_throw _
        · refine (appends_liftExcept _).bind fun r => (appends_liftExcept _).bind fun other => ?_
          split
          · exact q.appends_join other _ _
          · split
            · exact q.appends_joinVia other _ _ _
            · exact appends_throw _
  · exact appends_throw _

theorem appends_whereLine : (whereLine q words).Appends := by
  rw [whereLine.eq_def]
  split
  · exact q.appends_addWhere _ _
  · exact appends_throw _

theorem appends_letLine : (letLine q words).Appends := by
  rw [letLine.eq_def]
  split
  · exact q.appends_addLet _ _ _
  · exact appends_throw _

theorem appends_selectLine : (selectLine q words).Appends := by
  rw [selectLine]
  split
  · exact appends_throw _
  · exact q.appends_select _

theorem appends_aggregateNamed (q : Query) (name : String) : (aggregateNamed q name).Appends := by
  rw [aggregateNamed]
  split
  · exact q.appends_addAggregate _ _
  · exact q.appends_aggregate _ _
  · exact appends_throw _

theorem appends_groupLines (q : Query) (groupWords selectWords : List String) :
    (groupLines q groupWords selectWords).Appends := by
  rw [groupLines]
  split
  · exact appends_throw_bind _ _
  · dsimp only
    split
    · exact appends_throw_bind _ _
    · split
      · exact appends_throw _
      · exact (q.appends_groupBy _).bind (appends_foldlM appends_aggregateNamed)

theorem appends_grouped {lines : List String} : (grouped q words lines).Appends := by
  cases lines with
  | nil => exact appends_throw _
  | cons select rest => exact (appends_groupLines q _ _).bind fun _ => appends_liftExcept _

theorem appends_body {lines : List String} : (body c q lines).Appends := by
  induction lines generalizing q with
  | nil => exact appends_pure _
  | cons line rest ih =>
      rw [body]
      split
      · exact appends_throw _
      · exact appends_joinLine.bind fun _ => ih
      · exact appends_whereLine.bind fun _ => ih
      · exact appends_letLine.bind fun _ => ih
      · exact appends_selectLine.bind fun _ => appends_liftExcept _
      · exact appends_grouped
      · exact appends_throw _

theorem appends_query (c : Catalog) (text : String) : (query c text).Appends := by
  rw [query]
  split
  · exact appends_throw _
  · exact (appends_liftExcept _).bind fun _ => appends_body

end Grammar

/-! ## Optimizing -/

namespace Query

open Defining

variable {keys residual kept delivered : List VarId} {gs : List Aggregate}
  {js : List (String × Query)}

theorem appends_shareOne (s : Sharing) (g : Aggregate) : (shareOne kept delivered s g).Appends := by
  rw [shareOne]
  split
  · split
    · exact (appends_define _).bind fun _ => appends_pure _
    · exact appends_pure _
  · exact appends_pure _

theorem appends_shareAll : (shareAll keys residual gs js).Appends := by
  induction js generalizing gs with
  | nil => exact appends_pure _
  | cons j js ih =>
      rw [shareAll]
      split
      · have hshare : (share keys residual gs j.2).Appends :=
          (appends_foldlM appends_shareOne _).bind fun _ => appends_pure _
        exact hshare.bind fun _ => ih.bind fun _ => appends_pure _
      · exact ih

theorem appends_countOne (q : Query) (shared : List (String × Query)) (g : Aggregate) :
    (countOne q shared g).Appends := by
  rw [countOne]
  split
  · have hcountRows : ∀ j : String × Query, (countRows j).Appends := fun j =>
      (appends_define _).bind fun _ => appends_pure _
    exact (appends_mapM fun j _ => hcountRows j).bind fun _ =>
      (appends_define _).bind fun _ => appends_pure _
  · exact appends_pure _

theorem appends_countAll (q : Query) (shared : List (String × Query)) (gs : List Aggregate) :
    (countAll q shared gs).Appends := by
  induction gs generalizing q shared with
  | nil => exact appends_pure _
  | cons g gs ih =>
      rw [countAll]
      exact (appends_countOne q shared g).bind fun r => (ih r.1 r.2.1).bind fun _ => appends_pure _

theorem appends_pushAggregates {again : Query → Defining Query} (hagain : ∀ u, (again u).Appends)
    (q : Query) : (pushAggregates again q).Appends := by
  rw [pushAggregates]
  split
  · refine appends_get.bind fun a => appends_shareAll.bind fun r => ?_
    have hrejoin : ∀ (q : Query) (j : String × Query), (rejoin again q j).Appends := fun _ j =>
      (hagain j.2).bind fun _ => appends_pure _
    have hfinish : ∀ (q : Query) (shared : List (String × Query)),
        (shared.foldlM (rejoin again) q).Appends := fun q _ => appends_foldlM hrejoin q
    dsimp only
    split
    · exact hfinish _ _
    · exact (appends_countAll _ _ _).bind fun _ => hfinish _ _
  · exact appends_pure _
  · exact appends_pure _
  · exact appends_pure _

theorem appends_optimizeWithin (m : Moves) (n : Nat) (q : Query) :
    (optimizeWithin m n q).Appends := by
  induction n generalizing q with
  | zero => exact appends_pure _
  | succ n ih =>
      cases q with
      | node s js =>
          rw [optimizeWithin]
          have hjoined : ∀ j : String × Query,
              Appends (do return (j.1, ← optimizeWithin m n j.2)) := fun j =>
            (ih j.2).bind fun _ => appends_pure _
          have hprune : ∀ q : Query, Appends (do return q.prune (← get)) := fun q =>
            appends_get.bind fun _ => appends_pure _
          refine (appends_mapM fun j _ => hjoined j).bind fun js' => ?_
          refine appends_get.bind fun a => ?_
          have hrevisit : ∀ (q : Query) (aliasName : String),
              (revisit (optimizeWithin m n) q aliasName).Appends := by
            intro q aliasName
            rw [revisit]
            split
            · exact (ih _).bind fun _ => appends_pure _
            · exact appends_pure _
          refine (appends_foldlM hrevisit _).bind fun q' => ?_
          dsimp only
          split
          · exact (appends_pushAggregates ih q').bind hprune
          · exact hprune q'

end Query

end CausalTrace
