import CausalTrace.Proofs.Copies
import Mathlib.Logic.Relation

/-!
# What building changes

A builder call is a run of small changes: it observes fields and marks outputs until its
names are resolved, and then adds one thing to the first stage. What every change preserves
is preserved by every call, and holds of every query that was built.
-/

namespace CausalTrace

namespace Query

variable {a a' b : Arena} {s : Stage} {js before after : List (String × Query)}
  {q q' u u' other : Query} {name aliasName : String} {names : List String} {v : VarId}

/-! ## Marks -/

/-- One field more is observed, or one output more is marked, at one stage of the tree. -/
inductive Mark : Arena × Query → Arena × Query → Prop where
  | observe {a : Arena} {s : Stage} {js : List (String × Query)} {field : String} :
      s.observed.find? field = none →
      Mark (a, .node s js) (⟨a.defs ++ [.observed (s.source.aliasName.getD "") field]⟩,
        .node { s with observed := s.observed.insert field ⟨a.defs.length⟩ } js)
  | deliver {a : Arena} {q : Query} (v : VarId) : Mark (a, q) (a, q.withStage (·.deliverAlso v))
  | joined {a b : Arena} {s : Stage} {before after : List (String × Query)} {aliasName : String}
      {u u' : Query} :
      Mark (a, u) (b, u') →
      Mark (a, .node s (before ++ (aliasName, u) :: after))
        (b, .node s (before ++ (aliasName, u') :: after))

/-- Any number of marks. -/
abbrev Marks : Arena × Query → Arena × Query → Prop := Relation.ReflTransGen Mark

theorem Marks.joined (h : Marks (a, u) (b, u')) :
    Marks (a, node s (before ++ (aliasName, u) :: after))
      (b, node s (before ++ (aliasName, u') :: after)) :=
  Relation.ReflTransGen.lift
    (fun x : Arena × Query => (x.1, node s (before ++ (aliasName, x.2) :: after)))
    (fun _ _ hm => Mark.joined hm) _ _ h

theorem marks_observe {s' : Stage} {field : String} (h : (s.observe field).Yields a (s', v) a') :
    Marks (a, .node s js) (a', .node s' js) := by
  rw [Stage.observe] at h
  split at h
  · obtain ⟨he, rfl⟩ := Build.yields_pure.mp h
    cases he
    exact .refl
  · next hf =>
      obtain ⟨u, b, hd, h⟩ := Build.yields_bind.mp h
      obtain ⟨rfl, rfl⟩ := Build.yields_define.mp hd
      obtain ⟨he, rfl⟩ := Build.yields_pure.mp h
      cases he
      exact .single (.observe hf)

/-- Resolving a name only leaves marks. -/
theorem marks_input (h : (q.input name).Yields a (q', v) a') : Marks (a, q) (a', q') := by
  induction q generalizing name v a a' q' with
  | node s js ih =>
      rw [input] at h
      split at h
      · obtain ⟨he, rfl⟩ := Build.yields_pure.mp h
        cases he
        exact .refl
      · obtain ⟨⟨s', x⟩, b, ho, h⟩ := Build.yields_bind.mp h
        obtain ⟨he, rfl⟩ := Build.yields_pure.mp h
        cases he
        exact marks_observe ho
      · next aliasName rest _ =>
          obtain ⟨⟨js', x⟩, b, hj, h⟩ := Build.yields_bind.mp h
          obtain ⟨he, rfl⟩ := Build.yields_pure.mp h
          cases he
          obtain ⟨before, u, u', after, rfl, rfl, hu⟩ := inputFrom_eq hj
          have hmem : (aliasName, u) ∈ before ++ (aliasName, u) :: after :=
            List.mem_append_cons_self
          have hmarks : Marks (a, u) (b, u') := by
            obtain ⟨w, rfl, ⟨path, hi, _⟩ | ⟨⟨rfl, rfl⟩ | ⟨path, x, hi⟩, _⟩⟩ := deliver_cases hu
            · exact (ih _ hmem hi).tail (.deliver _)
            · exact .single (.deliver _)
            · exact (ih _ hmem hi).tail (.deliver _)
          exact hmarks.joined
      · exact (Build.not_yields_throw h).elim

theorem marks_inputs {vs : List VarId} (h : (q.inputs names).Yields a (q', vs) a') :
    Marks (a, q) (a', q') := by
  induction names generalizing q a vs with
  | nil =>
      obtain ⟨he, rfl⟩ := Build.yields_pure.mp h
      cases he
      exact .refl
  | cons name names ih =>
      obtain ⟨⟨u, v⟩, b, hi, h⟩ := Build.yields_bind.mp h
      obtain ⟨⟨u', ws⟩, c, hs, h⟩ := Build.yields_bind.mp h
      obtain ⟨he, rfl⟩ := Build.yields_pure.mp h
      cases he
      exact (marks_input hi).trans (ih hs)

/-! ## Names of a stage -/

/-- The names that are declared at the first stage, of lets, joins and short names. -/
def declared (q : Query) : List String :=
  q.stage.lets.map (·.1) ++ q.joins.keys ++ q.stage.shorts.keys

theorem isAvailable_iff : q.isAvailable name ↔
    Name.isValid name ∧ q.stage.source.leavesFree name ∧ name ∉ q.declared := by
  simp only [isAvailable, declared, Bool.and_eq_true, Bool.not_eq_true', Option.isNone_iff_eq_none,
    Stage.let?_eq_none_iff, Table.contains_eq_false_iff, List.mem_append, not_or]
  constructor
  · rintro ⟨⟨⟨⟨hvalid, hlet⟩, hjoin⟩, hshort⟩, hfree⟩
    exact ⟨hvalid, hfree, ⟨hlet, hjoin⟩, hshort⟩
  · rintro ⟨hvalid, hfree, ⟨hlet, hjoin⟩, hshort⟩
    exact ⟨⟨⟨⟨hvalid, hlet⟩, hjoin⟩, hshort⟩, hfree⟩

theorem isAvailable_of_require (h : q.requireAvailable name = .ok ()) : q.isAvailable name := by
  rw [requireAvailable] at h
  split at h
  · assumption
  · cases h

/-- Marks change neither the source nor the names of a stage, nor its shape. -/
theorem Mark.signature {x y : Arena × Query} (h : Mark x y) :
    y.2.stage.source = x.2.stage.source ∧ y.2.declared = x.2.declared ∧
      y.2.stage.shape = x.2.stage.shape := by
  cases h with
  | observe _ => exact ⟨rfl, rfl, rfl⟩
  | @deliver a q v =>
      cases q
      exact ⟨rfl, rfl, rfl⟩
  | joined _ => exact ⟨rfl, by simp [declared, Table.keys], rfl⟩

theorem Marks.signature {x y : Arena × Query} (h : Marks x y) :
    y.2.stage.source = x.2.stage.source ∧ y.2.declared = x.2.declared ∧
      y.2.stage.shape = x.2.stage.shape := by
  induction h with
  | refl => exact ⟨rfl, rfl, rfl⟩
  | tail _ hm ih =>
      obtain ⟨hsource, hdeclared, hshape⟩ := hm.signature
      exact ⟨hsource.trans ih.1, hdeclared.trans ih.2.1, hshape.trans ih.2.2⟩

theorem Marks.isAvailable (h : Marks (a, q) (b, u)) (hn : q.isAvailable name) :
    u.isAvailable name := by
  obtain ⟨hsource, hdeclared, _⟩ := h.signature
  rw [isAvailable_iff] at hn ⊢
  rw [hsource, hdeclared]
  exact hn

/-! ## Changes -/

/-- One thing a builder call adds to a query and its arena. What may be joined has a
property. -/
inductive Change (P : Arena → Query → Prop) : Arena × Query → Arena × Query → Prop where
  | extend {a b : Arena} {q : Query} : a.defs <+: b.defs → Change P (a, q) (b, q)
  | mark {x y : Arena × Query} : Mark x y → Change P x y
  | addWhere {a : Arena} {q : Query} (w : Condition) :
      Change P (a, q) (a, q.withStage fun s => { s with wheres := s.wheres ++ [w] })
  | addLet {a : Arena} {q : Query} {name : String} (expr : String) (args : List VarId) :
      q.isAvailable name →
      Change P (a, q) (⟨a.defs ++ [.computed name expr args]⟩,
        q.withStage fun s => { s with lets := s.lets ++ [(name, ⟨a.defs.length⟩)] })
  | finish {a : Arena} {q : Query} {shape : Shape} (vs : List VarId) :
      q.stage.shape = .unfinished → (shape = .select vs ∨ shape = .group vs []) →
      Change P (a, q) (a, q.withStage fun s =>
        { s with outputs := s.outputs.insertAll vs, shape := shape })
  | addAggregate {a : Arena} {q : Query} {keys : List VarId} {gs : List Aggregate}
      (how : Aggregation) (input : Option VarId) :
      q.stage.shape = .group keys gs →
      Change P (a, q) (⟨a.defs ++ [.aggregated how input]⟩, q.withStage fun s =>
        { s with
          outputs := s.outputs.insert ⟨a.defs.length⟩
          shape := .group keys (gs ++ [⟨⟨a.defs.length⟩, how, input⟩]) })
  | setJoin {a : Arena} {q u : Query} {name : String} :
      q.isAvailable name → P a u → Change P (a, q) (a, q.setJoin name u)
  | setJoinVia {a : Arena} {s : Stage} {before after : List (String × Query)} {u existing : Query}
      {via name : String} :
      (node s (before ++ (via, existing) :: after)).isAvailable name → existing.isAvailable name →
      P a u →
      Change P (a, .node s (before ++ (via, existing) :: after))
        (a, .node { s with shorts := s.shorts.insert name (via ++ "." ++ name) }
          (before ++ (via, existing.setJoin name u) :: after))

abbrev Changes (P : Arena → Query → Prop) : Arena × Query → Arena × Query → Prop :=
  Relation.ReflTransGen (Change P)

variable {P J : Arena → Query → Prop}

theorem Marks.changes {x y : Arena × Query} (h : Marks x y) : Changes P x y :=
  Relation.ReflTransGen.mono (fun _ _ hm => Change.mark hm) _ _ h

/-! ## Calls -/

/-- A builder call that succeeds, or a definition that some other call leaves behind. It is
said which queries may be joined. -/
inductive Call (J : Arena → Query → Prop) : Arena × Query → Arena × Query → Prop where
  | define {a : Arena} {q : Query} {d : Definition} :
      (∀ v ∈ d.reads, a.Knows v) → Call J (a, q) ((a.define d).2, q)
  | addWhere {a a' : Arena} {q q' : Query} {expr : String} {args : List String} :
      (q.addWhere expr args).Yields a q' a' → Call J (a, q) (a', q')
  | addLet {a a' : Arena} {q q' : Query} {name expr : String} {args : List String} :
      (q.addLet name expr args).Yields a q' a' → Call J (a, q) (a', q')
  | select {a a' : Arena} {q q' : Query} {names : List String} :
      (q.select names).Yields a q' a' → Call J (a, q) (a', q')
  | groupBy {a a' : Arena} {q q' : Query} {names : List String} :
      (q.groupBy names).Yields a q' a' → Call J (a, q) (a', q')
  | aggregate {a a' : Arena} {q q' : Query} {name : String} {how : Aggregation} :
      (q.aggregate name how).Yields a q' a' → Call J (a, q) (a', q')
  | count {a a' : Arena} {q q' : Query} : q.count.Yields a q' a' → Call J (a, q) (a', q')
  | join {a a' : Arena} {q q' other : Query} {aliasName : String} {filter : Option Filter} :
      J a other → (q.join aliasName other filter).Yields a q' a' → Call J (a, q) (a', q')
  | joinTracepoint {a a' : Arena} {q q' : Query} {aliasName : String} {t : Tracepoint}
      {filter : Option Filter} :
      (q.joinTracepoint aliasName t filter).Yields a q' a' → Call J (a, q) (a', q')
  | joinVia {a a' : Arena} {q q' other : Query} {via aliasName : String}
      {filter : Option Filter} :
      J a other → (q.joinVia via aliasName other filter).Yields a q' a' → Call J (a, q) (a', q')

/-- Calls lead from built queries to built ones. -/
theorem Built.call {x y : Arena × Query} (h : Built x.1 x.2) (hc : Call Built x y) :
    Built y.1 y.2 := by
  cases hc with
  | define hd => exact h.grow hd
  | addWhere hy => exact h.addWhere hy
  | addLet hy => exact h.addLet hy
  | select hy => exact h.select hy
  | groupBy hy => exact h.groupBy hy
  | aggregate hy => exact h.aggregate hy
  | count hy => exact h.count hy
  | join ho hy => exact h.join ho hy
  | joinTracepoint hy => exact h.joinTracepoint hy
  | joinVia ho hy => exact h.joinVia ho hy

/-- A built query goes with every larger arena. -/
theorem Built.extend (h : Built a q) (hp : a.defs <+: b.defs) (ho : b.Ordered) : Built b q := by
  obtain ⟨ds, hds⟩ := hp
  induction ds using List.reverseRecOn generalizing b with
  | nil =>
      rw [List.append_nil] at hds
      cases b
      cases hds
      exact h
  | append_singleton ds d ih =>
      -- The last definition is one that the arena before it allows.
      obtain rfl : b = ((⟨a.defs ++ ds⟩ : Arena).define d).2 := by
        cases b
        simp only [Arena.define, List.append_assoc, hds]
      obtain ⟨hbefore, hd⟩ := Arena.ordered_define_iff.mp ho
      exact (ih hbefore rfl).grow hd

theorem Built.calls {x y : Arena × Query} (h : Built x.1 x.2)
    (hc : Relation.ReflTransGen (Call Built) x y) : Built y.1 y.2 := by
  induction hc with
  | refl => exact h
  | tail _ hc ih => exact ih.call hc

/-! ## Calls are runs of changes -/

theorem changes_addWhere {expr : String} (h : (q.addWhere expr names).Yields a q' a') :
    Changes P (a, q) (a', q') := by
  obtain ⟨_, _, hu, h⟩ := Build.yields_bind.mp h
  obtain ⟨_, rfl⟩ := Build.yields_liftExcept.mp hu
  obtain ⟨⟨u, vs⟩, b, hi, h⟩ := Build.yields_bind.mp h
  obtain ⟨rfl, rfl⟩ := Build.yields_pure.mp h
  exact (marks_inputs hi).changes.tail (.addWhere ⟨expr, vs⟩)

theorem changes_addLet {expr : String} (h : (q.addLet name expr names).Yields a q' a') :
    Changes P (a, q) (a', q') := by
  obtain ⟨_, _, hu, h⟩ := Build.yields_bind.mp h
  obtain ⟨_, rfl⟩ := Build.yields_liftExcept.mp hu
  obtain ⟨_, _, ha, h⟩ := Build.yields_bind.mp h
  obtain ⟨havailable, rfl⟩ := Build.yields_liftExcept.mp ha
  obtain ⟨⟨u, vs⟩, b, hi, h⟩ := Build.yields_bind.mp h
  obtain ⟨v, c, hd, h⟩ := Build.yields_bind.mp h
  obtain ⟨rfl, rfl⟩ := Build.yields_define.mp hd
  obtain ⟨rfl, rfl⟩ := Build.yields_pure.mp h
  have hmarks := marks_inputs hi
  exact hmarks.changes.tail
    (.addLet expr vs (hmarks.isAvailable (isAvailable_of_require havailable)))

theorem changes_select (h : (q.select names).Yields a q' a') : Changes P (a, q) (a', q') := by
  obtain ⟨_, _, hu, h⟩ := Build.yields_bind.mp h
  obtain ⟨hunfinished, rfl⟩ := Build.yields_liftExcept.mp hu
  obtain ⟨⟨u, vs⟩, b, hi, h⟩ := Build.yields_bind.mp h
  obtain ⟨rfl, rfl⟩ := Build.yields_pure.mp h
  have hmarks := marks_inputs hi
  have hshape := hmarks.signature.2.2.trans (requireUnfinished_eq_ok hunfinished)
  exact hmarks.changes.tail (.finish vs hshape (Or.inl rfl))

theorem changes_groupBy (h : (q.groupBy names).Yields a q' a') : Changes P (a, q) (a', q') := by
  obtain ⟨_, _, hu, h⟩ := Build.yields_bind.mp h
  obtain ⟨hunfinished, rfl⟩ := Build.yields_liftExcept.mp hu
  obtain ⟨⟨u, vs⟩, b, hi, h⟩ := Build.yields_bind.mp h
  obtain ⟨rfl, rfl⟩ := Build.yields_pure.mp h
  have hmarks := marks_inputs hi
  have hshape := hmarks.signature.2.2.trans (requireUnfinished_eq_ok hunfinished)
  exact hmarks.changes.tail (.finish vs hshape (Or.inr rfl))

theorem changes_addAggregate {how : Aggregation} {input : Option VarId}
    (h : (q.addAggregate how input).Yields a q' a') : Changes P (a, q) (a', q') := by
  rw [addAggregate] at h
  split at h
  · next keys gs hs =>
      obtain ⟨v, c, hd, h⟩ := Build.yields_bind.mp h
      obtain ⟨rfl, rfl⟩ := Build.yields_define.mp hd
      obtain ⟨rfl, rfl⟩ := Build.yields_pure.mp h
      exact .single (.addAggregate how input hs)
  · exact (Build.not_yields_throw h).elim

theorem changes_aggregate {how : Aggregation} (h : (q.aggregate name how).Yields a q' a') :
    Changes P (a, q) (a', q') := by
  obtain ⟨⟨u, v⟩, b, hi, h⟩ := Build.yields_bind.mp h
  exact (marks_input hi).changes.trans (changes_addAggregate h)

theorem arena_prepare {filter : Option Filter} (hw : WellFormed a other)
    (h : (q.prepare other filter).Yields a u a') : a.defs <+: a'.defs := by
  obtain ⟨w, hc | ⟨_, rfl, _⟩, _⟩ := prepare_cases h
  · obtain ⟨_, hcopy, _⟩ := exists_copy hw.ordered hw.known hc
    exact hcopy.arena
  · exact List.prefix_refl _

/-- The property of what may be joined carries over to what is prepared for a join. -/
def Prepares (P : Arena → Query → Prop) : Prop :=
  ∀ {a b : Arena} {q other u : Query} {filter : Option Filter}, WellFormed a other → P a other →
    (q.prepare other filter).Yields a u b → P b u

theorem changes_join {filter : Option Filter} (hP : Prepares P) (hw : WellFormed a other)
    (ho : P a other) (h : (q.join aliasName other filter).Yields a q' a') :
    Changes P (a, q) (a', q') := by
  obtain ⟨_, _, ha, h⟩ := Build.yields_bind.mp h
  obtain ⟨havailable, rfl⟩ := Build.yields_liftExcept.mp ha
  obtain ⟨u, b, hp, h⟩ := Build.yields_bind.mp h
  obtain ⟨rfl, rfl⟩ := Build.yields_pure.mp h
  exact Relation.ReflTransGen.head (.extend (arena_prepare hw hp))
    (.single (.setJoin (isAvailable_of_require havailable) (hP hw ho hp)))

theorem changes_joinVia {via : String} {filter : Option Filter} (hP : Prepares P)
    (hq : WellFormed a q) (hw : WellFormed a other) (ho : P a other)
    (h : (q.joinVia via aliasName other filter).Yields a q' a') : Changes P (a, q) (a', q') := by
  obtain ⟨_, _, ha, h⟩ := Build.yields_bind.mp h
  obtain ⟨havailable, rfl⟩ := Build.yields_liftExcept.mp ha
  split at h
  · exact (Build.not_yields_throw h).elim
  · next existing hf =>
      obtain ⟨u, b, hp, h⟩ := Build.yields_bind.mp h
      obtain ⟨nested, c, hn, h⟩ := Build.yields_bind.mp h
      obtain ⟨rfl, rfl⟩ := Build.yields_pure.mp h
      obtain ⟨_, _, hna, hn⟩ := Build.yields_bind.mp hn
      obtain ⟨hnested, rfl⟩ := Build.yields_liftExcept.mp hna
      obtain ⟨w, d, hnp, hn⟩ := Build.yields_bind.mp hn
      obtain ⟨rfl, rfl⟩ := Build.yields_pure.mp hn
      -- The query is prepared twice: for the whole and for the query it is joined beneath.
      have hu := (prepared_of_prepare hq hw hp).wellFormed
      have harena := (arena_prepare hw hp).trans (arena_prepare hu hnp)
      refine Relation.ReflTransGen.head (.extend harena) (.single ?_)
      cases q with
      | node s js =>
          obtain ⟨before, after, rfl⟩ := List.append_of_mem (Table.mem_of_find?_eq_some hf)
          have hinsert := Table.insert_of_mem (a := existing.setJoin aliasName w)
            (hq.lawful _ (self_mem_parts _)).aliases
          rw [setJoin, joins_node, hinsert]
          exact .setJoinVia (isAvailable_of_require havailable) (isAvailable_of_require hnested)
            (hP hu (hP hw ho hp) hnp)

/-- Every call is a run of changes. -/
theorem Call.changes {x y : Arena × Query} (hP : Prepares P)
    (hwatch : ∀ a source, P a (.watch source))
    (hJ : ∀ a other, J a other → WellFormed a other ∧ P a other) (hx : WellFormed x.1 x.2)
    (h : Call J x y) : Changes P x y := by
  cases h with
  | define _ => exact .single (.extend (List.prefix_append _ _))
  | addWhere hy => exact changes_addWhere hy
  | addLet hy => exact changes_addLet hy
  | select hy => exact changes_select hy
  | groupBy hy => exact changes_groupBy hy
  | aggregate hy => exact changes_aggregate hy
  | count hy => exact changes_addAggregate hy
  | join ho hy => exact changes_join hP (hJ _ _ ho).1 (hJ _ _ ho).2 hy
  | joinTracepoint hy =>
      exact changes_join hP (wellFormed_watch hx.ordered _) (hwatch _ _) hy
  | joinVia ho hy => exact changes_joinVia hP hx (hJ _ _ ho).1 (hJ _ _ ho).2 hy

/-- What every change preserves, a run of changes preserves. -/
theorem Changes.preserve {R : Arena → Query → Prop} {x y : Arena × Query}
    (hchange : ∀ {x y : Arena × Query}, R x.1 x.2 → Change P x y → R y.1 y.2) (hx : R x.1 x.2)
    (h : Changes P x y) : R y.1 y.2 := by
  induction h with
  | refl => exact hx
  | tail _ hc ih => exact hchange ih hc

/-- What holds of queries that only watch, and is preserved by every change, holds of every
query that was built. -/
theorem Built.of_changes (hP : Prepares P) (hwatch : ∀ a source, P a (.watch source))
    (hchange : ∀ {x y : Arena × Query}, P x.1 x.2 → Change P x y → P y.1 y.2) (h : Built a q) :
    P a q := by
  have hcall : ∀ {x y : Arena × Query}, Built x.1 x.2 → P x.1 x.2 →
      Call (fun a other => WellFormed a other ∧ P a other) x y → P y.1 y.2 :=
    fun hb hx hc => Changes.preserve hchange hx
      (hc.changes hP hwatch (fun _ _ ho => ho) hb.wellFormed)
  induction h with
  | unnamed t => exact hwatch _ _
  | named h =>
      rw [Query.named] at h
      split at h
      · cases h
        exact hwatch _ _
      · cases h
  | grow hq hd ih => exact hcall (y := (_, _)) hq ih (.define hd)
  | addWhere hq h ih => exact hcall (y := (_, _)) hq ih (.addWhere h)
  | addLet hq h ih => exact hcall (y := (_, _)) hq ih (.addLet h)
  | select hq h ih => exact hcall (y := (_, _)) hq ih (.select h)
  | groupBy hq h ih => exact hcall (y := (_, _)) hq ih (.groupBy h)
  | aggregate hq h ih => exact hcall (y := (_, _)) hq ih (.aggregate h)
  | count hq h ih => exact hcall (y := (_, _)) hq ih (.count h)
  | join hq ho h ih iho => exact hcall (y := (_, _)) hq ih (.join ⟨ho.wellFormed, iho⟩ h)
  | joinTracepoint hq h ih => exact hcall (y := (_, _)) hq ih (.joinTracepoint h)
  | joinVia hq ho h ih iho => exact hcall (y := (_, _)) hq ih (.joinVia ⟨ho.wellFormed, iho⟩ h)

end Query

end CausalTrace
