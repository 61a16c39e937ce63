import CausalTrace.Proofs.Script

/-!
# Texts read line by line

The lines of a text either spell a script, which is then what is built, or they stop somewhere, and
then they are refused for what is wrong there.
-/

namespace CausalTrace.Script

open Grammar (Keyword)

variable {c : Catalog} {q : Query} {line words next keys others : List String} {word : String}

/-! ## The lines after the first -/

/-- No line of this form may stand here: it is no step, and it neither selects nor groups. -/
def Malformed (line : List String) (rest : List (List String)) : Prop :=
  (∀ s : Step, ¬ s.Spelled line) ∧ (∀ names, ¬ Selecting line names) ∧
    ∀ next keys others, rest.head? = some next → ¬ Grouping line next keys others

section Body

variable {line : String} {rest : List String}

theorem body_of_step {s : Step} (h : s.Spelled (Text.words line)) :
    Grammar.body c q (line :: rest) = s.build c q >>= fun q => Grammar.body c q rest := by
  obtain ⟨words, hbegins, hmeant⟩ := h
  rw [Grammar.body]
  cases s with
  | join aliasName filter source target =>
      obtain ⟨w, hw, hkw⟩ := id hbegins
      simp only [hbegins.named]
      rw [hw, joinLine_of_says rfl hmeant]
      rfl
  | condition expr args =>
      obtain ⟨w, hw, hkw⟩ := id hbegins
      cases hmeant with
      | condition _ hargs =>
          simp only [hbegins.named]
          rw [hw, Grammar.whereLine, Text.listed_iff.mp hargs]
          rfl
  | compute name expr args =>
      obtain ⟨w, hw, hkw⟩ := id hbegins
      cases hmeant with
      | compute _ _ hargs =>
          simp only [hbegins.named]
          rw [hw, Grammar.letLine, Text.listed_iff.mp hargs]
          rfl

theorem body_of_selecting {names : List String} (h : Selecting (Text.words line) names) :
    Grammar.body c q (line :: rest) = q.select names >>= fun q => Grammar.finish q rest := by
  obtain ⟨words, hbegins, _⟩ := id h
  rw [Grammar.body]
  simp only [hbegins.named, selectLine_of_selecting h]

theorem body_of_grouping {next : String}
    (h : Grouping (Text.words line) (Text.words next) keys others) :
    Grammar.body c q (line :: next :: rest) =
      q.groupBy keys >>= others.foldlM Grammar.aggregateNamed >>= fun q =>
        Grammar.finish q rest := by
  obtain ⟨words, _, hbegins, _⟩ := id h
  rw [Grammar.body]
  simp only [hbegins.named, Grammar.grouped, groupLines_of_grouping h]

theorem body_malformed (h : Malformed (Text.words line) (rest.map Text.words)) :
    ∃ e : Error, e.kind = .parse ∧ Grammar.body c q (line :: rest) = throw e := by
  obtain ⟨hstep, hselect, hgroup⟩ := h
  have hthrow : ∀ {x : Build Query} {f : Query → Build Query},
      (∃ e : Error, e.kind = .parse ∧ x = throw e) →
        ∃ e : Error, e.kind = .parse ∧ x >>= f = throw e := by
    rintro x f ⟨e, he, rfl⟩
    exact ⟨e, he, rfl⟩
  rw [Grammar.body]
  cases hkw : Keyword.named? ((Text.words line).headD "") with
  | none => exact ⟨_, rfl, rfl⟩
  | some kw =>
      cases kw with
      | start => exact ⟨_, rfl, rfl⟩
      | join => exact hthrow (joinLine_malformed hkw hstep)
      | condition => exact hthrow (whereLine_malformed hkw hstep)
      | compute => exact hthrow (letLine_malformed hkw hstep)
      | select => exact hthrow (selectLine_malformed hkw hselect)
      | group =>
          cases rest with
          | nil => exact ⟨_, rfl, rfl⟩
          | cons next rest =>
              exact hthrow (groupLines_malformed hkw fun keys others => hgroup _ keys others rfl)

/-- A line goes on with the query, ends it, or is malformed. -/
theorem line_cases (line : List String) (rest : List (List String)) :
    (∃ s : Step, s.Spelled line) ∨ (∃ names, Selecting line names) ∨
      (∃ next keys others, rest.head? = some next ∧ Grouping line next keys others) ∨
      Malformed line rest := by
  by_cases hstep : ∃ s : Step, s.Spelled line
  · exact .inl hstep
  · by_cases hselect : ∃ names, Selecting line names
    · exact .inr (.inl hselect)
    · by_cases hgroup : ∃ next keys others, rest.head? = some next ∧ Grouping line next keys others
      · exact .inr (.inr (.inl hgroup))
      · refine .inr (.inr (.inr ⟨not_exists.mp hstep, not_exists.mp hselect, ?_⟩))
        exact fun next keys others hnext hg => hgroup ⟨next, keys, others, hnext, hg⟩

end Body

/-! ## Success -/

variable {a b : Arena} {e : Error} {q' : Query} {lines : List String}

/-- The lines after the first are built as the script is that they spell. -/
theorem body_of_spelled {steps : List Step} {ending : Ending} {done last : List (List String)}
    (hlines : lines.map Text.words = done ++ last) (hsteps : List.Forall₂ Step.Spelled steps done)
    (hending : ending.Spelled last) :
    Grammar.body c q lines = steps.foldlM (Step.build c) q >>= ending.build := by
  induction hsteps generalizing q lines with
  | nil =>
      rw [List.foldlM_nil, pure_bind]
      cases hending with
      | unfinished =>
          rw [List.map_eq_nil_iff.mp hlines]
          rfl
      | select h =>
          obtain ⟨line, rest, rfl, rfl, hrest⟩ := List.map_eq_cons_iff.mp hlines
          rw [List.map_eq_nil_iff.mp hrest, body_of_selecting h]
          exact bind_pure (q.select _)
      | group h ha =>
          obtain ⟨line, rest, rfl, rfl, hrest⟩ := List.map_eq_cons_iff.mp hlines
          obtain ⟨next, more, rfl, rfl, hmore⟩ := List.map_eq_cons_iff.mp hrest
          rw [List.map_eq_nil_iff.mp hmore, body_of_grouping h]
          simp only [foldlM_aggregateNamed ha]
          exact bind_pure _
  | cons hs _ ih =>
      obtain ⟨line, rest, rfl, rfl, hrest⟩ := List.map_eq_cons_iff.mp hlines
      rw [body_of_step hs, List.foldlM_cons, bind_assoc]
      exact bind_congr fun q => ih hrest

theorem spelled_of_aggregateNamed (h : (Grammar.aggregateNamed q word).Yields a q' b) :
    ∃ x : Aggregate, x.Spelled word := by
  by_contra hnone
  obtain ⟨e, _, hthrow⟩ := aggregateNamed_malformed (not_exists.mp hnone)
  rw [hthrow] at h
  exact Build.not_yields_throw h

theorem spelled_of_foldlM (h : (others.foldlM Grammar.aggregateNamed q).Yields a q' b) :
    ∃ aggregates, List.Forall₂ Aggregate.Spelled aggregates others := by
  induction others generalizing q a with
  | nil => exact ⟨[], .nil⟩
  | cons word others ih =>
      rw [List.foldlM_cons, Build.yields_bind] at h
      obtain ⟨q₁, a₁, hfirst, hrest⟩ := h
      obtain ⟨x, hx⟩ := spelled_of_aggregateNamed hfirst
      obtain ⟨xs, hxs⟩ := ih hrest
      exact ⟨x :: xs, .cons hx hxs⟩

/-- Lines after the first that are built spell steps and an ending. -/
theorem spelled_of_body (h : (Grammar.body c q lines).Yields a q' b) :
    ∃ (steps : List Step) (ending : Ending) (done last : List (List String)),
      lines.map Text.words = done ++ last ∧ List.Forall₂ Step.Spelled steps done ∧
        ending.Spelled last := by
  induction lines generalizing q a with
  | nil => exact ⟨[], .unfinished, [], [], rfl, .nil, .unfinished⟩
  | cons line rest ih =>
      have hfinish : ∀ {q : Query} {rest : List String} {a : Arena},
          (liftM (Grammar.finish q rest) : Build Query).Yields a q' b → rest = [] := by
        intro q rest a h
        cases rest with
        | nil => rfl
        | cons line rest => exact nomatch (Build.yields_liftExcept.mp h).1
      rcases line_cases (Text.words line) (rest.map Text.words) with
        ⟨s, hs⟩ | ⟨names, hselect⟩ | ⟨next, keys, others, hnext, hgroup⟩ | hbad
      · rw [body_of_step hs, Build.yields_bind] at h
        obtain ⟨q₁, a₁, _, h⟩ := h
        obtain ⟨steps, ending, done, last, hlines, hsteps, hending⟩ := ih h
        exact ⟨s :: steps, ending, Text.words line :: done, last,
          by rw [List.map_cons, hlines]; rfl, .cons hs hsteps, hending⟩
      · rw [body_of_selecting hselect, Build.yields_bind] at h
        obtain ⟨q₁, a₁, _, h⟩ := h
        rw [hfinish h]
        exact ⟨[], .select names, [], _, rfl, .nil, .select hselect⟩
      · obtain ⟨_, hrest⟩ := List.head?_eq_some_iff.mp hnext
        obtain ⟨line', rest', rfl, rfl, _⟩ := List.map_eq_cons_iff.mp hrest
        rw [body_of_grouping hgroup, Build.yields_bind] at h
        obtain ⟨q₁, a₁, hbuilt, h⟩ := h
        obtain ⟨q₂, a₂, _, hfold⟩ := Build.yields_bind.mp hbuilt
        obtain ⟨aggregates, ha⟩ := spelled_of_foldlM hfold
        rw [hfinish h]
        exact ⟨[], .group keys aggregates, [], _, rfl, .nil, .group hgroup ha⟩
      · obtain ⟨e, _, hthrow⟩ := body_malformed (c := c) (q := q) hbad
        rw [hthrow] at h
        exact absurd h Build.not_yields_throw

/-! ## Failure -/

/-- Building cannot go on with these lines: the next one is malformed, or is well formed and its
call fails, or is one too many. Whatever follows does not matter. -/
inductive Stops (c : Catalog) (q : Query) (a : Arena) : List (List String) →
    Error → Arena → Prop where
  | malformed {line : List String} {rest : List (List String)} {e : Error} (h : Malformed line rest)
      (he : e.kind = .parse) : Stops c q a (line :: rest) e a
  | step {s : Step} {line : List String} {rest : List (List String)} {e : Error} {b : Arena}
      (hs : s.Spelled line) (h : (s.build c q).Fails a e b) : Stops c q a (line :: rest) e b
  | select {line names : List String} {rest : List (List String)} {e : Error} {b : Arena}
      (hs : Selecting line names) (h : (q.select names).Fails a e b) :
      Stops c q a (line :: rest) e b
  /-- The two lines of a grouping have their form before any call is made. -/
  | groupBy {line next keys others : List String}
      {rest : List (List String)} {e : Error} {b : Arena}
      (hg : Grouping line next keys others) (h : (q.groupBy keys).Fails a e b) :
      Stops c q a (line :: next :: rest) e b
  | aggregate {line next keys before after : List String} {word : String}
      {rest : List (List String)}
      {aggregates : List Aggregate} {q' : Query} {a' b : Arena} {e : Error}
      (hg : Grouping line next keys (before ++ word :: after))
      (hbefore : List.Forall₂ Aggregate.Spelled aggregates before)
      (hbuilt : ((Ending.group keys aggregates).build q).Yields a q' a')
      (h : (∃ x : Aggregate, x.Spelled word ∧ (x.build q').Fails a' e b) ∨
        (∀ x : Aggregate, ¬ x.Spelled word) ∧ e.kind = .parse ∧ b = a') :
      Stops c q a (line :: next :: rest) e b
  | trailing {ending : Ending} {last rest : List (List String)} {line : List String} {q' : Query}
      {b : Arena} {e : Error} (hending : ending.Spelled last) (hlast : last ≠ [])
      (hbuilt : (ending.build q).Yields a q' b) (he : e.kind = .parse) :
      Stops c q a (last ++ line :: rest) e b

theorem stops_of_foldlM (h : (others.foldlM Grammar.aggregateNamed q).Fails a e b) :
    ∃ before word after aggregates q' a', others = before ++ word :: after ∧
      List.Forall₂ Aggregate.Spelled aggregates before ∧
      (aggregates.foldlM Aggregate.build q).Yields a q' a' ∧
      ((∃ x : Aggregate, x.Spelled word ∧ (x.build q').Fails a' e b) ∨
        (∀ x : Aggregate, ¬ x.Spelled word) ∧ e.kind = .parse ∧ b = a') := by
  induction others generalizing q a with
  | nil => exact absurd h Build.not_fails_pure
  | cons word others ih =>
      rw [List.foldlM_cons, Build.fails_bind] at h
      by_cases hx : ∃ x : Aggregate, x.Spelled word
      · obtain ⟨x, hx⟩ := hx
        rw [aggregateNamed_of_spelled hx] at h
        rcases h with h | ⟨q₁, a₁, hfirst, h⟩
        · exact ⟨[], word, others, [], q, a, rfl, .nil,
            Build.yields_pure.mpr ⟨rfl, rfl⟩, .inl ⟨x, hx, h⟩⟩
        · obtain ⟨before, word', after, xs, q', a', rfl, hxs, hbuilt, hstop⟩ := ih h
          refine ⟨word :: before, word', after, x :: xs, q', a', rfl, .cons hx hxs, ?_, hstop⟩
          rw [List.foldlM_cons, Build.yields_bind]
          exact ⟨q₁, a₁, hfirst, hbuilt⟩
      · obtain ⟨e', he', hthrow⟩ := aggregateNamed_malformed (q := q) (not_exists.mp hx)
        rw [hthrow] at h
        rcases h with h | ⟨q₁, a₁, h, _⟩
        · obtain ⟨rfl, rfl⟩ := Build.fails_throw.mp h
          exact ⟨[], word, others, [], q, a, rfl, .nil, Build.yields_pure.mpr ⟨rfl, rfl⟩,
            .inr ⟨not_exists.mp hx, he', rfl⟩⟩
        · exact absurd h Build.not_yields_throw

theorem finish_fails {rest : List String}
    (h : (liftM (Grammar.finish q rest) : Build Query).Fails a e b) :
    rest ≠ [] ∧ e.kind = .parse ∧ a = b := by
  cases rest with
  | nil => exact absurd h Build.not_fails_pure
  | cons line rest =>
      obtain ⟨rfl, rfl⟩ := Build.fails_throw.mp h
      exact ⟨List.cons_ne_nil _ _, rfl, rfl⟩

/-- Lines after the first that are not built are built up to where they stop. -/
theorem stops_of_body (h : (Grammar.body c q lines).Fails a e b) :
    ∃ (steps : List Step) (done rest : List (List String)) (q' : Query) (a' : Arena),
      lines.map Text.words = done ++ rest ∧ List.Forall₂ Step.Spelled steps done ∧
        (steps.foldlM (Step.build c) q).Yields a q' a' ∧ Stops c q' a' rest e b := by
  induction lines generalizing q a with
  | nil => exact absurd h Build.not_fails_pure
  | cons line rest ih =>
      have hhere : ∀ {ls}, Stops c q a ls e b → ls = (line :: rest).map Text.words →
          ∃ (steps : List Step) (done rest' : List (List String)) (q' : Query) (a' : Arena),
            (line :: rest).map Text.words = done ++ rest' ∧ List.Forall₂ Step.Spelled steps done ∧
              (steps.foldlM (Step.build c) q).Yields a q' a' ∧ Stops c q' a' rest' e b := by
        rintro ls hstops rfl
        exact ⟨[], [], _, q, a, rfl, .nil, Build.yields_pure.mpr ⟨rfl, rfl⟩, hstops⟩
      rcases line_cases (Text.words line) (rest.map Text.words) with
        ⟨s, hs⟩ | ⟨names, hselect⟩ | ⟨next, keys, others, hnext, hgroup⟩ | hbad
      · rw [body_of_step hs, Build.fails_bind] at h
        rcases h with h | ⟨q₁, a₁, hfirst, h⟩
        · exact hhere (.step hs h) rfl
        · obtain ⟨steps, done, rest', q', a', hlines, hsteps, hbuilt, hstops⟩ := ih h
          refine ⟨s :: steps, Text.words line :: done, rest', q', a', ?_,
            .cons hs hsteps, ?_, hstops⟩
          · rw [List.map_cons, hlines, List.cons_append]
          · rw [List.foldlM_cons, Build.yields_bind]
            exact ⟨q₁, a₁, hfirst, hbuilt⟩
      · rw [body_of_selecting hselect, Build.fails_bind] at h
        rcases h with h | ⟨q₁, a₁, hbuilt, h⟩
        · exact hhere (.select hselect h) rfl
        · obtain ⟨hne, he, rfl⟩ := finish_fails h
          obtain ⟨extra, more, rfl⟩ := List.exists_cons_of_ne_nil hne
          exact hhere (.trailing (.select hselect) (List.cons_ne_nil _ _) hbuilt he) rfl
      · obtain ⟨_, hrest⟩ := List.head?_eq_some_iff.mp hnext
        obtain ⟨line', rest', rfl, rfl, _⟩ := List.map_eq_cons_iff.mp hrest
        rw [body_of_grouping hgroup, Build.fails_bind] at h
        rcases h with h | ⟨q₁, a₁, hbuilt, h⟩
        · rcases Build.fails_bind.mp h with h | ⟨q₂, a₂, hgrouped, h⟩
          · exact hhere (.groupBy hgroup h) rfl
          · obtain ⟨before, word, after, xs, q', a', rfl, hxs, hbuilt, hstop⟩ := stops_of_foldlM h
            exact hhere (.aggregate hgroup hxs
              (Build.yields_bind.mpr ⟨q₂, a₂, hgrouped, hbuilt⟩) hstop) rfl
        · obtain ⟨hne, he, rfl⟩ := finish_fails h
          obtain ⟨extra, more, rfl⟩ := List.exists_cons_of_ne_nil hne
          obtain ⟨q₂, a₂, hgrouped, hfold⟩ := Build.yields_bind.mp hbuilt
          obtain ⟨xs, hxs⟩ := spelled_of_foldlM hfold
          rw [foldlM_aggregateNamed hxs] at hfold
          exact hhere (.trailing (.group hgroup hxs) (List.cons_ne_nil _ _)
            (Build.yields_bind.mpr ⟨q₂, a₂, hgrouped, hfold⟩) he) rfl
      · obtain ⟨e', he', hthrow⟩ := body_malformed (c := c) (q := q) hbad
        rw [hthrow] at h
        obtain ⟨rfl, rfl⟩ := Build.fails_throw.mp h
        exact hhere (.malformed hbad he') rfl

theorem fails_of_malformed {x : Build Query} (h : ∃ e' : Error, e'.kind = .parse ∧ x = throw e')
    (he : e.kind = .parse) : ∃ e' : Error, e'.kind = e.kind ∧ x.Fails a e' a := by
  obtain ⟨e', he', rfl⟩ := h
  exact ⟨e', he'.trans he.symm, Build.fails_throw.mpr ⟨rfl, rfl⟩⟩

theorem finish_trailing {line : String} {rest : List String} (he : e.kind = .parse) :
    ∃ e' : Error, e'.kind = e.kind ∧
      (liftM (Grammar.finish q (line :: rest)) : Build Query).Fails a e' a :=
  ⟨_, he.symm, rfl⟩

/-- Lines that stop at once give an error of this kind. -/
theorem body_of_stops (h : Stops c q a (lines.map Text.words) e b) :
    ∃ e' : Error, e'.kind = e.kind ∧ (Grammar.body c q lines).Fails a e' b := by
  generalize hlines : lines.map Text.words = ls at h
  cases h with
  | malformed h he =>
      obtain ⟨line, rest, rfl, rfl, rfl⟩ := List.map_eq_cons_iff.mp hlines
      exact fails_of_malformed (body_malformed h) he
  | step hs h =>
      obtain ⟨line, rest, rfl, rfl, rfl⟩ := List.map_eq_cons_iff.mp hlines
      exact ⟨e, rfl, by rw [body_of_step hs]; exact Build.fails_bind.mpr (.inl h)⟩
  | select hs h =>
      obtain ⟨line, rest, rfl, rfl, rfl⟩ := List.map_eq_cons_iff.mp hlines
      exact ⟨e, rfl, by rw [body_of_selecting hs]; exact Build.fails_bind.mpr (.inl h)⟩
  | groupBy hg h =>
      obtain ⟨line, rest, rfl, rfl, hrest⟩ := List.map_eq_cons_iff.mp hlines
      obtain ⟨next, more, rfl, rfl, rfl⟩ := List.map_eq_cons_iff.mp hrest
      refine ⟨e, rfl, ?_⟩
      rw [body_of_grouping hg]
      exact Build.fails_bind.mpr (.inl (Build.fails_bind.mpr (.inl h)))
  | @aggregate _ _ _ _ after word _ _ q₁ a₁ b _ hg hbefore hbuilt h =>
      obtain ⟨line, rest, rfl, rfl, hrest⟩ := List.map_eq_cons_iff.mp hlines
      obtain ⟨next, more, rfl, rfl, rfl⟩ := List.map_eq_cons_iff.mp hrest
      obtain ⟨q₂, a₂, hgrouped, hfold⟩ := Build.yields_bind.mp hbuilt
      obtain ⟨e', he', hword⟩ : ∃ e' : Error, e'.kind = e.kind ∧
          (Grammar.aggregateNamed q₁ word).Fails a₁ e' b := by
        rcases h with ⟨x, hx, h⟩ | ⟨hnone, he, rfl⟩
        · exact ⟨e, rfl, by rwa [aggregateNamed_of_spelled hx]⟩
        · exact fails_of_malformed (aggregateNamed_malformed hnone) he
      refine ⟨e', he', ?_⟩
      rw [body_of_grouping hg]
      refine Build.fails_bind.mpr (.inl (Build.fails_bind.mpr (.inr ⟨q₂, a₂, hgrouped, ?_⟩)))
      rw [List.foldlM_append, foldlM_aggregateNamed hbefore]
      exact Build.fails_bind.mpr (.inr ⟨q₁, a₁, hfold, Build.fails_bind.mpr (.inl hword)⟩)
  | trailing hending hlast hbuilt he =>
      cases hending with
      | unfinished => exact absurd rfl hlast
      | select hs =>
          obtain ⟨line, rest, rfl, rfl, hrest⟩ := List.map_eq_cons_iff.mp hlines
          obtain ⟨extra, more, rfl, rfl, rfl⟩ := List.map_eq_cons_iff.mp hrest
          obtain ⟨e', he', h⟩ := finish_trailing he
          refine ⟨e', he', ?_⟩
          rw [body_of_selecting hs]
          exact Build.fails_bind.mpr (.inr ⟨_, _, hbuilt, h⟩)
      | group hg ha =>
          obtain ⟨line, rest, rfl, rfl, hrest⟩ := List.map_eq_cons_iff.mp hlines
          obtain ⟨next, more, rfl, rfl, hmore⟩ := List.map_eq_cons_iff.mp hrest
          obtain ⟨extra, more, rfl, rfl, rfl⟩ := List.map_eq_cons_iff.mp hmore
          obtain ⟨e', he', h⟩ := finish_trailing he
          refine ⟨e', he', ?_⟩
          rw [body_of_grouping hg]
          simp only [foldlM_aggregateNamed ha]
          exact Build.fails_bind.mpr (.inr ⟨_, _, hbuilt, h⟩)

/-- Lines that stop after the steps that are built of them give an error of this kind. -/
theorem body_of_steps_stops {steps : List Step} {done rest : List (List String)} {a' : Arena}
    (hlines : lines.map Text.words = done ++ rest) (hsteps : List.Forall₂ Step.Spelled steps done)
    (hbuilt : (steps.foldlM (Step.build c) q).Yields a q' a') (hstops : Stops c q' a' rest e b) :
    ∃ e' : Error, e'.kind = e.kind ∧ (Grammar.body c q lines).Fails a e' b := by
  induction hsteps generalizing q lines a with
  | nil =>
      obtain ⟨rfl, rfl⟩ := Build.yields_pure.mp hbuilt
      rw [List.nil_append] at hlines
      subst hlines
      exact body_of_stops hstops
  | cons hs _ ih =>
      obtain ⟨line, rest, rfl, rfl, hrest⟩ := List.map_eq_cons_iff.mp hlines
      rw [List.foldlM_cons, Build.yields_bind] at hbuilt
      obtain ⟨q₁, a₁, hfirst, hbuilt⟩ := hbuilt
      obtain ⟨e', he', h⟩ := ih hrest hbuilt
      refine ⟨e', he', ?_⟩
      rw [body_of_step hs]
      exact Build.fails_bind.mpr (.inr ⟨q₁, a₁, hfirst, h⟩)

/-! ## Whole texts -/

/-- The lines of a text are refused where they stop: at once, at the first line, or after it and as
many steps as are built. -/
inductive Rejected (c : Catalog) (a : Arena) : List (List String) → Error → Arena → Prop where
  | empty {e : Error} (he : e.kind = .parse) : Rejected c a [] e a
  | malformed {first : List String} {rest : List (List String)} {e : Error}
      (h : ∀ o : Origin, ¬ o.Spelled first) (he : e.kind = .parse) :
      Rejected c a (first :: rest) e a
  | origin {o : Origin} {first : List String} {rest : List (List String)} {e : Error}
      (ho : o.Spelled first) (h : o.build c = .error e) : Rejected c a (first :: rest) e a
  | later {o : Origin} {steps : List Step} {first : List String} {done rest : List (List String)}
      {q q' : Query} {a' b : Arena} {e : Error} (ho : o.Spelled first) (hq : o.build c = .ok q)
      (hsteps : List.Forall₂ Step.Spelled steps done)
      (hbuilt : (steps.foldlM (Step.build c) q).Yields a q' a') (hstops : Stops c q' a' rest e b) :
      Rejected c a (first :: (done ++ rest)) e b

variable {text : String}

theorem query_of_spelled {s : Script} (h : s.Spelled (Text.wordLines text)) :
    Grammar.query c text = s.build c := by
  obtain ⟨first, done, last, hlines, ho, hsteps, hending⟩ := h
  obtain ⟨line, rest, hrows, rfl, hrest⟩ := List.map_eq_cons_iff.mp hlines
  rw [Grammar.query, hrows]
  simp only [fromLine_of_spelled ho]
  exact bind_congr fun q => body_of_spelled hrest hsteps hending

theorem spelled_of_query (h : (Grammar.query c text).Yields a q b) :
    ∃ s : Script, s.Spelled (Text.wordLines text) := by
  unfold Grammar.query at h
  split at h
  · exact absurd h Build.not_yields_throw
  · next line rest hrows =>
      obtain ⟨q₁, a₁, hfirst, h⟩ := Build.yields_bind.mp h
      by_cases ho : ∃ o : Origin, o.Spelled (Text.words line)
      · obtain ⟨o, ho⟩ := ho
        obtain ⟨steps, ending, done, last, hrest, hsteps, hending⟩ := spelled_of_body h
        refine ⟨⟨o, steps, ending⟩, Text.words line, done, last, ?_, ho, hsteps, hending⟩
        rw [Text.wordLines, hrows, List.map_cons, hrest]
      · obtain ⟨e, _, hthrow⟩ := fromLine_malformed (c := c) (not_exists.mp ho)
        rw [hthrow] at hfirst
        cases (Build.yields_liftExcept.mp hfirst).1

theorem rejected_of_query (h : (Grammar.query c text).Fails a e b) :
    Rejected c a (Text.wordLines text) e b := by
  unfold Grammar.query at h
  split at h
  · next hrows =>
      obtain ⟨rfl, rfl⟩ := Build.fails_throw.mp h
      rw [Text.wordLines, hrows]
      exact .empty rfl
  · next line rest hrows =>
      rw [Text.wordLines, hrows, List.map_cons]
      by_cases ho : ∃ o : Origin, o.Spelled (Text.words line)
      · obtain ⟨o, ho⟩ := ho
        rw [fromLine_of_spelled ho] at h
        cases hq : o.build c with
        | error e' =>
            rw [hq] at h
            obtain ⟨rfl, rfl⟩ := Build.fails_throw.mp h
            exact .origin ho hq
        | ok q =>
            rw [hq] at h
            obtain ⟨steps, done, rest', q', a', hrest, hsteps, hbuilt, hstops⟩ := stops_of_body h
            rw [hrest]
            exact .later ho hq hsteps hbuilt hstops
      · obtain ⟨e', he', hthrow⟩ := fromLine_malformed (c := c) (not_exists.mp ho)
        rw [hthrow] at h
        obtain ⟨rfl, rfl⟩ := Build.fails_throw.mp h
        exact .malformed (not_exists.mp ho) he'

theorem query_of_rejected (h : Rejected c a (Text.wordLines text) e b) :
    ∃ e' : Error, e'.kind = e.kind ∧ (Grammar.query c text).Fails a e' b := by
  generalize hls : Text.wordLines text = ls at h
  cases h with
  | empty he =>
      rw [Grammar.query, List.map_eq_nil_iff.mp hls]
      exact ⟨_, he.symm, rfl⟩
  | malformed hnone he =>
      obtain ⟨line, rest, hrows, rfl, rfl⟩ := List.map_eq_cons_iff.mp hls
      obtain ⟨e', he', hthrow⟩ := fromLine_malformed (c := c) hnone
      refine ⟨e', he'.trans he.symm, ?_⟩
      rw [Grammar.query, hrows]
      simp only [hthrow]
      exact Build.fails_throw.mpr ⟨rfl, rfl⟩
  | origin ho h =>
      obtain ⟨line, rest, hrows, rfl, rfl⟩ := List.map_eq_cons_iff.mp hls
      refine ⟨e, rfl, ?_⟩
      rw [Grammar.query, hrows]
      simp only [fromLine_of_spelled ho, h]
      exact Build.fails_throw.mpr ⟨rfl, rfl⟩
  | later ho hq hsteps hbuilt hstops =>
      obtain ⟨line, rest, hrows, rfl, hrest⟩ := List.map_eq_cons_iff.mp hls
      obtain ⟨e', he', h⟩ := body_of_steps_stops hrest hsteps hbuilt hstops
      refine ⟨e', he', ?_⟩
      rw [Grammar.query, hrows]
      simp only [fromLine_of_spelled ho, hq]
      exact h

end CausalTrace.Script
