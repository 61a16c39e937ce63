import CausalTrace.Proofs.Reading

/-!
# Texts that say the same

Layout, the letter case of keywords and commas between names change the lines of a text, and not
what they spell. So they change neither the query of a text nor the kind of its error.
-/

namespace CausalTrace

namespace Script

open Grammar (Keyword)

variable {c : Catalog} {a b : Arena} {e : Error} {line line' next words words' : List String}
  {word word' : String} {kw : Keyword} {ls ls' done last rest rest' : List (List String)}

/-! ## Words and lines that say the same -/

/-- Words for a source with the same filter in different letters. -/
inductive SameSource : String → String → Prop where
  | refl (word : String) : SameSource word word
  | kept {kind kind' : String} (name : String) (hkind : '(' ∉ kind.toList)
      (hkind' : '(' ∉ kind'.toList) (h : Text.sameLetters kind kind' = true) :
      SameSource (kind ++ "(" ++ name ++ ")") (kind' ++ "(" ++ name ++ ")")

/-- Words for an aggregate of the same kind in different letters. -/
inductive SameAggregate : String → String → Prop where
  | refl (word : String) : SameAggregate word word
  | bare {word word' : String} (h : Text.sameLetters word "COUNT" = true)
      (h' : Text.sameLetters word' "COUNT" = true) : SameAggregate word word'
  | kind {kind kind' : String} (inner : String) (hkind : '(' ∉ kind.toList)
      (hkind' : '(' ∉ kind'.toList)
      (h : Text.sameLetters (Text.trim kind) (Text.trim kind') = true) :
      SameAggregate (kind ++ "(" ++ inner ++ ")") (kind' ++ "(" ++ inner ++ ")")

/-- The words after a keyword: further keywords in different letters, or the same names with other
commas. -/
inductive SameWords : Keyword → List String → List String → Prop where
  | refl (kw : Keyword) (words : List String) : SameWords kw words words
  | start {kwIn kwIn' : String} (aliasName name : String)
      (hin : Text.sameLetters kwIn kwIn' = true) :
      SameWords .start [aliasName, kwIn, name] [aliasName, kwIn', name]
  | join {kwIn kwIn' source source' kwOn kwOn' : String} (aliasName ordered arrow target : String)
      (hin : Text.sameLetters kwIn kwIn' = true) (hsource : SameSource source source')
      (hon : Text.sameLetters kwOn kwOn' = true) :
      SameWords .join [aliasName, kwIn, source, kwOn, ordered, arrow, target]
        [aliasName, kwIn', source', kwOn', ordered, arrow, target]
  | condition {words words' args : List String} (expr : String) (h : Text.Listed words args)
      (h' : Text.Listed words' args) : SameWords .condition (expr :: words) (expr :: words')
  | compute {words words' args : List String} (name expr : String) (h : Text.Listed words args)
      (h' : Text.Listed words' args) :
      SameWords .compute (name :: expr :: words) (name :: expr :: words')
  | select {words words' names : List String} (h : Text.Listed words names)
      (h' : Text.Listed words' names) : SameWords .select words words'
  | group {words words' names : List String} (h : Text.Listed words names)
      (h' : Text.Listed words' names) : SameWords .group words words'

inductive SameLine : List String → List String → Prop where
  | refl (line : List String) : SameLine line line
  | keyword {kw : Keyword} {line line' words words' : List String} (h : kw.Begins line words)
      (h' : kw.Begins line' words') (hwords : SameWords kw words words') : SameLine line line'

/-- Lines in order. Where two of them group, the second one names aggregates. -/
inductive SameLines : List (List String) → List (List String) → Prop where
  | nil : SameLines [] []
  | line {line line' : List String} {rest rest' : List (List String)} (h : SameLine line line')
      (hrest : SameLines rest rest') : SameLines (line :: rest) (line' :: rest')
  | group {line line' next next' keys others others' : List String}
      {rest rest' : List (List String)} (h : Grouping line next keys others)
      (h' : Grouping line' next' keys others')
      (hothers : List.Forall₂ SameAggregate others others') (hrest : SameLines rest rest') :
      SameLines (line :: next :: rest) (line' :: next' :: rest')

/-- The texts are laid out from lines that say the same. -/
def Alike (text text' : String) : Prop :=
  ∃ ls ls', Text.Laid text ls ∧ Text.Laid text' ls' ∧ SameLines ls ls'

/-! ## Saying the same is symmetric -/

theorem SameSource.symm (h : SameSource word word') : SameSource word' word := by
  cases h with
  | refl => exact .refl _
  | kept name hkind hkind' h => exact .kept name hkind' hkind (Text.sameLetters_comm.trans h)

theorem SameAggregate.symm (h : SameAggregate word word') : SameAggregate word' word := by
  cases h with
  | refl => exact .refl _
  | bare h h' => exact .bare h' h
  | kind inner hkind hkind' h => exact .kind inner hkind' hkind (Text.sameLetters_comm.trans h)

theorem SameWords.symm (h : SameWords kw words words') : SameWords kw words' words := by
  cases h with
  | refl => exact .refl _ _
  | start aliasName name hin => exact .start aliasName name (Text.sameLetters_comm.trans hin)
  | join aliasName ordered arrow target hin hsource hon =>
      exact .join aliasName ordered arrow target (Text.sameLetters_comm.trans hin) hsource.symm
        (Text.sameLetters_comm.trans hon)
  | condition expr h h' => exact .condition expr h' h
  | compute name expr h h' => exact .compute name expr h' h
  | select h h' => exact .select h' h
  | group h h' => exact .group h' h

theorem SameLine.symm (h : SameLine line line') : SameLine line' line := by
  cases h with
  | refl => exact .refl _
  | keyword h h' hwords => exact .keyword h' h hwords.symm

theorem SameLines.symm (h : SameLines ls ls') : SameLines ls' ls := by
  induction h with
  | nil => exact .nil
  | line h _ ih => exact .line h.symm ih
  | group h h' hothers _ ih => exact .group h' h (hothers.flip.imp fun _ _ h => h.symm) ih

/-! ## What is spelled stays spelled -/

theorem sameLetters_trans {s t u : String} (h : Text.sameLetters s t = true)
    (h' : Text.sameLetters s u = true) : Text.sameLetters t u = true := by
  rw [Text.sameLetters_iff] at *
  exact h.symm.trans h'

theorem listed_reword {names names' : List String} (h : Text.Listed words names)
    (h' : Text.Listed words' names) (hlisted : Text.Listed words names') :
    Text.Listed words' names' := by
  rw [Text.listed_iff] at *
  exact h'.trans (h.symm.trans hlisted)

theorem Filtered.reword {filter : Option Filter} {name : String} (hsame : SameSource word word')
    (h : Filtered word filter name) : Filtered word' filter name := by
  cases hsame with
  | refl => exact h
  | @kept kind kind' inner hkind hkind' hletters =>
      generalize hword : kind ++ "(" ++ inner ++ ")" = w at h
      cases h with
      | bare hnone =>
          subst hword
          exact absurd (by simp) hnone
      | kept hkind₁ hname hf =>
          obtain ⟨rfl, rfl⟩ := Text.parenthesized_inj hword hkind hkind₁
          obtain ⟨t, ht, hsame⟩ := hf
          exact .kept hkind' hname ⟨t, ht, sameLetters_trans hletters hsame⟩

theorem Aggregate.Spelled.reword {x : Aggregate}
    (hsame : SameAggregate word word') (h : x.Spelled word) : x.Spelled word' := by
  cases hsame with
  | refl => exact h
  | bare hword hword' =>
      cases h with
      | bare => exact .bare hword'
      | count => exact absurd hword (by simp [not_sameLetters_of_parenthesis])
      | of => exact absurd hword (by simp [not_sameLetters_of_parenthesis])
  | @kind kind kind' inner hkind hkind' hletters =>
      generalize hword : kind ++ "(" ++ inner ++ ")" = w at h
      cases h with
      | bare h =>
          subst hword
          exact absurd h (by simp [not_sameLetters_of_parenthesis])
      | count hkind₁ h hinner =>
          obtain ⟨rfl, rfl⟩ := Text.parenthesized_inj hword hkind hkind₁
          exact .count hkind' (sameLetters_trans hletters h) hinner
      | of hkind₁ h hinner =>
          obtain ⟨rfl, rfl⟩ := Text.parenthesized_inj hword hkind hkind₁
          exact .of hkind' (sameLetters_trans hletters h) hinner

theorem forall₂_reword {xs : List Aggregate} {others others' : List String}
    (hsame : List.Forall₂ SameAggregate others others')
    (h : List.Forall₂ Aggregate.Spelled xs others) :
    List.Forall₂ Aggregate.Spelled xs others' := by
  induction hsame generalizing xs with
  | nil => exact h
  | cons hword _ ih =>
      cases h with
      | cons hx hxs => exact .cons (hx.reword hword) (ih hxs)

theorem Origin.Spelled.reword {o : Origin} (hsame : SameLine line line') (h : o.Spelled line) :
    o.Spelled line' := by
  cases hsame with
  | refl => exact h
  | keyword hline hline' hwords =>
      obtain ⟨words, hbegins, hmeant⟩ := h
      obtain ⟨rfl, rfl⟩ := hbegins.unique hline
      refine ⟨_, hline', ?_⟩
      cases hwords with
      | refl => exact hmeant
      | start aliasName name hin =>
          cases hmeant with
          | aliased _ _ h => exact .aliased aliasName name (sameLetters_trans hin h)

theorem Step.Spelled.reword {s : Step} (hsame : SameLine line line') (h : s.Spelled line) :
    s.Spelled line' := by
  cases hsame with
  | refl => exact h
  | keyword hline hline' hwords =>
      obtain ⟨words, hbegins, hmeant⟩ := h
      obtain ⟨rfl, rfl⟩ := hbegins.unique hline
      refine ⟨_, hline', ?_⟩
      cases hmeant with
      | join aliasName target hin hon hsource =>
          cases hwords with
          | refl => exact .join aliasName target hin hon hsource
          | join _ _ _ _ hin' hsource' hon' =>
              exact .join aliasName target (sameLetters_trans hin' hin) (sameLetters_trans hon' hon)
                (hsource.reword hsource')
      | condition expr hargs =>
          cases hwords with
          | refl => exact .condition expr hargs
          | condition _ h h' => exact .condition expr (listed_reword h h' hargs)
      | compute name expr hargs =>
          cases hwords with
          | refl => exact .compute name expr hargs
          | compute _ _ h h' => exact .compute name expr (listed_reword h h' hargs)

theorem Selecting.reword {names : List String} (hsame : SameLine line line')
    (h : Selecting line names) : Selecting line' names := by
  cases hsame with
  | refl => exact h
  | keyword hline hline' hwords =>
      obtain ⟨words, hbegins, hlisted, hne⟩ := h
      obtain ⟨rfl, rfl⟩ := hbegins.unique hline
      refine ⟨_, hline', ?_, hne⟩
      cases hwords with
      | refl => exact hlisted
      | select h h' => exact listed_reword h h' hlisted

theorem Grouping.unique {keys keys' others others' : List String}
    (h : Grouping line next keys others) (h' : Grouping line next keys' others') :
    keys = keys' ∧ others = others' := by
  obtain ⟨words, words', hline, hnext, hkeys, hothers, _⟩ := h
  obtain ⟨_, _, hline', hnext', hkeys', hothers', _⟩ := h'
  obtain ⟨_, rfl⟩ := hline.unique hline'
  obtain ⟨_, rfl⟩ := hnext.unique hnext'
  rw [Text.listed_iff] at hkeys hkeys' hothers hothers'
  obtain rfl := hkeys.symm.trans hkeys'
  exact ⟨rfl, List.append_cancel_left (hothers.symm.trans hothers')⟩

theorem Grouping.reword {keys others : List String} (h : Grouping line next keys others)
    (hsame : SameLines (line :: next :: rest) ls') :
    ∃ line' next' others' rest', ls' = line' :: next' :: rest' ∧ Grouping line' next' keys others' ∧
      List.Forall₂ SameAggregate others others' ∧ SameLines rest rest' := by
  cases hsame with
  | group h₁ h' hothers hrest =>
      obtain ⟨rfl, rfl⟩ := h.unique h₁
      exact ⟨_, _, _, _, rfl, h', hothers, hrest⟩
  | @line _ line' _ _ hline hrest =>
      obtain ⟨words, words', hbegins, hbegins', hkeys, hothers, hne⟩ := h
      cases hrest with
      | group h₁ =>
          obtain ⟨_, _, hgroup, _⟩ := h₁
          cases (hbegins'.unique hgroup).1
      | @line _ next' _ _ hnext hrest =>
          obtain ⟨ws, hws, hkeys'⟩ : ∃ ws, Keyword.group.Begins line' ws ∧ Text.Listed ws keys := by
            cases hline with
            | refl => exact ⟨_, hbegins, hkeys⟩
            | keyword hline hline' hwords =>
                obtain ⟨rfl, rfl⟩ := hbegins.unique hline
                refine ⟨_, hline', ?_⟩
                cases hwords with
                | refl => exact hkeys
                | group h h' => exact listed_reword h h' hkeys
          obtain ⟨ws', hws', hothers', _⟩ : Selecting next' (keys ++ others) :=
            Selecting.reword hnext ⟨_, hbegins', hothers,
              List.append_ne_nil_of_right_ne_nil keys hne⟩
          exact ⟨_, _, others, _, rfl, ⟨ws, ws', hws, hws', hkeys', hothers', hne⟩,
            List.forall₂_same.mpr fun w _ => .refl w, hrest⟩

/-! ## What stops still stops -/

/-- A line that does not group says the same as one line. -/
theorem SameLines.head (hsame : SameLines (line :: rest) ls')
    (h : ∀ next keys others, rest.head? = some next → ¬ Grouping line next keys others) :
    ∃ line' rest', ls' = line' :: rest' ∧ SameLine line line' ∧ SameLines rest rest' := by
  cases hsame with
  | line hline hrest => exact ⟨_, _, rfl, hline, hrest⟩
  | group hgroup => exact absurd hgroup (h _ _ _ rfl)

theorem not_grouping_of_begins (h : kw.Begins line words) (hkw : kw ≠ .group)
    (keys others : List String) : ¬ Grouping line next keys others := by
  rintro ⟨words, _, hline, _⟩
  exact hkw (h.unique hline).1

/-- A line that begins as no grouping does says the same as one line. -/
theorem SameLines.head_of_begins (hsame : SameLines (line :: rest) ls') (h : kw.Begins line words)
    (hkw : kw ≠ .group) :
    ∃ line' rest', ls' = line' :: rest' ∧ SameLine line line' ∧ SameLines rest rest' :=
  hsame.head fun _ keys others _ => not_grouping_of_begins h hkw keys others

theorem Step.Spelled.head {s : Step} (h : s.Spelled line) (hsame : SameLines (line :: rest) ls') :
    ∃ line' rest', ls' = line' :: rest' ∧ s.Spelled line' ∧ SameLines rest rest' := by
  obtain ⟨words, hbegins, _⟩ := id h
  have hkw : s.keyword ≠ .group := by cases s <;> exact nofun
  obtain ⟨line', rest', rfl, hline, hrest⟩ := hsame.head_of_begins hbegins hkw
  exact ⟨line', rest', rfl, h.reword hline, hrest⟩

theorem Selecting.head {names : List String} (h : Selecting line names)
    (hsame : SameLines (line :: rest) ls') :
    ∃ line' rest', ls' = line' :: rest' ∧ Selecting line' names ∧ SameLines rest rest' := by
  obtain ⟨words, hbegins, _⟩ := id h
  obtain ⟨line', rest', rfl, hline, hrest⟩ := hsame.head_of_begins hbegins nofun
  exact ⟨line', rest', rfl, h.reword hline, hrest⟩

theorem Malformed.head (h : Malformed line rest) (hsame : SameLines (line :: rest) ls') :
    ∃ line' rest', ls' = line' :: rest' ∧ Malformed line' rest' := by
  obtain ⟨hstep, hselect, hgroup⟩ := h
  obtain ⟨line', rest', rfl, hline, hrest⟩ := hsame.head hgroup
  refine ⟨line', rest', rfl, fun s hs => hstep s (hs.reword hline.symm),
    fun names hn => hselect names (hn.reword hline.symm), fun next' keys others hnext hg => ?_⟩
  obtain ⟨more', rfl⟩ := List.head?_eq_some_iff.mp hnext
  obtain ⟨_, next, others', more, hlines, hg', _⟩ := hg.reword hsame.symm
  obtain ⟨rfl, rfl⟩ := List.cons.inj hlines
  exact hgroup next keys others' rfl hg'

theorem steps_head {steps : List Step} (h : List.Forall₂ Step.Spelled steps done)
    (hsame : SameLines (done ++ rest) ls') :
    ∃ done' rest', ls' = done' ++ rest' ∧ List.Forall₂ Step.Spelled steps done' ∧
      SameLines rest rest' := by
  induction h generalizing ls' with
  | nil => exact ⟨[], ls', rfl, .nil, hsame⟩
  | cons hs _ ih =>
      obtain ⟨line', more, rfl, hs', hmore⟩ := hs.head hsame
      obtain ⟨done', rest', rfl, hsteps, hrest⟩ := ih hmore
      exact ⟨line' :: done', rest', rfl, .cons hs' hsteps, hrest⟩

theorem Ending.Spelled.head {ending : Ending} (h : ending.Spelled last)
    (hsame : SameLines (last ++ rest) ls') :
    ∃ last' rest', ls' = last' ++ rest' ∧ ending.Spelled last' ∧ SameLines rest rest' := by
  cases h with
  | unfinished => exact ⟨[], ls', rfl, .unfinished, hsame⟩
  | select hs =>
      obtain ⟨line', rest', rfl, hs', hrest⟩ := hs.head hsame
      exact ⟨[line'], rest', rfl, .select hs', hrest⟩
  | group hg ha =>
      obtain ⟨line', next', others', rest', rfl, hg', hothers, hrest⟩ := hg.reword hsame
      exact ⟨[line', next'], rest', rfl, .group hg' (forall₂_reword hothers ha), hrest⟩

theorem Ending.Spelled.ne_nil {ending : Ending} {last' : List (List String)}
    (h : ending.Spelled last) (h' : ending.Spelled last') (hne : last ≠ []) : last' ≠ [] := by
  cases h' with
  | unfinished =>
      cases h
      exact hne
  | select => exact List.cons_ne_nil _ _
  | group => exact List.cons_ne_nil _ _

theorem split_aggregates {before after others' : List String}
    (h : List.Forall₂ SameAggregate (before ++ word :: after) others') :
    ∃ before' word' after', others' = before' ++ word' :: after' ∧
      List.Forall₂ SameAggregate before before' ∧ SameAggregate word word' := by
  induction before generalizing others' with
  | nil =>
      cases h with
      | cons hword => exact ⟨[], _, _, rfl, .nil, hword⟩
  | cons first before ih =>
      cases h with
      | cons hfirst h =>
          obtain ⟨before', word', after', rfl, hbefore, hword⟩ := ih h
          exact ⟨_ :: before', word', after', rfl, .cons hfirst hbefore, hword⟩

theorem Stops.reword {q : Query} (h : Stops c q a ls e b) (hsame : SameLines ls ls') :
    Stops c q a ls' e b := by
  cases h with
  | malformed h he =>
      obtain ⟨line', rest', rfl, h'⟩ := h.head hsame
      exact .malformed h' he
  | step hs h =>
      obtain ⟨line', rest', rfl, hs', _⟩ := hs.head hsame
      exact .step hs' h
  | select hs h =>
      obtain ⟨line', rest', rfl, hs', _⟩ := hs.head hsame
      exact .select hs' h
  | groupBy hg h =>
      obtain ⟨line', next', others', rest', rfl, hg', _⟩ := hg.reword hsame
      exact .groupBy hg' h
  | aggregate hg hbefore hbuilt h =>
      obtain ⟨line', next', others', rest', rfl, hg', hothers, _⟩ := hg.reword hsame
      obtain ⟨before', word', after', rfl, hbefore', hword⟩ := split_aggregates hothers
      refine .aggregate hg' (forall₂_reword hbefore' hbefore) hbuilt ?_
      rcases h with ⟨x, hx, h⟩ | ⟨hnone, he⟩
      · exact .inl ⟨x, hx.reword hword, h⟩
      · exact .inr ⟨fun x hx => hnone x (hx.reword hword.symm), he⟩
  | trailing hending hlast hbuilt he =>
      obtain ⟨last', rest', rfl, hending', hrest⟩ := hending.head hsame
      obtain ⟨line', more, rfl⟩ : ∃ line' more, rest' = line' :: more := by
        cases hrest with
        | line => exact ⟨_, _, rfl⟩
        | group => exact ⟨_, _, rfl⟩
      exact .trailing hending' (hending.ne_nil hending' hlast) hbuilt he

/-! ## Whole texts -/

theorem Origin.Spelled.head {o : Origin} (h : o.Spelled line)
    (hsame : SameLines (line :: rest) ls') :
    ∃ line' rest', ls' = line' :: rest' ∧ o.Spelled line' ∧ SameLines rest rest' := by
  obtain ⟨words, hbegins, _⟩ := id h
  obtain ⟨line', rest', rfl, hline, hrest⟩ := hsame.head_of_begins hbegins nofun
  exact ⟨line', rest', rfl, h.reword hline, hrest⟩

theorem Spelled.reword {s : Script} (h : s.Spelled ls) (hsame : SameLines ls ls') :
    s.Spelled ls' := by
  obtain ⟨first, done, last, rfl, ho, hsteps, hending⟩ := h
  obtain ⟨first', rest, rfl, ho', hrest⟩ := ho.head hsame
  obtain ⟨done', rest, rfl, hsteps', hrest⟩ := steps_head hsteps hrest
  rw [← List.append_nil last] at hrest
  obtain ⟨last', rest, rfl, hending', hrest⟩ := hending.head hrest
  cases hrest
  exact ⟨first', done', last', by rw [List.append_nil], ho', hsteps', hending'⟩

theorem Rejected.reword (h : Rejected c a ls e b) (hsame : SameLines ls ls') :
    Rejected c a ls' e b := by
  cases h with
  | empty he =>
      cases hsame
      exact .empty he
  | malformed hnone he =>
      cases hsame with
      | line hline => exact .malformed (fun o ho => hnone o (ho.reword hline.symm)) he
      | group _ hgroup =>
          refine .malformed (fun o ho => ?_) he
          obtain ⟨words, hbegins, _⟩ := ho
          exact not_grouping_of_begins hbegins nofun _ _ hgroup
  | origin ho h =>
      obtain ⟨first', rest', rfl, ho', _⟩ := ho.head hsame
      exact .origin ho' h
  | later ho hq hsteps hbuilt hstops =>
      obtain ⟨first', rest, rfl, ho', hrest⟩ := ho.head hsame
      obtain ⟨done', rest', rfl, hsteps', hrest⟩ := steps_head hsteps hrest
      exact .later ho' hq hsteps' hbuilt (hstops.reword hrest)

end Script

namespace Catalog

variable {c c' : Catalog} {text text' : String} {q : Query} {ls : List (List String)}

theorem build_eq_ok_iff {x : Build Query} :
    c.build x = (.ok q, c') ↔ ∃ b, x.Yields c.arena q b ∧ c' = { c with arena := b } := by
  unfold build Build.Yields
  rcases x.run c.arena with ⟨r, b⟩
  constructor
  · rintro ⟨⟩
    exact ⟨b, rfl, rfl⟩
  · rintro ⟨b, ⟨⟩, rfl⟩
    rfl

theorem build_eq_error_iff {x : Build Query} {e : Error} :
    c.build x = (.error e, c') ↔ ∃ b, x.Fails c.arena e b ∧ c' = { c with arena := b } := by
  unfold build Build.Fails
  rcases x.run c.arena with ⟨r, b⟩
  constructor
  · rintro ⟨⟩
    exact ⟨b, rfl, rfl⟩
  · rintro ⟨b, ⟨⟩, rfl⟩
    rfl

theorem parse_of_spelled {s : Script} (hlaid : Text.Laid text ls) (h : s.Spelled ls) :
    c.parse text = c.build (s.build c) := by
  obtain rfl := Text.laid_iff.mp hlaid
  rw [parse, Script.query_of_spelled h]

theorem spelled_of_parse (h : c.parse text = (.ok q, c')) :
    ∃ ls, ∃ s : Script, Text.Laid text ls ∧ s.Spelled ls := by
  obtain ⟨b, hquery, _⟩ := build_eq_ok_iff.mp h
  obtain ⟨s, hs⟩ := Script.spelled_of_query hquery
  exact ⟨_, s, Text.laid_iff.mpr rfl, hs⟩

theorem rejected_of_parse {e : Error} (h : c.parse text = (.error e, c')) :
    ∃ ls b, Text.Laid text ls ∧ Script.Rejected c c.arena ls e b ∧ c' = { c with arena := b } := by
  obtain ⟨b, hquery, hc⟩ := build_eq_error_iff.mp h
  exact ⟨_, b, Text.laid_iff.mpr rfl, Script.rejected_of_query hquery, hc⟩

theorem parse_of_rejected {e : Error} {b : Arena} (hlaid : Text.Laid text ls)
    (h : Script.Rejected c c.arena ls e b) :
    ∃ e', c.parse text = (.error e', { c with arena := b }) ∧ e'.kind = e.kind := by
  obtain rfl := Text.laid_iff.mp hlaid
  obtain ⟨e', he', hquery⟩ := Script.query_of_rejected h
  exact ⟨e', build_eq_error_iff.mpr ⟨b, hquery, rfl⟩, he'⟩

/-- The same query, or errors of the same kind, and the same catalog afterwards. -/
def SameOutcome (r r' : Except Error Query × Catalog) : Prop :=
  r.2 = r'.2 ∧ (r.1 = r'.1 ∨ ∃ e e', r.1 = .error e ∧ r'.1 = .error e' ∧ e.kind = e'.kind)

theorem sameOutcome_of_alike (h : Script.Alike text text') :
    SameOutcome (c.parse text) (c.parse text') := by
  obtain ⟨ls, ls', hlaid, hlaid', hsame⟩ := h
  rcases hparse : c.parse text with ⟨(e | q), c'⟩
  · obtain ⟨ls₁, b, hlaid₁, hrejected, rfl⟩ := rejected_of_parse hparse
    obtain rfl := (Text.laid_iff.mp hlaid₁).symm.trans (Text.laid_iff.mp hlaid)
    obtain ⟨e', hparse', he'⟩ := parse_of_rejected hlaid' (hrejected.reword hsame)
    rw [hparse']
    exact ⟨rfl, .inr ⟨e, e', rfl, rfl, he'.symm⟩⟩
  · obtain ⟨ls₁, s, hlaid₁, hs⟩ := spelled_of_parse hparse
    obtain rfl := (Text.laid_iff.mp hlaid₁).symm.trans (Text.laid_iff.mp hlaid)
    rw [parse_of_spelled hlaid' (hs.reword hsame), ← parse_of_spelled hlaid₁ hs, hparse]
    exact ⟨rfl, .inl rfl⟩

/-- A text is parsed as the script is built that its lines spell. A text that spells none, or one
that is not built, is rejected where it stops. Texts that say the same have the same outcome. -/
theorem parse_iff_script (c : Catalog) (text : String) :
    (∀ q c', c.parse text = (.ok q, c') ↔
      ∃ ls, ∃ s : Script, Text.Laid text ls ∧ s.Spelled ls ∧ c.build (s.build c) = (.ok q, c')) ∧
    (∀ e c', c.parse text = (.error e, c') →
      ∃ ls b, Text.Laid text ls ∧ Script.Rejected c c.arena ls e b ∧ c' = { c with arena := b }) ∧
    (∀ ls e b, Text.Laid text ls → Script.Rejected c c.arena ls e b →
      ∃ e', c.parse text = (.error e', { c with arena := b }) ∧ e'.kind = e.kind) ∧
    ∀ text', Script.Alike text text' → SameOutcome (c.parse text) (c.parse text') := by
  refine ⟨fun q c' => ⟨fun h => ?_, ?_⟩, fun e c' => rejected_of_parse,
    fun ls e b => parse_of_rejected, fun text' => sameOutcome_of_alike⟩
  · obtain ⟨ls, s, hlaid, hs⟩ := spelled_of_parse h
    exact ⟨ls, s, hlaid, hs, by rw [← parse_of_spelled hlaid hs, h]⟩
  · rintro ⟨ls, s, hlaid, hs, h⟩
    rw [parse_of_spelled hlaid hs, h]

/-- One tracepoint that exports one field. -/
def shelf : Catalog := empty.addTracepoint ⟨"step", ["item"]⟩

/-- Groups by what is not there, and selects something else. -/
def mismatched : String := "from b in step\ngroupby nosuch\nselect other COUNT"

def mismatchedLines : List (List String) :=
  [["from", "b", "in", "step"], ["groupby", "nosuch"], ["select", "other", "COUNT"]]

def mismatch : Error := .parse "select must begin with the groupby variables [nosuch]"

/-- `mismatched` with other blanks, letters and commas. -/
def relaid : String := "\n  FROM b In step \n\ngroupby\tnosuch,\nSelect other , COUNT\n"

theorem alike_relaid : Script.Alike mismatched relaid := by
  refine ⟨mismatchedLines,
    [["FROM", "b", "In", "step"], ["groupby", "nosuch,"], ["Select", "other", ",", "COUNT"]],
    Text.laid_iff.mpr (by decide), Text.laid_iff.mpr (by decide), ?_⟩
  have hlisted : ∀ words names, Grammar.names words = names → Text.Listed words names := fun _ _ =>
    Text.listed_iff.mpr
  refine .line (.keyword ⟨_, rfl, by decide⟩ ⟨_, rfl, by decide⟩ (.start "b" "step" (by decide))) ?_
  refine .line (.keyword ⟨_, rfl, by decide⟩ ⟨_, rfl, by decide⟩
    (.group (hlisted _ ["nosuch"] (by decide)) (hlisted _ _ (by decide)))) ?_
  exact .line (.keyword ⟨_, rfl, by decide⟩ ⟨_, rfl, by decide⟩
    (.select (hlisted _ ["other", "COUNT"] (by decide)) (hlisted _ _ (by decide)))) .nil

theorem parse_mismatched : shelf.parse mismatched = (.error mismatch, shelf) := rfl

theorem parse_mismatched_alike :
    (∃ ls b, Text.Laid mismatched ls ∧ Script.Rejected shelf shelf.arena ls mismatch b ∧
      ∃ e, shelf.parse mismatched = (.error e, { shelf with arena := b }) ∧
        e.kind = mismatch.kind) ∧
    SameOutcome (shelf.parse mismatched) (shelf.parse relaid) := by
  obtain ⟨_, hrejected, hback, halike⟩ := parse_iff_script shelf mismatched
  obtain ⟨ls, b, hlaid, h, _⟩ := hrejected mismatch shelf parse_mismatched
  exact ⟨⟨ls, b, hlaid, h, hback ls mismatch b hlaid h⟩, halike relaid alike_relaid⟩

/-- The two lines of a grouping are compared before the query is grouped: the first of them fails,
with an error that is not the one of the text. -/
theorem parse_error_not_of_first_failing_line :
    Text.Laid mismatched mismatchedLines ∧
      ∃ q e b, (Script.Origin.aliased "b" "step").build shelf = .ok q ∧
        (q.groupBy ["nosuch"]).Fails shelf.arena e b ∧ e.kind = .planning ∧
        (shelf.parse mismatched).1 = .error mismatch ∧ mismatch.kind = .parse :=
  ⟨Text.laid_iff.mpr (by decide), _, .planning "could not resolve variable 'nosuch'", _, rfl, rfl,
    rfl, rfl, rfl⟩

end Catalog

end CausalTrace
