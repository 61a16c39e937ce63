import CausalTrace.Proofs.Layout
import CausalTrace.Proofs.Steps

/-!
# Scripts

A text that is a query spells a script: where the query starts, what its lines do to it, and the
shape it ends in. Building follows the script from left to right, one builder call after the
other. A text that is no query stops somewhere: up to there it is built like a script, and what
comes next is no line that may come there, or its call fails.
-/

namespace CausalTrace

namespace Grammar.Keyword

/-- The line is this keyword in any letter case, and these words. -/
def Begins (kw : Keyword) (line words : List String) : Prop :=
  ∃ w, line = w :: words ∧ Text.sameLetters w kw.text = true

variable {kw kw' : Keyword} {w : String} {line words words' : List String}

theorem named?_eq_some_iff : named? w = some kw ↔ Text.sameLetters w kw.text = true := by
  have hdistinct : ∀ k k' : Keyword, Text.lower k.text = Text.lower k'.text → k = k' := by
    intro k k'
    cases k <;> cases k' <;> decide
  have hfound : ∀ k, named? w = some k → Text.sameLetters w k.text = true := fun k h =>
    List.find?_some (p := fun k : Keyword => Text.sameLetters w k.text) h
  refine ⟨hfound kw, fun h => ?_⟩
  cases hk : named? w with
  | none =>
      have hall : kw ∈ all := by cases kw <;> decide
      exact absurd h (List.find?_eq_none.mp hk kw hall)
  | some k =>
      exact congrArg some (hdistinct k kw ((eq_of_beq (hfound k hk)).symm.trans (eq_of_beq h)))

theorem Begins.named (h : kw.Begins line words) : named? (line.headD "") = some kw := by
  obtain ⟨w, rfl, hw⟩ := h
  exact named?_eq_some_iff.mpr hw

theorem begins_of_named (h : named? (line.headD "") = some kw) : kw.Begins line line.tail := by
  cases line with
  | nil =>
      have hnone : named? ([].headD "") = none := by decide
      rw [hnone] at h
      cases h
  | cons w ws => exact ⟨w, rfl, named?_eq_some_iff.mp h⟩

theorem Begins.tail_eq (h : kw.Begins line words) : line.tail = words := by
  obtain ⟨w, rfl, _⟩ := h
  rfl

theorem Begins.unique (h : kw.Begins line words) (h' : kw'.Begins line words') :
    kw = kw' ∧ words = words' :=
  ⟨Option.some_inj.mp (h.named.symm.trans h'.named), h.tail_eq.symm.trans h'.tail_eq⟩

end Grammar.Keyword

/-! ## What texts say -/

namespace Script

/-- The place a query starts from. -/
inductive Origin where
  | plain (tracepoint : String)
  | aliased (aliasName tracepoint : String)

/-- What a line does to the query before it. -/
inductive Step where
  | join (aliasName : String) (filter : Option Filter) (source target : String)
  | condition (expr : String) (args : List String)
  | compute (name expr : String) (args : List String)

inductive Aggregate where
  | count
  | of (how : Aggregation) (operand : String)

/-- The shape a query ends in. -/
inductive Ending where
  | unfinished
  | select (names : List String)
  | group (keys : List String) (aggregates : List Aggregate)

end Script

structure Script where
  origin : Script.Origin
  steps : List Script.Step
  ending : Script.Ending

namespace Script

open Grammar (Keyword)

/-! ## How it is spelled -/

inductive Origin.Says : Origin → List String → Prop where
  | plain (name : String) : Says (.plain name) [name]
  | aliased {kwIn : String} (aliasName name : String) (hin : Text.sameLetters kwIn "in" = true) :
      Says (.aliased aliasName name) [aliasName, kwIn, name]

def Origin.Spelled (o : Origin) (line : List String) : Prop :=
  ∃ words, Keyword.start.Begins line words ∧ o.Says words

/-- The names of a filter; the first one is what it is called in messages. -/
def spellings : Filter → List String
  | .first => ["FIRST"]
  | .mostRecent => ["MOSTRECENT", "MOST_RECENT"]

/-- A word for a source: its name, or its name in parentheses after a filter. -/
inductive Filtered : String → Option Filter → String → Prop where
  | bare {word : String} (h : '(' ∉ word.toList) : Filtered word none word
  | kept {kind name : String} {f : Filter} (hkind : '(' ∉ kind.toList) (hname : name ≠ "")
      (hf : ∃ t ∈ spellings f, Text.sameLetters kind t = true) :
      Filtered (kind ++ "(" ++ name ++ ")") (some f) name

def Step.keyword : Step → Keyword
  | .join .. => .join
  | .condition .. => .condition
  | .compute .. => .compute

inductive Step.Says : Step → List String → Prop where
  | join {kwIn source kwOn name : String} {filter : Option Filter} (aliasName target : String)
      (hin : Text.sameLetters kwIn "in" = true) (hon : Text.sameLetters kwOn "on" = true)
      (hsource : Filtered source filter name) :
      Says (.join aliasName filter name target)
        [aliasName, kwIn, source, kwOn, aliasName, "->", target]
  | condition {words args : List String} (expr : String) (h : Text.Listed words args) :
      Says (.condition expr args) (expr :: words)
  | compute {words args : List String} (name expr : String) (h : Text.Listed words args) :
      Says (.compute name expr args) (name :: expr :: words)

def Step.Spelled (s : Step) (line : List String) : Prop :=
  ∃ words, s.keyword.Begins line words ∧ s.Says words

/-- A count goes without an operand, and then also without parentheses. Blanks around the kind and
the operand do not count. -/
inductive Aggregate.Spelled : Aggregate → String → Prop where
  | bare {word : String} (h : Text.sameLetters word "COUNT" = true) : Spelled .count word
  | count {kind inner : String} (hkind : '(' ∉ kind.toList)
      (h : Text.sameLetters (Text.trim kind) Aggregation.count.text = true)
      (hinner : Text.trim inner = "") :
      Spelled .count (kind ++ "(" ++ inner ++ ")")
  | of {kind inner : String} {how : Aggregation} (hkind : '(' ∉ kind.toList)
      (h : Text.sameLetters (Text.trim kind) how.text = true) (hinner : Text.trim inner ≠ "") :
      Spelled (.of how (Text.trim inner)) (kind ++ "(" ++ inner ++ ")")

/-- A line that selects these names. -/
def Selecting (line names : List String) : Prop :=
  ∃ words, Keyword.select.Begins line words ∧ Text.Listed words names ∧ names ≠ []

/-- Two lines that group by these keys: the second one repeats the keys and goes on. -/
def Grouping (line next keys others : List String) : Prop :=
  ∃ words words', Keyword.group.Begins line words ∧ Keyword.select.Begins next words' ∧
    Text.Listed words keys ∧ Text.Listed words' (keys ++ others) ∧ others ≠ []

inductive Ending.Spelled : Ending → List (List String) → Prop where
  | unfinished : Spelled .unfinished []
  | select {line names : List String} (h : Selecting line names) : Spelled (.select names) [line]
  | group {line next keys others : List String} {aggregates : List Aggregate}
      (h : Grouping line next keys others) (ha : List.Forall₂ Aggregate.Spelled aggregates others) :
      Spelled (.group keys aggregates) [line, next]

/-- The lines are one that starts, any number of others and the ending. -/
def Spelled (s : Script) (lines : List (List String)) : Prop :=
  ∃ first done last, lines = first :: (done ++ last) ∧ s.origin.Spelled first ∧
    List.Forall₂ Step.Spelled s.steps done ∧ s.ending.Spelled last

/-! ## How it is built -/

def Origin.build (c : Catalog) : Origin → Except Error Query
  | .plain name => do return .unnamed (← Grammar.tracepoint c name)
  | .aliased aliasName name => do Query.named aliasName (← Grammar.tracepoint c name)

/-- A source is joined to the query itself or beneath a query that is joined to it. -/
def Step.build (c : Catalog) (q : Query) : Step → Build Query
  | .join aliasName filter source target =>
      match q.stage.source.aliasName with
      | none => throw (.parse "joins require 'from <alias> in <tracepoint>'")
      | some root => do
          let other ← Grammar.joined c source
          if target = root then q.join aliasName other filter
          else if q.joins.contains target then q.joinVia target aliasName other filter
          else
            throw (.parse ("join target '" ++ target ++ "' is neither '" ++ root
              ++ "' nor a joined alias"))
  | .condition expr args => q.addWhere expr args
  | .compute name expr args => q.addLet name expr args

def Aggregate.build (q : Query) : Aggregate → Build Query
  | .count => q.count
  | .of how operand => q.aggregate operand how

def Ending.build (q : Query) : Ending → Build Query
  | .unfinished => return q
  | .select names => q.select names
  | .group keys aggregates => do aggregates.foldlM Aggregate.build (← q.groupBy keys)

/-- The calls from left to right. -/
def build (c : Catalog) (s : Script) : Build Query := do
  let q ← s.origin.build c
  let q ← s.steps.foldlM (Step.build c) q
  s.ending.build q

/-! ## Words -/

variable {c : Catalog} {q : Query} {line words : List String} {word : String}

theorem filterNamed_eq_ok_iff {kind : String} {f : Filter} : Filter.named kind = .ok f ↔
    ∃ t ∈ spellings f, Text.sameLetters kind t = true := by
  have hupper : ∀ t ∈ spellings f, Text.upper t = t := by cases f <;> decide
  have hmem : (∃ t ∈ spellings f, Text.sameLetters kind t = true) ↔
      Text.upper kind ∈ spellings f := by
    simp only [Text.sameLetters_iff]
    constructor
    · rintro ⟨t, ht, h⟩
      rwa [h, hupper t ht]
    · exact fun h => ⟨_, h, (hupper _ h).symm⟩
  rw [hmem, Filter.named]
  split
  · next h => rw [h]; cases f <;> decide
  · next h => rw [h]; cases f <;> decide
  · next h => rw [h]; cases f <;> decide
  · next hfirst hrecent hrecent' =>
      refine ⟨nofun, fun h => ?_⟩
      cases f with
      | first => exact (hfirst (List.mem_singleton.mp h)).elim
      | mostRecent =>
          rcases List.mem_cons.mp h with h | h
          · exact (hrecent h).elim
          · exact (hrecent' (List.mem_singleton.mp h)).elim

theorem kind_of_filterNamed {kind : String} {e : Error} (h : Filter.named kind = .error e) :
    e.kind = .parse := by
  unfold Filter.named at h
  split at h
  · cases h
  · cases h
  · cases h
  · cases h
    rfl

/-- A word for a source is read as it is spelled. -/
theorem filtered_eq_ok_iff {filter : Option Filter} {name : String} :
    Grammar.filtered word = .ok (filter, name) ↔ Filtered word filter name := by
  constructor
  · intro h
    unfold Grammar.filtered at h
    split at h
    · next hcut =>
        cases h
        exact .bare (Text.cut_eq_none_iff.mp hcut)
    · next kind rest hcut =>
        split at h
        · cases h
        · next inner hinner =>
            obtain ⟨f, hf, hsome⟩ := bind_eq_ok_iff.mp h
            obtain ⟨hdrop, hne⟩ := Option.filter_eq_some_iff.mp hinner
            obtain ⟨rfl, hkind⟩ := Text.parenthesized_iff.mp ⟨rest, hcut, hdrop⟩
            cases hsome
            exact .kept hkind (by simpa using hne) (filterNamed_eq_ok_iff.mp hf)
  · rintro (h | ⟨hkind, hname, hf⟩)
    · rw [Grammar.filtered, Text.cut_eq_none_iff.mpr h]
    · obtain ⟨rest, hcut, hdrop⟩ :=
        Text.parenthesized_iff.mpr ⟨Eq.refl (_ ++ "(" ++ name ++ ")"), hkind⟩
      have hinner : (Text.dropLast? ')' rest).filter (!·.isEmpty) = some name := by
        rw [hdrop]
        simp [hname]
      rw [Grammar.filtered, hcut]
      simp only [hinner, filterNamed_eq_ok_iff.mpr hf]
      rfl

theorem kind_of_filtered {e : Error} (h : Grammar.filtered word = .error e) : e.kind = .parse := by
  unfold Grammar.filtered at h
  split at h
  · cases h
  · next kind rest _ =>
      split at h
      · cases h
        rfl
      · cases hf : Filter.named kind with
        | ok f =>
            rw [hf] at h
            cases h
        | error e' =>
            rw [hf] at h
            cases h
            exact kind_of_filterNamed hf

/-- The pair a name of an aggregate is read as. -/
def Aggregate.pair : Aggregate → Aggregation × Option String
  | .count => (.count, none)
  | .of how operand => (how, some operand)

theorem aggregationNamed_eq_ok_iff {kind : String} {how : Aggregation} :
    Aggregation.named kind = .ok how ↔ Text.sameLetters kind how.text = true := by
  have hupper : Text.upper how.text = how.text := by cases how <;> decide
  have hdistinct : ∀ a b : Aggregation, a.text = b.text → a = b := by
    intro a b
    cases a <;> cases b <;> decide
  rw [Text.sameLetters_iff, hupper, Aggregation.named]
  cases hfind : Aggregation.all.find? (·.text == Text.upper kind) with
  | none =>
      have hall : how ∈ Aggregation.all := by cases how <;> decide
      refine ⟨nofun, fun h => absurd ?_ (List.find?_eq_none.mp hfind how hall)⟩
      exact beq_iff_eq.mpr h.symm
  | some a =>
      have ha : (a.text == Text.upper kind) = true :=
        List.find?_some (p := fun a : Aggregation => a.text == Text.upper kind) hfind
      rw [← eq_of_beq ha]
      exact ⟨fun h => by rw [Except.ok.inj h], fun h => by rw [hdistinct a how h]⟩

theorem not_sameLetters_of_parenthesis (h : '(' ∈ word.toList) :
    Text.sameLetters word "COUNT" = false := by
  refine Bool.eq_false_iff.mpr fun hsame => ?_
  have hchars : word.toList.map Char.toLower = "COUNT".toList.map Char.toLower :=
    String.ofList_injective (eq_of_beq hsame)
  have hmem : '(' ∈ "COUNT".toList.map Char.toLower := hchars ▸ List.mem_map.mpr ⟨'(', h, by decide⟩
  revert hmem
  decide

/-- A word for an aggregate is read as it is spelled. -/
theorem aggregate?_eq_some_iff {p : Aggregation × Option String} :
    Name.aggregate? word = some p ↔ ∃ x : Aggregate, x.Spelled word ∧ x.pair = p := by
  have hnamed : ∀ {kind how}, (Aggregation.named (Text.trim kind)).toOption = some how ↔
      Text.sameLetters (Text.trim kind) how.text = true := by
    intro kind how
    rw [← aggregationNamed_eq_ok_iff]
    cases Aggregation.named (Text.trim kind) <;> simp [Except.toOption]
  constructor
  · intro h
    unfold Name.aggregate? at h
    split at h
    · next hcount =>
        cases h
        exact ⟨.count, .bare hcount, rfl⟩
    · obtain ⟨⟨kind, rest⟩, hcut, hparts⟩ := Option.bind_eq_some_iff.mp h
      obtain ⟨inner, hdrop, hkinds⟩ := Option.bind_eq_some_iff.mp hparts
      obtain ⟨how, hhow, hpair⟩ := Option.bind_eq_some_iff.mp hkinds
      obtain ⟨rfl, hkind⟩ := Text.parenthesized_iff.mp ⟨rest, hcut, hdrop⟩
      split at hpair
      · next hinner =>
          split at hpair
          · next hcount =>
              cases hpair
              subst hcount
              exact ⟨.count, .count hkind (hnamed.mp hhow) (by simpa using hinner), rfl⟩
          · cases hpair
      · next hinner =>
          cases hpair
          exact ⟨.of how _, .of hkind (hnamed.mp hhow) (by simpa using hinner), rfl⟩
  · rintro ⟨x, hx, rfl⟩
    cases hx with
    | bare hcount => rw [Name.aggregate?, if_pos hcount, Aggregate.pair]
    | @count kind inner hkind hcount hinner =>
        obtain ⟨rest, hcut, hdrop⟩ :=
          Text.parenthesized_iff.mpr ⟨Eq.refl (kind ++ "(" ++ inner ++ ")"), hkind⟩
        have hparen : '(' ∈ (kind ++ "(" ++ inner ++ ")").toList := by simp
        simp [Name.aggregate?, not_sameLetters_of_parenthesis hparen, hcut, hdrop, hinner,
          hnamed.mpr hcount, Aggregate.pair]
    | @of kind inner how hkind hhow hinner =>
        obtain ⟨rest, hcut, hdrop⟩ :=
          Text.parenthesized_iff.mpr ⟨Eq.refl (kind ++ "(" ++ inner ++ ")"), hkind⟩
        have hparen : '(' ∈ (kind ++ "(" ++ inner ++ ")").toList := by simp
        simp [Name.aggregate?, not_sameLetters_of_parenthesis hparen, hcut, hdrop, hinner,
          hnamed.mpr hhow, Aggregate.pair]

/-! ## Lines -/

theorem fromLine_of_spelled {o : Origin} (h : o.Spelled line) :
    Grammar.fromLine c line = o.build c := by
  obtain ⟨words, ⟨w, rfl, hw⟩, hmeant⟩ := h
  have hfrom : Text.sameLetters w "from" = true := hw
  cases hmeant with
  | plain name => simp [Grammar.fromLine, hfrom, Origin.build]
  | aliased aliasName name hin => simp [Grammar.fromLine, hfrom, hin, Origin.build]

theorem fromLine_malformed (h : ∀ o : Origin, ¬ o.Spelled line) :
    ∃ e : Error, e.kind = .parse ∧ Grammar.fromLine c line = .error e := by
  unfold Grammar.fromLine
  simp only
  split
  · exact ⟨_, rfl, rfl⟩
  · next hfrom =>
      have hstart : Text.sameLetters (line.headD "") Keyword.start.text = true := by
        rwa [Bool.not_eq_true, Bool.not_eq_false'] at hfrom
      have hbegins := Keyword.begins_of_named (Keyword.named?_eq_some_iff.mpr hstart)
      split
      · next name => exact absurd ⟨_, hbegins, .plain name⟩ (h (.plain name))
      · next aliasName kwIn name =>
          split
          · next hin =>
              exact absurd ⟨_, hbegins, .aliased aliasName name hin⟩ (h (.aliased aliasName name))
          · exact ⟨_, rfl, rfl⟩
      · exact ⟨_, rfl, rfl⟩

theorem joinLine_of_says {s : Step} (h : s.keyword = .join) (hmeant : s.Says words) :
    Grammar.joinLine c q (word :: words) = s.build c q := by
  cases hmeant with
  | @join kwIn source kwOn name filter aliasName target hin hon hsource =>
      have hfiltered := filtered_eq_ok_iff.mpr hsource
      show ite _ _ (ite _ _ _) = _
      rw [if_neg (by simp [hin, hon]), if_neg (by simp), hfiltered]
      unfold Step.build
      cases q.stage.source.aliasName <;> rfl
  | condition => cases h
  | compute => cases h

/-- A line that begins like a join and is none is refused, whatever there is to join. -/
theorem joinLine_malformed (h : Keyword.named? (line.headD "") = some .join)
    (hnone : ∀ s : Step, ¬ s.Spelled line) :
    ∃ e : Error, e.kind = .parse ∧ Grammar.joinLine c q line = throw e := by
  have hbegins := Keyword.begins_of_named h
  unfold Grammar.joinLine
  split
  · next aliasName kwIn source kwOn ordered arrow target =>
      split
      · exact ⟨_, rfl, rfl⟩
      · next hform =>
          split
          · exact ⟨_, rfl, rfl⟩
          · next hordered =>
              have hsource : ∀ filter name, ¬ Filtered source filter name := by
                intro filter name hsource
                obtain ⟨⟨hin, hon⟩, rfl⟩ : (Text.sameLetters kwIn "in" = true ∧
                    Text.sameLetters kwOn "on" = true) ∧ arrow = "->" := by simpa using hform
                obtain rfl := not_not.mp hordered
                exact hnone (.join aliasName filter name target)
                  ⟨_, hbegins, .join aliasName target hin hon hsource⟩
              split
              · exact ⟨_, rfl, rfl⟩
              · cases hf : Grammar.filtered source with
                | ok p => exact absurd (filtered_eq_ok_iff.mp hf) (hsource p.1 p.2)
                | error e => exact ⟨e, kind_of_filtered hf, rfl⟩
  · exact ⟨_, rfl, rfl⟩

theorem whereLine_malformed (h : Keyword.named? (line.headD "") = some .condition)
    (hnone : ∀ s : Step, ¬ s.Spelled line) :
    ∃ e : Error, e.kind = .parse ∧ Grammar.whereLine q line = throw e := by
  unfold Grammar.whereLine
  split
  · next expr args =>
      exact absurd ⟨_, Keyword.begins_of_named h, .condition expr (Text.listed_iff.mpr rfl)⟩
        (hnone (.condition expr _))
  · exact ⟨_, rfl, rfl⟩

theorem letLine_malformed (h : Keyword.named? (line.headD "") = some .compute)
    (hnone : ∀ s : Step, ¬ s.Spelled line) :
    ∃ e : Error, e.kind = .parse ∧ Grammar.letLine q line = throw e := by
  unfold Grammar.letLine
  split
  · next name expr args =>
      exact absurd ⟨_, Keyword.begins_of_named h, .compute name expr (Text.listed_iff.mpr rfl)⟩
        (hnone (.compute name expr _))
  · exact ⟨_, rfl, rfl⟩

theorem selectLine_of_selecting {names : List String} (h : Selecting line names) :
    Grammar.selectLine q line = q.select names := by
  obtain ⟨words, ⟨w, rfl, _⟩, hlisted, hne⟩ := h
  rw [Grammar.selectLine, List.tail_cons, Text.listed_iff.mp hlisted]
  split
  · exact absurd rfl hne
  · rfl

theorem selectLine_malformed (h : Keyword.named? (line.headD "") = some .select)
    (hnone : ∀ names, ¬ Selecting line names) :
    ∃ e : Error, e.kind = .parse ∧ Grammar.selectLine q line = throw e := by
  unfold Grammar.selectLine
  split
  · exact ⟨_, rfl, rfl⟩
  · next hne => exact absurd ⟨_, Keyword.begins_of_named h, Text.listed_iff.mpr rfl, hne⟩ (hnone _)

variable {next keys others : List String}

theorem groupLines_of_grouping (h : Grouping line next keys others) :
    Grammar.groupLines q line next = q.groupBy keys >>= others.foldlM Grammar.aggregateNamed := by
  obtain ⟨words, words', hline, hnext, hkeys, hothers, hne⟩ := h
  obtain ⟨w, rfl, hw⟩ := hnext
  have hselect : Text.sameLetters w "select" = true := hw
  unfold Grammar.groupLines
  simp [hselect, hline.tail_eq, Text.listed_iff.mp hkeys, Text.listed_iff.mp hothers]

theorem groupLines_malformed (h : Keyword.named? (line.headD "") = some .group)
    (hnone : ∀ keys others, ¬ Grouping line next keys others) :
    ∃ e : Error, e.kind = .parse ∧ Grammar.groupLines q line next = throw e := by
  unfold Grammar.groupLines
  simp only
  split
  · exact ⟨_, rfl, rfl⟩
  · next hselect =>
      have hselect' : Text.sameLetters (next.headD "") Keyword.select.text = true := by
        rwa [Bool.not_eq_true, Bool.not_eq_false'] at hselect
      have hnext := Keyword.begins_of_named (Keyword.named?_eq_some_iff.mpr hselect')
      split
      · exact ⟨_, rfl, rfl⟩
      · next hkeys =>
          split
          · exact ⟨_, rfl, rfl⟩
          · next hne =>
              have hothers : Grammar.names next.tail = Grammar.names line.tail ++
                  (Grammar.names next.tail).drop (Grammar.names line.tail).length := by
                conv_lhs =>
                  rw [← List.take_append_drop (Grammar.names line.tail).length
                    (Grammar.names next.tail)]
                rw [not_not.mp hkeys]
              exact absurd ⟨_, _, Keyword.begins_of_named h, hnext, Text.listed_iff.mpr rfl,
                Text.listed_iff.mpr hothers, hne⟩ (hnone _ _)

theorem aggregateNamed_of_spelled {x : Aggregate} (h : x.Spelled word) :
    Grammar.aggregateNamed q word = x.build q := by
  rw [Grammar.aggregateNamed, aggregate?_eq_some_iff.mpr ⟨x, h, rfl⟩]
  cases x with
  | count => rfl
  | of how operand => cases how <;> rfl

theorem aggregateNamed_malformed (hnone : ∀ x : Aggregate, ¬ x.Spelled word) :
    ∃ e : Error, e.kind = .parse ∧ Grammar.aggregateNamed q word = throw e := by
  have hread : Name.aggregate? word = none := by
    refine Option.eq_none_iff_forall_ne_some.mpr fun p hp => ?_
    obtain ⟨x, hx, _⟩ := aggregate?_eq_some_iff.mp hp
    exact hnone x hx
  rw [Grammar.aggregateNamed, hread]
  exact ⟨_, rfl, rfl⟩

theorem foldlM_aggregateNamed {aggregates : List Aggregate}
    (h : List.Forall₂ Aggregate.Spelled aggregates others) :
    others.foldlM Grammar.aggregateNamed q = aggregates.foldlM Aggregate.build q := by
  induction h generalizing q with
  | nil => rfl
  | cons hx _ ih => simp only [List.foldlM_cons, aggregateNamed_of_spelled hx, ih]

end Script

end CausalTrace
