import CausalTrace.Proofs.Addressing

/-!
# Expanding short names

A short name is looked up by looking up the path that it stands for, and a path that starts with a
short name by the path that starts with what this one stands for. An expanded name is longer than
the name it comes from, so its length is no reason for this to end. It ends because a short name
stands for a path that starts with the alias of a join, and no such alias is a short name: at every
stage of a query that was built, an expanded name is not expanded again, but is a field of the stage
or leads into a joined query, which is of less height. So the search comes to an end, and it finds
what `Query.input` finds with one look.
-/

namespace CausalTrace

/-! ## One look -/

/-- What comes of one look at a name: another name to be looked up in its place, or where the name
leads. -/
inductive Look where
  | again (path : String)
  | leads (r : Route)
deriving DecidableEq

namespace Stage

variable {s : Stage} {name : String}

/-- Looks for a short name, then for what the name leads to directly, and last for a hop, which may
start with a short name. -/
def look (s : Stage) (name : String) : Look :=
  match s.shorts.find? name with
  | some path => .again path
  | none =>
      match s.direct? name, Name.hop name with
      | some r, _ => .leads r
      | none, none => .leads (.unknown name)
      | none, some (first, rest) =>
          match s.shorts.find? first with
          | some path => .again (path ++ "." ++ rest)
          | none => .leads (.joined first rest)

theorem route_eq_look : s.route name = match s.look name with
    | .again path => s.plainRoute path
    | .leads r => r := by
  rw [route, look]
  cases s.shorts.find? name with
  | some path => rfl
  | none =>
      cases s.direct? name with
      | some r => rfl
      | none =>
          cases Name.hop name with
          | none => rfl
          | some p =>
              dsimp only
              cases s.shorts.find? p.1 <;> rfl

/-- A name that has nothing to do with a short name is not expanded. -/
theorem look_eq_plainRoute (hshort : s.shorts.find? name = none)
    (hfirst : ∀ p, Name.hop name = some p → s.shorts.find? p.1 = none) :
    s.look name = .leads (s.plainRoute name) := by
  rw [look, plainRoute, hshort]
  cases s.direct? name with
  | some r => rfl
  | none =>
      cases hhop : Name.hop name with
      | none => rfl
      | some p =>
          dsimp only
          rw [hfirst p hhop]

end Stage

namespace Query

variable {a b : Arena} {s : Stage} {js : List (String × Query)} {q q' u : Query}
  {name path aliasName : String} {n : Nat}

/-! ## The search -/

/-- The name that a stage resolves for itself in order to deliver a name, if it resolves one. -/
def asks (q : Query) (name : String) : Option String :=
  match q.stage.shape with
  | .group _ _ =>
      match Name.aggregate? name with
      | some (_, operand) => operand
      | none => some name
  | .select _ => some name
  | .unfinished => some name
  | .filter _ => some name

mutual

/-- Resolves a name for the stage of a query, one look after another. Nothing comes of it if more
than this many calls would be nested. -/
def inputWithin : Nat → Query → String → Option (Build (Query × VarId))
  | 0, _, _ => none
  | n + 1, q, name =>
      match q.stage.look name with
      | .again path => inputWithin n q path
      | .leads (.bound v) => some (return (q, v))
      | .leads (.exported field) => some do
          let (s, v) ← q.stage.observe field
          return (q.withStage fun _ => s, v)
      | .leads (.joined aliasName rest) =>
          match q.joins.find? aliasName with
          | none => some (throw (unknownVariable (aliasName ++ "." ++ rest)))
          | some u => (outputWithin n u rest).map fun resolved => do
              let (u, v) ← resolved
              return (q.setJoin aliasName u, v)
      | .leads (.unknown name) => some (throw (unknownVariable name))

/-- Resolves a name for the stage that joins a query, within this many nested calls. -/
def outputWithin : Nat → Query → String → Option (Build (Query × VarId))
  | 0, _, _ => none
  | n + 1, q, name =>
      match q.asks name with
      | none => some (q.deliver (fun own => throw (unknownVariable own)) name)
      | some own => (inputWithin n q own).map fun resolved => q.deliver (fun _ => resolved) name

end

/-- Delivering a name depends only on how the name that is asked for is resolved. -/
theorem deliver_congr {f g : String → Build (Query × VarId)}
    (h : ∀ own, q.asks name = some own → f own = g own) : q.deliver f name = q.deliver g name := by
  rw [asks] at h
  rw [deliver, deliver]
  cases hs : q.stage.shape with
  | group keys gs =>
      rw [hs] at h
      cases hname : Name.aggregate? name with
      | none =>
          rw [hname] at h
          simp only [h name rfl]
      | some p =>
          obtain ⟨how, operand⟩ := p
          rw [hname] at h
          cases operand with
          | none => rfl
          | some own => simp only [h own rfl]
  | select _ | unfinished | filter _ =>
      rw [hs] at h
      simp only [h name rfl]

/-! ## Joined queries -/

mutual

/-- The number of stages on the longest way up from the stage of a query. -/
def height : Query → Nat
  | .node _ js => joinsHeight js + 1

def joinsHeight : List (String × Query) → Nat
  | [] => 0
  | (_, q) :: js => max q.height (joinsHeight js)

end

theorem height_pos (q : Query) : 0 < q.height := by
  cases q
  rw [height]
  exact Nat.succ_pos _

theorem height_lt_of_joined {j : String × Query} (hj : j ∈ js) :
    j.2.height < (node s js).height := by
  rw [height]
  induction js with
  | nil => cases hj
  | cons k js ih =>
      rw [joinsHeight]
      rcases List.mem_cons.mp hj with rfl | hj
      · omega
      · have := ih hj
        omega

/-! ## What a name is expanded to -/

/-- A short name stands for a path that starts with the alias of a join, which is no short name. -/
theorem LegibleAt.short (hl : q.LegibleAt a) (h : q.stage.shorts.find? name = some path) :
    ∃ via u, path = via ++ "." ++ name ∧ Name.isValid via ∧ Name.isValid name ∧
      q.joins.find? via = some u ∧ q.stage.shorts.find? via = none := by
  have hmem := Table.mem_of_find?_eq_some h
  have hname : name ∈ q.stage.shorts.keys := List.mem_map_of_mem (f := (·.1)) hmem
  obtain ⟨via, hvia, hpath⟩ := hl.shorts _ hmem
  have hjoined : q.joins.find? via ≠ none := fun hn => Table.find?_eq_none_iff.mp hn hvia
  obtain ⟨u, hu⟩ := Option.ne_none_iff_exists'.mp hjoined
  refine ⟨via, u, hpath, ?_, (hl.free _ (List.mem_append_right _ hname)).1, hu, ?_⟩
  · exact (hl.free _ (List.mem_append_left _ (List.mem_append_right _ hvia))).1
  · refine Table.find?_eq_none_iff.mpr fun hm => ?_
    exact (List.nodup_append.mp hl.apart).2.2 _ (List.mem_append_right _ hvia) _ hm rfl

/-- An expanded name is a path that starts with the alias of a join, which is no short name. -/
theorem LegibleAt.again (hl : q.LegibleAt a) (h : q.stage.look name = .again path) :
    ∃ via rest u, path = via ++ "." ++ rest ∧ rest ≠ "" ∧ Name.isValid via ∧
      q.joins.find? via = some u ∧ q.stage.shorts.find? via = none := by
  rw [Stage.look] at h
  split at h
  · next long hlong =>
      cases h
      obtain ⟨via, u, rfl, hvia, hname, hu, hshort⟩ := hl.short hlong
      refine ⟨via, name, u, rfl, ?_, hvia, hu, hshort⟩
      rintro rfl
      cases hname
  · split at h
    · cases h
    · cases h
    · next first rest _ _ =>
        split at h
        · next long hlong =>
            cases h
            obtain ⟨via, u, rfl, hvia, _, hu, hshort⟩ := hl.short hlong
            refine ⟨via, first ++ "." ++ rest, u, by simp only [String.append_assoc], ?_,
              hvia, hu, hshort⟩
            exact fun he => by simpa using congrArg String.toList he
        · cases h

/-- An expanded name is not expanded again. -/
theorem LegibleAt.look_again (hl : q.LegibleAt a) (h : q.stage.look name = .again path) :
    q.stage.look path = .leads (q.stage.plainRoute path) := by
  obtain ⟨via, rest, u, rfl, hrest, hvia, _, hshort⟩ := hl.again h
  refine Stage.look_eq_plainRoute (hl.shorts_path via rest) fun p hp => ?_
  rw [hop_path hvia hrest] at hp
  cases hp
  exact hshort

/-- A path that starts with the alias of a join is no field of a tracepoint with an alias. -/
theorem LegibleAt.field?_path {rest field : String} (hl : q.LegibleAt a)
    (hvia : Name.isValid aliasName) (hrest : rest ≠ "") (hu : q.joins.find? aliasName = some u)
    (h : q.stage.source.field? (aliasName ++ "." ++ rest) = some field) :
    q.stage.source.aliasName = none ∧ aliasName ++ "." ++ rest ∈ q.stage.source.tracepoint.exports ∧
      field = aliasName ++ "." ++ rest := by
  have hdeclared : aliasName ∈ q.declared := List.mem_append_left _ (List.mem_append_right _
    (List.mem_map_of_mem (f := (·.1)) (Table.mem_of_find?_eq_some hu)))
  have hfree := (hl.free aliasName hdeclared).2
  rw [Source.leavesFree] at hfree
  rw [Source.field?] at h
  cases hsource : q.stage.source.aliasName with
  | some own =>
      rw [hsource] at h hfree
      rw [hop_path hvia hrest] at h
      have hne : aliasName ≠ own := bne_iff_ne.mp hfree
      simp [hne] at h
  | none =>
      rw [hsource] at h
      dsimp only at h
      split at h
      · next hexported =>
          cases h
          exact ⟨rfl, List.contains_iff_mem.mp hexported, rfl⟩
      · cases h

/-- An expanded name is a field of a tracepoint without an alias, or it leads into a joined
query. -/
theorem LegibleAt.plainRoute_again (hl : q.LegibleAt a) (h : q.stage.look name = .again path) :
    (q.stage.source.aliasName = none ∧ path ∈ q.stage.source.tracepoint.exports ∧
      q.stage.plainRoute path = .exported path) ∨
    ∃ via rest u, q.stage.plainRoute path = .joined via rest ∧ q.joins.find? via = some u := by
  obtain ⟨via, rest, u, rfl, hrest, hvia, hu, _⟩ := hl.again h
  cases hfield : q.stage.source.field? (via ++ "." ++ rest) with
  | none => exact .inr ⟨via, rest, u, hl.plainRoute_path hvia hrest hfield, hu⟩
  | some field =>
      obtain ⟨hnone, hexported, rfl⟩ := hl.field?_path hvia hrest hu hfield
      refine .inl ⟨hnone, hexported, ?_⟩
      rw [Stage.plainRoute, hl.direct?_path, hfield]
      rfl

/-! ## The search ends -/

/-- A query delivers what it is asked for, if its own search comes to an end. -/
theorem outputWithin_eq_of (hinput : ∀ {n own}, 3 * q.height ≤ n + 2 →
    q.inputWithin n own = some (q.input own))
    (hn : 3 * q.height ≤ n + 1) : q.outputWithin n name = some (q.output name) := by
  cases n with
  | zero =>
      have := q.height_pos
      omega
  | succ n =>
      rw [outputWithin, output]
      cases hasks : q.asks name with
      | none => exact congrArg some (deliver_congr fun own h => by rw [hasks] at h; cases h)
      | some own =>
          dsimp only
          rw [hinput hn, Option.map_some]
          refine congrArg some (deliver_congr fun own' h => ?_)
          rw [hasks] at h
          cases h
          rfl

/-- A name that is not expanded is resolved by the stage or by a joined query. -/
theorem inputWithin_eq_of_leads {r : Route} (hsorted : (node s js).Regular)
    (houtput : ∀ {k u rest}, (k, u) ∈ js → u.outputWithin n rest = some (u.output rest))
    (hlook : s.look name = .leads r) :
    (node s js).inputWithin (n + 1) name = some ((node s js).input name) := by
  have hroute : s.route name = r := by rw [Stage.route_eq_look, hlook]
  rw [inputWithin, input, stage_node, hlook, hroute]
  cases r with
  | bound v => rfl
  | exported field => rfl
  | unknown name => rfl
  | joined k rest =>
      dsimp only
      rw [joins_node]
      cases hfind : Table.find? k js with
      | none =>
          rw [inputFrom_of_not_mem (Table.find?_eq_none_iff.mp hfind)]
          rfl
      | some u =>
          dsimp only
          obtain ⟨before, after, rfl, hbefore⟩ := Table.exists_append_of_find? hfind
          rw [houtput (Table.mem_of_find?_eq_some hfind), inputFrom_append hbefore, Option.map_some]
          simp only [bind_assoc, pure_bind, setJoin, stage_node, joins_node,
            Table.insert_of_mem hsorted.aliases]

/-- The search finds what one look finds, within fewer than three nested calls for each stage on the
way. -/
theorem inputWithin_eq (hl : q.Legible a) (hr : ∀ p ∈ q.parts, p.Regular)
    (hn : 3 * q.height ≤ n + 2) : q.inputWithin n name = some (q.input name) := by
  induction q generalizing n name with
  | node s js ih =>
      have hown : (node s js).LegibleAt a := hl _ (self_mem_parts _)
      have hsorted := hr _ (self_mem_parts _)
      have houtput : ∀ {m k u rest}, 3 * (node s js).height ≤ m + 4 → (k, u) ∈ js →
          u.outputWithin m rest = some (u.output rest) := by
        intro m k u rest hm hmem
        have hless : u.height < (node s js).height := height_lt_of_joined hmem
        refine outputWithin_eq_of (fun hn => ih _ hmem (hl.joined hmem) (fun p hp => ?_) hn)
          (by omega)
        exact hr p (mem_parts_node.mpr (.inr ⟨_, hmem, hp⟩))
      obtain ⟨n, rfl⟩ : ∃ m, n = m + 1 := ⟨n - 1, by have := (node s js).height_pos; omega⟩
      cases hlook : s.look name with
      | leads r => exact inputWithin_eq_of_leads hsorted (houtput (by omega)) hlook
      | again path =>
          -- The stage joins a query, so that there are calls left for the expanded name.
          obtain ⟨via, _, u, _, _, _, hu, _⟩ := hown.again hlook
          have hless : u.height < (node s js).height :=
            height_lt_of_joined (Table.mem_of_find?_eq_some hu)
          obtain ⟨n, rfl⟩ : ∃ m, n = m + 1 := ⟨n - 1, by have := u.height_pos; omega⟩
          have hleads : s.look path = .leads (s.plainRoute path) := hown.look_again hlook
          have hsame : (node s js).input name = (node s js).input path := by
            rw [input, input, Stage.route_eq_look, Stage.route_eq_look, hlook, hleads]
          rw [hsame, ← inputWithin_eq_of_leads hsorted (houtput (by omega)) hleads]
          rw [inputWithin, stage_node, hlook]

/-- Resolving a name comes to an end at every stage of a query, because no name is expanded twice
there. -/
structure Terminates (q : Query) : Prop where
  /-- A short name stands for a path that starts with the alias of a join, and no such alias is a
  short name. -/
  shorts : ∀ p ∈ q.parts, ∀ name path, p.stage.shorts.find? name = some path →
    ∃ via rest u, Name.hop path = some (via, rest) ∧ p.joins.find? via = some u ∧
      p.stage.shorts.find? via = none
  /-- An expanded name is a field that is exported under this very name, or it leads into a joined
  query. -/
  again : ∀ p ∈ q.parts, ∀ name path, p.stage.look name = .again path →
    (p.stage.source.aliasName = none ∧ path ∈ p.stage.source.tracepoint.exports ∧
      p.stage.look path = .leads (.exported path)) ∨
    ∃ via rest u, p.stage.look path = .leads (.joined via rest) ∧ p.joins.find? via = some u ∧
      u.height < p.height
  input : ∀ p ∈ q.parts, ∀ name n, 3 * p.height ≤ n + 2 → p.inputWithin n name = some (p.input name)
  output : ∀ p ∈ q.parts, ∀ name n, 3 * p.height ≤ n + 1 →
    p.outputWithin n name = some (p.output name)

theorem Legible.terminates (hl : q.Legible a) (hr : ∀ p ∈ q.parts, p.Regular) : q.Terminates := by
  have hinput : ∀ p ∈ q.parts, ∀ {n name}, 3 * p.height ≤ n + 2 →
      p.inputWithin n name = some (p.input name) := by
    intro p hp n name hn
    have hbeneath := parts_subset hp
    exact inputWithin_eq (fun r hm => hl r (hbeneath hm)) (fun r hm => hr r (hbeneath hm)) hn
  refine ⟨fun p hp name path h => ?_, fun p hp name path h => ?_, fun p hp _ _ hn => hinput p hp hn,
    fun p hp _ _ hn => outputWithin_eq_of (hinput p hp) hn⟩
  · obtain ⟨via, u, rfl, hvia, hname, hu, hshort⟩ := (hl p hp).short h
    have hne : name ≠ "" := by
      rintro rfl
      cases hname
    exact ⟨via, name, u, hop_path hvia hne, hu, hshort⟩
  · rw [(hl p hp).look_again h]
    refine ((hl p hp).plainRoute_again h).imp
      (fun ⟨hnone, hmem, hroute⟩ => ⟨hnone, hmem, by rw [hroute]⟩) ?_
    rintro ⟨via, rest, u, hroute, hu⟩
    refine ⟨via, rest, u, by rw [hroute], hu, ?_⟩
    rw [← node_stage_joins p]
    exact height_lt_of_joined (Table.mem_of_find?_eq_some hu)

/-- **Resolving a name terminates.** At every stage of a query that was built, and of what it
becomes while a call resolves its names one after another, a short name stands for a path that
starts with the alias of a join of the stage, which is no short name. So a name that has been
expanded leads into a joined query, which is of less height, unless the stage has no alias and
exports a field of just that name. With fewer than three nested calls for each stage on the way,
the search for any name gives what one look for it gives. -/
theorem resolving_terminates (hq : q.Built a) : q.Terminates ∧
    ∀ names vs q' b, (q.inputs names).Yields a (q', vs) b → q'.Terminates := by
  have hregular {r : Query} {c : Arena} (hw : WellFormed c r) : ∀ p ∈ r.parts, p.Regular :=
    fun p hp => (hw.lawful p hp).toRegular
  refine ⟨hq.legible.terminates (hregular hq.wellFormed), fun names vs q' b h => ?_⟩
  have hlegible : q'.Legible b :=
    Changes.preserve (R := fun a q => q.Legible a) Legible.change hq.legible
    (marks_inputs h).changes
  exact hlegible.terminates (hregular (hq.wellFormed.enlarge (resolved_inputs h).1.toEnlarged))

namespace Sample

def cart : Tracepoint := ⟨"cart", ["item", "price"]⟩

/-- What has to be paid for, with a field whose name reads like a path. -/
def checkout : Tracepoint := ⟨"checkout", ["s.c.item"]⟩

/-- Checkouts after sessions after carts. -/
def checkouts (observed : Table String VarId) (carts : Query) (outputs : Ascending VarId) : Query :=
  .node { Stage.watch ⟨none, checkout⟩ with observed := observed, shorts := [("c", "s.c")] }
    [("s", .node { Stage.watch ⟨none, session⟩ with outputs := outputs } [("c", carts)])]

/-- No field of them is in use yet. -/
def untouched : Query := checkouts [] (.unnamed cart) []

theorem built_untouched : untouched.Built .empty := by
  have hjoin : ((Query.unnamed checkout).joinTracepoint "s" session none).Yields .empty
      (.node (.watch ⟨none, checkout⟩) [("s", .unnamed session)]) .empty := rfl
  have hvia : (Query.joinVia (.node (.watch ⟨none, checkout⟩) [("s", .unnamed session)]) "s" "c"
      (.unnamed cart) none).Yields .empty untouched .empty := rfl
  exact ((Built.unnamed checkout).joinTracepoint hjoin).joinVia (.unnamed cart) hvia

end Sample

open Query.Sample

/-- The price is observed at the cart and passed on by the session. -/
theorem resolving_terminates_untouched : untouched.stage.look "c.price" = .again "s.c.price" ∧
    ∃ resolved, untouched.inputWithin 7 "c.price" = some resolved ∧
      resolved.Yields .empty
        (checkouts [] (.node ⟨⟨none, cart⟩, [("price", ⟨0⟩)], [], [], [], [⟨0⟩], .unfinished⟩ [])
          [⟨0⟩], ⟨0⟩)
        ⟨[.observed "" "price"]⟩ := by
  have hends := (resolving_terminates built_untouched).1
  exact ⟨by decide +kernel, _, hends.input _ (self_mem_parts _) "c.price" 7 (by decide),
    by decide +kernel⟩

/-- No query is entered for the item: there is a field at the checkout that has the name which
`c.item` is expanded to. -/
theorem expanded_to_field : untouched.Built .empty ∧
    untouched.stage.look "c.item" = .again "s.c.item" ∧
    (∀ via rest, untouched.stage.look "s.c.item" ≠ .leads (.joined via rest)) ∧
    (untouched.input "c.item").Yields .empty (checkouts [("s.c.item", ⟨0⟩)] (.unnamed cart) [], ⟨0⟩)
      ⟨[.observed "" "s.c.item"]⟩ := by
  have hfield : untouched.stage.look "s.c.item" = .leads (.exported "s.c.item") := by decide +kernel
  refine ⟨built_untouched, by decide +kernel, fun via rest => ?_, by decide +kernel⟩
  rw [hfield]
  exact nofun

end Query

end CausalTrace
