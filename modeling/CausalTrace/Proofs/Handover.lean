import CausalTrace.Proofs.Deployment
import CausalTrace.Proofs.Optimizing
import Mathlib.Data.List.Forall2

/-!
# Handing rows over

The plans of a query are numbered in the order in which they are compiled, and each but
the last fills a bag that one entry of one later plan empties. A bag knows columns by their
positions only. Packing and unpacking lay the columns out separately, each under the names
of its own plan, and both agree on every column.
-/

namespace CausalTrace

/-- Where a list without repetitions is made up of parts, an element has one place in one of
them. -/
theorem places_eq_of_nodup_flatMap {α β : Type} {f : α → List β} {xs : List α} {x y : α} {b : β}
    {k l i j : Nat} (hn : (xs.flatMap f).Nodup) (hx : xs[k]? = some x) (hy : xs[l]? = some y)
    (hi : (f x)[i]? = some b) (hj : (f y)[j]? = some b) : k = l ∧ i = j := by
  induction xs generalizing k l with
  | nil => cases hx
  | cons z zs ih =>
      rw [List.flatMap_cons, List.nodup_append] at hn
      obtain ⟨hz, hzs, hapart⟩ := hn
      have hlater : ∀ {n : Nat} {w : α}, zs[n]? = some w → b ∈ f w → b ∉ f z := by
        intro n w hw hb hbz
        exact hapart b hbz b (List.mem_flatMap.mpr ⟨w, List.mem_of_getElem? hw, hb⟩) rfl
      cases k with
      | zero =>
          cases hx
          cases l with
          | zero =>
              cases hy
              obtain ⟨hlt, _⟩ := List.getElem?_eq_some_iff.mp hi
              exact ⟨rfl, (List.getElem?_inj hlt hz).mp (hi.trans hj.symm)⟩
          | succ l =>
              exact absurd (List.mem_of_getElem? hi) (hlater hy (List.mem_of_getElem? hj))
      | succ k =>
          cases l with
          | zero =>
              cases hy
              exact absurd (List.mem_of_getElem? hj) (hlater hx (List.mem_of_getElem? hi))
          | succ l =>
              obtain ⟨rfl, hij⟩ := ih hzs hx hy
              exact ⟨rfl, hij⟩

/-! ## Columns between two stages -/

/-- A column of the bag between a stage and the one that joins it: a variable that is handed
on as it is, or an aggregate, of which operands go in and the result comes out. -/
inductive Column where
  | plain (v : VarId)
  | total (g : Aggregate)
deriving DecidableEq, Repr

namespace Column

/-- The variable that a packed value is read from. -/
def packed : Column → VarId
  | .plain v => v
  | .total g => Stage.operand g

/-- The variable that an unpacked value is for. -/
def unpacked : Column → VarId
  | .plain v => v
  | .total g => g.var

end Column

/-- Everything about a bag but the names of its columns: how rows are kept, how many columns
there are, and which of them are aggregated how. -/
def BagSpec.layout {ν : Type} (b : BagSpec ν) : BagSpec Unit := b.rename fun _ => ()

theorem BagSpec.layout_rename {ν μ : Type} (f : ν → μ) (b : BagSpec ν) :
    (b.rename f).layout = b.layout := by
  cases b <;> simp [layout, rename, Function.comp_def]

namespace Stage

/-- The columns of the bag that a joined stage packs. -/
def handed (s : Stage) : List Column :=
  match s.shape with
  | .unfinished => s.outputs.map .plain
  | .select _ => s.outputs.map .plain
  | .filter _ => s.outputs.map .plain
  | .group keys gs => (s.packedKeys keys gs).map .plain ++ (s.packedAggregates gs).map .total

variable (s : Stage)

theorem names_packedBag : s.packedBag.names = s.handed.map Column.packed := by
  cases hs : s.shape with
  | unfinished | select selected | filter keep =>
      simp [packedBag, handed, hs, BagSpec.names, Column.packed, Function.comp_def]
  | group keys gs => simp [packedBag, handed, hs, BagSpec.names, Column.packed, Function.comp_def]

theorem names_unpackedBag : s.unpackedBag.names = s.handed.map Column.unpacked := by
  cases hs : s.shape with
  | unfinished | select selected | filter keep =>
      simp [unpackedBag, handed, hs, BagSpec.names, Column.unpacked, Function.comp_def]
  | group keys gs =>
      simp [unpackedBag, handed, hs, BagSpec.names, Column.unpacked, Function.comp_def]

theorem layout_unpackedBag : s.unpackedBag.layout = s.packedBag.layout := by
  rw [unpackedBag, packedBag]
  split <;> simp [BagSpec.layout, BagSpec.rename]

end Stage

/-! ## Numbered parts -/

namespace Query

mutual

/-- The parts of a query in the order in which they are compiled, joined ones first, each with
the number of the first stage in it. -/
def numbered : Nat → Query → List (Nat × Query)
  | start, .node s js => joinsNumbered start js ++ [(start, .node s js)]

def joinsNumbered : Nat → List (String × Query) → List (Nat × Query)
  | _, [] => []
  | start, (_, q) :: js => q.numbered start ++ joinsNumbered (start + q.size) js

end

/-- The parts of a query in the order in which they are compiled. -/
def inTurn (q : Query) : List Query := (q.numbered 0).map (·.2)

variable {a : Arena} {id : QueryId} {pack : Bool} {start : Nat} {q : Query}

/-- A query comes after all that it joins. -/
theorem numbered_eq (start : Nat) (q : Query) :
    q.numbered start = joinsNumbered start q.joins ++ [(start, q)] := by
  cases q
  rfl

theorem self_mem_numbered (start : Nat) (q : Query) : (start, q) ∈ q.numbered start := by
  rw [numbered_eq]
  exact List.mem_concat_self

theorem size_eq (q : Query) : q.size = joinsSize q.joins + 1 := by
  cases q
  rfl

theorem parts_numbered (start : Nat) (q : Query) : ((q.numbered start).map (·.2)).Perm q.parts := by
  induction q generalizing start with
  | node s js ih =>
      have hjoined : ((joinsNumbered start js).map (·.2)).Perm (joinsParts js) := by
        induction js generalizing start with
        | nil => exact .refl _
        | cons j js ihjs =>
            rw [joinsNumbered, joinsParts, List.map_append]
            exact (ih j List.mem_cons_self start).append
              (ihjs (fun k hk => ih k (List.mem_cons_of_mem _ hk)) _)
      rw [numbered, parts, List.map_append]
      exact (List.perm_append_singleton _ _).trans (hjoined.cons _)

/-- The bags of the parts are numbered without gaps. -/
theorem bagOf_numbered (id : QueryId) (start : Nat) (q : Query) :
    (q.numbered start).map (fun p => p.2.bagOf id p.1) =
      (List.range' start q.size).map (⟨id, ·⟩) := by
  induction q generalizing start with
  | node s js ih =>
      have hjoined : (joinsNumbered start js).map (fun p => p.2.bagOf id p.1) =
          (List.range' start (joinsSize js)).map (⟨id, ·⟩) := by
        induction js generalizing start with
        | nil => rfl
        | cons j js ihjs =>
            rw [joinsNumbered, joinsSize, List.map_append, ih j List.mem_cons_self start,
              ihjs (fun k hk => ih k (List.mem_cons_of_mem _ hk)), ← List.map_append,
              List.range'_append_1]
      rw [numbered, size, List.map_append, hjoined, List.range'_concat,
        List.map_append, Nat.one_mul]
      rfl

theorem length_numbered (start : Nat) (q : Query) : (q.numbered start).length = q.size := by
  have hids := congrArg List.length (bagOf_numbered ⟨0⟩ start q)
  rwa [List.length_map, List.length_map, List.length_range'] at hids

/-- The bags that all the stages unpack, and that of the query itself, are those that all the
stages pack. -/
theorem bagsOf_numbered (id : QueryId) (start : Nat) (q : Query) :
    ((q.numbered start).flatMap (fun p => (bagsOf id p.1 p.2.joins).map (·.bagId)) ++
      [q.bagOf id start]).Perm ((q.numbered start).map fun p => p.2.bagOf id p.1) := by
  induction q generalizing start with
  | node s js ih =>
      have hjoined :
          ((joinsNumbered start js).flatMap (fun p => (bagsOf id p.1 p.2.joins).map (·.bagId)) ++
          (bagsOf id start js).map (·.bagId)).Perm
            ((joinsNumbered start js).map fun p => p.2.bagOf id p.1) := by
        induction js generalizing start with
        | nil => exact .refl _
        | cons j js ihjs =>
            have hfirst := ih j List.mem_cons_self start
            have hlater := ihjs (fun k hk => ih k (List.mem_cons_of_mem _ hk)) (start + j.2.size)
            rw [joinsNumbered, bagsOf, List.flatMap_append, List.map_append, List.map_cons]
            -- The bag of the first query stands among those its joiner unpacks, not after
            -- its parts.
            refine .trans ?_ (hfirst.append hlater)
            simp only [List.append_assoc]
            refine List.Perm.append_left _ ?_
            rw [List.singleton_append]
            exact List.perm_middle
      rw [numbered, List.flatMap_append, List.map_append, List.flatMap_singleton]
      exact hjoined.append_right _

/-- The parts of a part are numbered with it. -/
theorem numbered_trans {p r : Nat × Query} (hr : r ∈ q.numbered start)
    (hp : p ∈ joinsNumbered r.1 r.2.joins) : p ∈ q.numbered start := by
  induction q generalizing start with
  | node s js ih =>
      rw [numbered] at hr ⊢
      refine List.mem_append_left _ ?_
      rcases List.mem_append.mp hr with hm | hm
      · clear hr
        induction js generalizing start with
        | nil => cases hm
        | cons j js ihjs =>
            rw [joinsNumbered] at hm ⊢
            rcases List.mem_append.mp hm with hm | hm
            · exact List.mem_append_left _ (ih j List.mem_cons_self hm)
            · exact List.mem_append_right _ (ihjs (fun k hk => ih k (List.mem_cons_of_mem _ hk)) hm)
      · rw [List.mem_singleton.mp hm] at hp
        exact hp

/-- A stage unpacks what joined queries pack, at the places of the joins. -/
theorem joined_of_bagsOf {js : List (String × Query)} {j : Nat} {u : UnpackSpec VarId}
    (h : (bagsOf id start js)[j]? = some u) :
    ∃ st p, (js.map (·.2))[j]? = some p ∧ u = ⟨p.bagOf id st, p.stage.unpackedBag⟩ ∧
      (st, p) ∈ joinsNumbered start js ∧ u.bagId.seq < start + joinsSize js := by
  induction js generalizing start j with
  | nil => cases h
  | cons k js ih =>
      rw [bagsOf] at h
      cases j with
      | zero =>
          cases h
          refine ⟨start, k.2, rfl, rfl, List.mem_append_left _ (self_mem_numbered _ _), ?_⟩
          show start + joinsSize k.2.joins < start + joinsSize (k :: js)
          rw [joinsSize, size_eq]
          omega
      | succ j =>
          obtain ⟨st, p, hp, hu, hm, hlt⟩ := ih h
          refine ⟨st, p, hp, hu, List.mem_append_right _ hm, ?_⟩
          rw [joinsSize]
          omega

/-! ## Weaves of numbered parts -/

section

variable {s : Stage} {unpack : List (UnpackSpec VarId)} {own : BagId} {plan : AdviceSpec VarId}

theorem planned (h : planStage a s unpack own pack = .ok plan) :
    plan.unpack = unpack ∧ plan.output = s.output own pack := by
  obtain ⟨_, ls, hplans⟩ := planStage_eq_ok h
  rw [hplans.plan_eq]
  exact ⟨rfl, rfl⟩

/-- A weave is that of the stage of a part, whose stages are numbered. -/
def Weaves (a : Arena) (id : QueryId) (pack : Bool) (w : WeaveSpec) (p : Nat × Query) : Prop :=
  ∃ plan, planStage a p.2.stage (bagsOf id p.1 p.2.joins) (p.2.bagOf id p.1) pack = .ok plan ∧
    w = weave a p.2.stage (p.2.bagOf id p.1) plan

theorem Weaves.adviceId {w : WeaveSpec} {p : Nat × Query} (h : Weaves a id pack w p) :
    w.adviceId = p.2.bagOf id p.1 := by
  obtain ⟨plan, _, rfl⟩ := h
  rfl

theorem Weaves.emits {w : WeaveSpec} {p : Nat × Query} (h : Weaves a id pack w p) :
    w.emits = !pack := by
  obtain ⟨plan, hp, rfl⟩ := h
  have ho := (planned hp).2
  rw [WeaveSpec.emits, weave, AdviceSpec.rename, ho, Stage.output]
  cases pack <;> rfl

theorem Weaves.bagIds {w : WeaveSpec} {p : Nat × Query} (h : Weaves a id pack w p) :
    w.advice.unpack.map (·.bagId) = (bagsOf id p.1 p.2.joins).map (·.bagId) := by
  obtain ⟨plan, hp, rfl⟩ := h
  rw [weave, AdviceSpec.rename, (planned hp).1, List.map_map]
  rfl

/-- The weaves of joined queries, and that of the query, are those of its parts in turn. -/
theorem weaves_of_compileFrom {c : Compiled} (h : q.compileFrom a id pack start = .ok c) :
    List.Forall₂ (Weaves a id true) c.joined (joinsNumbered start q.joins) ∧
      Weaves a id pack c.own (start, q) := by
  induction q generalizing pack start c with
  | node s js ih =>
      obtain ⟨joined, unpack, plan, hj, hp, rfl⟩ := compileFrom_node_eq_ok_iff.mp h
      obtain ⟨hlength, hunpack⟩ := bags_of_compileJoins hj
      refine ⟨?_, plan, ?_, ?_⟩
      · clear hp h hlength hunpack
        induction js generalizing start joined unpack with
        | nil =>
            cases hj
            exact .nil
        | cons j js ihjs =>
            obtain ⟨c, later, unpackLater, hc, hl, rfl, _⟩ := compileJoins_cons_eq_ok_iff.mp hj
            obtain ⟨hjoined, hown⟩ := ih j List.mem_cons_self hc
            rw [(size_of_compileFrom hc).1] at hl
            have hlater := ihjs (fun k hk => ih k (List.mem_cons_of_mem _ hk)) _ _ hl
            show List.Forall₂ _ (c.weaves ++ later) (j.2.numbered start ++ _)
            rw [numbered_eq]
            exact List.rel_append (List.rel_append hjoined (.cons hown .nil)) hlater
      · rw [hunpack, hlength] at hp
        exact hp
      · show weave a s ⟨id, start + joined.length⟩ plan = _
        rw [hlength]
        rfl

end

/-! ## From one weave to another -/

/-- The name of a variable in the weave of a plan. -/
def naming (a : Arena) (plan : AdviceSpec VarId) (v : VarId) : String :=
  nameIn a (firstMentions plan.mentions) v

/-- What a part of a query packs, the part that joins it unpacks at the place of the join.
Either goes by the names of its own plan, which tell variables apart. The bag is laid out
alike for both, and each column is unpacked into the variable that it was packed for. -/
structure Handover (a : Arena) (p r : Query) (j : Nat) (packer unpacker : AdviceSpec VarId)
    (w w' : WeaveSpec) (u : UnpackSpec String) : Prop where
  joined : r.joins.values[j]? = some p
  packs : w = weave a p.stage w.adviceId packer
  unpacks : w' = weave a r.stage w'.adviceId unpacker
  output : w.advice.output = .pack w.adviceId w.advice.output.bag
  entry : w'.advice.unpack[j]? = some u
  bagId : u.bagId = w.adviceId
  layout : u.bag.layout = w.advice.output.bag.layout
  packed : w.advice.output.bag.names = p.stage.handed.map fun col => naming a packer col.packed
  unpacked : u.bag.names = p.stage.handed.map fun col => naming a unpacker col.unpacked
  packerApart : ∀ col ∈ p.stage.handed, ∀ v, naming a packer col.packed = naming a packer v →
    col.packed = v
  unpackerApart :
    ∀ col ∈ p.stage.handed, ∀ v, naming a unpacker col.unpacked = naming a unpacker v →
    col.unpacked = v

theorem exists_handover {p r : Query} {st st' j : Nat} {w w' : WeaveSpec}
    (hw : Weaves a id true w (st, p)) (hw' : Weaves a id pack w' (st', r))
    (hj : r.joins.values[j]? = some p)
    (hu : (bagsOf id st' r.joins)[j]? = some ⟨p.bagOf id st, p.stage.unpackedBag⟩) :
    ∃ packer unpacker u, Handover a p r j packer unpacker w w' u := by
  obtain ⟨packer, hp, rfl⟩ := hw
  obtain ⟨unpacker, hr, rfl⟩ := hw'
  have houtput : packer.output = .pack (p.bagOf id st) p.stage.packedBag := (planned hp).2
  have hrenamed : (weave a p.stage (p.bagOf id st) packer).advice.output =
      .pack (p.bagOf id st) (p.stage.packedBag.rename (naming a packer)) := by
    rw [weave, AdviceSpec.rename, houtput]
    rfl
  have hentry : (weave a r.stage (r.bagOf id st') unpacker).advice.unpack[j]? =
      some ⟨p.bagOf id st, p.stage.unpackedBag.rename (naming a unpacker)⟩ := by
    rw [weave, AdviceSpec.rename, (planned hr).1, List.getElem?_map, hu]
    rfl
  refine ⟨packer, unpacker, _, hj, rfl, rfl, ?_, hentry, rfl, ?_, ?_, ?_, fun col hc v h => ?_,
    fun col hc v h => ?_⟩
  · rw [hrenamed]
    rfl
  · rw [hrenamed, OutputSpec.bag, BagSpec.layout_rename, BagSpec.layout_rename]
    exact p.stage.layout_unpackedBag
  · rw [hrenamed, OutputSpec.bag, BagSpec.names_rename, p.stage.names_packedBag, List.map_map]
    rfl
  · rw [BagSpec.names_rename, p.stage.names_unpackedBag, List.map_map]
    rfl
  · refine nameIn_inj (mem_firstMentions.mpr ?_) h
    rw [AdviceSpec.mentions, houtput]
    refine List.mem_append_right _ (BagSpec.mentions_of_names ?_)
    rw [OutputSpec.bag, p.stage.names_packedBag]
    exact List.mem_map_of_mem hc
  · refine nameIn_inj (mem_firstMentions.mpr ?_) h
    have hbag : ⟨p.bagOf id st, p.stage.unpackedBag⟩ ∈ unpacker.unpack := by
      rw [(planned hr).1]
      exact List.mem_of_getElem? hu
    rw [AdviceSpec.mentions]
    simp only [List.mem_append, List.mem_flatMap]
    refine Or.inl (Or.inl (Or.inl (Or.inr ⟨_, hbag, BagSpec.mentions_of_names ?_⟩)))
    rw [p.stage.names_unpackedBag]
    exact List.mem_map_of_mem hc

/-- Every weave is that of the part in its place, and only the last one emits. -/
theorem weaves_getElem? {c : Compiled} (h : q.compileFrom a id false 0 = .ok c) {i : Nat}
    {w : WeaveSpec} (hw : c.weaves[i]? = some w) :
    ∃ p, (q.numbered 0)[i]? = some p ∧ Weaves a id (decide (i + 1 < c.weaves.length)) w p := by
  obtain ⟨hjoined, hown⟩ := weaves_of_compileFrom h
  have hlength := hjoined.length_eq
  rw [Compiled.weaves] at hw
  rw [numbered_eq, Compiled.weaves, List.length_append, List.length_singleton]
  rcases Nat.lt_or_ge i c.joined.length with hlt | hge
  · rw [List.getElem?_append_left hlt] at hw
    rw [List.getElem?_append_left (hlength ▸ hlt), decide_eq_true (by omega)]
    obtain ⟨hi, rfl⟩ := List.getElem?_eq_some_iff.mp hw
    have hi' : i < (joinsNumbered 0 q.joins).length := hlength ▸ hi
    exact ⟨_, List.getElem?_eq_getElem hi', hjoined.get hi hi'⟩
  · rw [List.getElem?_append_right hge] at hw
    obtain ⟨hi, rfl⟩ := List.getElem?_eq_some_iff.mp hw
    rw [List.length_singleton] at hi
    rw [List.getElem?_append_right (hlength ▸ hge), decide_eq_false (by omega)]
    refine ⟨(0, q), ?_, ?_⟩
    · rw [← hlength]
      have hz : i - c.joined.length = 0 := by omega
      rw [hz]
      rfl
    · simpa using hown

end Query

/-- Entry `j` of weave number `k` takes rows out of a bag. -/
def QueryAdvice.Takes (c : QueryAdvice) (b : BagId) (k j : Nat) : Prop :=
  ∃ w u, c.weaves[k]? = some w ∧ w.advice.unpack[j]? = some u ∧ u.bagId = b

namespace Query

variable {a : Arena} {id : QueryId} {q : Query}

theorem bagOf_getElem? (id : QueryId) {i : Nat} {p : Nat × Query}
    (h : (q.numbered 0)[i]? = some p) : p.2.bagOf id p.1 = ⟨id, i⟩ := by
  have hi := congrArg (·[i]?) (bagOf_numbered id 0 q)
  rw [List.getElem?_map, h, List.getElem?_map, Option.map_some] at hi
  obtain ⟨n, hn, he⟩ := Option.map_eq_some_iff.mp hi.symm
  obtain ⟨hlt, rfl⟩ := List.getElem?_eq_some_iff.mp hn
  rw [← he, List.getElem_range', Nat.zero_add, Nat.one_mul]

theorem nodup_bagOf_numbered (id : QueryId) (q : Query) :
    ((q.numbered 0).map fun p => p.2.bagOf id p.1).Nodup := by
  rw [bagOf_numbered]
  exact (List.nodup_range' 1).map fun m n h => congrArg BagId.seq h

/-- Which bags are taken out where can be read off the numbered parts. -/
theorem takes_iff {c : Compiled} (h : q.compileFrom a id false 0 = .ok c) {b : BagId} {k j : Nat} :
    QueryAdvice.Takes ⟨id, c.weaves⟩ b k j ↔ ∃ p, (q.numbered 0)[k]? = some p ∧
      ((bagsOf id p.1 p.2.joins).map (·.bagId))[j]? = some b := by
  constructor
  · rintro ⟨w, u, hw, hu, rfl⟩
    obtain ⟨p, hp, hwp⟩ := weaves_getElem? h hw
    refine ⟨p, hp, ?_⟩
    rw [← hwp.bagIds, List.getElem?_map, hu]
    rfl
  · rintro ⟨p, hp, hb⟩
    have hlt : k < c.weaves.length := by
      rw [(size_of_compileFrom h).1, ← length_numbered 0 q]
      exact (List.getElem?_eq_some_iff.mp hp).1
    have hw := List.getElem?_eq_getElem hlt
    obtain ⟨p', hp', hwp⟩ := weaves_getElem? h hw
    cases hp.symm.trans hp'
    rw [← hwp.bagIds, List.getElem?_map] at hb
    obtain ⟨u, hu, rfl⟩ := Option.map_eq_some_iff.mp hb
    exact ⟨_, u, hw, hu, rfl⟩

/-- Numbered parts are told apart by their bags. -/
theorem eq_of_bagOf_eq (id : QueryId) {p r : Nat × Query} (hp : p ∈ q.numbered 0)
    (hr : r ∈ q.numbered 0) (h : p.2.bagOf id p.1 = r.2.bagOf id r.1) : p = r := by
  obtain ⟨i, hi⟩ := List.mem_iff_getElem?.mp hp
  obtain ⟨k, hk⟩ := List.mem_iff_getElem?.mp hr
  rw [bagOf_getElem? id hi, bagOf_getElem? id hk] at h
  have hseq : i = k := congrArg BagId.seq h
  rw [hseq] at hi
  exact Option.some.inj (hi.symm.trans hk)

/-- Some part unpacks the bag of each part but the last. -/
theorem exists_bagsOf_of_lt (id : QueryId) {i : Nat} {p : Nat × Query}
    (hp : (q.numbered 0)[i]? = some p) (hlast : i + 1 < q.size) :
    ∃ r ∈ q.numbered 0, p.2.bagOf id p.1 ∈ (bagsOf id r.1 r.2.joins).map (·.bagId) := by
  have hall := (bagsOf_numbered id 0 q).mem_iff.mpr
    (List.mem_map_of_mem (f := fun p => p.2.bagOf id p.1) (List.mem_of_getElem? hp))
  refine List.mem_flatMap.mp ((List.mem_append.mp hall).resolve_right fun hown => ?_)
  -- The last bag, which nothing unpacks, has the highest number.
  have hseq := congrArg BagId.seq (List.mem_singleton.mp hown)
  rw [bagOf_getElem? id hp] at hseq
  simp only [bagOf, Nat.zero_add] at hseq
  rw [size_eq] at hlast
  omega

/-- The bag of a part other than the query itself is unpacked by a part that comes later, at
the place where it joins the first. -/
theorem exists_unpacker (id : QueryId) {i : Nat} {p : Nat × Query}
    (hp : (q.numbered 0)[i]? = some p) (hlast : i + 1 < q.size) :
    ∃ (k : Nat) (r : Nat × Query) (j : Nat), i < k ∧ (q.numbered 0)[k]? = some r ∧
      r.2.joins.values[j]? = some p.2 ∧
      (bagsOf id r.1 r.2.joins)[j]? = some ⟨p.2.bagOf id p.1, p.2.stage.unpackedBag⟩ := by
  obtain ⟨r, hr, hm⟩ := exists_bagsOf_of_lt id hp hlast
  obtain ⟨u, hu, hbag⟩ := List.mem_map.mp hm
  obtain ⟨k, hk⟩ := List.mem_iff_getElem?.mp hr
  obtain ⟨j, hj⟩ := List.mem_iff_getElem?.mp hu
  obtain ⟨st, p', hp', rfl, hjoined, hlt⟩ := joined_of_bagsOf hj
  have hsame : (st, p') = p :=
    eq_of_bagOf_eq id (numbered_trans hr hjoined) (List.mem_of_getElem? hp) hbag
  subst hsame
  refine ⟨k, r, j, ?_, hk, hp', hj⟩
  have hown := congrArg BagId.seq (bagOf_getElem? id hk)
  have hpacked := congrArg BagId.seq (bagOf_getElem? id hp)
  simp only [bagOf] at hown hpacked hlt
  omega

/-- The plans of a compiled query are numbered in order, one for each stage, and the last one
emits. Every other plan packs into a bag of its own number. One entry of one plan, which
comes later, unpacks that bag: the entry at which the stage of the one joins that of the
other, with the same columns. -/
theorem compile_handover {c : QueryAdvice} (h : q.compile a id = .ok c) :
    c.weaves ≠ [] ∧ c.weaves.length = q.parts.length ∧
      ∀ i w, c.weaves[i]? = some w →
        w.adviceId = ⟨id, i⟩ ∧ (w.emits = true ↔ i + 1 = c.weaves.length) ∧
          (i + 1 < c.weaves.length → ∃ k j, i < k ∧
            (∀ k' j', c.Takes w.adviceId k' j' ↔ k' = k ∧ j' = j) ∧
            ∃ p r packer unpacker w' u, q.inTurn[i]? = some p ∧ q.inTurn[k]? = some r ∧
              c.weaves[k]? = some w' ∧ Handover a p r j packer unpacker w w' u) := by
  obtain ⟨compiled, hc, he⟩ := bind_eq_ok_iff.mp h
  cases he
  have hlength := (size_of_compileFrom hc).1
  refine ⟨List.append_ne_nil_of_right_ne_nil _ (List.cons_ne_nil _ _), ?_, fun i w hw => ?_⟩
  · rw [hlength, ← length_numbered 0 q, ← (parts_numbered 0 q).length_eq, List.length_map]
  · obtain ⟨⟨st, p⟩, hp, hwp⟩ := weaves_getElem? hc hw
    have hid : w.adviceId = ⟨id, i⟩ := hwp.adviceId.trans (bagOf_getElem? id hp)
    have hbound : i < compiled.weaves.length := (List.getElem?_eq_some_iff.mp hw).1
    refine ⟨hid, ?_, fun hlast => ?_⟩
    · rw [hwp.emits]
      simp only [Bool.not_eq_true', decide_eq_false_iff_not]
      omega
    · obtain ⟨k, ⟨st', r⟩, j, hlt, hr, hj, hu⟩ := exists_unpacker id hp (hlength ▸ hlast)
      have hbag : ((bagsOf id st' r.joins).map (·.bagId))[j]? = some w.adviceId := by
        rw [List.getElem?_map, hu, hwp.adviceId]
        rfl
      obtain ⟨w', u', hw', _⟩ := (takes_iff hc).mpr ⟨_, hr, hbag⟩
      obtain ⟨r', hr', hwr⟩ := weaves_getElem? hc hw'
      cases hr.symm.trans hr'
      rw [decide_eq_true hlast] at hwp
      obtain ⟨packer, unpacker, u, hhandover⟩ := exists_handover hwp hwr hj hu
      refine ⟨k, j, hlt, fun k' j' => ⟨fun htakes => ?_, ?_⟩, p, r, packer, unpacker, w', u, ?_, ?_,
        hw', hhandover⟩
      · obtain ⟨r', hr', hb⟩ := (takes_iff hc).mp htakes
        have hn := ((bagsOf_numbered id 0 q).nodup_iff.mpr (nodup_bagOf_numbered id q))
        exact places_eq_of_nodup_flatMap (List.nodup_append.mp hn).1 hr' hr hb hbag
      · rintro ⟨rfl, rfl⟩
        exact (takes_iff hc).mpr ⟨_, hr, hbag⟩
      · rw [inTurn, List.getElem?_map, hp]
        rfl
      · rw [inTurn, List.getElem?_map, hr]
        rfl

open Query.Sample

theorem compile_handover_totals :
    ∃ c, totals.compile totalsArena ⟨1⟩ = .ok c ∧ c.weaves.length = 3 ∧
      ∀ i w, c.weaves[i]? = some w → w.adviceId = ⟨⟨1⟩, i⟩ ∧ (w.emits = true ↔ i + 1 = 3) := by
  obtain ⟨c, hc⟩ := exists_of_isOk compile_totals
  obtain ⟨_, hlength, hweaves⟩ := compile_handover hc
  have hthree : c.weaves.length = 3 := hlength
  refine ⟨c, hc, hthree, fun i w hw => ?_⟩
  obtain ⟨hid, hemits, _⟩ := hweaves i w hw
  exact ⟨hid, hthree ▸ hemits⟩

end Query

end CausalTrace
