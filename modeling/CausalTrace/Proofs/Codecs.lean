import CausalTrace.Proofs.Wire
import CausalTrace.Spec.Json

/-!
# Plans read back

A codec is a way to write a type as documents and to read it out of them. What is written reads
back as long as its numbers have the widths they are sent with, and nothing else is ever read. A
plan is made of records, cases and lists, each of which has a codec if its parts have one.
-/

namespace CausalTrace

namespace Json

/-- Documents of a type: whatever is written is well spelled, and what has the widths of the type
is what is written and read back. -/
structure Codec {α : Type} (toJson : α → Json) (ofJson? : Json → Option α)
    (Fits : α → Prop) : Prop where
  spelled : ∀ a, (toJson a).Spelled
  read : ∀ a, Fits a → ofJson? (toJson a) = some a
  fits : ∀ j a, ofJson? j = some a → Fits a

variable {α : Type} {toJson : α → Json} {item? : Json → Option α} {Fits : α → Prop}

theorem lt_of_nat? {j : Json} {bound n : Nat} (h : j.nat? bound = some n) : n < bound := by
  cases j with
  | number l =>
      obtain ⟨i, _, hi⟩ := Option.bind_eq_some_iff.mp h
      split at hi
      · next hbound =>
          cases hi
          exact hbound.2
      · cases hi
  | null | bool _ | str _ | arr _ | obj _ | broken => cases h

theorem codec_str : Codec .str str? fun _ => True where
  spelled := .str
  read _ _ := rfl
  fits _ _ _ := trivial

theorem forall_of_mapM {js : List Json} {as : List α} (hitem : ∀ j a, item? j = some a → Fits a)
    (h : js.mapM item? = some as) : ∀ a ∈ as, Fits a := by
  induction js generalizing as with
  | nil =>
      cases h
      exact List.forall_mem_nil _
  | cons j js ih =>
      rw [List.mapM_cons] at h
      obtain ⟨b, hb, h⟩ := Option.bind_eq_some_iff.mp h
      obtain ⟨bs, hbs, h⟩ := Option.bind_eq_some_iff.mp h
      cases h
      exact List.forall_mem_cons.mpr ⟨hitem j b hb, ih hbs⟩

theorem Codec.list (h : Codec toJson item? Fits) :
    Codec (fun as => .arr (as.map toJson)) (list? item?) fun as => ∀ a ∈ as, Fits a where
  spelled as := spelled_map fun a _ => h.spelled a
  read as has := list?_map_self fun a ha => h.read a (has a ha)
  fits j as hj := by
    obtain ⟨js, _, hjs⟩ := Option.bind_eq_some_iff.mp hj
    exact forall_of_mapM h.fits hjs

theorem codec_strs : Codec strs (list? str?) fun _ => True where
  spelled := codec_str.list.spelled
  read ss _ := codec_str.list.read ss fun _ _ => trivial
  fits _ _ _ := trivial

theorem slot?_of_mem {fields : List (String × Json)} {name : String} {j : Json}
    (h : (fields.map (·.1)).Nodup) (hmem : (name, j) ∈ fields) :
    slot? fields name = some (some j) := by
  suffices hone : fields.filter (fun f => f.1 == name) = [(name, j)] by rw [slot?, hone]
  induction fields with
  | nil => cases hmem
  | cons f fields ih =>
      obtain ⟨hf, h⟩ := List.nodup_cons.mp h
      rcases List.mem_cons.mp hmem with rfl | hmem
      · have hnone : fields.filter (fun f => f.1 == name) = [] := by
          refine List.filter_eq_nil_iff.mpr fun g hg he => hf ?_
          exact List.mem_map.mpr ⟨g, hg, eq_of_beq he⟩
        rw [List.filter_cons_of_pos (by simp), hnone]
      · have hne : f.1 ≠ name := by
          rintro rfl
          exact hf (List.mem_map.mpr ⟨_, hmem, rfl⟩)
        rw [List.filter_cons_of_neg (by simpa using hne)]
        exact ih h hmem

/-- The fields of an object are found under their names. -/
theorem record?_obj {fields : List (String × Json)} {names : List String}
    (hnames : fields.map (·.1) = names) (h : names.Nodup) :
    record? names (.obj fields) = some (fields.map fun f => some f.2) := by
  subst hnames
  have hslots : ∀ fs : List (String × Json), (∀ f ∈ fs, f ∈ fields) →
      (fs.map (·.1)).mapM (slot? fields) = some (fs.map fun f => some f.2) := by
    intro fs hfs
    induction fs with
    | nil => rfl
    | cons f fs ih =>
        obtain ⟨hf, hfs⟩ := List.forall_mem_cons.mp hfs
        simp [slot?_of_mem h hf, ih hfs]
  exact hslots fields fun _ hf => hf

/-- An object is well spelled if the contents of its fields are. -/
theorem spelled_record {fields : List (String × Json)} (h : (fields.map (·.2)).Forall Spelled) :
    Spelled (.obj fields) :=
  .obj (List.forall_mem_map.mp (List.forall_iff_forall_mem.mp h))

end Json

/-! ## Identifiers and kinds -/

/-- The number has the width it is written with. -/
def QueryId.Fits (q : QueryId) : Prop := q.val < Json.bound64

theorem QueryId.codec : Json.Codec toJson ofJson? Fits where
  spelled q := Json.spelled_nat q.val
  read q hq := by
    rw [ofJson?, toJson, Json.nat?_nat hq (Nat.le_refl _)]
    rfl
  fits j q h := by
    obtain ⟨n, hn, rfl⟩ := Option.map_eq_some_iff.mp h
    exact Json.lt_of_nat? hn

theorem BagId.codec : Json.Codec toJson ofJson? Fits where
  spelled := spelled_toJson
  read _ := ofJson?_toJson
  fits j id h := by
    unfold ofJson? at h
    obtain ⟨slots, _, h⟩ := Option.bind_eq_some_iff.mp h
    split at h
    · obtain ⟨q, hq, h⟩ := Option.bind_eq_some_iff.mp h
      obtain ⟨n, hn, h⟩ := Option.bind_eq_some_iff.mp h
      cases h
      exact ⟨QueryId.codec.fits _ q hq, Json.lt_of_nat? hn⟩
    · cases h

theorem Aggregation.codec : Json.Codec toJson ofJson? fun _ => True where
  spelled a := by cases a <;> exact .str _
  read a _ := by cases a <;> rfl
  fits _ _ _ := trivial

theorem Filter.codec : Json.Codec toJson ofJson? fun _ => True where
  spelled f := by cases f <;> exact .str _
  read f _ := by cases f <;> rfl
  fits _ _ _ := trivial

/-! ## Bags -/

theorem AggregateSpec.codec : Json.Codec toJson ofJson? fun _ => True where
  spelled a := Json.spelled_record ⟨.str a.name, Aggregation.codec.spelled a.how⟩
  read a _ := by
    have hrecord :
        a.toJson.record? ["name", "how"] = some [some (.str a.name), some a.how.toJson] :=
      Json.record?_obj rfl (by decide)
    rw [ofJson?, hrecord]
    simp [Json.str?, Aggregation.codec.read]
  fits _ _ _ := trivial

theorem BagSpec.codec : Json.Codec toJson ofJson? fun _ => True where
  spelled b := by
    cases b with
    | tuple vars => exact Json.spelled_record (Json.spelled_record (Json.codec_strs.spelled vars))
    | filter keep vars =>
        exact Json.spelled_record (Json.spelled_record
          ⟨Filter.codec.spelled keep, Json.codec_strs.spelled vars⟩)
    | groupBy keys aggregates =>
        exact Json.spelled_record (Json.spelled_record
          ⟨Json.codec_strs.spelled keys, AggregateSpec.codec.list.spelled aggregates⟩)
  read b _ := by
    cases b with
    | tuple vars =>
        have hrecord :
            (Json.obj [("vars", .strs vars)]).record? ["vars"] = some [some (.strs vars)] :=
          Json.record?_obj rfl (by decide)
        simp [ofJson?, toJson, Json.case?, hrecord, Json.codec_strs.read]
    | filter keep vars =>
        have hrecord :
            (Json.obj [("kind", keep.toJson), ("vars", .strs vars)]).record? ["kind", "vars"] =
            some [some keep.toJson, some (.strs vars)] := Json.record?_obj rfl (by decide)
        simp [ofJson?, toJson, Json.case?, hrecord, Filter.codec.read, Json.codec_strs.read]
    | groupBy keys aggregates =>
        have hrecord : (Json.obj [("group_by", .strs keys),
              ("aggregates", .arr (aggregates.map AggregateSpec.toJson))]).record?
                ["group_by", "aggregates"] =
            some [some (.strs keys), some (.arr (aggregates.map AggregateSpec.toJson))] :=
          Json.record?_obj rfl (by decide)
        simp [ofJson?, toJson, Json.case?, hrecord, Json.codec_strs.read,
          AggregateSpec.codec.list.read]
  fits _ _ _ := trivial

/-! ## Advice -/

theorem LetSpec.codec : Json.Codec toJson ofJson? fun _ => True where
  spelled l := Json.spelled_record ⟨.str l.name, .str l.expr, Json.codec_strs.spelled l.args⟩
  read l _ := by
    have hrecord : l.toJson.record? ["name", "expr", "args"] =
        some [some (.str l.name), some (.str l.expr), some (.strs l.args)] :=
      Json.record?_obj rfl (by decide)
    rw [ofJson?, hrecord]
    simp [Json.str?, Json.codec_strs.read]
  fits _ _ _ := trivial

theorem WhereSpec.codec : Json.Codec toJson ofJson? fun _ => True where
  spelled w := Json.spelled_record ⟨.str w.expr, Json.codec_strs.spelled w.args⟩
  read w _ := by
    have hrecord :
        w.toJson.record? ["expr", "args"] = some [some (.str w.expr), some (.strs w.args)] :=
      Json.record?_obj rfl (by decide)
    rw [ofJson?, hrecord]
    simp [Json.str?, Json.codec_strs.read]
  fits _ _ _ := trivial

def UnpackSpec.Fits (u : UnpackSpec String) : Prop := u.bagId.Fits

theorem UnpackSpec.ofJson?_eq_some {j : Json} {u : UnpackSpec String} : ofJson? j = some u ↔
    ∃ i b, j.record? ["bag_id", "bag"] = some [some i, some b] ∧ BagId.ofJson? i = some u.bagId ∧
      BagSpec.ofJson? b = some u.bag := by
  constructor
  · intro h
    unfold ofJson? at h
    obtain ⟨slots, hrecord, h⟩ := Option.bind_eq_some_iff.mp h
    split at h
    · obtain ⟨id, hid, h⟩ := Option.bind_eq_some_iff.mp h
      obtain ⟨bag, hbag, h⟩ := Option.bind_eq_some_iff.mp h
      cases h
      exact ⟨_, _, hrecord, hid, hbag⟩
    · cases h
  · rintro ⟨i, b, hrecord, hid, hbag⟩
    simp [ofJson?, hrecord, hid, hbag]

theorem UnpackSpec.codec : Json.Codec toJson ofJson? Fits where
  spelled u := Json.spelled_record ⟨BagId.codec.spelled u.bagId, BagSpec.codec.spelled u.bag⟩
  read u hu := ofJson?_eq_some.mpr ⟨_, _, Json.record?_obj rfl (by decide),
    BagId.codec.read u.bagId hu, BagSpec.codec.read u.bag trivial⟩
  fits j u h := by
    obtain ⟨i, b, _, hid, _⟩ := ofJson?_eq_some.mp h
    exact BagId.codec.fits i u.bagId hid

/-- The bag or the query that gets the rows has an identifier of its width. -/
def OutputSpec.Fits : OutputSpec String → Prop
  | .pack bagId _ => bagId.Fits
  | .emit outputId _ => outputId.Fits

theorem OutputSpec.ofJson?_pack {i b : Json} {bagId : BagId} {bag : BagSpec String}
    (hid : BagId.ofJson? i = some bagId) (hbag : BagSpec.ofJson? b = some bag) :
    ofJson? (.obj [("Pack", .obj [("bag_id", i), ("bag", b)])]) = some (.pack bagId bag) := by
  have hrecord : (Json.obj [("bag_id", i), ("bag", b)]).record? ["bag_id", "bag"] =
      some [some i, some b] := Json.record?_obj rfl (by decide)
  simp [ofJson?, Json.case?, hrecord, hid, hbag]

theorem OutputSpec.ofJson?_emit {i b : Json} {outputId : QueryId} {bag : BagSpec String}
    (hid : QueryId.ofJson? i = some outputId) (hbag : BagSpec.ofJson? b = some bag) :
    ofJson? (.obj [("Emit", .obj [("output_id", i), ("bag", b)])]) = some (.emit outputId bag) := by
  have hrecord : (Json.obj [("output_id", i), ("bag", b)]).record? ["output_id", "bag"] =
      some [some i, some b] := Json.record?_obj rfl (by decide)
  simp [ofJson?, Json.case?, hrecord, hid, hbag]

theorem OutputSpec.codec : Json.Codec toJson ofJson? Fits where
  spelled o := by
    cases o with
    | pack bagId bag =>
        exact Json.spelled_record (Json.spelled_record
          ⟨BagId.codec.spelled bagId, BagSpec.codec.spelled bag⟩)
    | emit outputId bag =>
        exact Json.spelled_record (Json.spelled_record
          ⟨QueryId.codec.spelled outputId, BagSpec.codec.spelled bag⟩)
  read o ho := by
    cases o with
    | pack bagId bag =>
        exact ofJson?_pack (BagId.codec.read bagId ho) (BagSpec.codec.read bag trivial)
    | emit outputId bag =>
        exact ofJson?_emit (QueryId.codec.read outputId ho) (BagSpec.codec.read bag trivial)
  fits j o h := by
    unfold ofJson? at h
    obtain ⟨form, _, h⟩ := Option.bind_eq_some_iff.mp h
    split at h
    · obtain ⟨slots, _, h⟩ := Option.bind_eq_some_iff.mp h
      split at h
      · obtain ⟨id, hid, h⟩ := Option.bind_eq_some_iff.mp h
        obtain ⟨bag, _, h⟩ := Option.bind_eq_some_iff.mp h
        cases h
        exact BagId.codec.fits _ id hid
      · cases h
    · obtain ⟨slots, _, h⟩ := Option.bind_eq_some_iff.mp h
      split at h
      · obtain ⟨id, hid, h⟩ := Option.bind_eq_some_iff.mp h
        obtain ⟨bag, _, h⟩ := Option.bind_eq_some_iff.mp h
        cases h
        exact QueryId.codec.fits _ id hid
      · cases h
    · cases h

/-- Every identifier in the plan has its width; names and templates are any texts. -/
structure AdviceSpec.Fits (a : AdviceSpec String) : Prop where
  unpack : ∀ u ∈ a.unpack, u.Fits
  output : a.output.Fits

theorem AdviceSpec.codec : Json.Codec toJson ofJson? Fits where
  spelled a := Json.spelled_record ⟨Json.codec_strs.spelled a.observe,
    UnpackSpec.codec.list.spelled a.unpack, LetSpec.codec.list.spelled a.lets,
    WhereSpec.codec.list.spelled a.wheres, OutputSpec.codec.spelled a.output⟩
  read a ha := by
    have hrecord : a.toJson.record? ["observe", "unpack", "lets", "wheres", "output"] =
        some [some (.strs a.observe), some (.arr (a.unpack.map UnpackSpec.toJson)),
          some (.arr (a.lets.map LetSpec.toJson)), some (.arr (a.wheres.map WhereSpec.toJson)),
          some a.output.toJson] := Json.record?_obj rfl (by decide)
    rw [ofJson?, hrecord]
    simp [Json.codec_strs.read, UnpackSpec.codec.list.read a.unpack ha.unpack,
      LetSpec.codec.list.read, WhereSpec.codec.list.read, OutputSpec.codec.read a.output ha.output]
  fits j a h := by
    unfold ofJson? at h
    obtain ⟨slots, _, h⟩ := Option.bind_eq_some_iff.mp h
    split at h
    · obtain ⟨observe, _, h⟩ := Option.bind_eq_some_iff.mp h
      obtain ⟨unpack, hunpack, h⟩ := Option.bind_eq_some_iff.mp h
      obtain ⟨lets, _, h⟩ := Option.bind_eq_some_iff.mp h
      obtain ⟨wheres, _, h⟩ := Option.bind_eq_some_iff.mp h
      obtain ⟨output, houtput, h⟩ := Option.bind_eq_some_iff.mp h
      cases h
      exact ⟨UnpackSpec.codec.list.fits _ unpack hunpack, OutputSpec.codec.fits _ output houtput⟩
    · cases h

/-! ## Plans of queries -/

structure WeaveSpec.Fits (w : WeaveSpec) : Prop where
  adviceId : w.adviceId.Fits
  advice : w.advice.Fits

theorem WeaveSpec.ofJson?_eq_some {j : Json} {w : WeaveSpec} : ofJson? j = some w ↔
    ∃ i t fs a, j.record? ["advice_id", "tracepoint", "exports", "advice"] =
        some [some i, some t, some fs, some a] ∧
      BagId.ofJson? i = some w.adviceId ∧ t.str? = some w.tracepoint ∧
      fs.list? Json.str? = some w.fields ∧ AdviceSpec.ofJson? a = some w.advice := by
  constructor
  · intro h
    unfold ofJson? at h
    obtain ⟨slots, hrecord, h⟩ := Option.bind_eq_some_iff.mp h
    split at h
    · obtain ⟨id, hid, h⟩ := Option.bind_eq_some_iff.mp h
      obtain ⟨tracepoint, htracepoint, h⟩ := Option.bind_eq_some_iff.mp h
      obtain ⟨fields, hfields, h⟩ := Option.bind_eq_some_iff.mp h
      obtain ⟨advice, hadvice, h⟩ := Option.bind_eq_some_iff.mp h
      cases h
      exact ⟨_, _, _, _, hrecord, hid, htracepoint, hfields, hadvice⟩
    · cases h
  · rintro ⟨i, t, fs, a, hrecord, hid, htracepoint, hfields, hadvice⟩
    simp [ofJson?, hrecord, hid, htracepoint, hfields, hadvice]

theorem WeaveSpec.codec : Json.Codec toJson ofJson? Fits where
  spelled w := Json.spelled_record ⟨BagId.codec.spelled w.adviceId, .str w.tracepoint,
    Json.codec_strs.spelled w.fields, AdviceSpec.codec.spelled w.advice⟩
  read w hw := ofJson?_eq_some.mpr ⟨_, _, _, _, Json.record?_obj rfl (by decide),
    BagId.codec.read w.adviceId hw.adviceId, rfl, Json.codec_strs.read w.fields trivial,
    AdviceSpec.codec.read w.advice hw.advice⟩
  fits j w h := by
    obtain ⟨i, t, fs, a, _, hid, _, _, hadvice⟩ := ofJson?_eq_some.mp h
    exact ⟨BagId.codec.fits i w.adviceId hid, AdviceSpec.codec.fits a w.advice hadvice⟩

namespace QueryAdvice

structure Fits (q : QueryAdvice) : Prop where
  queryId : q.queryId.Fits
  weaves : ∀ w ∈ q.weaves, w.Fits

theorem ofJson?_eq_some {j : Json} {q : QueryAdvice} : ofJson? j = some q ↔
    ∃ i ws, j.record? ["query_id", "weaves"] = some [some i, some ws] ∧
      QueryId.ofJson? i = some q.queryId ∧ ws.list? WeaveSpec.ofJson? = some q.weaves := by
  constructor
  · intro h
    unfold ofJson? at h
    obtain ⟨slots, hrecord, h⟩ := Option.bind_eq_some_iff.mp h
    split at h
    · obtain ⟨id, hid, h⟩ := Option.bind_eq_some_iff.mp h
      obtain ⟨weaves, hweaves, h⟩ := Option.bind_eq_some_iff.mp h
      cases h
      exact ⟨_, _, hrecord, hid, hweaves⟩
    · cases h
  · rintro ⟨i, ws, hrecord, hid, hweaves⟩
    simp [ofJson?, hrecord, hid, hweaves]

theorem codec : Json.Codec toJson ofJson? Fits where
  spelled q := Json.spelled_record ⟨QueryId.codec.spelled q.queryId,
    WeaveSpec.codec.list.spelled q.weaves⟩
  read q hq := ofJson?_eq_some.mpr ⟨_, _, Json.record?_obj rfl (by decide),
    QueryId.codec.read q.queryId hq.queryId, WeaveSpec.codec.list.read q.weaves hq.weaves⟩
  fits j q h := by
    obtain ⟨i, ws, _, hid, hweaves⟩ := ofJson?_eq_some.mp h
    exact ⟨QueryId.codec.fits i q.queryId hid, WeaveSpec.codec.list.fits ws q.weaves hweaves⟩

/-- The compact text of a plan. -/
def text (q : QueryAdvice) : String := q.toJson.render

def ofText? (s : String) : Option QueryAdvice := (Json.parse s).bind ofJson?

/-- A plan reads back from its text exactly if its identifiers have their widths; whatever text a
plan is read from, writing it, reading that and writing again gives the text written first. -/
theorem ofText?_text : (∀ q, ofText? q.text = some q ↔ q.Fits) ∧
    ∀ s, (((ofText? s).map text).bind ofText?).map text = (ofText? s).map text := by
  have hback : ∀ q : QueryAdvice, ofText? q.text = ofJson? q.toJson := fun q => by
    rw [ofText?, text, Json.parse_render (codec.spelled q), Option.bind_some]
  have hread : ∀ q, ofText? q.text = some q ↔ q.Fits := fun q => by
    rw [hback]
    exact ⟨codec.fits _ q, codec.read q⟩
  refine ⟨hread, fun s => ?_⟩
  cases hs : ofText? s with
  | none => rfl
  | some q =>
      obtain ⟨j, _, hj⟩ := Option.bind_eq_some_iff.mp hs
      rw [Option.map_some, Option.bind_some, (hread q).mpr (codec.fits j q hj), Option.map_some]

end QueryAdvice

end CausalTrace
