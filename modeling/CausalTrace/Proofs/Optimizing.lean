import CausalTrace.Proofs.Building
import CausalTrace.Proofs.Sharing

/-!
# Optimizing keeps queries sound

Every step of the optimizer leads from a sound query to a sound one that fits in its
place. What an optimized query may lack is only what a grouping stage passes through, and
only where aggregates have been moved.
-/

namespace CausalTrace

open Defining

namespace Query

variable {a b : Arena} {tight pack : Bool} {s t : Stage}
  {js js' before after : List (String × Query)}
  {aliasName : String} {q q' u u' : Query} {m : Moves} {keys : List VarId} {gs : List Aggregate}

/-! ## Moving down -/

theorem Sound.pushOneLet (h : Sound a tight pack q)
    (hpush : q.pushOneLet a = some (aliasName, q')) : Sound a tight pack q' ∧ Refits a a q q' := by
  obtain ⟨hf, hs⟩ := h
  cases q with
  | node s js =>
      obtain ⟨l, before, u, after, rfl, hm, rfl⟩ := pushOneLet_eq_some hf hpush
      have hnames := (hf.lawful _ (self_mem_parts _)).names
      refine ⟨⟨hm.formed hf, hm.supplied hf List.contains_iff_mem.mpr hs⟩,
        .of_perm (hm.defines_perm hnames), rfl, ?_, fun hc => hm.confined hnames hc hf.known,
        hm.relocates hnames⟩
      exact places_replace (by cases u; rfl) rfl

theorem Sound.pushOneWhere (h : Sound a tight pack q)
    (hpush : q.pushOneWhere = some (aliasName, q')) : Sound a tight pack q' ∧ Refits a a q q' := by
  obtain ⟨hf, hs⟩ := h
  cases q with
  | node s js =>
      obtain ⟨w, left, before, u, after, rfl, hm, rfl⟩ := pushOneWhere_eq_some hf hpush
      refine ⟨⟨hm.formed hf, hm.supplied hs⟩, .of_perm (List.Perm.of_eq ?_), rfl, ?_,
        fun hc => hm.confined hc hf.known, hm.relocates⟩
      · simp only [defines, joinsDefine_eq, List.flatMap_append, List.flatMap_cons,
          defines_withWhere]
        rfl
      · exact places_replace (by cases u; rfl) rfl

theorem sound_exhaust {step : Query → Option (String × Query)}
    (hstep : ∀ q aliasName q', Sound a tight pack q → step q = some (aliasName, q') →
      Sound a tight pack q' ∧ Refits a a q q') {n : Nat} {reached : Ascending String}
    (h : Sound a tight pack q) :
    Sound a tight pack (exhaust step n q reached).1 ∧
      Refits a a q (exhaust step n q reached).1 := by
  induction n generalizing q reached with
  | zero => exact ⟨h, .refl⟩
  | succ n ih =>
      rw [exhaust]
      split
      · next hpush =>
          obtain ⟨hs, hr⟩ := hstep _ _ _ h hpush
          obtain ⟨hs', hr'⟩ := ih hs
          exact ⟨hs', hr.trans hr'⟩
      · exact ⟨h, .refl⟩

/-- Moving lets and conditions keeps a query sound. -/
theorem Sound.pushDown (h : Sound a tight pack q) :
    Sound a tight pack (q.pushDown m a).1 ∧ Refits a a q (q.pushDown m a).1 := by
  have hlets :
      Sound a tight pack (if m.lets then exhaust (Query.pushOneLet a) q.stage.lets.length q []
      else (q, [])).1 ∧ Refits a a q (if m.lets then
        exhaust (Query.pushOneLet a) q.stage.lets.length q [] else (q, [])).1 := by
    split
    · exact sound_exhaust (fun _ _ _ hs hpush => hs.pushOneLet hpush) h
    · exact ⟨h, .refl⟩
  rw [Query.pushDown]
  generalize (if m.lets then exhaust (Query.pushOneLet a) q.stage.lets.length q [] else (q, [])) = r
    at hlets ⊢
  obtain ⟨hs, hr⟩ := hlets
  dsimp only
  split
  · obtain ⟨hs', hr'⟩ := sound_exhaust (n := r.1.stage.wheres.length)
      (fun _ _ _ hs hpush => hs.pushOneWhere hpush) hs
    exact ⟨hs', hr.trans hr'⟩
  · exact ⟨hs, hr⟩

/-! ## Optimizing joined queries -/

/-- Whatever query is joined, optimizing it keeps a property of the query that joins it. -/
def Keeps (again : Query → Defining Query) (I : Query → Arena → Prop) : Prop :=
  ∀ ⦃s : Stage⦄ ⦃before after : List (String × Query)⦄ ⦃aliasName : String⦄ ⦃u : Query⦄ ⦃a : Arena⦄,
    I (node s (before ++ (aliasName, u) :: after)) a →
      (again u).Leads a fun u' b => I (node s (before ++ (aliasName, u') :: after)) b

section

variable {again : Query → Defining Query} {I : Query → Arena → Prop}

/-- All joined queries are optimized, one after another. -/
theorem leads_mapM_keep (hagain : Keeps again I) (h : I (node s (before ++ js)) a) :
    Leads (js.mapM fun j => do return (j.1, ← again j.2)) a fun js' b =>
      I (node s (before ++ js')) b := by
  induction js generalizing before a with
  | nil => exact leads_pure h
  | cons j js ih =>
      rw [List.mapM_cons]
      refine (Leads.bind (hagain h) fun u' b h => leads_pure (Q := fun r b =>
        I (node s (before ++ r :: js)) b) h).bind ?_
      intro j' b h
      rw [List.append_cons] at h
      refine (ih h).bind ?_
      intro js' b' h'
      simp only [List.append_assoc, List.singleton_append] at h'
      exact leads_pure h'

/-- One of the joined queries is optimized once more. -/
def revisit (again : Query → Defining Query) (q : Query) (aliasName : String) : Defining Query :=
  match q.joins.find? aliasName with
  | some u => do
      let u ← again u
      return q.updateJoin aliasName fun _ => u
  | none => return q

theorem leads_revisit_keep (hagain : Keeps again I)
    (hregular : ∀ q b, I q b → q.Regular) (h : I q a) : (revisit again q aliasName).Leads a I := by
  rw [revisit]
  split
  · next u hu =>
      cases q with
      | node s js =>
          obtain ⟨before, after, rfl⟩ := List.append_of_mem (Table.mem_of_find?_eq_some hu)
          have haliases := (hregular _ _ h).aliases
          refine (hagain h).bind fun u' b h' => ?_
          have hupdate : (node s (before ++ (aliasName, u) :: after)).updateJoin aliasName
              (fun _ => u') = node s (before ++ (aliasName, u') :: after) := updateJoin_eq haliases
          rw [hupdate]
          exact leads_pure h'
  · exact leads_pure h

/-- The joined queries that something moved into are optimized once more. -/
theorem leads_foldlM_revisit_keep (hagain : Keeps again I) (hregular : ∀ q b, I q b → q.Regular)
    (reached : List String) (h : I q a) : Leads (reached.foldlM (revisit again) q) a I := by
  induction reached generalizing q a with
  | nil => exact leads_pure h
  | cons aliasName reached ih =>
      rw [List.foldlM_cons]
      exact (leads_revisit_keep hagain hregular h).bind fun q' b h' => ih h'

/-! ## Moving aggregates -/

/-- A query that has taken a share is optimized and joined again. -/
def rejoin (again : Query → Defining Query) (q : Query) (j : String × Query) : Defining Query := do
  let u ← again j.2
  return q.updateJoin j.1 fun _ => u

/-- The query joined before stands under the alias of its share. -/
theorem updateJoin_placed {shared : List (String × Query)} {f : Query → Query}
    (hplaced : Placed keys js shared js')
    (h : (node s (before ++ (aliasName, u') :: js')).Regular) :
    (node s (before ++ (aliasName, u) :: js)).updateJoin aliasName f =
      node s (before ++ (aliasName, f u) :: js) := by
  have hself := h.aliases
  have hkeys := hplaced.aliases
  rw [joins_node, Table.keys, List.map_append, List.map_cons] at hself
  rw [Table.keys, Table.keys] at hkeys
  refine updateJoin_eq ?_
  rw [Table.keys, List.map_append, List.map_cons, ← hkeys]
  exact hself

/-- All queries that have taken a share are optimized once more. -/
theorem leads_foldlM_rejoin_keep (hagain : Keeps again I) (hregular : ∀ q b, I q b → q.Regular)
    {shared : List (String × Query)} (hplaced : Placed keys js shared js')
    (h : I (node s (before ++ js')) a) :
    Leads (shared.foldlM (rejoin again) (node s (before ++ js))) a I := by
  induction hplaced generalizing a before with
  | nil => exact leads_pure h
  | skip _ hplaced ih =>
      rw [List.append_cons] at h
      have hrest := ih h
      simp only [List.append_assoc, List.singleton_append] at hrest
      exact hrest
  | @take aliasName u u' js shared js' _ hplaced ih =>
      have hstep : (rejoin again (node s (before ++ (aliasName, u) :: js)) (aliasName, u')).Leads a
          fun q' b => ∃ u'', q' = node s (before ++ (aliasName, u'') :: js) ∧
            I (node s (before ++ (aliasName, u'') :: js')) b :=
        (hagain h).bind fun u'' b h' =>
          leads_pure ⟨u'', updateJoin_placed hplaced (hregular _ _ h), h'⟩
      rw [List.foldlM_cons]
      refine hstep.bind ?_
      rintro _ b ⟨u'', rfl, h'⟩
      rw [List.append_cons] at h'
      have hrest := ih h'
      simp only [List.append_assoc, List.singleton_append] at hrest
      exact hrest

end

/-! ## Fitting in -/

/-- Steps that lead from sound joined queries to sound ones that fit in their place. -/
def Refitting (tight : Bool) (again : Query → Defining Query) : Prop :=
  ∀ u a, Sound a tight true u → (again u).Leads a fun u' b => Sound b tight true u' ∧
    Refits a b u u'

/-- A query that fits in the place of another one stays so while joined queries are refitted. -/
theorem Refitting.keeps {again : Query → Defining Query}
    (hagain : Refitting tight again) (a : Arena)
    (q : Query) : Keeps again fun q' b => Sound b tight pack q' ∧ Refits a b q q' := by
  intro s before after aliasName u b h
  obtain ⟨hs, hr⟩ := h
  have hu : Sound b tight true u := hs.joined List.mem_append_cons_self
  refine (hagain u b hu).mono fun u' c hu' => ?_
  obtain ⟨hs', hr'⟩ := hs.refitJoin hu'.1 hu'.2
  exact ⟨hs', hr.trans hr'⟩

theorem Sound.regular (h : Sound a tight pack q) : q.Regular :=
  (h.formed.lawful _ (self_mem_parts _)).toRegular

/-- What holds of a grouping query whose aggregates have been moved, from what holds when
the shares are optimized at last, whatever has been shared and counted. -/
theorem leads_shares {again : Query → Defining Query} {Q : Query → Arena → Prop}
    (h : Sound a false pack (node s js)) (hs : s.shape = .group keys gs)
    (hfinish : ∀ {b : Arena} {s' : Stage} {js' shared : List (String × Query)}
      {gs' : List Aggregate}, Placed keys js shared js' →
        Sound b false pack (node (s'.regrouped keys gs') js') →
      Refits a b (node s js) (node (s'.regrouped keys gs') js') →
      Leads (shared.foldlM (rejoin again) (node (s'.regrouped keys gs') js)) b Q) :
    (pushAggregates again (node s js)).Leads a Q := by
  have hsame : s.regrouped keys gs = s := by rw [Stage.regrouped, ← hs]
  have h' : Sound a false pack (node (s.regrouped keys gs) ([] ++ js)) := hsame.symm ▸ h
  rw [pushAggregates, stage_node, hs]
  refine (leads_get (Q := fun r b => r = a ∧ b = a) ⟨rfl, rfl⟩).bind ?_
  rintro r b ⟨rfl, rfl⟩
  refine (leads_shareAll h' rfl).bind ?_
  rintro ⟨shared, gs'⟩ b' ⟨js', hplaced, hsound, hfits⟩
  rw [List.nil_append, List.nil_append, hsame] at hfits
  dsimp only
  split
  · exact hfinish hplaced hsound hfits
  · have hsound₀ : Sound b' false pack (node (s.regrouped keys ([] ++ gs')) js') := hsound
    refine (leads_countAll hplaced hsound₀).bind ?_
    rintro ⟨_, shared', gs''⟩ c ⟨s', js'', rfl, hplaced', hsound', hrest⟩
    exact hfinish hplaced' hsound' (hfits.trans hrest)

/-- Moving aggregates keeps a query sound. -/
theorem leads_pushAggregates {again : Query → Defining Query} (hagain : Refitting false again)
    (h : Sound a false pack q) :
    (pushAggregates again q).Leads a fun q' b => Sound b false pack q' ∧ Refits a b q q' := by
  cases q with
  | node s js =>
      have hstay : Leads (pure (node s js)) a fun q' b =>
          Sound b false pack q' ∧ Refits a b (node s js) q' := leads_pure ⟨h, .refl⟩
      cases hs : s.shape with
      | group keys gs =>
          refine leads_shares h hs fun {b s' js' shared gs'} hplaced hsound hfits => ?_
          exact leads_foldlM_rejoin_keep (I := fun q' b => Sound b false pack q' ∧
            Refits a b (node s js) q') (hagain.keeps a (node s js)) (fun _ _ hq =>
              hq.1.regular) hplaced
            (show _ ∧ Refits a b (node s js)
              (node (s'.regrouped keys gs') ([] ++ js')) from ⟨hsound, hfits⟩)
      | unfinished =>
          rw [pushAggregates, stage_node, hs]
          exact hstay
      | select selected =>
          rw [pushAggregates, stage_node, hs]
          exact hstay
      | filter keep =>
          rw [pushAggregates, stage_node, hs]
          exact hstay

/-! ## The whole optimizer -/

/-- What holds after optimizing a query, from what holds after each of its phases. -/
theorem leads_phases {n : Nat} {J : List (String × Query) → Arena → Prop}
    {D : Query → Ascending String → Arena → Prop} {R S Q : Query → Arena → Prop}
    (hjoins : Leads (js.mapM fun j => do return (j.1, ← optimizeWithin m n j.2)) a J)
    (hdown : ∀ js b, J js b → D ((node s js).pushDown m b).1 ((node s js).pushDown m b).2 b)
    (hrevisit : ∀ q reached b, D q reached b →
      Leads (reached.foldlM (revisit (optimizeWithin m n)) q) b R)
    (hshare : m.aggregates = true → ∀ q b, R q b →
      (pushAggregates (optimizeWithin m n) q).Leads b S)
    (hstay : m.aggregates = false → ∀ q b, R q b → S q b)
    (hprune : ∀ q b, S q b → Q (q.prune b) b) :
    (optimizeWithin m (n + 1) (node s js)).Leads a Q := by
  rw [optimizeWithin]
  refine hjoins.bind fun js' b hb => ?_
  refine (leads_get (Q := fun r c => r = b ∧ c = b) ⟨rfl, rfl⟩).bind ?_
  rintro _ c ⟨rfl, rfl⟩
  have hd := hdown js' c hb
  generalize (node s js').pushDown m c = r at hd ⊢
  refine (hrevisit r.1 r.2 _ hd).bind fun q b hq => ?_
  dsimp only
  split
  · next hm => exact (hshare hm q b hq).bind fun q' b' hq' => hprune q' b' hq'
  · next hm => exact hprune q b (hstay (Bool.eq_false_iff.mpr hm) q b hq)

/-- Optimizing a sound query leads to a sound one that fits in its place. -/
theorem leads_optimizeWithin (hm : m.aggregates = true → tight = false) (n : Nat)
    (h : Sound a tight pack q) :
    (optimizeWithin m n q).Leads a fun q' b => Sound b tight pack q' ∧ Refits a b q q' := by
  induction n generalizing q a pack with
  | zero => exact leads_pure ⟨h, .refl⟩
  | succ n ih =>
      have hagain : Refitting tight (optimizeWithin m n) := fun u a hu => ih hu
      cases q with
      | node s js =>
          have hkeeps : Keeps (optimizeWithin m n) fun q' b =>
              Sound b tight pack q' ∧ Refits a b (node s js) q' := hagain.keeps a (node s js)
          have h' : Sound a tight pack (node s ([] ++ js)) ∧
              Refits a a (node s js) (node s ([] ++ js)) := ⟨h, .refl⟩
          refine leads_phases
            (D := fun q _ b => Sound b tight pack q ∧ Refits a b (node s js) q)
            (R := fun q b => Sound b tight pack q ∧ Refits a b (node s js) q)
            (S := fun q b => Sound b tight pack q ∧ Refits a b (node s js) q)
            (leads_mapM_keep hkeeps h') ?_ ?_ ?_ (fun _ _ _ hq => hq) ?_
          · rintro js' b ⟨hs, hr⟩
            obtain ⟨hdown, hfits⟩ := hs.pushDown (m := m)
            exact ⟨hdown, hr.trans hfits⟩
          · exact fun q' reached b hq =>
              leads_foldlM_revisit_keep hkeeps (fun _ _ hq => hq.1.regular) reached hq
          · rintro haggregates q' b ⟨hs, hr⟩
            obtain rfl := hm haggregates
            exact (leads_pushAggregates hagain hs).mono fun _ _ hq => ⟨hq.1, hr.trans hq.2⟩
          · rintro q' b ⟨hs, hr⟩
            obtain ⟨hpruned, hfits⟩ := hs.prune
            exact ⟨hpruned, hr.trans hfits⟩

/-- A query that was built is sound, if it compiles. -/
theorem Built.sound (hq : q.Built a) (hs : q.Scoped a false) : Sound a true false q :=
  ⟨hq.wellFormed, (scoped_iff_supplied.mp hs).1⟩

theorem Sound.loosen (h : Sound a tight pack q) : Sound a false pack q :=
  ⟨⟨h.formed.ordered, h.formed.known, h.formed.distinct, fun p hp =>
    ⟨(h.formed.lawful p hp).toRegular, fun ht => absurd ht Bool.false_ne_true⟩⟩, h.supplied⟩

theorem places_of_compile {id : QueryId} {c : QueryAdvice} (h : q.compile a id = .ok c) :
    c.weaves.map (·.tracepoint) = q.places := by
  obtain ⟨r, hr, he⟩ := bind_eq_ok_iff.mp h
  cases he
  exact places_of_compileFrom hr

/-- If a query compiles, the optimized one does whenever its joined grouping stages bind
all that they pass through, and only then. They do if no aggregates have been moved. The
plans go to the same tracepoints in the same order. -/
theorem compile_optimize_iff {i j : QueryId} {c : QueryAdvice} (hq : q.Built a)
    (hc : q.compile a i = .ok c) (ho : (q.optimize m).run a = (q', b)) :
    ((∃ c', q'.compile b j = .ok c') ↔ q'.Passes) ∧ (m.aggregates = false → q'.Passes) ∧
      ∀ c', q'.compile b j = .ok c' →
        c'.weaves.map (·.tracepoint) = c.weaves.map (·.tracepoint) := by
  have hs : q.Scoped a false := (compile_isOk_iff hq.wellFormed.ordered).mp ⟨c, hc⟩
  have hsound := hq.sound hs
  have hloose := leads_optimizeWithin (m := m) (fun _ => rfl) q.depth hsound.loosen
  have hrun : (optimizeWithin m q.depth q).run a = (q', b) := ho
  rw [Leads, hrun] at hloose
  obtain ⟨hq', hfits⟩ := hloose
  refine ⟨?_, fun haggregates => ?_, fun c' hc' => ?_⟩
  · rw [compile_isOk_iff hq'.formed.ordered, scoped_iff_supplied]
    exact ⟨fun h => h.2, fun h => ⟨hq'.supplied, h⟩⟩
  · -- Without moved aggregates a grouping stage still delivers keys and aggregates only.
    have htight := leads_optimizeWithin (m := m) (fun h => absurd (haggregates ▸ h)
      Bool.false_ne_true) q.depth hsound
    rw [Leads, hrun] at htight
    exact passes_of_tight htight.1.formed
  · rw [places_of_compile hc', places_of_compile hc]
    exact hfits.places

namespace Sample

def request : Tracepoint := ⟨"request", ["limit"]⟩

def session : Tracepoint := ⟨"session", ["user"]⟩

def reading : Tracepoint := ⟨"reading", ["bytes"]⟩

/-- Readings before a session, as they are joined. -/
def readings : Query :=
  .node ⟨⟨none, session⟩, [], [], [], [], [⟨1⟩], .unfinished⟩
    [("d", .node ⟨⟨none, reading⟩, [("bytes", ⟨1⟩)], [], [], [], [⟨1⟩], .unfinished⟩ [])]

/-- How much was read beyond the limit of a request, before it is grouped. -/
def excess (outputs : Ascending VarId) (shape : Shape) : Query :=
  .node ⟨⟨some "r", request⟩, [("limit", ⟨0⟩)], [("d", "s.d")], [],
    [⟨"{} < {}", [⟨0⟩, ⟨1⟩]⟩], outputs, shape⟩ [("s", readings)]

/-- The total by limits. -/
def totals : Query := excess [⟨0⟩, ⟨2⟩] (.group [⟨0⟩] [⟨⟨2⟩, .sum, some ⟨1⟩⟩])

def readingsArena : Arena := ⟨[.observed "r" "limit", .observed "" "bytes"]⟩

def totalsArena : Arena :=
  ⟨[.observed "r" "limit", .observed "" "bytes", .aggregated .sum (some ⟨1⟩)]⟩

/-- The excess before it is grouped, while no condition is set. -/
def reached : Query :=
  .node { Stage.watch ⟨some "r", request⟩ with shorts := [("d", "s.d")] }
    [("s", .node (.watch ⟨none, session⟩) [("d", .unnamed reading)])]

theorem built_totals : totals.Built totalsArena := by
  have hnamed : Query.named "r" request = .ok (.watch ⟨some "r", request⟩) := rfl
  have hjoin : (Query.joinTracepoint (.watch ⟨some "r", request⟩) "s" session none).Yields .empty
      (.node (.watch ⟨some "r", request⟩) [("s", .unnamed session)]) .empty := rfl
  have hvia : (Query.joinVia (.node (.watch ⟨some "r", request⟩) [("s", .unnamed session)]) "s" "d"
      (.unnamed reading) none).Yields .empty reached .empty := rfl
  have hwhere : (reached.addWhere "{} < {}" ["r.limit", "d.bytes"]).Yields .empty
      (excess [] .unfinished) readingsArena := by decide +kernel
  have hgroup : ((excess [] .unfinished).groupBy ["r.limit"]).Yields readingsArena
      (excess [⟨0⟩] (.group [⟨0⟩] [])) readingsArena := rfl
  have hsum : ((excess [⟨0⟩] (.group [⟨0⟩] [])).aggregate "d.bytes" .sum).Yields readingsArena
      totals totalsArena := by decide +kernel
  have hjoined := (Query.Built.named hnamed).joinTracepoint hjoin
  have hbelow := hjoined.joinVia (.unnamed reading) hvia
  exact ((hbelow.addWhere hwhere).groupBy hgroup).aggregate hsum

theorem compile_totals : (totals.compile totalsArena ⟨1⟩).isOk := by decide +kernel

end Sample

open Query.Sample

theorem compile_optimize_totals :
    ∃ c', ((totals.optimize ⟨true, true, false⟩).run totalsArena).1.compile
        ((totals.optimize ⟨true, true, false⟩).run totalsArena).2 ⟨1⟩ = .ok c' ∧
      c'.weaves.map (·.tracepoint) = ["reading", "session", "request"] := by
  obtain ⟨c, hc⟩ := exists_of_isOk compile_totals
  obtain ⟨hiff, hpasses, hplaces⟩ := compile_optimize_iff (m := ⟨true, true, false⟩) (j := ⟨1⟩)
    built_totals hc rfl
  obtain ⟨c', hc'⟩ := hiff.mpr (hpasses rfl)
  refine ⟨c', hc', (hplaces c' hc').trans ?_⟩
  rw [places_of_compile hc]
  rfl

/-- Moving aggregates may break a query that compiles: what a grouping stage would pass
through for a condition is not delivered to it anymore. -/
theorem exists_compile_optimize_error :
    ∃ (q : Query) (a : Arena), q.Built a ∧ (∃ c, q.compile a ⟨1⟩ = .ok c) ∧
      ∀ c', ((q.optimize .all).run a).1.compile ((q.optimize .all).run a).2 ⟨1⟩ ≠ .ok c' := by
  refine ⟨totals, totalsArena, built_totals, exists_of_isOk compile_totals, fun c' hc' => ?_⟩
  have hfails : (((totals.optimize .all).run totalsArena).1.compile
      ((totals.optimize .all).run totalsArena).2 ⟨1⟩).isOk = false := by decide +kernel
  rw [hc'] at hfails
  cases hfails

end Query

end CausalTrace
