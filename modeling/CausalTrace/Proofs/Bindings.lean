import CausalTrace.Proofs.Interpreter
import CausalTrace.Proofs.Table

/-!
# Laws of bindings

Two bindings that agree on what is read give the same values. The bindings that
lets lead to are exactly the solutions of the lets as equations, so the order in
which lets are evaluated does not matter as long as none reads a later one.
-/

namespace CausalTrace

namespace Binding

variable {env env' other : Binding} {u v : VarId} {x : Value} {vs ws : List VarId} {r r' : Row}

/-! ## Reading and setting -/

@[simp]
theorem set_self : env.set v x v = some x := if_pos rfl

theorem set_of_ne (h : u ≠ v) : env.set v x u = env u := if_neg h

@[simp]
theorem empty_apply : Binding.empty v = none := rfl

theorem beside_apply : env.beside other v = (env v).or (other v) := rfl

@[simp]
theorem empty_beside : Binding.empty.beside env = env := by
  funext v
  rw [beside_apply, empty_apply, Option.none_or]

theorem get_of_eq_some (h : env v = some x) : env.get v = x := by
  rw [get, h, Option.getD_some]

@[simp]
theorem length_row : (env.row vs).length = vs.length := List.length_map ..

@[simp]
theorem row_append : env.row (vs ++ ws) = env.row vs ++ env.row ws := List.map_append ..

/-! ## Agreement -/

/-- Two bindings bind some variables alike. -/
def Agree (vs : List VarId) (env env' : Binding) : Prop := ∀ v ∈ vs, env v = env' v

theorem Agree.get_eq (h : Agree vs env env') (hv : v ∈ vs) : env.get v = env'.get v := by
  rw [get, get, h v hv]

theorem Agree.row_eq (h : Agree vs env env') (hs : ∀ v ∈ ws, v ∈ vs) :
    env.row ws = env'.row ws :=
  List.map_congr_left fun v hv => h.get_eq (hs v hv)

/-! ## Rows as bindings -/

theorem ofRow_cons_self : ofRow (v :: vs) (x :: r) v = some x := by
  simp [ofRow]

theorem ofRow_cons_ne (h : u ≠ v) : ofRow (v :: vs) (x :: r) u = ofRow vs r u := by
  have hb : (u == v) = false := beq_eq_false_iff_ne.mpr h
  rw [ofRow, List.zip_cons_cons, List.lookup_cons, hb]
  rfl

/-- A row binds no other variables. -/
theorem ofRow_eq_none : ∀ {vs : List VarId} {r : Row}, v ∉ vs → ofRow vs r v = none
  | [], _, _ => rfl
  | w :: vs, [], _ => rfl
  | w :: vs, x :: r, h => by
      have hw : v ≠ w := List.ne_of_not_mem_cons h
      rw [ofRow_cons_ne hw, ofRow_eq_none (List.not_mem_of_not_mem_cons h)]

theorem ofRow_isSome : ∀ {vs : List VarId} {r : Row}, r.length = vs.length → v ∈ vs →
    (ofRow vs r v).isSome
  | w :: vs, x :: r, hl, hv => by
      by_cases hw : v = w
      · rw [hw, ofRow_cons_self]
        rfl
      · rw [ofRow_cons_ne hw]
        exact ofRow_isSome (Nat.succ.inj hl) ((List.mem_cons.mp hv).resolve_left hw)

/-- Two rows side by side. -/
theorem ofRow_append : ∀ {vs : List VarId} {r : Row}, r.length = vs.length →
    ofRow (vs ++ ws) (r ++ r') = (ofRow vs r).beside (ofRow ws r')
  | [], [], _ => empty_beside.symm
  | w :: vs, x :: r, hl => by
      funext v
      have ih := congrFun (ofRow_append (Nat.succ.inj hl)) v
      rw [beside_apply] at ih ⊢
      by_cases hw : v = w
      · rw [hw, List.cons_append, List.cons_append, ofRow_cons_self,
          ofRow_cons_self, Option.some_or]
      · rw [List.cons_append, List.cons_append, ofRow_cons_ne hw, ofRow_cons_ne hw, ih]

/-- What a row of a binding binds. -/
theorem ofRow_row (hv : v ∈ vs) : ofRow vs (env.row vs) v = some (env.get v) := by
  induction vs with
  | nil => cases hv
  | cons w vs ih =>
      rw [row, List.map_cons]
      by_cases hw : v = w
      · rw [hw, ofRow_cons_self]
      · rw [ofRow_cons_ne hw]
        exact ih ((List.mem_cons.mp hv).resolve_left hw)

/-- A column of a row whose names are all different. -/
theorem row_ofRow : ∀ {vs : List VarId} {r : Row}, vs.Nodup → r.length = vs.length →
    (ofRow vs r).row vs = r
  | [], [], _, _ => rfl
  | w :: vs, x :: r, hn, hl => by
      obtain ⟨hw, hn⟩ := List.nodup_cons.mp hn
      have ih := row_ofRow hn (Nat.succ.inj hl)
      rw [row, List.map_cons, get_of_eq_some ofRow_cons_self]
      congr 1
      refine Eq.trans (List.map_congr_left ?_) ih
      intro v hv
      have hvw : v ≠ w := fun e => hw (e.symm ▸ hv)
      rw [get, get, ofRow_cons_ne hvw]

end Binding

/-! ## Definitions in order -/

namespace Arena

/-- Every definition reads earlier variables only. -/
def Ordered (a : Arena) : Prop := ∀ v, ∀ u ∈ a.reads v, u.index < v.index

variable {a : Arena} {env env' : Binding} {v : VarId} {lets : List VarId}

theorem evaluate?_congr (h : Binding.Agree (a.reads v) env env') :
    a.evaluate? env v = a.evaluate? env' v := by
  rw [evaluate?, evaluate?]
  rw [reads] at h
  cases hd : a.definition? v with
  | none => rfl
  | some d =>
      rw [hd] at h
      cases d with
      | observed source field => rfl
      | computed name expr args =>
          exact congrArg (Template.value? expr) (h.row_eq fun _ hu => hu)
      | aggregated how input => rfl

/-- A solution of lets as equations: every let has the value of its definition, and
all other variables are as they were. -/
structure Solves (a : Arena) (lets : List VarId) (env env' : Binding) : Prop where
  outside : ∀ v ∉ lets, env' v = env v
  isSome : ∀ v ∈ lets, (env' v).isSome
  inside : ∀ v ∈ lets, a.evaluate? env' v = env' v

theorem Solves.congr {lets' : List VarId} (h : ∀ v, v ∈ lets ↔ v ∈ lets')
    (hs : Solves a lets env env') : Solves a lets' env env' where
  outside v hv := hs.outside v fun hm => hv ((h v).mp hm)
  isSome v hv := hs.isSome v ((h v).mpr hv)
  inside v hv := hs.inside v ((h v).mpr hv)

/-- No let reads itself or a later one. -/
def InOrder (a : Arena) (lets : List VarId) : Prop :=
  lets.Pairwise (fun u v => v ∉ a.reads u ∧ u ≠ v) ∧ ∀ v ∈ lets, v ∉ a.reads v

/-- A let that reads none of some lets can be evaluated before them. -/
theorem solves_cons_iff (hv : v ∉ lets) (hr : ∀ u ∈ a.reads v, u ∉ v :: lets) :
    Solves a (v :: lets) env env' ↔
      ∃ next, env.compute a v = some next ∧ Solves a lets next env' := by
  have hagree : (∀ u ∉ v :: lets, env' u = env u) → a.evaluate? env' v = a.evaluate? env v :=
    fun hout => evaluate?_congr fun u hu => hout u (hr u hu)
  constructor
  · intro hs
    obtain ⟨x, hx⟩ := Option.isSome_iff_exists.mp (hs.isSome v List.mem_cons_self)
    have hval : a.evaluate? env v = some x := by
      rw [← hagree hs.outside, hs.inside v List.mem_cons_self, hx]
    refine ⟨env.set v x, ?_, ?_, ?_, ?_⟩
    · rw [Binding.compute, hval, Option.map_some]
    · intro u hu
      by_cases huv : u = v
      · rw [huv, hx, Binding.set_self]
      · rw [Binding.set_of_ne huv]
        exact hs.outside u (List.not_mem_cons_of_ne_of_not_mem huv hu)
    · exact fun u hu => hs.isSome u (List.mem_cons_of_mem _ hu)
    · exact fun u hu => hs.inside u (List.mem_cons_of_mem _ hu)
  · rintro ⟨next, hc, hs⟩
    obtain ⟨x, hx, rfl⟩ := Option.map_eq_some_iff.mp hc
    have hout : ∀ u ∉ v :: lets, env' u = env u := by
      intro u hu
      rw [hs.outside u (List.not_mem_of_not_mem_cons hu),
        Binding.set_of_ne (List.ne_of_not_mem_cons hu)]
    have hx' : env' v = some x := by rw [hs.outside v hv, Binding.set_self]
    refine ⟨hout, ?_, ?_⟩
    · rintro u (_ | ⟨_, hu⟩)
      · rw [hx']
        rfl
      · exact hs.isSome u hu
    · rintro u (_ | ⟨_, hu⟩)
      · rw [hagree hout, hx, hx']
      · exact hs.inside u hu

/-- A let that none of some lets read can be evaluated after them. -/
theorem solves_cons_iff_last (hv : v ∉ lets) (hself : v ∉ a.reads v)
    (hr : ∀ u ∈ lets, v ∉ a.reads u) :
    Solves a (v :: lets) env env' ↔
      ∃ next, Solves a lets env next ∧ next.compute a v = some env' := by
  have hne : ∀ {u}, u ∈ lets → u ≠ v := fun hu e => hv (e ▸ hu)
  constructor
  · intro hs
    obtain ⟨x, hx⟩ := Option.isSome_iff_exists.mp (hs.isSome v List.mem_cons_self)
    -- The binding before `v` is set: the old value of `v`, and all others as they end up.
    let next : Binding := fun u => if u = v then env v else env' u
    have hnext : ∀ {u}, u ≠ v → next u = env' u := fun h => if_neg h
    have hagree : ∀ {vs : List VarId}, v ∉ vs → Binding.Agree vs next env' :=
      fun hn u hu => hnext fun e => hn (e ▸ hu)
    refine ⟨next, ⟨?_, ?_, ?_⟩, ?_⟩
    · intro u hu
      by_cases huv : u = v
      · rw [huv]
        exact if_pos rfl
      · rw [hnext huv]
        exact hs.outside u (List.not_mem_cons_of_ne_of_not_mem huv hu)
    · intro u hu
      rw [hnext (hne hu)]
      exact hs.isSome u (List.mem_cons_of_mem _ hu)
    · intro u hu
      rw [hnext (hne hu), evaluate?_congr (hagree (hr u hu))]
      exact hs.inside u (List.mem_cons_of_mem _ hu)
    · rw [Binding.compute, evaluate?_congr (hagree hself), hs.inside v List.mem_cons_self, hx,
        Option.map_some]
      congr 1
      funext u
      by_cases huv : u = v
      · rw [huv, Binding.set_self, hx]
      · rw [Binding.set_of_ne huv, hnext huv]
  · rintro ⟨next, hs, hc⟩
    obtain ⟨x, hx, rfl⟩ := Option.map_eq_some_iff.mp hc
    have hagree : ∀ {vs : List VarId}, v ∉ vs → Binding.Agree vs (next.set v x) next :=
      fun hn u hu => Binding.set_of_ne fun e => hn (e ▸ hu)
    refine ⟨?_, ?_, ?_⟩
    · intro u hu
      rw [Binding.set_of_ne (List.ne_of_not_mem_cons hu)]
      exact hs.outside u (List.not_mem_of_not_mem_cons hu)
    · rintro u (_ | ⟨_, hu⟩)
      · rw [Binding.set_self]
        rfl
      · rw [Binding.set_of_ne (hne hu)]
        exact hs.isSome u hu
    · rintro u (_ | ⟨_, hu⟩)
      · rw [evaluate?_congr (hagree hself), hx, Binding.set_self]
      · rw [evaluate?_congr (hagree (hr u hu)), Binding.set_of_ne (hne hu)]
        exact hs.inside u hu

/-- Lets evaluated in order lead to the one solution, if there is one. -/
theorem foldlM_compute_eq_some_iff (ho : InOrder a lets) :
    lets.foldlM (Binding.compute a) env = some env' ↔ Solves a lets env env' := by
  induction lets generalizing env with
  | nil =>
      constructor
      · rintro ⟨⟩
        exact ⟨fun _ _ => rfl, List.forall_mem_nil _, List.forall_mem_nil _⟩
      · intro h
        have he : env' = env := funext fun v => h.outside v List.not_mem_nil
        rw [he]
        rfl
  | cons v vs ih =>
      have hv : v ∉ vs := fun hm => (List.rel_of_pairwise_cons ho.1 hm).2 rfl
      have hr : ∀ u ∈ a.reads v, u ∉ v :: vs := by
        rintro u hu (_ | ⟨_, hm⟩)
        · exact ho.2 v List.mem_cons_self hu
        · exact (List.rel_of_pairwise_cons ho.1 hm).1 hu
      have ho' : InOrder a vs := ⟨ho.1.tail, fun u hu => ho.2 u (List.mem_cons_of_mem _ hu)⟩
      rw [List.foldlM_cons, solves_cons_iff hv hr]
      refine Option.bind_eq_some_iff.trans (exists_congr fun next => ?_)
      rw [ih ho']

theorem inOrder_ofList (ho : a.Ordered) (lets : List VarId) :
    InOrder a (Ascending.ofList lets) := by
  constructor
  · refine (Ascending.sorted_ofList lets).imp fun {u v} h => ?_
    have hlt : u.index < v.index := varId_lt_iff.mp h
    refine ⟨fun hm => ?_, fun e => ?_⟩
    · exact Nat.lt_asymm hlt (ho u v hm)
    · exact Nat.lt_irrefl _ (e ▸ hlt)
  · exact fun v _ hm => Nat.lt_irrefl _ (ho v v hm)

end Arena

/-! ## Admission -/

theorem Condition.holds_congr {env env' : Binding} {w : Condition}
    (h : Binding.Agree w.args env env') : w.holds env = w.holds env' := by
  rw [holds, holds, h.row_eq fun _ hv => hv]

namespace Stage

variable {a : Arena} {s : Stage} {env env' : Binding}

theorem arrive_eq_some_iff (ho : a.Ordered) :
    s.arrive a env = some env' ↔
      a.Solves (s.lets.map (·.2)) env env' ∧ s.wheres.all (·.holds env') = true := by
  have hlets : (Ascending.ofList (s.lets.map (·.2))).foldlM (Binding.compute a) env = some env' ↔
      a.Solves (s.lets.map (·.2)) env env' := by
    rw [Arena.foldlM_compute_eq_some_iff (Arena.inOrder_ofList ho _)]
    exact ⟨.congr fun _ => Ascending.mem_ofList, .congr fun _ => Ascending.mem_ofList.symm⟩
  rw [← hlets, arrive]
  constructor
  · intro h
    obtain ⟨next, hc, h⟩ := Option.bind_eq_some_iff.mp h
    split at h
    · next hw =>
        cases h
        exact ⟨hc, hw⟩
    · cases h
  · rintro ⟨hc, hw⟩
    exact Option.bind_eq_some_iff.mpr ⟨env', hc, if_pos hw⟩

end Stage

end CausalTrace
