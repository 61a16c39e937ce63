import CausalTrace.Proofs.Recompiling
import Mathlib.Data.List.Perm.Subperm

/-!
# Lets in order

The lets of a stage arrive in the order in which they were given, or in which the optimizer moved
them. Always taking the first one that is ready loses nothing: whatever some order of the lets
computes, this one does too, as a let that has become ready stays so. So the lets are put in order
if they can be put in order at all, and otherwise the error is about the first let that no order
reaches, and names what no order binds for it.
-/

namespace CausalTrace

namespace Arena

variable {a : Arena} {bound bound' order pending rest : List VarId} {u v : VarId}

/-! ## Orders of lets -/

/-- Every let reads only what is bound or is an earlier one of the lets. -/
def InTime (a : Arena) (bound order : List VarId) : Prop :=
  ∀ earlier v later, order = earlier ++ v :: later → ∀ u ∈ a.reads v, u ∈ bound ∨ u ∈ earlier

/-- Some of the pending lets, in some order, compute this variable. -/
def Attainable (a : Arena) (bound pending : List VarId) (v : VarId) : Prop :=
  ∃ order, order.Subperm pending ∧ a.InTime bound order ∧ v ∈ order

theorem inTime_nil : a.InTime bound [] := fun _ _ _ h => by simp at h

theorem inTime_cons :
    a.InTime bound (v :: order) ↔ a.reads v ⊆ bound ∧ a.InTime (v :: bound) order := by
  constructor
  · refine fun h => ⟨fun u hu => ?_, fun earlier w later hsplit u hu => ?_⟩
    · exact (h [] v order rfl u hu).resolve_right List.not_mem_nil
    · have hbound := h (v :: earlier) w later (by rw [hsplit, List.cons_append]) u hu
      simp only [List.mem_cons] at hbound ⊢
      tauto
  · rintro ⟨hreads, hlater⟩ earlier w later hsplit u hu
    cases earlier with
    | nil =>
        cases hsplit
        exact .inl (hreads hu)
    | cons x earlier =>
        obtain ⟨rfl, hrest⟩ := List.cons.inj hsplit
        have hbound := hlater earlier w later hrest u hu
        simp only [List.mem_cons] at hbound ⊢
        tauto

theorem InTime.mono (hsub : bound ⊆ bound') (h : a.InTime bound order) : a.InTime bound' order :=
  fun earlier w later hsplit u hu => (h earlier w later hsplit u hu).imp_left fun hu => hsub hu

/-- A let that is bound from the start need not be computed. -/
theorem InTime.erase (v : VarId) (h : a.InTime bound order) :
    a.InTime (v :: bound) (order.erase v) := by
  induction order generalizing bound with
  | nil => exact inTime_nil
  | cons w order ih =>
      obtain ⟨hreads, hlater⟩ := inTime_cons.mp h
      by_cases hw : w = v
      · subst hw
        rwa [List.erase_cons_head]
      · rw [List.erase_cons_tail (by simpa using hw), inTime_cons]
        refine ⟨List.Subset.trans hreads (List.subset_cons_self v bound), (ih hlater).mono ?_⟩
        exact (List.Perm.swap w v bound).subset

/-! ## A let that is ready can go first -/

section

variable (hperm : (v :: rest).Perm pending)

include hperm

/-- What is attained after a let that is ready is attained from the start. -/
theorem Attainable.of_rest (hready : a.reads v ⊆ bound) (h : a.Attainable (v :: bound) rest u) :
    a.Attainable bound pending u := by
  obtain ⟨order, hsub, htime, hu⟩ := h
  refine ⟨v :: order, ?_, inTime_cons.mpr ⟨hready, htime⟩, List.mem_cons_of_mem v hu⟩
  exact ((List.subperm_cons v).mpr hsub).trans hperm.subperm

/-- No order is lost by taking one let before all others. -/
theorem Attainable.to_rest (h : a.Attainable bound pending u) :
    u = v ∨ a.Attainable (v :: bound) rest u := by
  obtain ⟨order, hsub, htime, hu⟩ := h
  by_cases huv : u = v
  · exact .inl huv
  · refine .inr ⟨order.erase v, ?_, htime.erase v, (List.mem_erase_of_ne huv).mpr hu⟩
    have herase := (hsub.trans hperm.symm.subperm).erase v
    rwa [List.erase_cons_head] at herase

end

/-- Where no let is ready, none is attained. -/
theorem not_attainable (h : ∀ w ∈ pending, ¬ a.reads w ⊆ bound) :
    ¬ a.Attainable bound pending v := by
  rintro ⟨order, hsub, htime, hv⟩
  cases order with
  | nil => cases hv
  | cons w order => exact h w (hsub.subset List.mem_cons_self) (inTime_cons.mp htime).1

end Arena

/-! ## The first let that stays behind -/

section

variable {α : Type} {p : α → Bool} {xs ys before after : List α} {w y : α}

/-- What is not picked keeps its place among the others. -/
theorem exists_split_of_pickFirst (h : pickFirst p xs = some (y, ys))
    (hys : ys = before ++ w :: after) :
    ∃ before' after', xs = before' ++ w :: after' ∧ before' ⊆ y :: before := by
  induction xs generalizing ys before with
  | nil => cases h
  | cons x xs ih =>
      rw [pickFirst] at h
      split at h
      · cases h
        exact ⟨y :: before, after, by rw [hys, List.cons_append], List.Subset.refl _⟩
      · obtain ⟨⟨z, zs⟩, hz, he⟩ := Option.map_eq_some_iff.mp h
        cases he
        cases before with
        | nil =>
            cases hys
            exact ⟨[], xs, rfl, List.nil_subset _⟩
        | cons b before =>
            obtain ⟨rfl, hzs⟩ := List.cons.inj hys
            obtain ⟨before', after', hxs, hsub⟩ := ih hz hzs
            refine ⟨x :: before', after', by rw [hxs, List.cons_append], ?_⟩
            refine List.cons_subset.mpr ⟨by simp, List.Subset.trans hsub ?_⟩
            exact List.cons_subset_cons y (List.subset_cons_self x before)

end

/-- A let that no order reaches, all lets before it being reached by some, and an argument that no
order binds for it. -/
structure Stuck (a : Arena) (bound pending : List VarId) (stuck missing : VarId) : Prop where
  first : ∃ before after, pending = before ++ stuck :: after ∧
    ∀ v ∈ before, a.Attainable bound pending v
  unattainable : ¬ a.Attainable bound pending stuck
  reads : missing ∈ a.reads stuck
  unbound : missing ∉ bound
  unbindable : ¬ a.Attainable bound pending missing

section

variable {a : Arena} {bound pending rest : List VarId} {v stuck missing : VarId}
  {place : String} {err : Error}

theorem Stuck.of_pickFirst (hstuck : Stuck a (v :: bound) rest stuck missing)
    (h : pickFirst (fun v => (a.reads v).all bound.contains) pending = some (v, rest)) :
    Stuck a bound pending stuck missing := by
  have hperm := pickFirst_perm h
  have hready : a.reads v ⊆ bound := by
    have hall := pickFirst_holds h
    simpa [List.subset_def] using hall
  obtain ⟨before, after, hrest, hbefore⟩ := hstuck.first
  obtain ⟨before', after', hpending, hsub⟩ := exists_split_of_pickFirst h hrest
  constructor
  case first =>
    refine ⟨before', after', hpending, fun w hw => ?_⟩
    rcases List.mem_cons.mp (hsub hw) with rfl | hw
    · exact ⟨[w], List.singleton_subperm_iff.mpr (hperm.subset List.mem_cons_self),
        Arena.inTime_cons.mpr ⟨hready, Arena.inTime_nil⟩, List.mem_singleton_self w⟩
    · exact (hbefore w hw).of_rest hperm hready
  case unattainable =>
    intro hattained
    rcases hattained.to_rest hperm with rfl | hattained
    · exact hstuck.unbound (List.mem_cons_of_mem stuck (hready hstuck.reads))
    · exact hstuck.unattainable hattained
  case reads => exact hstuck.reads
  case unbound => exact fun hbound => hstuck.unbound (List.mem_cons_of_mem v hbound)
  case unbindable =>
    intro hattained
    rcases hattained.to_rest hperm with rfl | hattained
    · exact hstuck.unbound List.mem_cons_self
    · exact hstuck.unbindable hattained

/-- Where an order is not found, the error is about a let that is stuck. -/
theorem exists_stuck_of_orderLets
    (hlets : ∀ v ∈ pending, ∃ name expr args, a.definition? v = some (.computed name expr args))
    (h : orderLets a place bound pending = .error err) :
    ∃ stuck missing, Stuck a bound pending stuck missing ∧
      err = .planning ("let " ++ a.label stuck ++ " at " ++ place ++ " reads unresolved variable "
        ++ a.label missing) := by
  induction bound, pending using orderLets.induct a with
  | case1 bound =>
      rw [orderLets] at h
      cases h
  | case2 bound stuck others hnone =>
      rw [orderLets_of_stuck hnone] at h
      cases h
      have hunready : ∀ w ∈ stuck :: others, ¬ a.reads w ⊆ bound := by
        intro w hw hsub
        have hall := pickFirst_eq_none hnone w hw
        rw [List.all_eq_true.mpr fun u hu => List.contains_iff_mem.mpr (hsub hu)] at hall
        cases hall
      have hnowhere : ∀ w, ¬ a.Attainable bound (stuck :: others) w :=
        fun w => Arena.not_attainable hunready
      obtain ⟨missing, hfind⟩ : ∃ missing,
          (a.reads stuck).find? (fun u => !bound.contains u) = some missing := by
        rw [← Option.isSome_iff_exists, List.find?_isSome]
        by_contra hall
        refine hunready stuck List.mem_cons_self fun u hu => ?_
        by_contra hu'
        exact hall ⟨u, hu, by simpa using hu'⟩
      refine ⟨stuck, missing, ⟨⟨[], others, rfl, List.forall_mem_nil _⟩, hnowhere stuck,
        List.mem_of_find?_eq_some hfind, ?_, hnowhere missing⟩, ?_⟩
      · simpa using List.find?_some hfind
      · rw [stuckLet, hfind]
        rfl
  | case3 bound stuck others v rest hpicked name expr args hd ih =>
      rw [orderLets_of_pick hpicked hd] at h
      have hrest : ∀ u ∈ rest, ∃ name expr args, a.definition? u =
          some (.computed name expr args) :=
        fun u hu => hlets u ((pickFirst_perm hpicked).subset (List.mem_cons_of_mem v hu))
      cases hlater : orderLets a place (v :: bound) rest with
      | ok ls =>
          rw [hlater] at h
          cases h
      | error err' =>
          rw [hlater] at h
          cases h
          obtain ⟨stuck', missing, hstuck, htext⟩ := ih hrest hlater
          exact ⟨stuck', missing, hstuck.of_pickFirst hpicked, htext⟩
  | case4 bound stuck others v rest hpicked hnone =>
      obtain ⟨name, expr, args, hd⟩ := hlets v ((pickFirst_perm hpicked).subset List.mem_cons_self)
      exact (hnone name expr args hd).elim

/-- No let that some order of all lets reaches is stuck. -/
theorem Stuck.no_order (h : Stuck a bound pending stuck missing) :
    ¬ ∃ order, order.Perm pending ∧ a.InTime bound order := by
  rintro ⟨order, hperm, htime⟩
  obtain ⟨before, after, hpending, _⟩ := h.first
  have hmem : stuck ∈ pending := by simp [hpending]
  exact h.unattainable ⟨order, hperm.subperm, htime, hperm.mem_iff.mpr hmem⟩

theorem Ready.inTime {ls : List (LetSpec VarId)} (h : Ready a bound ls) :
    a.InTime bound (ls.map (·.name)) := by
  induction ls generalizing bound with
  | nil => exact Arena.inTime_nil
  | cons l ls ih =>
      obtain ⟨⟨name, hd⟩, hargs, hlater⟩ := h
      refine Arena.inTime_cons.mpr ⟨?_, ih hlater⟩
      rw [Arena.reads_computed hd]
      exact hargs

theorem Ready.definitions {ls : List (LetSpec VarId)} (h : Ready a bound ls) :
    ∀ l ∈ ls, ∃ name, a.definition? l.name = some (.computed name l.expr l.args) := by
  induction ls generalizing bound with
  | nil => exact List.forall_mem_nil _
  | cons l ls ih => exact List.forall_mem_cons.mpr ⟨h.1, ih h.2.2⟩

/-- Lets are put in order whenever there is an order in which each reads only what is bound or is an
earlier one. Then every let comes as often as it was given, as it is defined, and in time. Otherwise
the error is about the first let that no order reaches, and names an argument that none binds. -/
theorem orderLets_decides_order
    (hlets : ∀ v ∈ pending, ∃ name expr args, a.definition? v = some (.computed name expr args)) :
    ((∃ ls, orderLets a place bound pending = .ok ls) ↔
      ∃ order, order.Perm pending ∧ a.InTime bound order) ∧
    (∀ ls, orderLets a place bound pending = .ok ls →
      (ls.map (·.name)).Perm pending ∧ a.InTime bound (ls.map (·.name)) ∧
        ∀ l ∈ ls, ∃ name, a.definition? l.name = some (.computed name l.expr l.args)) ∧
    ((¬ ∃ order, order.Perm pending ∧ a.InTime bound order) →
      ∃ stuck missing, Stuck a bound pending stuck missing ∧
        orderLets a place bound pending =
          .error (.planning ("let " ++ a.label stuck ++ " at " ++ place
          ++ " reads unresolved variable " ++ a.label missing))) := by
  have hsound : ∀ ls, orderLets a place bound pending = .ok ls →
      (ls.map (·.name)).Perm pending ∧ a.InTime bound (ls.map (·.name)) ∧
        ∀ l ∈ ls, ∃ name, a.definition? l.name = some (.computed name l.expr l.args) := by
    intro ls hls
    obtain ⟨hready, hperm⟩ := orderLets_eq_ok hls
    exact ⟨hperm, hready.inTime, hready.definitions⟩
  refine ⟨⟨fun ⟨ls, hls⟩ => ?_, fun horder => ?_⟩, hsound, fun hnone => ?_⟩
  · obtain ⟨hperm, htime, _⟩ := hsound ls hls
    exact ⟨_, hperm, htime⟩
  · cases hrun : orderLets a place bound pending with
    | ok ls => exact ⟨ls, rfl⟩
    | error err =>
        obtain ⟨stuck, missing, hstuck, _⟩ := exists_stuck_of_orderLets hlets hrun
        exact (hstuck.no_order horder).elim
  · cases hrun : orderLets a place bound pending with
    | ok ls =>
        obtain ⟨hperm, htime, _⟩ := hsound ls hrun
        exact (hnone ⟨_, hperm, htime⟩).elim
    | error err =>
        obtain ⟨stuck, missing, hstuck, htext⟩ := exists_stuck_of_orderLets hlets hrun
        exact ⟨stuck, missing, hstuck, by rw [htext]⟩

end

/-- The net price reads the tax and both read the gross price; the rate reads a share that is
observed elsewhere. -/
def pricing : Arena :=
  ⟨[.observed "order" "price", .computed "gross" "{}*2" [⟨0⟩], .computed "tax" "{}/10" [⟨1⟩],
    .computed "net" "{}-{}" [⟨1⟩, ⟨2⟩], .observed "login" "share", .computed "rate" "{}+1" [⟨4⟩]]⟩

theorem orderLets_decides_order_pricing :
    (∃ ls, orderLets pricing "order" [⟨0⟩] [⟨3⟩, ⟨2⟩, ⟨1⟩] = .ok ls) ∧
      ∃ stuck missing, Stuck pricing [⟨0⟩] [⟨3⟩, ⟨5⟩, ⟨2⟩, ⟨1⟩] stuck missing ∧
        orderLets pricing "order" [⟨0⟩] [⟨3⟩, ⟨5⟩, ⟨2⟩, ⟨1⟩] = .error (.planning ("let "
          ++ pricing.label stuck ++ " at " ++ "order" ++ " reads unresolved variable "
          ++ pricing.label missing)) := by
  have hlets : ∀ v ∈ [⟨3⟩, ⟨5⟩, ⟨2⟩, ⟨1⟩], ∃ name expr args,
      pricing.definition? v = some (.computed name expr args) := by
    simp [pricing, Arena.definition?]
  constructor
  · refine (orderLets_decides_order fun v hv => hlets v ?_).1.mpr ⟨[⟨1⟩, ⟨2⟩, ⟨3⟩], by decide, ?_⟩
    · simp only [List.mem_cons] at hv ⊢
      tauto
    · simp only [Arena.inTime_cons, Arena.inTime_nil]
      decide
  · refine (orderLets_decides_order hlets).2.2 ?_
    rintro ⟨order, hperm, htime⟩
    obtain ⟨earlier, later, rfl⟩ := List.append_of_mem (hperm.mem_iff.mpr (by simp : ⟨5⟩ ∈ _))
    rcases htime earlier ⟨5⟩ later rfl ⟨4⟩ (by decide) with hshare | hshare
    · simp at hshare
    · simpa using hperm.subset (List.mem_append_left _ hshare)

example : orderLets pricing "order" [⟨0⟩] [⟨3⟩, ⟨5⟩, ⟨2⟩, ⟨1⟩] =
    .error (.planning "let rate at order reads unresolved variable share") := by
  cbv

end CausalTrace
