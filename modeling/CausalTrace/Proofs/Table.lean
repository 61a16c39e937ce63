import CausalTrace.Query.Variable
import CausalTrace.Spec.Id
import CausalTrace.Table
import Mathlib.Data.List.Induction

/-!
# Laws of tables and sets

What a table holds after a change, read back with `find?` and `listed`, and the
members and the order of a set.
-/

namespace CausalTrace

/-! ## Orders of identifiers -/

theorem compare_queryId (a b : QueryId) : compare a b = compare a.val b.val := by
  cases a; cases b
  exact Ordering.then_eq

theorem compare_bagId (a b : BagId) :
    compare a b = (compare a.query b.query).then (compare a.seq b.seq) := by
  cases a; cases b
  exact congrArg (Ordering.then _) Ordering.then_eq

theorem compare_varId (u v : VarId) : compare u v = compare u.index v.index := by
  cases u; cases v
  exact Ordering.then_eq

instance : Std.LawfulEqOrd QueryId where
  compare_self := by
    intro a
    rw [compare_queryId]
    exact Std.ReflOrd.compare_self
  eq_of_compare := by
    intro a b h
    rw [compare_queryId] at h
    cases a; cases b
    simpa using Std.LawfulEqOrd.eq_of_compare h

instance : Std.LawfulEqOrd BagId where
  compare_self := by
    intro a
    rw [compare_bagId, Std.ReflOrd.compare_self, Std.ReflOrd.compare_self]
    rfl
  eq_of_compare := by
    intro a b h
    rw [compare_bagId, Ordering.then_eq_eq] at h
    have hq := Std.LawfulEqOrd.eq_of_compare h.1
    have hs := Std.LawfulEqOrd.eq_of_compare h.2
    cases a; cases b
    simp_all

instance : Std.LawfulEqOrd VarId where
  compare_self := by
    intro v
    rw [compare_varId]
    exact Std.ReflOrd.compare_self
  eq_of_compare := by
    intro u v h
    rw [compare_varId] at h
    cases u; cases v
    simpa using Std.LawfulEqOrd.eq_of_compare h

/-! ## Tables -/

theorem mem_of_lookup_eq_some {κ α : Type} [BEq κ] [LawfulBEq κ] {k : κ} {x : α}
    {ps : List (κ × α)} (h : ps.lookup k = some x) : (k, x) ∈ ps := by
  obtain ⟨before, after, rfl, _⟩ := List.lookup_eq_some_iff.mp h
  exact List.mem_append_cons_self

namespace Table

variable {κ α : Type} [DecidableEq κ]

theorem find?_eq_none_iff {k : κ} : ∀ {t : Table κ α}, t.find? k = none ↔ k ∉ t.keys
  | [] => by simp [find?, keys]
  | (k', a) :: t => by
      have ih := @find?_eq_none_iff k t
      by_cases h : k' = k
      · simp [find?, keys, h]
      · simp only [keys] at ih
        simp [find?, keys, h, ih, Ne.symm h]

theorem mem_of_find?_eq_some {k : κ} {a : α} :
    ∀ {t : Table κ α}, t.find? k = some a → (k, a) ∈ t
  | (k', a') :: t, h => by
      by_cases hk : k' = k
      · rw [find?, if_pos hk] at h
        cases h
        exact hk ▸ List.mem_cons_self
      · rw [find?, if_neg hk] at h
        exact List.mem_cons_of_mem _ (mem_of_find?_eq_some h)

/-- What is found under a key is the first that stands under it. -/
theorem exists_append_of_find? {k : κ} {a : α} {t : Table κ α} (h : t.find? k = some a) :
    ∃ before after, t = before ++ (k, a) :: after ∧ k ∉ keys before := by
  induction t with
  | nil => cases h
  | cons p t ih =>
      rw [find?] at h
      split at h
      · next hp =>
          cases h
          cases hp
          exact ⟨[], t, rfl, List.not_mem_nil⟩
      · next hp =>
          obtain ⟨before, after, rfl, hbefore⟩ := ih h
          exact ⟨p :: before, after, rfl, List.not_mem_cons_of_ne_of_not_mem (Ne.symm hp) hbefore⟩

theorem find?_of_mem {a : α} {t : Table κ α} (ht : t.keys.Nodup) (h : (k, a) ∈ t) :
    t.find? k = some a := by
  induction t with
  | nil => cases h
  | cons p t ih =>
      obtain ⟨hp, ht⟩ := List.nodup_cons.mp ht
      rcases List.mem_cons.mp h with rfl | hm
      · simp [find?]
      · have hne : p.1 ≠ k := by
          rintro rfl
          exact hp (List.mem_map_of_mem (f := (·.1)) hm)
        rw [find?, if_neg hne]
        exact ih ht hm

theorem find?_mapValues {β : Type} {k : κ} (f : α → β) (t : Table κ α) :
    (t.mapValues f).find? k = (t.find? k).map f := by
  induction t with
  | nil => rfl
  | cons p t ih =>
      by_cases h : p.1 = k
      · simp [mapValues, find?, h]
      · simp only [mapValues, List.map_cons] at ih ⊢
        simp [find?, h, ih]

/-- What is made of one key of a table. -/
theorem filter_filterMap_key {β : Type} {t : Table κ α} (ht : t.keys.Nodup)
    {f : κ × α → Option β} {key : β → κ} (hkey : ∀ p b, f p = some b → key b = p.1) (k : κ) :
    (t.filterMap f).filter (key · = k) = ((t.find? k).bind fun a => f (k, a)).toList := by
  induction t with
  | nil => rfl
  | cons p t ih =>
      obtain ⟨l, a⟩ := p
      obtain ⟨hl, ht⟩ := List.nodup_cons.mp ht
      rw [find?]
      by_cases hk : l = k
      · subst hk
        have hnone : Table.find? l t = none := find?_eq_none_iff.mpr hl
        have hrest : (t.filterMap f).filter (key · = l) = [] := by
          rw [ih ht, hnone]
          rfl
        rw [if_pos rfl, Option.bind_some]
        cases hf : f (l, a) with
        | none => rw [List.filterMap_cons_none hf, hrest]; rfl
        | some b =>
            rw [List.filterMap_cons_some hf,
              List.filter_cons_of_pos (by simpa using hkey _ _ hf), hrest]
            rfl
      · rw [if_neg hk, ← ih ht]
        cases hf : f (l, a) with
        | none => rw [List.filterMap_cons_none hf]
        | some b =>
            rw [List.filterMap_cons_some hf, List.filter_cons_of_neg]
            simpa [hkey _ _ hf] using hk

theorem contains_eq_false_iff {k : κ} {t : Table κ α} :
    t.contains k = false ↔ k ∉ t.keys := by
  rw [contains, Option.isSome_eq_false_iff, Option.isNone_iff_eq_none, find?_eq_none_iff]

theorem find?_erase_self (k : κ) : ∀ t : Table κ α, (t.erase k).find? k = none := by
  intro t
  rw [find?_eq_none_iff, keys, erase]
  simp

theorem find?_erase_ne {k l : κ} (h : l ≠ k) :
    ∀ t : Table κ α, (t.erase k).find? l = t.find? l
  | [] => rfl
  | (k', a) :: t => by
      have ih := find?_erase_ne h t
      simp only [erase] at ih ⊢
      by_cases hk : k' = k
      · rw [List.filter_cons_of_neg (by simpa using hk), ih, find?, if_neg]
        exact fun e => h (e.symm.trans hk)
      · rw [List.filter_cons_of_pos (by simpa using hk), find?, find?, ih]

variable [Ord κ] [Std.LawfulEqOrd κ]

theorem find?_insert_self (k : κ) (a : α) :
    ∀ t : Table κ α, (t.insert k a).find? k = some a
  | [] => by simp [insert, find?]
  | (k', a') :: t => by
      rw [insert]
      cases h : compare k k' with
      | lt => simp [find?]
      | eq => simp [find?]
      | gt =>
          have hk : k' ≠ k := by
            rintro rfl
            rw [Std.ReflOrd.compare_self] at h
            cases h
          simp [find?, hk, find?_insert_self k a t]

theorem find?_insert_ne {k l : κ} (hl : l ≠ k) (a : α) :
    ∀ t : Table κ α, (t.insert k a).find? l = t.find? l
  | [] => by simp [insert, find?, Ne.symm hl]
  | (k', a') :: t => by
      rw [insert]
      cases h : compare k k' with
      | lt => simp [find?, Ne.symm hl]
      | eq =>
          have hk : k = k' := Std.LawfulEqOrd.eq_of_compare h
          subst hk
          simp [find?, Ne.symm hl]
      | gt =>
          by_cases hk : k' = l
          · simp [find?, hk]
          · simp [find?, hk, find?_insert_ne hl a t]

omit [DecidableEq κ] [Std.LawfulEqOrd κ] in
theorem mem_insert {k : κ} {a : α} {p : κ × α} {t : Table κ α} (h : p ∈ t.insert k a) :
    p = (k, a) ∨ p ∈ t := by
  induction t with
  | nil => exact Or.inl (List.mem_singleton.mp h)
  | cons q t ih =>
      rw [insert] at h
      split at h
      · exact List.mem_cons.mp h
      · exact (List.mem_cons.mp h).imp_right fun h => List.mem_cons_of_mem _ h
      · rcases List.mem_cons.mp h with rfl | h
        · exact Or.inr List.mem_cons_self
        · exact (ih h).imp_right fun h => List.mem_cons_of_mem _ h

omit [DecidableEq κ] in
/-- Under a new key an insertion adds one pair and changes nothing else. -/
theorem insert_perm_cons {k : κ} {a : α} :
    ∀ {t : Table κ α}, k ∉ t.keys → (t.insert k a).Perm ((k, a) :: t)
  | [], _ => List.Perm.refl _
  | (k', a') :: t, h => by
      have hk : k ≠ k' := by
        rintro rfl
        exact h (by simp [keys])
      have ht : k ∉ keys t := fun hm => h (List.mem_cons_of_mem _ hm)
      rw [insert]
      cases hc : compare k k' with
      | lt => exact List.Perm.refl _
      | eq => exact absurd (Std.LawfulEqOrd.eq_of_compare hc) hk
      | gt => exact ((insert_perm_cons ht).cons _).trans (List.Perm.swap ..)

omit [DecidableEq κ] [Std.LawfulEqOrd κ] in
theorem keys_insert (k : κ) (a : α) :
    ∀ t : Table κ α, (t.insert k a).keys = Ascending.insert k t.keys
  | [] => rfl
  | (k', a') :: t => by
      show (insert k a ((k', a') :: t)).keys = Ascending.insert k (k' :: keys t)
      rw [insert, Ascending.insert]
      cases compare k k' with
      | lt => rfl
      | eq => rfl
      | gt => exact congrArg (k' :: ·) (keys_insert k a t)

omit [DecidableEq κ] in
/-- Under a key of an ascending table an insertion replaces the value. -/
theorem insert_of_mem [Std.OrientedOrd κ] {k : κ} {a b : α} {after : Table κ α} :
    ∀ {before : Table κ α}, (before ++ (k, b) :: after).keys.Pairwise (compare · · = .lt) →
      Table.insert k a (before ++ (k, b) :: after) = before ++ (k, a) :: after
  | [], _ => by
      rw [List.nil_append, insert, Std.ReflOrd.compare_self]
      rfl
  | (k', a') :: before, h => by
      obtain ⟨hk, h⟩ := List.pairwise_cons.mp h
      have hgt : compare k k' = .gt :=
        Std.OrientedCmp.gt_of_lt (hk k (List.mem_map_of_mem (f := (·.1))
          (List.mem_append_right before (List.mem_cons_self (a := (k, b))))))
      rw [List.cons_append, insert, hgt]
      exact congrArg ((k', a') :: ·) (insert_of_mem h)

theorem listed_insert_self (k : κ) (as : List α) (t : Table κ (List α)) :
    (t.insert k as).listed k = as := by
  rw [listed, find?_insert_self, Option.getD_some]

theorem listed_insert_ne {k l : κ} (h : l ≠ k) (as : List α) (t : Table κ (List α)) :
    (t.insert k as).listed l = t.listed l := by
  rw [listed, find?_insert_ne h, listed]

theorem listed_append_self (k : κ) (as : List α) (t : Table κ (List α)) :
    (t.append k as).listed k = t.listed k ++ as := by
  rw [append, listed_insert_self]

theorem listed_append_ne {k l : κ} (h : l ≠ k) (as : List α) (t : Table κ (List α)) :
    (t.append k as).listed l = t.listed l := by
  rw [append, listed_insert_ne h]

end Table

/-! ## Sets -/

namespace Ascending

variable {κ : Type} [Ord κ] [Std.LawfulEqOrd κ]

theorem mem_insert {k x : κ} : ∀ {s : Ascending κ}, x ∈ s.insert k ↔ x = k ∨ x ∈ s
  | [] => by simp [insert]
  | k' :: s => by
      rw [insert]
      cases h : compare k k' with
      | lt => simp
      | eq =>
          have hk : k = k' := Std.LawfulEqOrd.eq_of_compare h
          simp [hk]
      | gt =>
          have ih := @mem_insert k x s
          rw [List.mem_cons, ih, List.mem_cons]
          exact or_left_comm

theorem mem_insertAll {x : κ} : ∀ {ks : List κ} {s : Ascending κ},
    x ∈ s.insertAll ks ↔ x ∈ s ∨ x ∈ ks
  | [], s => by simp [insertAll]
  | k :: ks, s => by
      have ih := @mem_insertAll x ks (s.insert k)
      rw [insertAll] at ih ⊢
      rw [List.foldl_cons, ih, mem_insert, List.mem_cons, or_comm (a := x = k), or_assoc]

theorem mem_ofList {x : κ} {ks : List κ} : x ∈ ofList ks ↔ x ∈ ks := by
  rw [ofList, mem_insertAll]
  simp

/-- A new element adds itself and nothing else. -/
theorem insert_perm_cons {k : κ} : ∀ {s : Ascending κ}, k ∉ s → (s.insert k).Perm (k :: s)
  | [], _ => List.Perm.refl _
  | k' :: s, h => by
      have hk : k ≠ k' := List.ne_of_not_mem_cons h
      have hs : k ∉ s := List.not_mem_of_not_mem_cons h
      rw [insert]
      cases hc : compare k k' with
      | lt => exact List.Perm.refl _
      | eq => exact absurd (Std.LawfulEqOrd.eq_of_compare hc) hk
      | gt => exact ((insert_perm_cons hs).cons _).trans (List.Perm.swap ..)

/-- Strictly ascending. -/
def Sorted (s : Ascending κ) : Prop := s.Pairwise fun x y => compare x y = .lt

variable [Std.TransOrd κ]

theorem sorted_insert (k : κ) : ∀ {s : Ascending κ}, s.Sorted → (s.insert k).Sorted
  | [], _ => List.pairwise_singleton _ _
  | k' :: s, hs => by
      obtain ⟨hk', hs'⟩ := List.pairwise_cons.mp hs
      rw [insert]
      cases h : compare k k' with
      | lt =>
          refine List.pairwise_cons.mpr ⟨?_, hs⟩
          intro x hx
          rcases List.mem_cons.mp hx with rfl | hx
          · exact h
          · exact Std.TransCmp.lt_trans h (hk' x hx)
      | eq =>
          have hk : k = k' := Std.LawfulEqOrd.eq_of_compare h
          exact hk ▸ hs
      | gt =>
          refine List.pairwise_cons.mpr ⟨?_, sorted_insert k hs'⟩
          intro x hx
          rcases mem_insert.mp hx with rfl | hx
          · exact Std.OrientedCmp.lt_of_gt h
          · exact hk' x hx

theorem sorted_insertAll (ks : List κ) : ∀ {s : Ascending κ}, s.Sorted →
    (s.insertAll ks).Sorted := by
  induction ks with
  | nil => exact fun hs => hs
  | cons k ks ih => exact fun hs => ih (sorted_insert k hs)

theorem sorted_ofList (ks : List κ) : (ofList ks).Sorted :=
  sorted_insertAll ks List.Pairwise.nil

omit [Std.TransOrd κ] [Std.LawfulEqOrd κ] in
theorem Sorted.nodup [Std.ReflOrd κ] {s : Ascending κ} (h : s.Sorted) : List.Nodup s := by
  refine List.Pairwise.imp (fun {x y} hlt => ?_) h
  rintro rfl
  rw [Std.ReflOrd.compare_self] at hlt
  cases hlt

omit [Std.TransOrd κ] [Std.LawfulEqOrd κ] in
theorem insert_last [Std.OrientedOrd κ] {k : κ} :
    ∀ {s : Ascending κ}, (∀ l ∈ s, compare l k = .lt) → s.insert k = s ++ [k]
  | [], _ => rfl
  | l :: s, h => by
      obtain ⟨hl, hs⟩ := List.forall_mem_cons.mp h
      rw [insert, Std.OrientedCmp.gt_of_lt hl]
      exact congrArg (l :: ·) (insert_last hs)

omit [Std.TransOrd κ] [Std.LawfulEqOrd κ] in
/-- A list in order is the set of its elements. -/
theorem ofList_of_sorted [Std.OrientedOrd κ] {s : Ascending κ} (h : s.Sorted) : ofList s = s := by
  induction s using List.reverseRecOn with
  | nil => rfl
  | append_singleton s k ih =>
      obtain ⟨hs, _, hk⟩ := List.pairwise_append.mp h
      have hlast : insert k s = s ++ [k] :=
        insert_last fun l hl => hk l hl k (List.mem_singleton.mpr rfl)
      rw [ofList, insertAll, List.foldl_append]
      show insert k (ofList s) = s ++ [k]
      rw [ih hs, hlast]

omit [Std.TransOrd κ] in
theorem insert_of_mem [Std.OrientedOrd κ] {k : κ} :
    ∀ {s : Ascending κ}, s.Sorted → k ∈ s → s.insert k = s
  | l :: s, hs, hk => by
      obtain ⟨hl, hs⟩ := List.pairwise_cons.mp hs
      rw [insert]
      rcases List.mem_cons.mp hk with rfl | hk
      · rw [Std.ReflOrd.compare_self]
      · rw [Std.OrientedCmp.gt_of_lt (hl k hk)]
        exact congrArg (l :: ·) (insert_of_mem hs hk)

end Ascending

instance : Std.TransOrd VarId where
  eq_swap := by
    intro u v
    rw [compare_varId, compare_varId]
    exact Std.OrientedOrd.eq_swap
  isLE_trans := by
    intro u v w
    rw [compare_varId, compare_varId, compare_varId]
    exact Std.TransOrd.isLE_trans

theorem varId_lt_iff {u v : VarId} : compare u v = .lt ↔ u.index < v.index := by
  rw [compare_varId, Nat.compare_eq_lt]

end CausalTrace
