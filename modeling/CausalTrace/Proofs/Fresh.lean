import CausalTrace.Proofs.Naming
import CausalTrace.Proofs.Table
import CausalTrace.Query.Optimize
import Mathlib.Data.List.Nodup
import Mathlib.Data.List.Perm.Subperm

/-!
# Names nobody has taken

A new variable is named after its purpose, and numbered if that name has been taken. Of
all the names tried, different ones in every case, a stage takes fewer than there are.
-/

namespace CausalTrace

/-! ## Numbered names -/

theorem natText_injective {m n : Nat} (h : Number.natText m = Number.natText n) : m = n := by
  have hl := congrArg String.toList h
  simp only [Number.natText, String.toList_ofList] at hl
  exact natDigits_injective hl

theorem isBlank_digitChar {d : Nat} (h : d < 10) : Text.isBlank (Number.digitChar d) = false := by
  have all : ∀ d < 10, Text.isBlank (Number.digitChar d) = false := by decide
  exact all d h

theorem isBlank_natDigits (n : Nat) : ∀ c ∈ Number.natDigits n, Text.isBlank c = false := by
  fun_induction Number.natDigits n with
  | case1 n h =>
      intro c hc
      rw [List.mem_singleton.mp hc]
      exact isBlank_digitChar h
  | case2 n h ih =>
      intro c hc
      rcases List.mem_append.mp hc with hc | hc
      · exact ih c hc
      · rw [List.mem_singleton.mp hc]
        exact isBlank_digitChar (Nat.mod_lt n (by decide))

/-- A valid name remains valid with a number. -/
theorem isValid_numbered {base : String} (h : Name.isValid base = true) (n : Nat) :
    Name.isValid (base ++ "_" ++ Number.natText n) = true := by
  have hunderscore : ("_" : String).toList = ['_'] := rfl
  have hpoint : '.' ∉ ['_'] := by decide
  have hblank : Text.isBlank '_' = false := by decide
  simp only [Name.isValid, Bool.and_eq_true, Bool.not_eq_true', ← Bool.not_eq_true,
    List.contains_iff_mem] at h ⊢
  obtain ⟨⟨hempty, hpoints⟩, hblanks⟩ := h
  refine ⟨⟨?_, ?_⟩, ?_⟩
  · intro he
    refine hempty ?_
    rw [String.isEmpty_iff] at he ⊢
    have hl := congrArg String.toList he
    simp only [String.toList_append, hunderscore] at hl
    exact absurd hl (by simp)
  · simp only [String.toList_append, hunderscore, Number.natText, String.toList_ofList,
      List.mem_append, not_or]
    exact ⟨⟨hpoints, hpoint⟩, point_not_mem_natDigits n⟩
  · intro hc
    obtain ⟨c, hc, hb⟩ := List.any_eq_true.mp hc
    simp only [String.toList_append, hunderscore, Number.natText, String.toList_ofList,
      List.mem_append, List.mem_singleton] at hc
    rcases hc with (hc | rfl) | hc
    · exact hblanks (List.any_eq_true.mpr ⟨c, hc, hb⟩)
    · exact Bool.false_ne_true (hblank ▸ hb)
    · exact Bool.false_ne_true (isBlank_natDigits n c hc ▸ hb)

/-! ## Candidates -/

/-- A name and its numbered variants. -/
def candidates (base : String) (n : Nat) : List String :=
  base :: (List.range n).map fun i => base ++ "_" ++ Number.natText (i + 1)

theorem nodup_candidates (base : String) (n : Nat) : (candidates base n).Nodup := by
  refine List.nodup_cons.mpr ⟨?_, ?_⟩
  · intro h
    obtain ⟨i, _, he⟩ := List.mem_map.mp h
    have hl := congrArg String.length he
    simp only [String.length_append] at hl
    have hunderscore : ("_" : String).length = 1 := rfl
    omega
  · refine List.Nodup.map ?_ List.nodup_range
    intro i j h
    have hl := congrArg String.toList h
    simp only [String.toList_append] at hl
    have ht := String.toList_inj.mp (List.append_cancel_left hl)
    exact Nat.succ.inj (natText_injective ht)

theorem isValid_candidates {base name : String} {n : Nat} (h : Name.isValid base = true)
    (hm : name ∈ candidates base n) : Name.isValid name = true := by
  rcases List.mem_cons.mp hm with rfl | hm
  · exact h
  · obtain ⟨i, _, rfl⟩ := List.mem_map.mp hm
    exact isValid_numbered h _

/-! ## Names taken -/

/-- The names that would hide fields of a source. -/
def Source.veiling (s : Source) : List String :=
  match s.aliasName with
  | some aliasName => [aliasName]
  | none => s.tracepoint.exports

theorem Source.leavesFree_of_not_mem {s : Source} {name : String} (h : name ∉ s.veiling) :
    s.leavesFree name = true := by
  rw [veiling] at h
  rw [leavesFree]
  split at h
  · next hs => simpa [hs] using h
  · next hs => simpa [hs] using h

theorem Source.length_veiling_le (s : Source) :
    s.veiling.length ≤ s.tracepoint.exports.length + 1 := by
  rw [veiling]
  split
  · exact Nat.le_add_left _ _
  · exact Nat.le_succ _

namespace Query

variable {q : Query} {base name : String}

/-- The names a query has taken. -/
def taken (q : Query) : List String :=
  q.stage.lets.map (·.1) ++ q.joins.keys ++ q.stage.shorts.keys ++ q.stage.source.veiling

theorem isAvailable_of_not_mem_taken (hv : Name.isValid name = true) (h : name ∉ q.taken) :
    q.isAvailable name = true := by
  simp only [taken, List.mem_append, not_or] at h
  obtain ⟨⟨⟨hlets, hjoins⟩, hshorts⟩, hfields⟩ := h
  have hlet : q.stage.let? name = none := by
    refine List.lookup_eq_none_iff.mpr fun l hl => ?_
    simp only [bne_iff_ne, ne_eq]
    rintro rfl
    exact hlets (List.mem_map_of_mem hl)
  rw [isAvailable, hv, hlet, Source.leavesFree_of_not_mem hfields,
    Table.contains_eq_false_iff.mpr hjoins, Table.contains_eq_false_iff.mpr hshorts]
  rfl

theorem length_taken_le (q : Query) : q.taken.length ≤ q.stage.lets.length + q.joins.length +
    q.stage.shorts.length + q.stage.source.tracepoint.exports.length + 1 := by
  have hfields := q.stage.source.length_veiling_le
  simp only [taken, List.length_append, Table.keys, List.length_map]
  omega

/-- A new variable of a valid name gets a name that is free. -/
theorem isAvailable_freshName (q : Query) (hv : Name.isValid base = true) :
    q.isAvailable (q.freshName base) = true := by
  let n := q.stage.lets.length + q.joins.length + q.stage.shorts.length +
    q.stage.source.tracepoint.exports.length + 1
  have hfresh : q.freshName base = ((candidates base n).find? q.isAvailable).getD base := rfl
  rw [hfresh]
  cases hfind : (candidates base n).find? q.isAvailable with
  | some name => exact List.find?_some hfind
  | none =>
      -- All candidates are taken then, and there are more of them than taken names.
      have hsub : candidates base n ⊆ q.taken := by
        intro name hm
        by_contra hfree
        exact List.find?_eq_none.mp hfind name hm
          (isAvailable_of_not_mem_taken (isValid_candidates hv hm) hfree)
      have hlength := ((nodup_candidates base n).subperm hsub).length_le
      have htaken : q.taken.length ≤ n := length_taken_le q
      have hcandidates : (candidates base n).length = n + 1 := by
        rw [candidates, List.length_cons, List.length_map, List.length_range]
      omega

end Query

end CausalTrace
