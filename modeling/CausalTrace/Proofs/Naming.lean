import CausalTrace.Query.Compile

/-!
# Names within a plan

The name of a variable starts with its number among the variables mentioned and
a point. A number is written without a point, so the number can be read back
whatever the label holds, and variables of different numbers have different
names.
-/

namespace CausalTrace

/-! ## Numerals -/

theorem digitChar_ne_point {d : Nat} (h : d < 10) : Number.digitChar d ≠ '.' := by
  have all : ∀ d < 10, Number.digitChar d ≠ '.' := by decide
  exact all d h

theorem point_not_mem_natDigits (n : Nat) : '.' ∉ Number.natDigits n := by
  fun_induction Number.natDigits n with
  | case1 n h => simpa using (digitChar_ne_point h).symm
  | case2 n h ih =>
      have hd := digitChar_ne_point (Nat.mod_lt n (by decide : 0 < 10))
      simpa [ih] using hd.symm

theorem natDigits_injective {m n : Nat} (h : Number.natDigits m = Number.natDigits n) :
    m = n := by
  rw [← Number.digitsValue_natDigits m, h, Number.digitsValue_natDigits]

/-- Where the first point stands, both sides of it can be read off. -/
theorem append_point_inj : ∀ {xs ys as bs : List Char}, '.' ∉ xs → '.' ∉ ys →
    xs ++ '.' :: as = ys ++ '.' :: bs → xs = ys ∧ as = bs
  | [], [], _, _, _, _, h => by simpa using h
  | [], y :: ys, _, _, _, hy, h => by
      have hp : '.' = y := (List.cons.inj h).1
      exact absurd (hp ▸ List.mem_cons_self) hy
  | x :: xs, [], _, _, hx, _, h => by
      have hp : x = '.' := (List.cons.inj h).1
      exact absurd (hp ▸ List.mem_cons_self) hx
  | x :: xs, y :: ys, _, _, hx, hy, h => by
      obtain ⟨rfl, ht⟩ := List.cons.inj h
      have hx' : '.' ∉ xs := fun hm => hx (List.mem_cons_of_mem _ hm)
      have hy' : '.' ∉ ys := fun hm => hy (List.mem_cons_of_mem _ hm)
      obtain ⟨rfl, rfl⟩ := append_point_inj hx' hy' ht
      exact ⟨rfl, rfl⟩

/-! ## Mentioned variables -/

section

variable {ν : Type} [DecidableEq ν]

theorem mem_foldl_mentions {v : ν} (vs seen : List ν) :
    v ∈ vs.foldl (fun seen v => if seen.contains v then seen else seen ++ [v]) seen ↔
      v ∈ seen ∨ v ∈ vs := by
  induction vs generalizing seen with
  | nil => simp
  | cons w vs ih =>
      rw [List.foldl_cons, ih]
      by_cases h : seen.contains w = true
      · rw [if_pos h]
        have hw : w ∈ seen := by simpa using h
        constructor
        · rintro (hv | hv)
          · exact Or.inl hv
          · exact Or.inr (List.mem_cons_of_mem _ hv)
        · rintro (hv | hv)
          · exact Or.inl hv
          · rcases List.mem_cons.mp hv with rfl | hv
            · exact Or.inl hw
            · exact Or.inr hv
      · rw [if_neg h]
        simp [or_assoc]

theorem mem_firstMentions {v : ν} {vs : List ν} : v ∈ firstMentions vs ↔ v ∈ vs := by
  rw [firstMentions, mem_foldl_mentions]
  simp

theorem firstMentions_append_of_mem {v : ν} {vs : List ν} (h : v ∈ vs) :
    firstMentions (vs ++ [v]) = firstMentions vs := by
  have hm : (firstMentions vs).contains v = true :=
    List.contains_iff_mem.mpr (mem_firstMentions.mpr h)
  rw [firstMentions, List.foldl_append]
  exact if_pos hm

theorem firstMentions_append_of_not_mem {v : ν} {vs : List ν} (h : v ∉ vs) :
    firstMentions (vs ++ [v]) = firstMentions vs ++ [v] := by
  have hm : ¬ (firstMentions vs).contains v = true := fun hc =>
    h (mem_firstMentions.mp (List.contains_iff_mem.mp hc))
  rw [firstMentions, List.foldl_append]
  exact if_neg hm

end

/-- A variable that has the name of a mentioned one is that variable. -/
theorem nameIn_inj {a : Arena} {ms : List VarId} {u v : VarId} (hu : u ∈ ms)
    (h : nameIn a ms u = nameIn a ms v) : u = v := by
  have hl := congrArg String.toList h
  simp only [nameIn, Number.natText, String.toList_append, String.toList_ofList] at hl
  have hp : (".": String).toList = ['.'] := rfl
  rw [hp, List.append_assoc, List.append_assoc] at hl
  have hn := (append_point_inj (point_not_mem_natDigits _) (point_not_mem_natDigits _) hl).1
  have hi : ms.idxOf u = ms.idxOf v := natDigits_injective hn
  have hu' : ms.idxOf u < ms.length := List.idxOf_lt_length_of_mem hu
  have hv' : ms.idxOf v < ms.length := hi ▸ hu'
  calc u = ms[ms.idxOf u] := (List.getElem_idxOf hu').symm
    _ = ms[ms.idxOf v] := by simp only [hi]
    _ = v := List.getElem_idxOf hv'

end CausalTrace
