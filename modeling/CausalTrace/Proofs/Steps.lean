import CausalTrace.Query.Resolve

/-!
# Steps that may fail

What is known when a sequence of steps succeeds: every step does, with the result
the next one starts from.
-/

namespace CausalTrace

/-! ## Results or errors -/

section Results

variable {ε α β : Type} {x : Except ε α} {f : α → Except ε β}

theorem bind_eq_ok_iff {b : β} : (x >>= f) = .ok b ↔ ∃ a, x = .ok a ∧ f a = .ok b := by
  cases x with
  | error e =>
      constructor
      · rintro ⟨⟩
      · rintro ⟨a, ⟨⟩, _⟩
  | ok a =>
      constructor
      · exact fun h => ⟨a, rfl, h⟩
      · rintro ⟨_, ⟨⟩, h⟩
        exact h

theorem exists_bind_eq_ok_iff :
    (∃ b, (x >>= f) = .ok b) ↔ ∃ a, x = .ok a ∧ ∃ b, f a = .ok b := by
  simp only [bind_eq_ok_iff]
  constructor
  · rintro ⟨b, a, ha, hb⟩
    exact ⟨a, ha, b, hb⟩
  · rintro ⟨a, ha, b, hb⟩
    exact ⟨b, a, ha, hb⟩

/-- A last step that cannot fail does not matter. -/
theorem exists_bind_pure_eq_ok_iff {g : α → β} :
    (∃ b, (x >>= fun a => pure (g a)) = .ok b) ↔ ∃ a, x = .ok a := by
  rw [exists_bind_eq_ok_iff]
  exact exists_congr fun a => and_iff_left ⟨g a, rfl⟩

theorem exists_of_isOk (h : x.isOk) : ∃ a, x = .ok a := by
  cases x with
  | error e => cases h
  | ok a => exact ⟨a, rfl⟩

theorem forM_eq_ok_iff {xs : List α} {f : α → Except ε Unit} :
    xs.forM f = .ok () ↔ ∀ a ∈ xs, f a = .ok () := by
  induction xs with
  | nil =>
      exact ⟨fun _ => List.forall_mem_nil _, fun _ => rfl⟩
  | cons a xs ih =>
      show (f a >>= fun _ => xs.forM f) = .ok () ↔ _
      rw [bind_eq_ok_iff, List.forall_mem_cons, ← ih]
      constructor
      · rintro ⟨_, ha, h⟩
        exact ⟨ha, h⟩
      · rintro ⟨ha, h⟩
        exact ⟨(), ha, h⟩

/-- Steps that all give the value of a function are a map. -/
theorem mapM_eq_ok_map {xs : List α} {g : α → β} (h : ∀ a ∈ xs, f a = .ok (g a)) :
    xs.mapM f = .ok (xs.map g) := by
  induction xs with
  | nil => rfl
  | cons a xs ih =>
      obtain ⟨ha, hxs⟩ := List.forall_mem_cons.mp h
      rw [List.mapM_cons, ha, ih hxs]
      rfl

/-- What steps give, one of them gives. -/
theorem exists_of_mem_of_mapM_eq_ok {xs : List α} {ys : List β} {b : β} (h : xs.mapM f = .ok ys)
    (hb : b ∈ ys) : ∃ a ∈ xs, f a = .ok b := by
  induction xs generalizing ys with
  | nil =>
      cases h
      cases hb
  | cons a xs ih =>
      rw [List.mapM_cons] at h
      obtain ⟨b', ha, h⟩ := bind_eq_ok_iff.mp h
      obtain ⟨bs, hbs, h⟩ := bind_eq_ok_iff.mp h
      cases h
      rcases List.mem_cons.mp hb with rfl | hb
      · exact ⟨a, List.mem_cons_self, ha⟩
      · obtain ⟨a', hmem, ha'⟩ := ih hbs hb
        exact ⟨a', List.mem_cons_of_mem _ hmem, ha'⟩

/-- Steps succeed if and only if each of them does. -/
theorem exists_mapM_eq_ok_iff {xs : List α} :
    (∃ ys, xs.mapM f = .ok ys) ↔ ∀ a ∈ xs, ∃ b, f a = .ok b := by
  induction xs with
  | nil => exact ⟨fun _ => List.forall_mem_nil _, fun _ => ⟨[], rfl⟩⟩
  | cons a xs ih =>
      rw [List.forall_mem_cons, ← ih, List.mapM_cons]
      constructor
      · rintro ⟨_, h⟩
        obtain ⟨b, ha, h⟩ := bind_eq_ok_iff.mp h
        obtain ⟨bs, hbs, _⟩ := bind_eq_ok_iff.mp h
        exact ⟨⟨b, ha⟩, bs, hbs⟩
      · rintro ⟨⟨b, ha⟩, bs, hbs⟩
        rw [ha, hbs]
        exact ⟨b :: bs, rfl⟩

end Results

/-! ## Building steps -/

namespace Build

variable {α β : Type} {x : Build α} {f : α → Build β} {a a' : Arena}

/-- A building step succeeds from an arena with a result and another arena. -/
def Yields (x : Build α) (a : Arena) (r : α) (a' : Arena) : Prop := x.run a = (.ok r, a')

theorem yields_iff {r : α} :
    x.Yields a r a' ↔ (x.run a).1.toOption = some r ∧ (x.run a).2 = a' := by
  rw [Yields, Prod.ext_iff]
  refine and_congr ?_ Iff.rfl
  rcases (x.run a).1 with _ | y
  · exact ⟨nofun, nofun⟩
  · exact ⟨fun h => by cases h; rfl, fun h => by cases h; rfl⟩

instance [DecidableEq α] {r : α} : Decidable (x.Yields a r a') :=
  decidable_of_iff _ yields_iff.symm

/-- A building step fails from an arena with an error and leaves another arena. -/
def Fails (x : Build α) (a : Arena) (e : Error) (a' : Arena) : Prop := x.run a = (.error e, a')

theorem run_bind : (x >>= f).run a = match x.run a with
    | (.ok y, b) => (f y).run b
    | (.error e, b) => (.error e, b) := by
  show (ExceptT.bindCont f (x.run a).1 : StateM Arena _) (x.run a).2 = _
  rcases x.run a with ⟨(_ | y), b⟩ <;> rfl

theorem yields_bind {r : β} :
    (x >>= f).Yields a r a' ↔ ∃ y b, x.Yields a y b ∧ (f y).Yields b r a' := by
  rw [Yields, run_bind]
  constructor
  · intro h
    rcases hx : x.run a with ⟨(e | y), b⟩
    · rw [hx] at h
      cases h
    · rw [hx] at h
      exact ⟨y, b, hx, h⟩
  · rintro ⟨y, b, hx, h⟩
    rw [Yields] at hx
    rw [hx]
    exact h

theorem fails_bind {e : Error} : (x >>= f).Fails a e a' ↔
    x.Fails a e a' ∨ ∃ y b, x.Yields a y b ∧ (f y).Fails b e a' := by
  unfold Fails Yields
  rw [run_bind]
  rcases x.run a with ⟨(d | y), b⟩
  · constructor
    · rintro ⟨⟩
      exact .inl rfl
    · rintro (⟨⟨⟩⟩ | ⟨_, _, ⟨⟩, _⟩)
      rfl
  · constructor
    · exact fun h => .inr ⟨y, b, rfl, h⟩
    · rintro (⟨⟨⟩⟩ | ⟨_, _, ⟨⟩, h⟩)
      exact h

theorem yields_pure {y r : α} : (pure y : Build α).Yields a r a' ↔ y = r ∧ a = a' := by
  constructor
  · rintro ⟨⟩
    exact ⟨rfl, rfl⟩
  · rintro ⟨rfl, rfl⟩
    rfl

theorem not_yields_throw {e : Error} {r : α} : ¬ (throw e : Build α).Yields a r a' :=
  fun h => nomatch h

theorem fails_throw {e e' : Error} : (throw e : Build α).Fails a e' a' ↔ e = e' ∧ a = a' := by
  constructor
  · rintro ⟨⟩
    exact ⟨rfl, rfl⟩
  · rintro ⟨rfl, rfl⟩
    rfl

theorem not_fails_pure {y : α} {e : Error} : ¬ (pure y : Build α).Fails a e a' :=
  fun h => nomatch h

theorem yields_define {d : Definition} {v : VarId} :
    (define d).Yields a v a' ↔ v = ⟨a.defs.length⟩ ∧ a' = ⟨a.defs ++ [d]⟩ := by
  constructor
  · rintro ⟨⟩
    exact ⟨rfl, rfl⟩
  · rintro ⟨rfl, rfl⟩
    rfl

theorem yields_get {r : Arena} : (get : Build Arena).Yields a r a' ↔ a = r ∧ a = a' := by
  constructor
  · rintro ⟨⟩
    exact ⟨rfl, rfl⟩
  · rintro ⟨rfl, rfl⟩
    rfl

/-- A check that is no building step itself. -/
theorem yields_liftExcept {y : Except Error α} {r : α} :
    (liftM y : Build α).Yields a r a' ↔ y = .ok r ∧ a = a' := by
  cases y with
  | error e =>
      constructor
      · rintro ⟨⟩
      · rintro ⟨⟨⟩, _⟩
  | ok y =>
      constructor
      · rintro ⟨⟩
        exact ⟨rfl, rfl⟩
      · rintro ⟨⟨⟩, rfl⟩
        rfl

end Build

end CausalTrace
