import CausalTrace.Query.Grammar
import Mathlib

/-!
# The layout of texts

A text is rows between line breaks, a row is words between blanks, and a word is names between
commas. Which rows, words and names these are is a relation between the text and its parts that
leaves the layout open; the functions that cut texts up find the only parts there are.
-/

namespace CausalTrace.Text

variable {sep : Char → Bool} {cs ds bs : List Char} {ws : List String} {c : Char}

/-! ## Runs between separators -/

/-- The characters are these runs in order, with separators before, between and after them. -/
inductive Runs (sep : Char → Bool) : List Char → List String → Prop where
  | nil : Runs sep [] []
  | skip {c : Char} {cs : List Char} {ws : List String} (hc : sep c = true) (h : Runs sep cs ws) :
      Runs sep (c :: cs) ws
  | run {w : String} {cs : List Char} {ws : List String} (hne : w.toList ≠ [])
      (hw : ∀ c ∈ w.toList, sep c = false) (hend : ∀ c ∈ cs.head?, sep c = true)
      (h : Runs sep cs ws) : Runs sep (w.toList ++ cs) (w :: ws)

/-- The runs that cutting at separators finds. -/
def runs (sep : Char → Bool) (cs : List Char) : List String :=
  ((pieces sep cs).filter (!·.isEmpty)).map String.ofList

theorem pieces_eq_splitOnP (sep : Char → Bool) (cs : List Char) :
    pieces sep cs = cs.splitOnP sep := by
  induction cs with
  | nil => rfl
  | cons c cs ih =>
      rw [List.splitOnP_cons_eq_if_modifyHead, pieces, ← ih]
      split
      · rfl
      · cases hp : pieces sep cs with
        | nil => exact absurd hp (pieces_ne_nil sep cs)
        | cons p ps => rfl

theorem not_sep_of_mem_pieces : ∀ p ∈ pieces sep cs, ∀ c ∈ p, sep c = false := by
  induction cs with
  | nil => simp [pieces]
  | cons c cs ih =>
      rw [pieces]
      split
      · exact List.forall_mem_cons.mpr ⟨List.forall_mem_nil _, ih⟩
      · next hc =>
          cases hp : pieces sep cs with
          | nil => exact absurd hp (pieces_ne_nil sep cs)
          | cons p ps =>
              obtain ⟨hp, hps⟩ := List.forall_mem_cons.mp (hp ▸ ih)
              refine List.forall_mem_cons.mpr ⟨List.forall_mem_cons.mpr ⟨?_, hp⟩, hps⟩
              exact Bool.eq_false_iff.mpr hc

/-- A run ends at the first separator. -/
theorem runs_append {w : String} (hne : w.toList ≠ []) (hw : ∀ c ∈ w.toList, sep c = false)
    (hend : ∀ c ∈ cs.head?, sep c = true) : runs sep (w.toList ++ cs) = w :: runs sep cs := by
  have hone : w.toList.splitOnP sep = [w.toList] := List.splitOnP_eq_singleton hw
  cases cs with
  | nil =>
      rw [List.append_nil, runs, pieces_eq_splitOnP, hone]
      simp [hne, runs, pieces]
  | cons c cs =>
      have hc : sep c = true := hend c rfl
      simp only [runs, pieces_eq_splitOnP, List.splitOnP_append_cons _ _ hc, hone]
      simp [hne, List.splitOnP_cons_eq_if_modifyHead, hc]

theorem Runs.runs_eq (h : Runs sep cs ws) : runs sep cs = ws := by
  induction h with
  | nil => rfl
  | skip hc _ ih =>
      rw [← ih]
      simp [runs, pieces, hc]
  | run hne hw hend _ ih => rw [runs_append hne hw hend, ih]

theorem exists_runs (sep : Char → Bool) (cs : List Char) : ∃ ws, Runs sep cs ws := by
  induction cs with
  | nil => exact ⟨[], .nil⟩
  | cons c cs ih =>
      obtain ⟨ws, h⟩ := ih
      cases hc : sep c with
      | true => exact ⟨ws, .skip hc h⟩
      | false =>
          -- A run begins at `c`, and goes on with the run the rest begins with, if it does.
          have hbegin : ∀ {w ds vs}, (∀ d ∈ w, sep d = false) → (∀ d ∈ ds.head?, sep d = true) →
              Runs sep ds vs → Runs sep (c :: (w ++ ds)) (String.ofList (c :: w) :: vs) := by
            intro w ds vs hw hend hds
            have hnone : ∀ d ∈ c :: w, sep d = false := List.forall_mem_cons.mpr ⟨hc, hw⟩
            have hrun := Runs.run (w := String.ofList (c :: w)) (by simp)
              (by rwa [String.toList_ofList]) hend hds
            rwa [String.toList_ofList] at hrun
          cases h with
          | nil => exact ⟨_, hbegin (w := []) nofun nofun .nil⟩
          | skip hd h =>
              refine ⟨_, hbegin (w := []) nofun ?_ (.skip hd h)⟩
              rintro _ ⟨⟩
              exact hd
          | run hne hw hend h => exact ⟨_, hbegin hw hend h⟩

theorem runs_iff : Runs sep cs ws ↔ runs sep cs = ws := by
  refine ⟨Runs.runs_eq, ?_⟩
  rintro rfl
  obtain ⟨ws, h⟩ := exists_runs sep cs
  rwa [h.runs_eq]

theorem runs_append_left (h : ∀ c ∈ ds, sep c = true) : runs sep (ds ++ cs) = runs sep cs := by
  induction ds with
  | nil => rfl
  | cons d ds ih =>
      obtain ⟨hd, hds⟩ := List.forall_mem_cons.mp h
      exact (Runs.skip hd (runs_iff.mpr (ih hds))).runs_eq

theorem runs_append_right (h : ∀ c ∈ ds, sep c = true) : runs sep (cs ++ ds) = runs sep cs := by
  obtain ⟨ws, hws⟩ := exists_runs sep cs
  rw [hws.runs_eq, ← runs_iff]
  induction hws with
  | nil =>
      have hnone : runs sep (ds ++ []) = [] := runs_append_left h
      rw [List.append_nil] at hnone
      exact runs_iff.mpr hnone
  | skip hc _ ih => exact .skip hc ih
  | @run w cs ws hne hw hend _ ih =>
      rw [List.append_assoc]
      refine .run hne hw ?_ ih
      cases cs with
      | nil => exact fun d hd => h d (List.mem_of_mem_head? hd)
      | cons c cs => exact hend

theorem Runs.forall_of_nil (h : Runs sep cs []) : ∀ c ∈ cs, sep c = true := by
  generalize hws : [] = ws at h
  induction h with
  | nil => exact List.forall_mem_nil _
  | skip hc _ ih => exact List.forall_mem_cons.mpr ⟨hc, ih hws⟩
  | run => cases hws

theorem forall₂_runs_iff {α : Type} {f : α → List Char} {as : List α} {wss : List (List String)} :
    List.Forall₂ (fun a ws => Runs sep (f a) ws) as wss ↔
      as.map (fun a => runs sep (f a)) = wss := by
  have hmap :=
    List.forall₂_map_left_iff (R := Eq) (f := fun a => runs sep (f a)) (l := as) (u := wss)
  rw [List.forall₂_eq_eq_eq] at hmap
  simpa only [runs_iff] using hmap.symm

/-! ## Rows -/

/-- The words of the rows that are not blank, row by row. -/
def wordLines (s : String) : List (List String) := (lines s).map words

/-- The text is rows between line breaks, and these are the words of the rows that are not blank. -/
def Laid (s : String) (ls : List (List String)) : Prop :=
  ∃ rows wss, rows ≠ [] ∧ (∀ row ∈ rows, '\n' ∉ row) ∧ s.toList = ['\n'].intercalate rows ∧
    List.Forall₂ (Runs isBlank) rows wss ∧ ls = wss.filter (!·.isEmpty)

theorem runs_trimChars (cs : List Char) : runs isBlank (trimChars cs) = runs isBlank cs := by
  have hblank : ∀ ds : List Char, ∀ c ∈ ds.takeWhile isBlank, isBlank c = true := fun ds =>
    List.all_eq_true.mp List.all_takeWhile
  rw [trimChars]
  generalize hrest : cs.dropWhile isBlank = rest
  calc runs isBlank (rest.reverse.dropWhile isBlank).reverse
      = runs isBlank ((rest.reverse.dropWhile isBlank).reverse ++
          (rest.reverse.takeWhile isBlank).reverse) :=
        (runs_append_right fun c hc => hblank _ c (List.mem_reverse.mp hc)).symm
    _ = runs isBlank rest := by
        rw [← List.reverse_append, List.takeWhile_append_dropWhile, List.reverse_reverse]
    _ = runs isBlank (cs.takeWhile isBlank ++ rest) := (runs_append_left (hblank cs)).symm
    _ = runs isBlank cs := by rw [← hrest, List.takeWhile_append_dropWhile]

theorem trimChars_eq_nil_iff : trimChars cs = [] ↔ runs isBlank cs = [] := by
  constructor
  · intro h
    rw [← runs_trimChars, h]
    rfl
  · intro h
    have hblank : cs.dropWhile isBlank = [] :=
      List.dropWhile_eq_nil_iff.mpr (runs_iff.mpr h).forall_of_nil
    rw [trimChars, hblank]
    rfl

theorem words_ofList_trimChars (cs : List Char) :
    words (String.ofList (trimChars cs)) = runs isBlank cs := by
  rw [← runs_trimChars, words, String.toList_ofList, runs]

theorem wordLines_eq (s : String) : wordLines s =
    ((pieces (· == '\n') s.toList).map (runs isBlank)).filter (!·.isEmpty) := by
  rw [wordLines, lines]
  generalize pieces (· == '\n') s.toList = rows
  induction rows with
  | nil => rfl
  | cons row rows ih =>
      by_cases hrow : trimChars row = []
      · simpa [hrow, trimChars_eq_nil_iff.mp hrow] using ih
      · simpa [hrow, mt trimChars_eq_nil_iff.mpr hrow, words_ofList_trimChars] using ih

/-- A text is laid out from the words of its lines, and from no others. -/
theorem laid_iff {s : String} {ls : List (List String)} : Laid s ls ↔ wordLines s = ls := by
  have hpieces : pieces (· == '\n') s.toList = s.toList.splitOn '\n' := pieces_eq_splitOnP _ _
  rw [wordLines_eq]
  constructor
  · rintro ⟨rows, wss, hne, hbreak, hs, hrows, rfl⟩
    rw [hpieces, hs, List.splitOn_intercalate '\n' hbreak hne]
    rw [← forall₂_runs_iff.mp hrows]
  · rintro rfl
    refine ⟨pieces (· == '\n') s.toList, _, pieces_ne_nil _ _, ?_, ?_,
      forall₂_runs_iff.mpr rfl, rfl⟩
    · intro row hrow hbreak
      cases not_sep_of_mem_pieces row hrow _ hbreak
    · rw [hpieces, List.intercalate_splitOn]

/-! ## Names -/

/-- The words are these names, with commas between, before and after them in any number. -/
def Listed (words names : List String) : Prop :=
  ∃ nss, List.Forall₂ (fun w ns => Runs (· == ',') w.toList ns) words nss ∧ names = nss.flatten

theorem listed_iff {words names : List String} : Listed words names ↔
    Grammar.names words = names := by
  have hnames : Grammar.names words = (words.map fun w => runs (· == ',') w.toList).flatten := by
    rw [Grammar.names, List.flatMap_def]
    rfl
  rw [hnames]
  constructor
  · rintro ⟨nss, hwords, rfl⟩
    rw [← forall₂_runs_iff.mp hwords]
  · rintro rfl
    exact ⟨_, forall₂_runs_iff.mpr rfl, rfl⟩

/-! ## Letter case -/

/-- It is the same to compare in small letters and in capital letters. -/
theorem sameLetters_iff {s t : String} : sameLetters s t = true ↔ upper s = upper t := by
  have hupper : ∀ u, upper (lower u) = upper u := fun u => by
    simp [upper, lower, Function.comp_def, Char.toUpper_toLower_eq_toUpper]
  have hlower : ∀ u, lower (upper u) = lower u := fun u => by
    simp [upper, lower, Function.comp_def, Char.toLower_toUpper_eq_toLower]
  rw [sameLetters, beq_iff_eq]
  constructor
  · intro h
    rw [← hupper s, ← hupper t, h]
  · intro h
    rw [← hlower s, ← hlower t, h]

theorem sameLetters_comm {s t : String} : sameLetters s t = sameLetters t s := Bool.beq_comm

/-! ## Cutting -/

theorem cutChars_eq_some_iff {ls rs : List Char} :
    cutChars c cs = some (ls, rs) ↔ cs = ls ++ c :: rs ∧ c ∉ ls := by
  induction cs generalizing ls with
  | nil => simp [cutChars]
  | cons d ds ih =>
      rw [cutChars]
      split
      · next hd =>
          cases ls with
          | nil => simp [hd]
          | cons l ls => simp +contextual [hd]
      · next hd =>
          cases ls with
          | nil => simp [hd]
          | cons l ls =>
              have hrest : (cutChars c ds).map (fun p => (d :: p.1, p.2)) = some (l :: ls, rs) ↔
                  d = l ∧ cutChars c ds = some (ls, rs) := by
                cases cutChars c ds with
                | none => simp
                | some p => simp [Prod.ext_iff, and_assoc]
              show (cutChars c ds).map (fun p => (d :: p.1, p.2)) = some (l :: ls, rs) ↔ _
              rw [hrest, ih, List.cons_append, List.cons.injEq, List.mem_cons, not_or]
              have hne : d = l → ¬ c = l := fun hl hc => hd (hl.trans hc.symm)
              tauto

theorem cut_eq_some_iff {s l r : String} :
    cut c s = some (l, r) ↔ s.toList = l.toList ++ c :: r.toList ∧ c ∉ l.toList := by
  rw [cut, ← cutChars_eq_some_iff]
  constructor
  · intro h
    obtain ⟨p, hp, h⟩ := Option.map_eq_some_iff.mp h
    cases h
    simpa using hp
  · intro h
    rw [h]
    simp

theorem cut_eq_none_iff {s : String} : cut c s = none ↔ c ∉ s.toList := by
  have hchars : ∀ ds, cutChars c ds = none ↔ c ∉ ds := fun ds => by
    induction ds with
    | nil => simp [cutChars]
    | cons d ds ih =>
        by_cases hd : d = c
        · simp [cutChars, hd]
        · simp [cutChars, hd, ih, Ne.symm hd]
  rw [cut, Option.map_eq_none_iff, hchars]

theorem dropLast?_eq_some_iff {s t : String} :
    dropLast? c s = some t ↔ s.toList = t.toList ++ [c] := by
  unfold dropLast?
  split
  · next h =>
      obtain ⟨ds, hds⟩ := List.getLast?_eq_some_iff.mp h
      rw [hds, List.dropLast_concat, Option.some_inj, ← String.toList_inj]
      simp
  · next h =>
      refine ⟨nofun, fun hs => absurd ?_ h⟩
      rw [hs, List.getLast?_concat]

/-- The word is `inner` in parentheses after `kind`. -/
theorem parenthesized_iff {word kind inner : String} :
    (∃ rest, cut '(' word = some (kind, rest) ∧ dropLast? ')' rest = some inner) ↔
      word = kind ++ "(" ++ inner ++ ")" ∧ '(' ∉ kind.toList := by
  simp only [cut_eq_some_iff, dropLast?_eq_some_iff]
  constructor
  · rintro ⟨rest, ⟨hword, hkind⟩, hrest⟩
    refine ⟨?_, hkind⟩
    rw [← String.toList_inj, hword, hrest]
    simp
  · rintro ⟨rfl, hkind⟩
    exact ⟨inner ++ ")", ⟨by simp, hkind⟩, by simp⟩

theorem parenthesized_inj {kind kind' inner inner' : String}
    (h : kind ++ "(" ++ inner ++ ")" = kind' ++ "(" ++ inner' ++ ")") (hkind : '(' ∉ kind.toList)
    (hkind' : '(' ∉ kind'.toList) : kind = kind' ∧ inner = inner' := by
  obtain ⟨rest, hcut, hdrop⟩ := parenthesized_iff.mpr ⟨rfl, hkind⟩
  obtain ⟨rest', hcut', hdrop'⟩ := parenthesized_iff.mpr ⟨h, hkind'⟩
  cases hcut.symm.trans hcut'
  exact ⟨rfl, Option.some_inj.mp (hdrop.symm.trans hdrop')⟩

end CausalTrace.Text
