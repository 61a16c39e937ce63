import CausalTrace.Json.Decode
import CausalTrace.Json.Parser
import CausalTrace.Proofs.Numerals

/-!
# Documents read back

A document without broken parts, whose numbers are spelled as documents spell them, is what
its compact text parses to. Every value has a run of tokens: the lexer finds it at the front
of the text, and the parser goes from waiting for a value to having read this value.
-/

namespace CausalTrace.Json

variable {c : Char} {cs rest : List Char}

/-! ## Strings -/

theorem hexValue?_hexDigit {d : Nat} (h : d < 16) : hexValue? (Text.hexDigit d) = some d := by
  have all : ∀ d < 16, hexValue? (Text.hexDigit d) = some d := by decide
  exact all d h

theorem stringBody_plain (hquote : c ≠ '"') (hslash : c ≠ '\\') (hc : 0x20 ≤ c.toNat)
    (cs : List Char) : stringBody (c :: cs) =
      (stringBody cs).map fun p => (c.toNat :: p.1, p.2 + 1) := by
  rw [stringBody.eq_def]
  split
  · next h => cases h
  · next h => exact absurd (List.cons.inj h).1 hquote
  · next h => exact absurd (List.cons.inj h).1 hslash
  · next h => exact absurd (List.cons.inj h).1 hslash
  · next h =>
      obtain ⟨rfl, rfl⟩ := List.cons.inj h
      rw [if_neg (by simp [hslash, Nat.not_lt.mpr hc])]
      cases stringBody cs <;> rfl

theorem stringBody_escaped {e : Char} (he : escaped? c = some e) (cs : List Char) :
    stringBody ('\\' :: c :: cs) = (stringBody cs).map fun p => (e.toNat :: p.1, p.2 + 2) := by
  have hu : c ≠ 'u' := by
    rintro rfl
    cases he
  rw [stringBody.eq_def]
  split
  · next h => cases h
  · next h => exact absurd (List.cons.inj h).1 (by decide)
  · next h => exact absurd (List.cons.inj (List.cons.inj h).2).1 hu
  · next h =>
      obtain ⟨rfl, rfl⟩ := List.cons.inj (List.cons.inj h).2
      simp only [he]
      cases stringBody cs <;> rfl
  · next hnone h =>
      obtain ⟨rfl, rfl⟩ := List.cons.inj h
      exact absurd rfl (hnone c cs rfl)

theorem stringBody_control (hc : c.toNat < 0x20) (cs : List Char) :
    stringBody ('\\' :: 'u' :: '0' :: '0' :: Text.hexDigit (c.toNat / 16) ::
      Text.hexDigit (c.toNat % 16) :: cs) =
      (stringBody cs).map fun p => (c.toNat :: p.1, p.2 + 6) := by
  have hcode : codeUnit? '0' '0' (Text.hexDigit (c.toNat / 16)) (Text.hexDigit (c.toNat % 16)) =
      some c.toNat := by
    have hzero : hexValue? '0' = some 0 := rfl
    have hvalue : c.toNat / 16 * 16 + c.toNat % 16 = c.toNat := by omega
    simp [codeUnit?, hzero, hexValue?_hexDigit (show c.toNat / 16 < 16 by omega),
      hexValue?_hexDigit (show c.toNat % 16 < 16 by omega), hvalue]
  rw [stringBody, hcode]
  cases stringBody cs <;> rfl

/-- A character is read back from what it is written as. -/
theorem stringBody_stringChar (c : Char) (cs : List Char) : stringBody (stringChar c ++ cs) =
    (stringBody cs).map fun p => (c.toNat :: p.1, p.2 + (stringChar c).length) := by
  unfold stringChar
  split
  · exact stringBody_escaped rfl cs
  · exact stringBody_escaped rfl cs
  · exact stringBody_escaped rfl cs
  · exact stringBody_escaped rfl cs
  · exact stringBody_escaped rfl cs
  · exact stringBody_escaped rfl cs
  · exact stringBody_escaped rfl cs
  · next hquote hslash _ _ _ _ _ =>
      split
      · next hc => exact stringBody_control hc cs
      · next hc => exact stringBody_plain hquote hslash (Nat.not_lt.mp hc) cs

theorem stringBody_flatMap (cs rest : List Char) :
    stringBody (cs.flatMap stringChar ++ '"' :: rest) =
      some (cs.map Char.toNat, (cs.flatMap stringChar).length + 1) := by
  induction cs with
  | nil => rfl
  | cons c cs ih =>
      rw [List.flatMap_cons, List.append_assoc, stringBody_stringChar, ih]
      simp
      omega

/-- No character is half a surrogate pair. -/
theorem not_isSurrogate (c : Char) :
    isHighSurrogate c.toNat = false ∧ isLowSurrogate c.toNat = false := by
  have hvalid : c.toNat < 0xD800 ∨ 0xDFFF < c.toNat ∧ c.toNat < 0x110000 := c.valid
  simp [isHighSurrogate, isLowSurrogate]
  omega

theorem assemble_toNat (cs : List Char) : assemble (cs.map Char.toNat) = some cs := by
  induction cs with
  | nil => rfl
  | cons c cs ih =>
      obtain ⟨hhigh, hlow⟩ := not_isSurrogate c
      cases cs with
      | nil => simp [assemble, hhigh, hlow]
      | cons d cs =>
          rw [List.map_cons] at ih
          simp [assemble, hhigh, hlow, ih]

/-! ## Tokens -/

theorem tokensFrom_eq_drop (n : Nat) (cs : List Char) :
    tokensFrom n cs = tokensFrom 0 (cs.drop n) := by
  induction cs generalizing n with
  | nil => cases n <;> rfl
  | cons c cs ih =>
      cases n with
      | zero => rfl
      | succ n => exact ih n

/-- The token of a text that does not start with a blank comes first. -/
theorem tokensFrom_append {t : Token} (text : List Char)
    (hfront : front? (text ++ rest) = some (t, text.length))
    (htext : ∃ c cs, text = c :: cs ∧ c ≠ ' ' ∧ c ≠ '\n' ∧ c ≠ '\t' ∧ c ≠ '\r') :
    tokensFrom 0 (text ++ rest) = (tokensFrom 0 rest).map (t :: ·) := by
  obtain ⟨c, cs, rfl, hspace, hline, htab, hreturn⟩ := htext
  have hdrop : (cs ++ rest).drop (c :: cs).length.pred = rest := by simp
  rw [List.cons_append] at hfront ⊢
  rw [tokensFrom, if_neg (by simp [hspace, hline, htab, hreturn]), hfront]
  simp only [Option.bind_eq_bind, Option.bind_some, tokensFrom_eq_drop (_ - 1)]
  rw [← Nat.pred_eq_sub_one, hdrop]
  cases tokensFrom 0 rest <;> rfl

theorem tokensFrom_mark {t : Token} (hmark : ∀ rest, front? (c :: rest) = some (t, 1))
    (hc : c ≠ ' ' ∧ c ≠ '\n' ∧ c ≠ '\t' ∧ c ≠ '\r') (rest : List Char) :
    tokensFrom 0 (c :: rest) = (tokensFrom 0 rest).map (t :: ·) :=
  tokensFrom_append [c] (hmark rest) ⟨c, [], rfl, hc⟩

theorem tokensFrom_str (s : String) (rest : List Char) :
    tokensFrom 0 (stringChars s ++ rest) = (tokensFrom 0 rest).map (.str (some s) :: ·) := by
  apply tokensFrom_append
  · have hbody := stringBody_flatMap s.toList rest
    simp [stringChars, front?, hbody, assemble_toNat]
  · exact ⟨'"', s.toList.flatMap stringChar ++ ['"'], rfl, by decide⟩

/-- A text that starts as a number does can only start with a number. -/
theorem front?_of_number (hc : c = '-' ∨ c.isDigit = true) (cs : List Char) : front? (c :: cs) =
    (numberFront? (c :: cs)).map fun p => (.number p.1, (c :: cs).length - p.2.length) := by
  have hne : ∀ d, d ≠ '-' → d.isDigit = false → c ≠ d := by
    rintro d hminus hdigit rfl
    rcases hc with hc | hc
    · exact hminus hc
    · exact absurd (hdigit ▸ hc) Bool.false_ne_true
  unfold front?
  split
  all_goals first
    | rfl
    | next h => exact absurd (List.cons.inj h).1 (hne _ (by decide) (by decide))

theorem tokensFrom_number {l : Number.Literal} (h : l.Spelled) (hrest : Delimited rest) :
    tokensFrom 0 (l.chars true ++ rest) = (tokensFrom 0 rest).map (.number l :: ·) := by
  obtain ⟨c, cs, hfront, hc⟩ : ∃ c cs, (if l.negative then ['-'] else []) ++ l.whole = c :: cs ∧
      (c = '-' ∨ c.isDigit = true) := by
    obtain ⟨d, ds, hwhole, hd⟩ := h.exists_cons
    cases l.negative with
    | true => exact ⟨'-', l.whole, rfl, .inl rfl⟩
    | false => exact ⟨d, ds, hwhole, .inr hd⟩
  obtain ⟨text, hchars⟩ : ∃ text, l.chars true = c :: text := by
    rw [Number.Literal.chars, hfront]
    exact ⟨_, rfl⟩
  have hread := numberFront?_chars h hrest
  apply tokensFrom_append
  · rw [hchars, List.cons_append] at hread ⊢
    rw [front?_of_number hc, hread]
    simp
    omega
  · refine ⟨c, text, hchars, ?_⟩
    rcases hc with rfl | hc
    · decide
    · refine ⟨?_, ?_, ?_, ?_⟩ <;> rintro rfl <;> cases hc

/-! ## Documents -/

/-- No part is broken, and numbers are spelled as documents spell them. -/
inductive Spelled : Json → Prop where
  | null : Spelled .null
  | bool (b : Bool) : Spelled (.bool b)
  | number {l : Number.Literal} (h : l.Spelled) : Spelled (.number l)
  | str (s : String) : Spelled (.str s)
  | arr {items : List Json} (h : ∀ j ∈ items, Spelled j) : Spelled (.arr items)
  | obj {fields : List (String × Json)} (h : ∀ f ∈ fields, Spelled f.2) : Spelled (.obj fields)

/-- These are the tokens of a document: the lexer finds them at the front of its text, and the
parser has read the document after them, where it waits for a value or the first of an array. -/
structure Tokens (j : Json) (ts : List Token) : Prop where
  lexed : ∀ rest, Delimited rest →
    tokensFrom 0 (j.chars ++ rest) = (tokensFrom 0 rest).map (ts ++ ·)
  read : ∀ stack e more, e = .value ∨ e = .firstItem →
    (ts ++ more).foldlM Progress.step ⟨stack, e⟩ = more.foldlM Progress.step ⟨stack, .following j⟩

/-- A token that is a whole value. -/
theorem tokens_single {j : Json} {t : Token}
    (hlexed : ∀ rest, Delimited rest →
      tokensFrom 0 (j.chars ++ rest) = (tokensFrom 0 rest).map (t :: ·))
    (hread : ∀ stack, Progress.begin stack t = some ⟨stack, .following j⟩) : Tokens j [t] where
  lexed := hlexed
  read stack e more he := by
    have hstep : Progress.step ⟨stack, e⟩ t = some ⟨stack, .following j⟩ := by
      rw [← hread stack]
      rcases he with rfl | rfl
      · rfl
      · cases t <;> first | rfl | cases hread stack
    rw [List.singleton_append, List.foldlM_cons, hstep]
    rfl

variable {j : Json} {items : List Json} {fields : List (String × Json)}

/-- The items of an array and its end: after them the parser has read the array. -/
theorem exists_tokens_items (hitems : ∀ j ∈ items, ∃ ts, Tokens j ts) (hne : items ≠ []) :
    ∃ ts, (∀ rest, tokensFrom 0 (itemsChars items ++ ']' :: rest) =
        (tokensFrom 0 rest).map (ts ++ ·)) ∧
      ∀ before stack e more, e = .value ∨ e = .firstItem →
        (ts ++ more).foldlM Progress.step ⟨.array before :: stack, e⟩ =
          more.foldlM Progress.step ⟨stack, .following (.arr (before.reverse ++ items))⟩ := by
  induction items with
  | nil => exact absurd rfl hne
  | cons j js ih =>
      obtain ⟨hj, hjs⟩ := List.forall_mem_cons.mp hitems
      obtain ⟨ts, hlexed, hread⟩ := hj
      cases js with
      | nil =>
          refine ⟨ts ++ [.endArray], fun rest => ?_, fun before stack e more he => ?_⟩
          · have hmark :=
              tokensFrom_mark (t := .endArray) (c := ']') (fun _ => rfl) (by decide) rest
            have hend : Delimited (']' :: rest) := by simp [Delimited]
            show tokensFrom 0 (j.chars ++ ']' :: rest) = _
            rw [hlexed _ hend, hmark, Option.map_map]
            simp [Function.comp_def]
          · rw [List.append_assoc, hread _ _ _ he]
            simp [Progress.step, Progress.follow]
      | cons k js =>
          obtain ⟨us, hlexed', hread'⟩ := ih hjs (List.cons_ne_nil k js)
          refine ⟨ts ++ .comma :: us, fun rest => ?_, fun before stack e more he => ?_⟩
          · have hmark := tokensFrom_mark (t := .comma) (c := ',') (fun _ => rfl) (by decide)
              (itemsChars (k :: js) ++ ']' :: rest)
            have hend : Delimited (',' :: (itemsChars (k :: js) ++ ']' :: rest)) := by
              simp [Delimited]
            have htext : itemsChars (j :: k :: js) ++ ']' :: rest =
                j.chars ++ ',' :: (itemsChars (k :: js) ++ ']' :: rest) := by simp [itemsChars]
            rw [htext, hlexed _ hend, hmark, hlexed', Option.map_map, Option.map_map]
            simp [Function.comp_def]
          · rw [List.append_assoc, hread _ _ _ he, List.cons_append, List.foldlM_cons]
            show (us ++ more).foldlM Progress.step ⟨.array (j :: before) :: stack, .value⟩ = _
            rw [hread' _ _ _ _ (.inl rfl)]
            simp

/-- Fields as the parser keeps them. -/
def keyed (fields : List (String × Json)) : List (Option String × Json) :=
  (fields.map fun f => (some f.1, f.2)).reverse

theorem closeObject_keyed (fields : List (String × Json)) :
    closeObject (keyed fields) = .obj fields := by
  have hkeys : ((fields.map fun f => (some f.1, f.2)).mapM
      fun p : Option String × Json => p.1.map fun k => (k, p.2)) = some fields := by
    induction fields with
    | nil => rfl
    | cons f fs ih => simp [ih]
  simp [closeObject, keyed, hkeys]

/-- The key of a field, up to where its value is expected. -/
theorem foldlM_key (name : String) (done : List (String × Json))
    (stack : List Frame) (ts : List Token)
    {e : Expected} (he : e = .key (keyed done) ∨ e = .firstKey ∧ done = []) :
    (.str (some name) :: .colon :: ts).foldlM Progress.step ⟨stack, e⟩ =
      ts.foldlM Progress.step ⟨.object (keyed done) (some name) :: stack, .value⟩ := by
  rcases he with rfl | ⟨rfl, rfl⟩ <;> rfl

theorem exists_tokens_fields (hfields : ∀ f ∈ fields, ∃ ts, Tokens f.2 ts) (hne : fields ≠ []) :
    ∃ ts, (∀ rest, tokensFrom 0 (fieldsChars fields ++ '\x7d' :: rest) =
        (tokensFrom 0 rest).map (ts ++ ·)) ∧
      ∀ done stack e more, e = .key (keyed done) ∨ e = .firstKey ∧ done = [] →
        (ts ++ more).foldlM Progress.step ⟨stack, e⟩ =
          more.foldlM Progress.step ⟨stack, .following (.obj (done ++ fields))⟩ := by
  induction fields with
  | nil => exact absurd rfl hne
  | cons f fs ih =>
      obtain ⟨hf, hfs⟩ := List.forall_mem_cons.mp hfields
      obtain ⟨ts, hlexed, hread⟩ := hf
      obtain ⟨name, j⟩ := f
      have hkey : ∀ text, tokensFrom 0 (stringChars name ++ ':' :: text) =
          (tokensFrom 0 text).map fun ts => .str (some name) :: .colon :: ts := by
        intro text
        rw [tokensFrom_str, tokensFrom_mark (t := .colon) (fun _ => rfl) (by decide),
          Option.map_map]
        rfl
      have hdone : ∀ done : List (String × Json), (some name, j) :: keyed done =
          keyed (done ++ [(name, j)]) := by simp [keyed]
      cases fs with
      | nil =>
          refine ⟨.str (some name) :: .colon :: (ts ++ [.endObject]), fun rest => ?_,
            fun done stack e more he => ?_⟩
          · have hmark :=
              tokensFrom_mark (t := .endObject) (c := '\x7d') (fun _ => rfl) (by decide) rest
            have hend : Delimited ('\x7d' :: rest) := by simp [Delimited]
            have htext : fieldsChars [(name, j)] ++ '\x7d' :: rest =
                stringChars name ++ ':' :: (j.chars ++ '\x7d' :: rest) := by simp [fieldsChars]
            rw [htext, hkey, hlexed _ hend, hmark, Option.map_map, Option.map_map]
            simp [Function.comp_def]
          · rw [List.cons_append, List.cons_append, foldlM_key name done stack _ he,
              List.append_assoc, hread _ _ _ (.inl rfl)]
            show more.foldlM Progress.step
              ⟨stack, .following (closeObject ((some name, j) :: keyed done))⟩ = _
            rw [hdone, closeObject_keyed]
      | cons g fs =>
          obtain ⟨us, hlexed', hread'⟩ := ih hfs (List.cons_ne_nil g fs)
          refine ⟨.str (some name) :: .colon :: (ts ++ .comma :: us), fun rest => ?_,
            fun done stack e more he => ?_⟩
          · have hmark := tokensFrom_mark (t := .comma) (c := ',') (fun _ => rfl) (by decide)
              (fieldsChars (g :: fs) ++ '\x7d' :: rest)
            have hend : Delimited (',' :: (fieldsChars (g :: fs) ++ '\x7d' :: rest)) := by
              simp [Delimited]
            have htext : fieldsChars ((name, j) :: g :: fs) ++ '\x7d' :: rest = stringChars name ++
                ':' :: (j.chars ++ ',' :: (fieldsChars (g :: fs) ++ '\x7d' :: rest)) := by
              simp [fieldsChars]
            rw [htext, hkey, hlexed _ hend, hmark, hlexed', Option.map_map, Option.map_map,
              Option.map_map]
            simp [Function.comp_def]
          · rw [List.cons_append, List.cons_append, foldlM_key name done stack _ he,
              List.append_assoc, hread _ _ _ (.inl rfl), List.cons_append, List.foldlM_cons]
            show (us ++ more).foldlM Progress.step ⟨stack, .key ((some name, j) :: keyed done)⟩ = _
            rw [hdone, hread' _ _ _ _ (.inl rfl)]
            simp

/-- A document has the tokens of its text. -/
theorem Spelled.exists_tokens (h : Spelled j) : ∃ ts, Tokens j ts := by
  induction h with
  | null =>
      refine ⟨[.null], tokens_single (fun rest _ => ?_) fun _ => rfl⟩
      exact tokensFrom_append ['n', 'u', 'l', 'l'] rfl ⟨_, _, rfl, by decide⟩
  | bool b =>
      refine ⟨[.bool b], tokens_single (fun rest _ => ?_) fun _ => rfl⟩
      cases b with
      | true => exact tokensFrom_append ['t', 'r', 'u', 'e'] rfl ⟨_, _, rfl, by decide⟩
      | false => exact tokensFrom_append ['f', 'a', 'l', 's', 'e'] rfl ⟨_, _, rfl, by decide⟩
  | number h => exact ⟨_, tokens_single (fun _ => tokensFrom_number h) fun _ => rfl⟩
  | str s => exact ⟨_, tokens_single (fun rest _ => tokensFrom_str s rest) fun _ => rfl⟩
  | @arr items _ ih =>
      have hbegin : ∀ rest, tokensFrom 0 ('[' :: rest) =
          (tokensFrom 0 rest).map (.beginArray :: ·) :=
        tokensFrom_mark (fun _ => rfl) (by decide)
      cases items with
      | nil =>
          have hend : ∀ rest, tokensFrom 0 (']' :: rest) =
              (tokensFrom 0 rest).map (.endArray :: ·) :=
            tokensFrom_mark (fun _ => rfl) (by decide)
          refine ⟨[.beginArray, .endArray], fun rest _ => ?_, fun stack e more he => ?_⟩
          · show tokensFrom 0 ('[' :: ']' :: rest) = _
            rw [hbegin, hend, Option.map_map]
            rfl
          · rcases he with rfl | rfl <;> rfl
      | cons k js =>
          obtain ⟨ts, hlexed, hread⟩ := exists_tokens_items ih (List.cons_ne_nil k js)
          refine ⟨.beginArray :: ts, fun rest _ => ?_, fun stack e more he => ?_⟩
          · have htext : (Json.arr (k :: js)).chars ++ rest =
                '[' :: (itemsChars (k :: js) ++ ']' :: rest) := by simp [chars]
            rw [htext, hbegin, hlexed, Option.map_map]
            rfl
          · have hopen : (.beginArray :: ts ++ more).foldlM Progress.step ⟨stack, e⟩ =
                (ts ++ more).foldlM Progress.step ⟨.array [] :: stack, .firstItem⟩ := by
              rcases he with rfl | rfl <;> rfl
            rw [hopen, hread _ _ _ _ (.inr rfl)]
            rfl
  | @obj fields _ ih =>
      have hbegin : ∀ rest, tokensFrom 0 ('\x7b' :: rest) =
          (tokensFrom 0 rest).map (.beginObject :: ·) := tokensFrom_mark (fun _ => rfl) (by decide)
      cases fields with
      | nil =>
          have hend : ∀ rest, tokensFrom 0 ('\x7d' :: rest) =
              (tokensFrom 0 rest).map (.endObject :: ·) :=
                tokensFrom_mark (fun _ => rfl) (by decide)
          refine ⟨[.beginObject, .endObject], fun rest _ => ?_, fun stack e more he => ?_⟩
          · show tokensFrom 0 ('\x7b' :: '\x7d' :: rest) = _
            rw [hbegin, hend, Option.map_map]
            rfl
          · rcases he with rfl | rfl <;> rfl
      | cons f fs =>
          obtain ⟨ts, hlexed, hread⟩ := exists_tokens_fields ih (List.cons_ne_nil f fs)
          refine ⟨.beginObject :: ts, fun rest _ => ?_, fun stack e more he => ?_⟩
          · have htext : (Json.obj (f :: fs)).chars ++ rest =
                '\x7b' :: (fieldsChars (f :: fs) ++ '\x7d' :: rest) := by simp [chars]
            rw [htext, hbegin, hlexed, Option.map_map]
            rfl
          · have hopen : (.beginObject :: ts ++ more).foldlM Progress.step ⟨stack, e⟩ =
                (ts ++ more).foldlM Progress.step ⟨stack, .firstKey⟩ := by
              rcases he with rfl | rfl <;> rfl
            rw [hopen, hread _ _ _ _ (.inr ⟨rfl, rfl⟩)]
            rfl

/-- The compact text of a document parses to the document. -/
theorem parse_render (h : Spelled j) : parse j.render = some j := by
  obtain ⟨ts, hlexed, hread⟩ := h.exists_tokens
  have htokens : tokens j.render = some ts := by
    have hnil := hlexed [] nofun
    rw [List.append_nil] at hnil
    rw [tokens, render, String.toList_ofList, hnil]
    simp [tokensFrom]
  have hfold := hread [] .value [] (.inl rfl)
  rw [List.append_nil] at hfold
  rw [parse, htokens, Option.bind_some, ofTokens, Progress.start, hfold]
  rfl

/-! ## Typed data -/

theorem spelled_int (n : Int) : Spelled (.int n) := .number (Number.Literal.spelled_ofInt n)

theorem spelled_nat (n : Nat) : Spelled (.nat n) := spelled_int n

theorem spelled_map {α : Type} {toJson : α → Json} {as : List α}
    (h : ∀ a ∈ as, Spelled (toJson a)) : Spelled (.arr (as.map toJson)) := by
  refine .arr fun j hj => ?_
  obtain ⟨a, ha, rfl⟩ := List.mem_map.mp hj
  exact h a ha

theorem bound32_le_bound64 : bound32 ≤ bound64 := Nat.pow_le_pow_right (by decide) (by decide)

theorem toNat_lt_bound64 (n : UInt64) : n.toNat < bound64 := by
  simpa [bound64, Number.pow2] using n.toNat_lt

theorem nat?_nat {n bound : Nat} (hn : n < bound) (hbound : bound ≤ bound64) :
    (nat n).nat? bound = some n := by
  have hlow : Int64.minValue.toInt ≤ (n : Int) :=
    Int.le_trans (b := 0) (by decide) (Int.natCast_nonneg n)
  have hhigh : (n : Int) < (Number.pow2 64 : Int) := Int.ofNat_lt.mpr (Nat.lt_of_lt_of_le hn hbound)
  simp [nat, int, nat?, integer?_ofInt hlow hhigh, hn]

/-- A list is read item by item. -/
theorem list?_map {α β : Type} {toJson : α → Json} {item? : Json → Option β}
    {f : α → β} {as : List α} (h : ∀ a ∈ as, item? (toJson a) = some (f a)) :
    (Json.arr (as.map toJson)).list? item? = some (as.map f) := by
  show (as.map toJson).mapM item? = some (as.map f)
  induction as with
  | nil => rfl
  | cons a as ih =>
      obtain ⟨ha, has⟩ := List.forall_mem_cons.mp h
      simp [ha, ih has]

/-- A list whose items read back reads back. -/
theorem list?_map_self {α : Type} {toJson : α → Json} {item? : Json → Option α} {as : List α}
    (h : ∀ a ∈ as, item? (toJson a) = some a) :
    (Json.arr (as.map toJson)).list? item? = some as := by
  rw [list?_map (f := id) h, List.map_id]

end CausalTrace.Json
