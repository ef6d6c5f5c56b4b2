import Constructions.Json.Parse
import Constructions.TypingError
import Mathlib.Data.List.Basic
import Mathlib.Data.List.TakeDrop

/-!
# JSON texts are read back

* `Json.renderStr_reads`, `Json.readNumber_toDigits` -- strings and integers are read back, whatever
  follows them.
* `Json.ReadsAs` -- a text is read as a value; `Json.Collects` -- a text is read as one more item or
  field of a body; `Json.Brackets.readsAs` -- the text of a list or an object is read as one if the
  texts of its parts are.
* `Json.Exact` -- the values that their texts determine; `Json.Exact.parse_text` -- such a value is
  read back from its text, in every layout.
* `TypingError.parse_render` -- **the text of a report is read back as the report**.
-/

namespace Constructions

namespace Json

/-! ## 1. Strings -/

/-- The hexadecimal escape of a control character has four digits, which spell it. -/
theorem hexText_four : ∀ n < 0x20, ∃ a b c d digits,
    (Text.hexText 4 n).toList = [a, b, c, d] ∧ [a, b, c, d].mapM Text.hexDigit? = some digits
      ∧ Text.ofDigits 16 digits = n := by
  have h : ∀ n < 0x20, (Text.hexText 4 n).toList.length = 4
      ∧ ((Text.hexText 4 n).toList.mapM Text.hexDigit?).map (Text.ofDigits 16) = some n := by
    decide
  intro n hn
  obtain ⟨hlength, hvalue⟩ := h n hn
  obtain ⟨digits, hdigits, hsum⟩ := Option.map_eq_some_iff.mp hvalue
  match hlist : (Text.hexText 4 n).toList, hlength with
  | [a, b, c, d], _ => exact ⟨a, b, c, d, digits, rfl, hlist ▸ hdigits, hsum⟩

/-- A character that needs no escape is read as it is. -/
theorem readUnits_plain {c : Char} (hquote : c ≠ '\x22') (hslash : c ≠ '\\')
    (hcontrol : ¬ c.toNat < 0x20) (done : List Nat) (rest : List Char) :
    readUnits done (c :: rest) = readUnits (c.toNat :: done) rest := by
  rw [readUnits]
  · simp [hcontrol, hslash]
  · exact hquote
  · rintro _ _ _ _ _ rfl
    exact fun _ => hslash rfl
  · rintro _ _ rfl
    exact fun _ => hslash rfl

/-- A character is read back from the form that it has in a string. -/
theorem readUnits_escape (done : List Nat) (c : Char) (rest : List Char) :
    readUnits done ((escape c).toList ++ rest) = readUnits (c.toNat :: done) rest := by
  unfold escape
  split_ifs with h₁ h₂ h₃ h₄ h₅ h₆ h₇ h₈
  · subst h₁; rfl
  · subst h₂; rfl
  · subst h₃; rfl
  · subst h₄; rfl
  · subst h₅; rfl
  · subst h₆; rfl
  · subst h₇; rfl
  · obtain ⟨a, b, d, e, digits, htext, hdigits, hsum⟩ := hexText_four c.toNat h₈
    rw [String.toList_append, htext]
    show readUnits done ('\\' :: 'u' :: a :: b :: d :: e :: rest) = _
    rw [readUnits, hdigits]
    simp only [hsum]
  · rw [Char.toString_eq_singleton, String.toList_singleton]
    exact readUnits_plain h₁ h₂ h₈ done rest

theorem readUnits_escapes (s : List Char) (done : List Nat) (rest : List Char) :
    readUnits done (s.flatMap (fun c => (escape c).toList) ++ '\x22' :: rest)
      = .ok (done.reverse ++ s.map Char.toNat, rest) := by
  induction s generalizing done with
  | nil => simp [readUnits]
  | cons c s ih =>
    rw [List.flatMap_cons, List.append_assoc, readUnits_escape, ih]
    simp

/-- No character is half of a pair, so that characters are never joined. -/
theorem joinUnits_toNat (s : List Char) : joinUnits (s.map Char.toNat) = s := by
  induction s with
  | nil => rfl
  | cons c s ih =>
    -- the first half of a pair is a number that no character has
    have hc : ¬ (0xD800 ≤ c.toNat ∧ c.toNat < 0xDC00) := by
      have := c.valid
      unfold UInt32.isValidChar Nat.isValidChar at this
      have : c.val.toNat = c.toNat := rfl
      omega
    cases s with
    | nil => simp [joinUnits]
    | cons d s =>
      rw [List.map_cons, List.map_cons, joinUnits, if_neg (fun h => hc ⟨h.1, h.2.1⟩),
        Char.ofNat_toNat, ← List.map_cons, ih]

/-- A string is read back from its text, whatever follows. -/
theorem renderStr_reads (s : String) (rest : List Char) :
    ∃ body, (renderStr s).toList ++ rest = '\x22' :: body ∧ readStr body = .ok (s, rest) := by
  refine ⟨s.toList.flatMap (fun c => (escape c).toList) ++ '\x22' :: rest, ?_, ?_⟩
  · simp [renderStr, String.toList_join, List.flatMap_map]
  · rw [readStr, readUnits_escapes, List.reverse_nil, List.nil_append]
    show Except.ok (String.ofList (joinUnits (s.toList.map Char.toNat)), rest) = _
    rw [joinUnits_toNat, String.ofList_toList]

/-! ## 2. Integers -/

/-- What may follow a number: nothing that would make it longer. -/
def EndsNumber (rest : List Char) : Prop :=
  ∀ c ∈ rest.head?, c.isDigit = false ∧ c ≠ '.' ∧ c ≠ 'e' ∧ c ≠ 'E'

theorem takeDigits_append {digits rest : List Char} (h : ∀ c ∈ digits, c.isDigit = true)
    (hrest : EndsNumber rest) : takeDigits (digits ++ rest) = (digits, rest) := by
  have hstop : rest.takeWhile Char.isDigit = [] ∧ rest.dropWhile Char.isDigit = rest := by
    cases rest with
    | nil => simp
    | cons c rest => simp [(hrest c rfl).1]
  rw [takeDigits, List.span_eq_takeWhile_dropWhile, List.takeWhile_append_of_pos h,
    List.dropWhile_append_of_pos h, hstop.1, hstop.2, List.append_nil]

theorem asciiDigit?_of_isDigit {c : Char} (h : c.isDigit = true) :
    Text.asciiDigit? c = some (c.toNat - '0'.toNat) := by
  have hc : '0' ≤ c ∧ c ≤ '9' := by
    simpa [Char.isDigit, Char.le_def] using h
  rw [Text.asciiDigit?, if_pos hc]
  rfl

/-- Decimal digits spell the number that they are the digits of. -/
theorem natOf_eq_ofDigitChars {digits : List Char} (h : ∀ c ∈ digits, c.isDigit = true) :
    natOf digits = Nat.ofDigitChars 10 digits 0 := by
  have hvalues : digits.filterMap Text.asciiDigit? = digits.map (·.toNat - '0'.toNat) := by
    rw [List.filterMap_congr fun c hc => asciiDigit?_of_isDigit (h c hc), List.filterMap_eq_map']
  rw [natOf, Text.ofDigits, hvalues, List.foldl_map, Nat.ofDigitChars_eq_foldl]
  simp only [Nat.mul_comm]

/-- The digits of a positive number do not begin with a zero. -/
theorem toDigits_head {n : Nat} (h : 0 < n) : (Nat.toDigits 10 n).head? ≠ some '0' := by
  induction n using Nat.strongRecOn with
  | ind n ih =>
    rw [Nat.toDigits_eq_if (by decide)]
    split
    · rename_i hn
      intro hzero
      have hvalue := Nat.toNat_digitChar_of_lt_ten hn
      rw [Option.some.inj hzero] at hvalue
      have : '0'.toNat = 48 := rfl
      omega
    · rename_i hn
      rw [List.head?_append_of_ne_nil _ Nat.toDigits_ne_nil]
      exact ih (n / 10) (by omega) (by omega)

section

variable {n : Nat} {rest : List Char} (hrest : EndsNumber rest)
include hrest

theorem takeWhole_toDigits :
    takeWhole (Nat.toDigits 10 n ++ rest) = some (Nat.toDigits 10 n, rest) := by
  have hdigits : ∀ c ∈ Nat.toDigits 10 n, c.isDigit = true := fun c hc =>
    Nat.isDigit_of_mem_toDigits (by decide) (by decide) hc
  have htake := takeDigits_append hdigits hrest
  rcases Nat.eq_zero_or_pos n with rfl | hpos
  · rfl
  · have hhead := toDigits_head hpos
    cases hlist : Nat.toDigits 10 n with
    | nil => exact absurd hlist Nat.toDigits_ne_nil
    | cons c digits =>
      rw [hlist] at hhead htake
      have hc : c ≠ '0' := fun h => hhead (congrArg some h)
      rw [List.cons_append] at htake ⊢
      rw [takeWhole, htake]
      intro r heq
      exact hc (List.cons.inj heq).1

theorem takeFraction_of_endsNumber : takeFraction rest = ([], rest) := by
  cases rest with
  | nil => rfl
  | cons c rest =>
    rw [takeFraction]
    intro r heq
    exact (hrest c rfl).2.1 (List.cons.inj heq).1

theorem takeExponent_of_endsNumber : takeExponent rest = (none, rest) := by
  cases rest with
  | nil => rfl
  | cons c rest =>
    obtain ⟨-, -, he, hE⟩ := hrest c rfl
    unfold takeExponent
    exact if_neg (by simp [he, hE])

/-- A number without point and exponent is read back from its digits. -/
theorem readNumber_toDigits (negative : Bool) (h : (Nat.toDigits 10 n).length ≤ Text.digitLimit) :
    readNumber negative (Nat.toDigits 10 n ++ rest)
      = .ok (.int (if negative then -(n : Int) else n), rest) := by
  have hdigits : ∀ c ∈ Nat.toDigits 10 n, c.isDigit = true := fun c hc =>
    Nat.isDigit_of_mem_toDigits (by decide) (by decide) hc
  have hvalue : natOf (Nat.toDigits 10 n) = n := by
    rw [natOf_eq_ofDigitChars hdigits, Nat.ofDigitChars_ten_toDigits]
  rw [readNumber, takeWhole_toDigits hrest]
  simp [takeFraction_of_endsNumber hrest, takeExponent_of_endsNumber hrest, Nat.not_lt.mpr h,
    hvalue]

end

/-! ## 3. Layout -/

/-- The characters that may stand between the parts of a value. -/
def IsBlank (c : Char) : Prop := c = ' ' ∨ c = '\t' ∨ c = '\n' ∨ c = '\r'

theorem skipBlanks_append {gap : List Char} (h : ∀ c ∈ gap, IsBlank c) (s : List Char) :
    skipBlanks (gap ++ s) = skipBlanks s :=
  List.dropWhile_append_of_pos fun c hc => by simpa [IsBlank, or_assoc] using h c hc

theorem skipBlanks_cons {c : Char} (h : ¬ IsBlank c) (s : List Char) :
    skipBlanks (c :: s) = c :: s :=
  List.dropWhile_cons_of_neg (by simpa [IsBlank, or_assoc] using h)

namespace Layout

variable (layout : Layout) (level : Nat)

theorem isBlank_of_mem_edge : ∀ c ∈ (layout.edge level).toList, IsBlank c := by
  cases layout with
  | line => simp [edge]
  | indented width =>
    intro c hc
    have hchar : c = '\n' ∨ c ∈ List.replicate (width * level) ' ' := by
      simpa [edge, -List.mem_replicate] using hc
    rcases hchar with rfl | hblank
    · exact .inr (.inr (.inl rfl))
    · exact .inl (List.eq_of_mem_replicate hblank)

/-- A comma stands between two items, and then blanks. -/
theorem separator_eq :
    ∃ gap, (layout.separator level).toList = ',' :: gap ∧ ∀ c ∈ gap, IsBlank c := by
  cases layout with
  | line => exact ⟨[' '], by simp [separator], by simp [IsBlank]⟩
  | indented width =>
    exact ⟨((indented width).edge level).toList, by simp [separator],
      isBlank_of_mem_edge (indented width) level⟩

end Layout

theorem endsNumber_append {gap s : List Char} (hgap : ∀ c ∈ gap, IsBlank c) (h : EndsNumber s) :
    EndsNumber (gap ++ s) := by
  cases gap with
  | nil => exact h
  | cons c gap =>
    intro d hd
    obtain rfl : c = d := by simpa using hd
    rcases hgap c List.mem_cons_self with rfl | rfl | rfl | rfl <;> decide

theorem endsNumber_cons {c : Char} (h : c = ',' ∨ c = ']' ∨ c = '\x7d') (s : List Char) :
    EndsNumber (c :: s) := by
  intro d hd
  obtain rfl : c = d := by simpa using hd
  rcases h with rfl | rfl | rfl <;> decide

/-- A text that does not begin with a blank, nor with what closes a list or an object. -/
def Opens (s : List Char) : Prop :=
  ∃ c t, s = c :: t ∧ ¬ IsBlank c ∧ c ≠ ']' ∧ c ≠ '\x7d'

theorem Opens.append {s : List Char} (h : Opens s) (t : List Char) : Opens (s ++ t) := by
  obtain ⟨c, u, rfl, hc⟩ := h
  exact ⟨c, u ++ t, rfl, hc⟩

theorem Opens.intercalate {s : List Char} (h : Opens s) (separator : List Char)
    (texts : List (List Char)) : Opens (separator.intercalate (s :: texts)) := by
  cases texts with
  | nil => rwa [List.intercalate_singleton]
  | cons t texts =>
    rw [List.intercalate_cons_cons, List.append_assoc]
    exact h.append _

theorem Opens.skipBlanks_eq {s : List Char} (h : Opens s) : skipBlanks s = s := by
  obtain ⟨c, t, rfl, hc, -⟩ := h
  exact skipBlanks_cons hc t

theorem Opens.skipBlanks_append {s : List Char} (h : Opens s) {gap : List Char}
    (hgap : ∀ c ∈ gap, IsBlank c) : skipBlanks (gap ++ s) = s := by
  rw [Json.skipBlanks_append hgap, h.skipBlanks_eq]

/-! ## 4. Lists and objects -/

/-- One round of a reader that collects elements up to a closing character: it reads the element `x`
    from the text `s`, whatever follows; after a comma it goes on, and at the closing character it
    ends.  Two units of the reader's bound for each character are enough. -/
structure Collects {α β γ : Type} (loop : Nat → γ → List Char → Except Fault (β × List Char))
    (add : γ → α → γ) (finish : γ → β) (close : Char) (s : List Char) (x : α) : Prop where
  opens : Opens s
  last : ∀ fuel done after rest, EndsNumber after → 2 * s.length ≤ fuel →
    skipBlanks after = close :: rest →
    loop (fuel + 1) done (s ++ after) = .ok (finish (add done x), rest)
  more : ∀ fuel done after rest, EndsNumber after → 2 * s.length ≤ fuel →
    skipBlanks after = ',' :: rest →
    loop (fuel + 1) done (s ++ after) = loop fuel (add done x) (skipBlanks rest)

/-- **All elements are collected** from their texts with commas between them. -/
theorem Collects.intercalate {α β γ : Type}
    {loop : Nat → γ → List Char → Except Fault (β × List Char)} {add : γ → α → γ} {finish : γ → β}
    {close : Char} (hclose : close = ']' ∨ close = '\x7d') {write : α → List Char}
    {gap tail : List Char} (hgap : ∀ c ∈ gap, IsBlank c) (htail : ∀ c ∈ tail, IsBlank c)
    {xs : List α} (hne : xs ≠ []) (hxs : ∀ x ∈ xs, Collects loop add finish close (write x) x)
    (done : γ) (rest : List Char) {fuel : Nat}
    (hfuel : 2 * ((',' :: gap).intercalate (xs.map write)).length < fuel) :
    loop fuel done ((',' :: gap).intercalate (xs.map write) ++ (tail ++ close :: rest))
      = .ok (finish (xs.foldl add done), rest) := by
  -- on the elements: each takes one unit of the bound, and has a character of its own to pay for it
  induction xs generalizing done fuel with
  | nil => exact absurd rfl hne
  | cons x xs ih =>
    have hx := hxs x List.mem_cons_self
    obtain ⟨fuel, rfl⟩ := Nat.exists_eq_succ_of_ne_zero (Nat.ne_zero_of_lt hfuel)
    cases xs with
    | nil =>
      have hends : EndsNumber (tail ++ close :: rest) :=
        endsNumber_append htail (endsNumber_cons (.inr hclose) rest)
      have hafter : skipBlanks (tail ++ close :: rest) = close :: rest := by
        rw [skipBlanks_append htail, skipBlanks_cons]
        rcases hclose with rfl | rfl <;> simp [IsBlank]
      rw [List.map_singleton, List.intercalate_singleton] at hfuel ⊢
      exact hx.last fuel done _ rest hends (by omega) hafter
    | cons y ys =>
      have hopens := (hxs y (by simp)).opens.intercalate (',' :: gap) (ys.map write)
      rw [List.map_cons, List.map_cons, List.intercalate_cons_cons] at hfuel ⊢
      simp only [List.length_append, List.length_cons] at hfuel
      rw [List.append_assoc, List.append_assoc, List.cons_append,
        hx.more fuel done _ _ (endsNumber_cons (.inl rfl) _) (by omega)
          (skipBlanks_cons (by simp [IsBlank]) _),
        (hopens.append _).skipBlanks_append hgap, ← List.map_cons]
      exact ih (by simp) (fun z hz => hxs z (List.mem_cons_of_mem x hz)) (add done x)
        (by simp; omega)

/-- The text `s` is read as `j`, whatever follows it. -/
structure ReadsAs (s : List Char) (j : Json) : Prop where
  opens : Opens s
  reads : ∀ fuel rest, EndsNumber rest → 2 * s.length ≤ fuel →
    readValue fuel (s ++ rest) = .ok (j, rest)

/-- The text of a field. -/
def fieldText (key : String) (s : List Char) : List Char :=
  (renderStr key).toList ++ ':' :: ' ' :: s

/-- How an object goes on after the field that was read last. -/
def afterField (fuel : Nat) (done : List (String × Json)) (after : List Char) :
    Except Fault (List (String × Json) × List Char) :=
  match skipBlanks after with
  | '\x7d' :: rest => .ok (done, rest)
  | ',' :: rest => readFields fuel done (skipBlanks rest)
  | _ => .error .malformed

namespace ReadsAs

variable {s : List Char} {j : Json} (h : ReadsAs s j)
include h

theorem collects : Collects readItems (fun done j => j :: done) List.reverse ']' s j where
  opens := h.opens
  last fuel done after rest hends hfuel hafter := by
    rw [readItems, h.reads fuel after hends hfuel]
    simp only [bind, Except.bind, hafter]
  more fuel done after rest hends hfuel hafter := by
    rw [readItems, h.reads fuel after hends hfuel]
    simp only [bind, Except.bind, hafter]

/-- A field is read, and what follows decides how the object goes on. -/
theorem readFields_fieldText (key : String) {fuel : Nat} (done : List (String × Json))
    {after : List Char} (hends : EndsNumber after) (hfuel : 2 * (fieldText key s).length ≤ fuel) :
    readFields (fuel + 1) done (fieldText key s ++ after)
      = afterField fuel (Assoc.put key j done) after := by
  obtain ⟨body, hbody, hkey⟩ := renderStr_reads key (':' :: ' ' :: (s ++ after))
  have htext : fieldText key s ++ after = '\x22' :: body := by
    rw [← hbody, fieldText, List.append_assoc]
    rfl
  have hcolon : skipBlanks (':' :: ' ' :: (s ++ after)) = ':' :: ' ' :: (s ++ after) :=
    skipBlanks_cons (by simp [IsBlank]) _
  have hvalue : skipBlanks (' ' :: (s ++ after)) = s ++ after :=
    (h.opens.append after).skipBlanks_append fun c hc => .inl (List.mem_singleton.mp hc)
  have hlength : s.length ≤ (fieldText key s).length := by
    rw [fieldText, List.length_append, List.length_cons, List.length_cons]
    omega
  rw [htext, readFields, hkey]
  simp only [bind, Except.bind, hcolon, hvalue, h.reads fuel after hends (by omega)]
  rfl

theorem collects_field (key : String) :
    Collects readFields (fun done f => Assoc.put f.1 f.2 done) id '\x7d' (fieldText key s)
      (key, j) where
  opens := by
    obtain ⟨body, hbody, -⟩ := renderStr_reads key (':' :: ' ' :: s)
    exact ⟨'\x22', body, hbody, by simp [IsBlank]⟩
  last fuel done after rest hends hfuel hafter := by
    simp only [h.readFields_fieldText key done hends hfuel, afterField, hafter, id_eq]
  more fuel done after rest hends hfuel hafter := by
    simp only [h.readFields_fieldText key done hends hfuel, afterField, hafter]

end ReadsAs

/-! ## 5. Values -/

/-- A value that its text determines: there is no floating point number in it, its integers have at
    most `Text.digitLimit` digits, and no object has a key twice. -/
inductive Exact : Json → Prop
  | null : Exact null
  | bool (b : Bool) : Exact (bool b)
  | int {n : Int} (h : (Nat.toDigits 10 n.natAbs).length ≤ Text.digitLimit) : Exact (int n)
  | str (s : String) : Exact (str s)
  | arr {items : List Json} (h : ∀ j ∈ items, Exact j) : Exact (arr items)
  | obj {fields : List (String × Json)} (hkeys : (fields.map (·.1)).Nodup)
      (h : ∀ f ∈ fields, Exact f.2) : Exact (obj fields)

@[simp] theorem exact_null : Exact null := .null

@[simp] theorem exact_bool (b : Bool) : Exact (bool b) := .bool b

@[simp] theorem exact_str (s : String) : Exact (str s) := .str s

@[simp] theorem exact_int_iff {n : Int} :
    Exact (int n) ↔ (Nat.toDigits 10 n.natAbs).length ≤ Text.digitLimit := by
  refine ⟨fun h => ?_, .int⟩
  cases h
  assumption

@[simp] theorem exact_arr_iff {items : List Json} : Exact (arr items) ↔ ∀ j ∈ items, Exact j := by
  refine ⟨fun h => ?_, .arr⟩
  cases h
  assumption

@[simp] theorem exact_obj_iff {fields : List (String × Json)} :
    Exact (obj fields) ↔ (fields.map (·.1)).Nodup ∧ ∀ f ∈ fields, Exact f.2 := by
  refine ⟨fun h => ?_, fun h => .obj h.1 h.2⟩
  cases h
  exact ⟨‹_›, ‹_›⟩

/-- A text is read as `j` if it is so from any positive bound on. -/
theorem ReadsAs.of_succ {s : List Char} {j : Json} (hopens : Opens s)
    (h : ∀ fuel rest, EndsNumber rest → 2 * s.length ≤ fuel + 1 →
      readValue (fuel + 1) (s ++ rest) = .ok (j, rest)) : ReadsAs s j where
  opens := hopens
  reads fuel rest hends hfuel := by
    have hpos : 0 < s.length := by
      obtain ⟨c, t, rfl, -⟩ := hopens
      exact Nat.succ_pos _
    obtain ⟨fuel, rfl⟩ := Nat.exists_eq_succ_of_ne_zero (show fuel ≠ 0 by omega)
    exact h fuel rest hends hfuel

theorem readWord_append (word : String) (j : Json) (rest : List Char) :
    readWord word j (word.toList ++ rest) = .ok (j, rest) := by
  rw [readWord, if_pos ( List.isPrefixOf_iff_prefix.mpr (List.prefix_append _ _)),
    ← String.length_toList, List.drop_left]

/-- A number is read where a digit stands. -/
theorem readValue_digit {c : Char} (h : c.isDigit = true) (fuel : Nat) (rest : List Char) :
    readValue (fuel + 1) (c :: rest) = readNumber false (c :: rest) := by
  rw [readValue]
  case x_3 => exact List.cons_ne_nil c rest
  all_goals
    intro tail heq
    rw [(List.cons.inj heq).1] at h
    revert h
    decide

/-- A negative number is read where a minus and a digit stand. -/
theorem readValue_minus {c : Char} (h : c.isDigit = true) (fuel : Nat) (rest : List Char) :
    readValue (fuel + 1) ('-' :: c :: rest) = readNumber true (c :: rest) := by
  rw [readValue]
  intro tail heq
  rw [(List.cons.inj heq).1] at h
  revert h
  decide

theorem opens_of_isDigit {c : Char} (h : c.isDigit = true) (t : List Char) : Opens (c :: t) := by
  refine ⟨c, t, rfl, ?_, ?_, ?_⟩
  · rintro (rfl | rfl | rfl | rfl) <;> revert h <;> decide
  · rintro rfl
    revert h
    decide
  · rintro rfl
    revert h
    decide

theorem readsAs_int {n : Int} (h : (Nat.toDigits 10 n.natAbs).length ≤ Text.digitLimit) :
    ReadsAs (toString n).toList (int n) := by
  obtain ⟨c, digits, hdigits⟩ :=
    List.exists_cons_of_ne_nil (Nat.toDigits_ne_nil (b := 10) (n := n.natAbs))
  have hc : c.isDigit = true :=
    Nat.isDigit_of_mem_toDigits (by decide) (by decide) (hdigits ▸ List.mem_cons_self)
  cases n with
  | ofNat n =>
    have htext : (toString (Int.ofNat n)).toList = Nat.toDigits 10 n := by
      show n.repr.toList = _
      rw [Nat.repr_eq_ofList_toDigits, String.toList_ofList]
    have hdigits : Nat.toDigits 10 n = c :: digits := hdigits
    rw [htext]
    refine .of_succ (hdigits ▸ opens_of_isDigit hc digits) fun fuel rest hends _ => ?_
    have hread := readNumber_toDigits hends false h
    rw [show (Int.ofNat n).natAbs = n from rfl, hdigits, List.cons_append] at hread
    rw [hdigits, List.cons_append, readValue_digit hc, hread]
    rfl
  | negSucc n =>
    have htext : (toString (Int.negSucc n)).toList = '-' :: Nat.toDigits 10 (n + 1) := by
      show ("-" ++ (n + 1).repr).toList = _
      rw [String.toList_append, Nat.repr_eq_ofList_toDigits,
        String.toList_ofList (l := Nat.toDigits 10 (n + 1))]
      rfl
    have hdigits : Nat.toDigits 10 (n + 1) = c :: digits := hdigits
    rw [htext]
    refine .of_succ ⟨'-', _, rfl, by simp [IsBlank]⟩ fun fuel rest hends _ => ?_
    have hread := readNumber_toDigits hends true h
    rw [show (Int.negSucc n).natAbs = n + 1 from rfl, hdigits, List.cons_append] at hread
    rw [hdigits, List.cons_append, List.cons_append, readValue_minus hc, hread]
    rfl

theorem renderItems_eq_map (layout : Layout) (level : Nat) (items : List Json) :
    renderItems layout level items = items.map (renderAt layout level) := by
  induction items with
  | nil => rw [renderItems, List.map_nil]
  | cons j items ih => rw [renderItems, ih, List.map_cons]

theorem renderFields_eq_map (layout : Layout) (level : Nat) (fields : List (String × Json)) :
    renderFields layout level fields
      = fields.map fun f => renderStr f.1 ++ ": " ++ renderAt layout level f.2 := by
  induction fields with
  | nil => rw [renderFields, List.map_nil]
  | cons f fields ih => rw [renderFields, ih, List.map_cons]

/-- Between its brackets a list or an object has the texts of its elements, commas between them, and
    blanks. -/
theorem toList_bracketed (layout : Layout) (level : Nat) (left right : String) {texts : List String}
    (h : texts ≠ []) :
    ∃ edge gap tail, (∀ c ∈ edge, IsBlank c) ∧ (∀ c ∈ gap, IsBlank c) ∧ (∀ c ∈ tail, IsBlank c)
      ∧ (bracketed layout level left right texts).toList = left.toList
          ++ (edge ++ ((',' :: gap).intercalate (texts.map String.toList)
            ++ (tail ++ right.toList))) := by
  obtain ⟨gap, hseparator, hgap⟩ := layout.separator_eq (level + 1)
  refine ⟨_, gap, _, layout.isBlank_of_mem_edge (level + 1), hgap, layout.isBlank_of_mem_edge level,
    ?_⟩
  have hempty : ¬ texts.isEmpty = true := by simpa using h
  rw [bracketed, if_neg hempty]
  simp only [String.toList_append, String.toList_intercalate, hseparator, List.append_assoc]

/-- What stands between `opening` and `close` is what `loop` collects from `start` on, made into a
    value by `make`. -/
structure Brackets {β γ : Type} (loop : Nat → γ → List Char → Except Fault (β × List Char))
    (start : γ) (finish : γ → β) (make : β → Json) (opening close : Char) : Prop where
  begins : ¬ IsBlank opening ∧ opening ≠ ']' ∧ opening ≠ '\x7d'
  ends : close = ']' ∨ close = '\x7d'
  empty : ∀ fuel rest,
    readValue (fuel + 1) (opening :: close :: rest) = .ok (make (finish start), rest)
  full : ∀ fuel gap s found rest, (∀ c ∈ gap, IsBlank c) → Opens s →
    loop fuel start s = .ok (found, rest) →
    readValue (fuel + 1) (opening :: (gap ++ s)) = .ok (make found, rest)

theorem brackets_arr : Brackets readItems [] List.reverse arr '[' ']' where
  begins := by simp [IsBlank]
  ends := .inl rfl
  empty _ _ := rfl
  full fuel gap s found rest hgap hs h := by
    have hskip := hs.skipBlanks_append hgap
    obtain ⟨c, t, rfl, -, hc, -⟩ := hs
    rw [readValue, hskip]
    split
    · rename_i heq
      exact absurd (List.cons.inj heq).1 hc
    · rw [h]
      rfl

theorem brackets_obj : Brackets readFields [] id obj '\x7b' '\x7d' where
  begins := by simp [IsBlank]
  ends := .inr rfl
  empty _ _ := rfl
  full fuel gap s found rest hgap hs h := by
    have hskip := hs.skipBlanks_append hgap
    obtain ⟨c, t, rfl, -, -, hc⟩ := hs
    rw [readValue, hskip]
    split
    · rename_i heq
      exact absurd (List.cons.inj heq).1 hc
    · rw [h]
      rfl

/-- **A list or an object is read back** if its elements are collected. -/
theorem Brackets.readsAs {α β γ : Type}
    {loop : Nat → γ → List Char → Except Fault (β × List Char)} {add : γ → α → γ} {start : γ}
    {finish : γ → β} {make : β → Json} {opening close : Char}
    (h : Brackets loop start finish make opening close) (left right : String)
    (hleft : left.toList = [opening]) (hright : right.toList = [close]) (layout : Layout)
    (level : Nat) {xs : List α} {write : α → String}
    (hxs : ∀ x ∈ xs, Collects loop add finish close (write x).toList x) :
    ReadsAs (bracketed layout level left right (xs.map write)).toList
      (make (finish (xs.foldl add start))) := by
  cases xs with
  | nil =>
    have htext : (bracketed layout level left right []).toList = [opening, close] := by
      simp [bracketed, hleft, hright]
    rw [List.map_nil, htext]
    exact .of_succ ⟨opening, [close], rfl, h.begins⟩ fun fuel rest _ _ => h.empty fuel rest
  | cons x xs =>
    obtain ⟨edge, gap, tail, hedge, hgap, htail, htext⟩ :=
      toList_bracketed layout level left right (show (x :: xs).map write ≠ [] by simp)
    rw [htext, hleft, hright, List.map_map, Function.comp_def]
    refine .of_succ ⟨opening, _, rfl, h.begins⟩ fun fuel rest _ hfuel => ?_
    have hopens := (hxs x List.mem_cons_self).opens.intercalate (',' :: gap)
      (xs.map fun x => (write x).toList)
    simp only [List.cons_append, List.nil_append, List.append_assoc, List.length_cons,
      List.length_append] at hfuel ⊢
    refine h.full fuel edge _ _ rest hedge (hopens.append _) ?_
    exact Collects.intercalate h.ends hgap htail (List.cons_ne_nil x xs) hxs start rest (by omega)

/-- **A value is read back from its text.** -/
theorem Exact.readsAs {j : Json} (h : Exact j) (layout : Layout) (level : Nat) :
    ReadsAs (renderAt layout level j).toList j := by
  induction h generalizing level with
  | null =>
    rw [renderAt]
    refine .of_succ ⟨'n', ['u', 'l', 'l'], rfl, by simp [IsBlank]⟩ fun fuel rest _ _ => ?_
    exact readWord_append "null" .null rest
  | bool b =>
    rw [renderAt]
    cases b with
    | false =>
      refine .of_succ ⟨'f', ['a', 'l', 's', 'e'], rfl, by simp [IsBlank]⟩ fun fuel rest _ _ => ?_
      exact readWord_append "false" (.bool false) rest
    | true =>
      refine .of_succ ⟨'t', ['r', 'u', 'e'], rfl, by simp [IsBlank]⟩ fun fuel rest _ _ => ?_
      exact readWord_append "true" (.bool true) rest
  | int h => exact readsAs_int h
  | str s =>
    refine .of_succ ?_ fun fuel rest _ _ => ?_
    · obtain ⟨body, hbody, -⟩ := renderStr_reads s []
      rw [List.append_nil] at hbody
      exact ⟨'\x22', body, hbody, by simp [IsBlank]⟩
    · obtain ⟨body, hbody, hread⟩ := renderStr_reads s rest
      rw [renderAt, hbody, readValue, hread]
      rfl
  | @arr items h ih =>
    -- the items are collected last first, and turned round at the end
    have hread := brackets_arr.readsAs "[" "]" rfl rfl layout level
      (fun j hj => (ih j hj (level + 1)).collects)
    rw [List.foldl_flip_cons_eq_append, List.append_nil, List.map_id',
      List.reverse_reverse] at hread
    rw [renderAt, renderItems_eq_map]
    exact hread
  | @obj fields hkeys h ih =>
    have hfields : ∀ f ∈ fields, Collects readFields (fun done f => Assoc.put f.1 f.2 done) id
        '\x7d' (renderStr f.1 ++ ": " ++ renderAt layout (level + 1) f.2).toList f := by
      intro f hf
      have htext : (renderStr f.1 ++ ": " ++ renderAt layout (level + 1) f.2).toList
          = fieldText f.1 (renderAt layout (level + 1) f.2).toList := by
        simp [fieldText]
      rw [htext]
      exact (ih f hf (level + 1)).collects_field f.1
    have hread := brackets_obj.readsAs "\x7b" "\x7d" rfl rfl layout level hfields
    -- a key that came before would keep its place, so the order needs that no key comes twice
    have hput : fields.foldl (fun done f => Assoc.put f.1 f.2 done) [] = fields :=
      Assoc.foldl_put hkeys
    rw [hput] at hread
    rw [renderAt, renderFields_eq_map]
    exact hread

/-- **A text is read back as a whole.** -/
theorem Exact.parse_text {j : Json} (h : Exact j) (layout : Layout) :
    parse (j.render layout).toList = .ok j := by
  have hread := h.readsAs layout 0
  have hskip : skipBlanks (j.render layout).toList = (j.render layout).toList :=
    hread.opens.skipBlanks_eq
  have hvalue := hread.reads (2 * (j.render layout).toList.length + 2) []
    (fun _ hc => absurd hc (by simp)) (Nat.le_add_right _ 2)
  rw [List.append_nil] at hvalue
  rw [parse, hskip]
  show (readValue _ (renderAt layout 0 j).toList >>= _) = _
  rw [hvalue]
  rfl

end Json

/-! ## 6. Typing errors -/

namespace TypingError

/-- A cause whose facts can be written exactly.  Apart from facts that are given as they are, only
    the step cap is not a text or a list of texts. -/
def Exact : TypingError → Prop
  | other _ facts => (Json.obj facts).Exact
  | reductionLimit _ cap => (Json.int cap).Exact
  | _ => True

theorem exact_incompatibleDetails (e T : Rendered) (accepted : List Rendered) :
    (Json.obj (incompatibleDetails e T accepted)).Exact := by
  simp [incompatibleDetails]

theorem Exact.details {x : TypingError} (h : x.Exact) : (Json.obj x.details).Exact := by
  cases x with
  | other _ facts => exact h
  | noRule => simp [TypingError.details]
  | redeclaration x T U => simp [TypingError.details]
  | unknownVariable x => simp [TypingError.details]
  | incompatible e T accepted _ => exact exact_incompatibleDetails e T accepted
  | notFunction f T => exact exact_incompatibleDetails f T []
  | undefinedType e => simp [TypingError.details]
  | reductionLimit e cap =>
    have hcap : (Json.int cap).Exact := h
    simpa [TypingError.details] using hcap

theorem Exact.toJson {x : TypingError} (h : x.Exact) : x.toJson.Exact := by
  have hdetails := h.details
  unfold TypingError.toJson
  split
  · simp
  · simpa using hdetails

/-- **The text of a report is read back as the report**, field by field in the same order, whatever
    its message, names and expressions are and whatever layout it is written in. -/
theorem parse_render (x : TypingError) (h : x.Exact) (indent : Option Int) :
    Json.parse (x.render (.ofIndent indent)).toList = .ok x.toJson :=
  h.toJson.parse_text (.ofIndent indent)

/-- Escapes, signs outside of ASCII, empty containers and nesting, in all kinds of layout. -/
theorem parse_render_nested :
    let x : TypingError := .other "λ\x00\"\\\n□"
      [("", .arr [.int (-10), .obj [("\t", .null)]]), ("/", .obj [])]
    x.Exact
      ∧ x.render (.ofIndent none) = "\x7b\"kind\": \"generic\", \"message\": "
          ++ "\"λ\\u0000\\\"\\\\\\n□\", \"details\": "
          ++ "\x7b\"\": [-10, \x7b\"\\t\": null\x7d], \"/\": \x7b\x7d\x7d\x7d"
      ∧ ∀ indent ∈ [none, some 0, some (-1), some 2],
          Json.parse (x.render (.ofIndent indent)).toList = .ok x.toJson := by
  intro x
  have hx : x.Exact := by
    have hint : (Json.int (-10)).Exact := .int (by decide)
    simpa [x, Exact] using hint
  exact ⟨hx, by decide +kernel, fun indent _ => parse_render x hx indent⟩

end TypingError

end Constructions
