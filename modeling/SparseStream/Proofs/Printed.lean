import Mathlib.Data.List.DropRight
import Mathlib.Data.List.TakeDrop
import Mathlib.Data.Option.Basic
import SparseStream.Proofs.Spelling

/-! The plain library reads every text of a document. The text of a value ends where the value ends,
whatever follows it, so each part is read from the front of what is left. -/
namespace SparseStream.Json

/-- A number does not go on with these characters, nor does any other value. -/
def Closes (rest : List Char) : Prop :=
  ∀ c ∈ rest.head?, c ∈ [' ', '\n', '\t', '\r', ',', ']', '\x7d']

/-! ### Numbers -/

/-- No digit, no point and no power follow. -/
theorem Closes.cons {c : Char} {rest : List Char} (closes : Closes (c :: rest)) :
    isDigit c = false ∧ c ≠ '.' ∧ c ≠ 'e' ∧ c ≠ 'E' := by
  have member := closes c rfl
  simp only [List.mem_cons, List.not_mem_nil, or_false] at member
  rcases member with rfl | rfl | rfl | rfl | rfl | rfl | rfl <;> decide

/-- A number other than zero has no zero in front. -/
theorem head?_toDigits_ne_zero {n : Nat} (positive : 0 < n) :
    (Nat.toDigits 10 n).head? ≠ some '0' := by
  induction n using Nat.strongRecOn with
  | ind n ih =>
    intro same
    rw [Nat.toDigits_eq_if (by decide)] at same
    split at same
    · have zero := Nat.digitChar_eq_zero.mp (Option.some.inj same)
      omega
    · rw [List.head?_append, Option.or_eq_some_iff] at same
      rcases same with first | ⟨empty, -⟩
      · exact ih (n / 10) (by omega) (by omega) first
      · exact Nat.toDigits_ne_nil (List.head?_eq_none_iff.mp empty)

theorem isDigit_of_mem_toDigits {n : Nat} {c : Char} (member : c ∈ Nat.toDigits 10 n) :
    isDigit c = true :=
  Nat.isDigit_of_mem_toDigits (by decide) (by decide) member

/-- A number has a first digit. -/
theorem exists_toDigits_eq_cons (n : Nat) :
    ∃ c cs, Nat.toDigits 10 n = c :: cs ∧ isDigit c = true := by
  cases found : Nat.toDigits 10 n with
  | nil => exact absurd found Nat.toDigits_ne_nil
  | cons c cs => exact ⟨c, cs, rfl, isDigit_of_mem_toDigits (found ▸ List.mem_cons_self)⟩

theorem digits_toDigits (n : Nat) {rest : List Char} (closes : Closes rest) :
    digits (Nat.toDigits 10 n ++ rest) = some (Nat.toDigits 10 n, rest) := by
  have digit : ∀ c ∈ Nat.toDigits 10 n, isDigit c = true := fun c => isDigit_of_mem_toDigits
  have stop : rest.takeWhile isDigit = [] ∧ rest.dropWhile isDigit = rest := by
    cases rest with
    | nil => exact ⟨rfl, rfl⟩
    | cons c rest => simp [closes.cons.1]
  have whole : (Nat.toDigits 10 n ++ rest).span isDigit = (Nat.toDigits 10 n, rest) := by
    rw [List.span_eq_takeWhile_dropWhile, List.takeWhile_append_of_pos digit,
      List.dropWhile_append_of_pos digit, stop.1, stop.2, List.append_nil]
  rcases Nat.eq_zero_or_pos n with rfl | positive
  · rfl
  · have first := head?_toDigits_ne_zero positive
    obtain ⟨c, cs, found, digit⟩ := exists_toDigits_eq_cons n
    rw [found] at first whole ⊢
    rw [List.cons_append] at whole ⊢
    unfold digits
    split
    · next same =>
      cases same
      exact absurd rfl first
    · next same =>
      cases same
      rw [if_pos digit, whole]
    · contradiction

theorem parseNumber_toDigits (n : Nat) {rest : List Char} (closes : Closes rest) :
    parseNumber (Nat.toDigits 10 n ++ rest) = some (number (some n), rest) := by
  have unsigned : ∀ more, Nat.toDigits 10 n ++ rest ≠ '-' :: more := by
    intro more same
    obtain ⟨c, cs, found, digit⟩ := exists_toDigits_eq_cons n
    rw [found] at same
    cases same
    contradiction
  have places : skipPlaces rest = some (false, rest) := by
    unfold skipPlaces
    split
    · exact absurd rfl closes.cons.2.1
    · rfl
  have power : skipPower rest = some (false, rest) := by
    unfold skipPower
    split
    · next c rest => rw [if_neg (not_or.mpr closes.cons.2.2)]
    · rfl
  have value : (Nat.toDigits 10 n).foldl (fun n c => 10 * n + (c.toNat - 48)) 0 = n :=
    Nat.ofDigitChars_toDigits (by decide) (by decide)
  unfold parseNumber
  split
  next negative cs same =>
  split at same
  · next more start => exact absurd start (unsigned _)
  · cases same
    simp [digits_toDigits n closes, places, power, value]

/-! ### Texts -/

/-- What a printed character is read as. -/
def markOf (c : Char) : Mark :=
  if escapes.lookup c = none ∧ c.toNat < 32 then .code c.toNat else .char c

theorem hexDigit?_digitChar {d : Nat} (small : d < 16) : hexDigit? d.digitChar = some d := by
  have each : ∀ d < 16, hexDigit? (Nat.digitChar d) = some d := by decide
  exact each d small

/-- A character behind a backslash. -/
theorem marks?_escape {c e : Char} (listed : (c, e) ∈ escapes) (cs : List Char) :
    marks? ('\\' :: e :: cs) = (marks? cs).map fun (ms, rest) => (.char c :: ms, rest) := by
  simp only [escapes, List.mem_cons, Prod.mk.injEq, List.not_mem_nil, or_false] at listed
  rcases listed with ⟨rfl, rfl⟩ | ⟨rfl, rfl⟩ | ⟨rfl, rfl⟩ | ⟨rfl, rfl⟩ | ⟨rfl, rfl⟩ | ⟨rfl, rfl⟩ |
    ⟨rfl, rfl⟩ <;> simp [marks?, Option.map_eq_bind]

theorem marks?_charForm (c : Char) (cs : List Char) :
    marks? (charForm c ++ cs) = (marks? cs).map fun (ms, rest) => (markOf c :: ms, rest) := by
  unfold charForm markOf
  split
  · next e found =>
    obtain ⟨before, after, whole, -⟩ := List.lookup_eq_some_iff.mp found
    have listed : (c, e) ∈ escapes := whole ▸ List.mem_append_right before List.mem_cons_self
    rw [found, if_neg (by simp)]
    exact marks?_escape listed cs
  · next absent =>
    have unnamed := List.lookup_eq_none_iff.mp absent
    have named : c ≠ '"' ∧ c ≠ '\\' := by
      simp only [escapes, List.forall_mem_cons, bne_iff_ne] at unnamed
      exact ⟨unnamed.1, unnamed.2.1⟩
    split
    · next low =>
      have high := hexDigit?_digitChar (show c.toNat / 16 < 16 by omega)
      have last := hexDigit?_digitChar (show c.toNat % 16 < 16 by omega)
      have zero : hexDigit? '0' = some 0 := by decide
      have value : c.toNat / 16 * 16 + c.toNat % 16 = c.toNat := by omega
      rw [if_pos ⟨absent, low⟩]
      simp [marks?, high, last, zero, value, Option.map_eq_bind]
    · next printed =>
      rw [if_neg fun all => printed all.2]
      simp [marks?, named, printed, Option.map_eq_bind]

/-- The closing quote of a printed text is the first one that is found. -/
theorem marks?_flatMap_charForm (t rest : List Char) :
    marks? (t.flatMap charForm ++ '"' :: rest) = some (t.map markOf, rest) := by
  induction t with
  | nil => simp [marks?]
  | cons c t ih => rw [List.flatMap_cons, List.append_assoc, marks?_charForm, ih]; rfl

/-- A code below those of halves is a character of its own. -/
theorem join_map_markOf (t : List Char) : join (t.map markOf) = some t := by
  induction t with
  | nil => rfl
  | cons c t ih =>
    rw [List.map_cons, markOf]
    split
    · next low =>
      have whole : isHigh c.toNat = false ∧ isLow c.toNat = false := by
        simp only [isHigh, isLow, Bool.and_eq_false_iff, decide_eq_false_iff_not]
        omega
      unfold join
      simp [whole, ih]
    · simp [join, ih]

theorem parseText_quoted (t rest : List Char) :
    parseText (quoted (some t) ++ rest) = some (some t, rest) := by
  have closed : quoted (some t) ++ rest = '"' :: (t.flatMap charForm ++ '"' :: rest) := by
    simp [quoted]
  rw [closed, parseText, marks?_flatMap_charForm]
  simp [join_map_markOf]

/-! ### Values -/

theorem skip_append {gap : List Char} (blank : Blank gap) (cs : List Char) :
    skip (gap ++ cs) = skip cs :=
  List.dropWhile_append_of_pos blank

theorem skip_cons {c : Char} {cs : List Char} (dark : isBlank c = false) :
    skip (c :: cs) = c :: cs := by
  simp [skip, dark]

theorem skip_quoted (t : Option (List Char)) (cs : List Char) :
    skip (quoted t ++ cs) = quoted t ++ cs :=
  skip_cons rfl

theorem skip_skip (cs : List Char) : skip (skip cs) = skip cs := List.dropWhile_idempotent _ _

theorem parseValue_skip (fuel : Nat) (cs : List Char) :
    parseValue fuel (skip cs) = parseValue fuel cs := by
  cases fuel with
  | zero => rfl
  | succ fuel => rw [parseValue, parseValue, skip_skip]

/-- Blanks in front of a value do not matter to it. -/
theorem parseValue_append {gap : List Char} (blank : Blank gap) (fuel : Nat) (cs : List Char) :
    parseValue fuel (gap ++ cs) = parseValue fuel cs := by
  rw [← parseValue_skip, skip_append blank, parseValue_skip]

theorem parseItems_skip (fuel : Nat) (cs : List Char) :
    parseItems fuel (skip cs) = parseItems fuel cs := by
  cases fuel with
  | zero => rfl
  | succ fuel => rw [parseItems, parseItems, parseValue_skip]

theorem parseFields_skip (fuel : Nat) (cs : List Char) :
    parseFields fuel (skip cs) = parseFields fuel cs := by
  cases fuel with
  | zero => rfl
  | succ fuel => rw [parseFields, parseFields, skip_skip]

theorem isBlank_iff {c : Char} :
    isBlank c = true ↔ c = ' ' ∨ c = '\n' ∨ c = '\t' ∨ c = '\r' := by
  simp [isBlank, or_assoc]

theorem Closes.append {gap rest : List Char} (blank : Blank gap) (closes : Closes rest) :
    Closes (gap ++ rest) := by
  cases gap with
  | nil => exact closes
  | cons c gap =>
    intro d same
    cases same
    rcases isBlank_iff.mp (blank c List.mem_cons_self) with rfl | rfl | rfl | rfl <;> decide

theorem not_isBlank_of_isDigit {c : Char} (digit : isDigit c = true) : isBlank c = false := by
  rw [← Bool.not_eq_true, isBlank_iff]
  rintro (rfl | rfl | rfl | rfl) <;> contradiction

theorem parseValue_digit {c : Char} (digit : isDigit c = true) (fuel : Nat) (cs : List Char) :
    parseValue (fuel + 1) (c :: cs) = parseNumber (c :: cs) := by
  rw [parseValue, skip_cons (not_isBlank_of_isDigit digit)]
  split
  all_goals first
    | rfl
    | next same =>
      cases same
      contradiction

theorem parseValue_quoted (fuel : Nat) (t rest : List Char) :
    parseValue (fuel + 1) (quoted (some t) ++ rest) = some (text (some t), rest) := by
  have read := parseText_quoted t rest
  rw [quoted, List.cons_append, List.cons_append] at read ⊢
  rw [parseValue, skip_cons rfl]
  simp only [read]
  rfl

theorem parseValue_bracket {cs front : List Char} (fuel : Nat) (inside : skip cs = front)
    (filled : front.head? ≠ some ']') : parseValue (fuel + 1) ('[' :: cs)
      = (parseItems fuel cs).map fun (vs, rest) => (array vs, rest) := by
  rw [parseValue, skip_cons rfl, ← parseItems_skip fuel cs]
  simp only [inside]
  split
  · exact absurd rfl filled
  · rfl

theorem parseValue_brace {cs front : List Char} (fuel : Nat) (inside : skip cs = front)
    (filled : front.head? ≠ some '\x7d') : parseValue (fuel + 1) ('\x7b' :: cs)
      = (parseFields fuel cs).map fun (fs, rest) => (object fs, rest) := by
  rw [parseValue, skip_cons rfl, ← parseFields_skip fuel cs]
  simp only [inside]
  split
  · exact absurd rfl filled
  · rfl

/-- The text of a value starts with a character of its own. -/
theorem Spells.exists_eq_cons {n : Nat} {v : Json} {cs : List Char}
    (spelled : Spells n (.value v) cs) :
    ∃ c tail, cs = c :: tail ∧ isBlank c = false ∧ c ≠ ']' := by
  cases spelled with
  | null | text t | noItems blank | array items | noFields blank | object fields =>
    exact ⟨_, _, rfl, rfl, by decide⟩
  | bool b => cases b <;> exact ⟨_, _, rfl, rfl, by decide⟩
  | number =>
    obtain ⟨c, tail, found, digit⟩ := exists_toDigits_eq_cons _
    refine ⟨c, tail, found, not_isBlank_of_isDigit digit, ?_⟩
    rintro rfl
    contradiction

/-- The items of an array do not start with its end. -/
theorem Spells.skip_items {n : Nat} {vs : List Json} {cs : List Char}
    (spelled : Spells n (.items vs) cs) (rest : List Char) :
    (skip (cs ++ rest)).head? ≠ some ']' := by
  have first : ∀ {v : Json} {front cs : List Char}, Blank front → Spells n (.value v) cs →
      ∀ more, (skip (front ++ (cs ++ more))).head? ≠ some ']' := by
    intro v front cs before value more
    obtain ⟨c, tail, rfl, dark, other⟩ := value.exists_eq_cons
    rw [skip_append before, List.cons_append, skip_cons dark]
    exact fun same => other (Option.some.inj same)
  cases spelled with
  | lastItem before value after | item before value after later =>
    rw [List.append_assoc, List.append_assoc]
    exact first before value _

/-- The fields of an object start with a key. -/
theorem Spells.skip_fields {n : Nat} {fs : List (Option (List Char) × Json)} {cs : List Char}
    (spelled : Spells n (.fields fs) cs) (rest : List Char) :
    (skip (cs ++ rest)).head? = some '"' := by
  cases spelled with
  | lastField before | field before =>
    rw [List.append_assoc, skip_append before, List.append_assoc, skip_quoted]
    rfl

/-- The text of a part is read as the part, up to what follows it. The fuel is no less than the
characters of the text: each step down takes a mark with it. -/
def Reads : Part → List Char → Prop
  | .value v, cs => ∀ fuel rest, Closes rest → cs.length ≤ fuel →
    parseValue fuel (cs ++ rest) = some (v, rest)
  | .items vs, cs => ∀ fuel rest, cs.length ≤ fuel →
    parseItems fuel (cs ++ rest) = some (vs, rest)
  | .fields fs, cs => ∀ fuel rest, cs.length ≤ fuel →
    parseFields fuel (cs ++ rest) = some (fs, rest)

/-- Blanks and then a comma or a closing mark. -/
theorem Closes.behind {gap : List Char} (blank : Blank gap) {c : Char}
    (mark : c = ',' ∨ c = ']' ∨ c = '\x7d') (rest : List Char) : Closes (gap ++ c :: rest) := by
  refine .append blank ?_
  rcases mark with rfl | rfl | rfl <;> simp [Closes]

section

variable {v : Json} {front left right cs back more : List Char} {fuel : Nat}

/-- The last item of an array. -/
theorem parseItems_last (before : Blank front) (value : Reads (.value v) cs) (after : Blank back)
    (enough : cs.length ≤ fuel) (rest : List Char) :
    parseItems (fuel + 1) (front ++ (cs ++ (back ++ ']' :: rest))) = some ([v], rest) := by
  have first := value fuel _ (.behind after (.inr (.inl rfl)) rest) enough
  rw [parseItems, parseValue_append before, first]
  simp [skip_append after, skip_cons (show isBlank ']' = false from rfl)]

/-- An item with more of them behind it. -/
theorem parseItems_more (before : Blank front) (value : Reads (.value v) cs) (after : Blank back)
    (enough : cs.length ≤ fuel) :
    parseItems (fuel + 1) (front ++ (cs ++ (back ++ ',' :: more)))
      = (parseItems fuel more).map fun (vs, rest) => (v :: vs, rest) := by
  have first := value fuel _ (.behind after (.inl rfl) more) enough
  rw [parseItems, parseValue_append before, first]
  simp [skip_append after, skip_cons (show isBlank ',' = false from rfl), Option.map_eq_bind]

/-- The last field of an object. -/
theorem parseFields_last (k : List Char) (before : Blank front) (behindKey : Blank left)
    (behindColon : Blank right) (value : Reads (.value v) cs) (after : Blank back)
    (enough : cs.length ≤ fuel) (rest : List Char) :
    parseFields (fuel + 1) (front ++ (quoted (some k) ++ (left ++ ':' ::
      (right ++ (cs ++ (back ++ '\x7d' :: rest)))))) = some ([(some k, v)], rest) := by
  have first := value fuel _ (.behind after (.inr (.inr rfl)) rest) enough
  rw [parseFields, skip_append before, skip_quoted, parseText_quoted]
  simp [skip_append behindKey, skip_cons (show isBlank ':' = false from rfl),
    parseValue_append behindColon, first, skip_append after,
    skip_cons (show isBlank '\x7d' = false from rfl)]

/-- A field with more of them behind it. -/
theorem parseFields_more (k : List Char) (before : Blank front) (behindKey : Blank left)
    (behindColon : Blank right) (value : Reads (.value v) cs) (after : Blank back)
    (enough : cs.length ≤ fuel) :
    parseFields (fuel + 1) (front ++ (quoted (some k) ++ (left ++ ':' ::
      (right ++ (cs ++ (back ++ ',' :: more))))))
      = (parseFields fuel more).map fun (fs, rest) => ((some k, v) :: fs, rest) := by
  have first := value fuel _ (.behind after (.inl rfl) more) enough
  rw [parseFields, skip_append before, skip_quoted, parseText_quoted]
  simp [skip_append behindKey, skip_cons (show isBlank ':' = false from rfl),
    parseValue_append behindColon, first, skip_append after,
    skip_cons (show isBlank ',' = false from rfl), Option.map_eq_bind]

end

theorem reads_of_succ {v : Json} {cs : List Char} (filled : cs ≠ [])
    (read : ∀ fuel rest, Closes rest → cs.length ≤ fuel + 1 →
      parseValue (fuel + 1) (cs ++ rest) = some (v, rest)) : Reads (.value v) cs := by
  intro fuel rest closes enough
  cases fuel with
  | zero => exact absurd (List.length_eq_zero_iff.mp (Nat.le_zero.mp enough)) filled
  | succ fuel => exact read fuel rest closes enough

/-- Every text of a part is read as the part, by induction on how it is spelled. -/
theorem Spells.reads {n : Nat} {p : Part} {cs : List Char} (spelled : Spells n p cs) :
    Reads p cs := by
  induction spelled with
  | null => exact reads_of_succ (by simp) fun fuel rest _ _ => rfl
  | bool b => exact reads_of_succ (by cases b <;> simp) fun fuel rest _ _ => by cases b <;> rfl
  | @number _ k _ =>
    refine reads_of_succ Nat.toDigits_ne_nil fun fuel rest closes _ => ?_
    obtain ⟨c, tail, found, digit⟩ := exists_toDigits_eq_cons k
    have number := parseNumber_toDigits k closes
    rw [found, List.cons_append] at number ⊢
    rw [parseValue_digit digit, number]
  | text t =>
    exact reads_of_succ (by simp [quoted]) fun fuel rest _ _ => parseValue_quoted fuel t rest
  | noItems blank =>
    refine reads_of_succ (List.cons_ne_nil _ _) fun fuel rest _ _ => ?_
    rw [List.cons_append, parseValue, skip_cons rfl, List.append_assoc]
    simp [skip_append blank, skip_cons (show isBlank ']' = false from rfl)]
  | noFields blank =>
    refine reads_of_succ (List.cons_ne_nil _ _) fun fuel rest _ _ => ?_
    rw [List.cons_append, parseValue, skip_cons rfl, List.append_assoc]
    simp [skip_append blank, skip_cons (show isBlank '\x7d' = false from rfl)]
  | array items ih =>
    refine reads_of_succ (List.cons_ne_nil _ _) fun fuel rest _ enough => ?_
    rw [List.cons_append, parseValue_bracket fuel rfl (items.skip_items rest),
      ih fuel rest (Nat.le_of_succ_le_succ enough)]
    rfl
  | object fields ih =>
    refine reads_of_succ (List.cons_ne_nil _ _) fun fuel rest _ enough => ?_
    have key := fields.skip_fields rest
    rw [List.cons_append, parseValue_brace fuel rfl (by simp [key]),
      ih fuel rest (Nat.le_of_succ_le_succ enough)]
    rfl
  | lastItem before _ after ih =>
    intro fuel rest enough
    simp only [List.length_append, List.length_singleton] at enough
    obtain ⟨fuel, rfl⟩ : ∃ less, fuel = less + 1 := ⟨fuel - 1, by omega⟩
    simp only [List.append_assoc, List.singleton_append]
    exact parseItems_last before ih after (by omega) rest
  | item before _ after _ ih ihLater =>
    intro fuel rest enough
    simp only [List.length_append, List.length_cons] at enough
    obtain ⟨fuel, rfl⟩ : ∃ less, fuel = less + 1 := ⟨fuel - 1, by omega⟩
    simp only [List.append_assoc, List.cons_append]
    rw [parseItems_more before ih after (by omega), ihLater fuel rest (by omega)]
    rfl
  | lastField before behindKey behindColon _ after ih =>
    intro fuel rest enough
    simp only [List.length_append, List.length_cons] at enough
    obtain ⟨fuel, rfl⟩ : ∃ less, fuel = less + 1 := ⟨fuel - 1, by omega⟩
    simp only [List.append_assoc, List.cons_append, List.nil_append]
    exact parseFields_last _ before behindKey behindColon ih after (by omega) rest
  | field before behindKey behindColon _ after _ ih ihLater =>
    intro fuel rest enough
    simp only [List.length_append, List.length_cons] at enough
    obtain ⟨fuel, rfl⟩ : ∃ less, fuel = less + 1 := ⟨fuel - 1, by omega⟩
    simp only [List.append_assoc, List.cons_append]
    rw [parseFields_more _ before behindKey behindColon ih after (by omega),
      ihLater fuel rest (by omega)]
    rfl

theorem skip_eq_nil {gap : List Char} (blank : Blank gap) : skip gap = [] := by
  rw [← List.append_nil gap, skip_append blank]
  rfl

theorem Library.parses_plain : Library.plain.Parses := by
  rintro v s ⟨front, cs, back, before, spelled, after, whole⟩
  have closes : Closes back := List.append_nil back ▸ .append after (by simp [Closes])
  have length : cs.length ≤ 2 * (front ++ (cs ++ back)).length + 2 := by
    simp only [List.length_append]
    omega
  have read := spelled.reads _ back closes length
  have parsed : Json.parse? s = some v := by
    rw [Json.parse?, whole]
    simp only [parseValue_append before, read, Option.bind_eq_bind, Option.bind_some,
      skip_eq_nil after]
    rfl
  exact parsed

theorem Library.prints_plain : Library.plain.Prints := ⟨fun _ _ => rfl, fun _ _ => rfl⟩

end SparseStream.Json
