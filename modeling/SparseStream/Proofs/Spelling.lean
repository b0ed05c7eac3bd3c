import SparseStream.Bytes
import SparseStream.Json

/-! The texts of a document. Blanks may stand between the parts of a document, so it has many texts,
and what is printed for it is one of them. This is what is assumed of a library: it prints in two
layouts, and it reads every text of a document that is not nested too deep. -/
namespace SparseStream.Json

/-- Characters that may stand between the parts of a document. -/
def Blank (gap : List Char) : Prop := ∀ c ∈ gap, isBlank c

/-- A layout adds blanks, and the colon behind a key. -/
structure Layout.Blank (l : Layout) : Prop where
  newline : ∀ depth, Json.Blank (l.newline depth)
  colon : ∃ gap, Json.Blank gap ∧ l.colon = ':' :: gap

theorem blank_nil : Blank [] := nofun

/-- All numbers, texts and keys of a document are known, the numbers are words, and no more than so
many arrays and objects stand inside each other. -/
inductive Known : Nat → Json → Prop
  | null {n : Nat} : Known n null
  | bool {n : Nat} (b : Bool) : Known n (bool b)
  | number {n k : Nat} (word : k < wordLimit) : Known n (number (some k))
  | text {n : Nat} (t : List Char) : Known n (text (some t))
  | array {n : Nat} {items : List Json} (each : ∀ v ∈ items, Known n v) :
    Known (n + 1) (array items)
  | object {n : Nat} {fields : List (Option (List Char) × Json)}
    (keys : ∀ f ∈ fields, f.1.isSome) (each : ∀ f ∈ fields, Known n f.2) :
    Known (n + 1) (object fields)

/-- What a stretch of text may stand for. The items of an array come with the bracket that closes
it, the fields of an object with the brace. -/
inductive Part where
  | value (v : Json)
  | items (vs : List Json)
  | fields (fs : List (Option (List Char) × Json))

/-- A text of a part, with no more than so many arrays and objects inside each other. Numbers, texts
and keys are spelled in one way only; between the marks there may be any blanks. -/
inductive Spells : Nat → Part → List Char → Prop
  | null {n : Nat} : Spells n (.value null) ['n', 'u', 'l', 'l']
  | bool {n : Nat} (b : Bool) : Spells n (.value (bool b)) (if b then "true" else "false").toList
  | number {n k : Nat} (word : k < wordLimit) :
    Spells n (.value (number (some k))) (Nat.toDigits 10 k)
  | text {n : Nat} (t : List Char) : Spells n (.value (text (some t))) (quoted (some t))
  | noItems {n : Nat} {gap : List Char} (blank : Blank gap) :
    Spells (n + 1) (.value (array [])) ('[' :: (gap ++ [']']))
  | array {n : Nat} {v : Json} {vs : List Json} {cs : List Char}
    (items : Spells n (.items (v :: vs)) cs) :
    Spells (n + 1) (.value (array (v :: vs))) ('[' :: cs)
  | noFields {n : Nat} {gap : List Char} (blank : Blank gap) :
    Spells (n + 1) (.value (object [])) ('\x7b' :: (gap ++ ['\x7d']))
  | object {n : Nat} {f : Option (List Char) × Json} {fs : List (Option (List Char) × Json)}
    {cs : List Char} (fields : Spells n (.fields (f :: fs)) cs) :
    Spells (n + 1) (.value (object (f :: fs))) ('\x7b' :: cs)
  | lastItem {n : Nat} {v : Json} {front cs back : List Char} (before : Blank front)
    (value : Spells n (.value v) cs) (after : Blank back) :
    Spells n (.items [v]) (front ++ (cs ++ (back ++ [']'])))
  | item {n : Nat} {v : Json} {vs : List Json} {front cs back more : List Char}
    (before : Blank front) (value : Spells n (.value v) cs) (after : Blank back)
    (later : Spells n (.items vs) more) :
    Spells n (.items (v :: vs)) (front ++ (cs ++ (back ++ ',' :: more)))
  | lastField {n : Nat} {k : List Char} {v : Json} {front left right cs back : List Char}
    (before : Blank front) (behindKey : Blank left) (behindColon : Blank right)
    (value : Spells n (.value v) cs) (after : Blank back) :
    Spells n (.fields [(some k, v)])
      (front ++ (quoted (some k) ++ (left ++ ':' :: (right ++ (cs ++ (back ++ ['\x7d']))))))
  | field {n : Nat} {k : List Char} {v : Json} {fs : List (Option (List Char) × Json)}
    {front left right cs back more : List Char} (before : Blank front) (behindKey : Blank left)
    (behindColon : Blank right) (value : Spells n (.value v) cs) (after : Blank back)
    (later : Spells n (.fields fs) more) :
    Spells n (.fields ((some k, v) :: fs))
      (front ++ (quoted (some k) ++ (left ++ ':' :: (right ++ (cs ++ (back ++ ',' :: more))))))

/-- How many arrays and objects may stand inside each other for a library to read them. -/
def nestingLimit : Nat := 127

/-- A whole text of a document. -/
def Spelled (v : Json) (s : String) : Prop :=
  ∃ front cs back, Blank front ∧ Spells nestingLimit (.value v) cs ∧ Blank back ∧
    s.toList = front ++ (cs ++ back)

/-- A library prints in one line without blanks, or with an item per line. -/
structure Library.Prints (lib : Library) : Prop where
  compact : ∀ v, Known nestingLimit v → lib.compact v = v.print .compact
  pretty : ∀ v, Known nestingLimit v → lib.pretty v = v.print .indented

/-- A library reads every text of a document as the document. -/
def Library.Parses (lib : Library) : Prop := ∀ v s, Spelled v s → lib.parse? s = some v

theorem Layout.blank_compact : Layout.compact.Blank := ⟨fun _ => blank_nil, [], blank_nil, rfl⟩

theorem Layout.blank_indented : Layout.indented.Blank := by
  refine ⟨fun depth => ?_, [' '], by simp [Json.Blank, isBlank], rfl⟩
  intro c member
  rcases List.mem_cons.mp member with rfl | inner
  · rfl
  · obtain rfl := List.eq_of_mem_replicate inner
    rfl

section

variable {l : Layout} {n depth : Nat} {front back : List Char}

/-- The items of an array as they are printed, by induction on those after the first. -/
theorem spells_renderItems (layout : l.Blank) (before : Blank front) (after : Blank back) {v : Json}
    {vs : List Json} (each : ∀ w ∈ v :: vs, Spells n (.value w) (render l depth w)) :
    Spells n (.items (v :: vs))
      (front ++ (render l depth v ++ (renderItems l depth vs ++ (back ++ [']'])))) := by
  induction vs generalizing v front with
  | nil => exact .lastItem before (each v List.mem_cons_self) after
  | cons w vs ih =>
    rw [List.forall_mem_cons] at each
    have later := ih (layout.newline depth) each.2
    have form : renderItems l depth (w :: vs) ++ (back ++ [']']) = ',' :: (l.newline depth ++
        (render l depth w ++ (renderItems l depth vs ++ (back ++ [']'])))) := by
      simp [renderItems]
    rw [form]
    exact .item before each.1 blank_nil later

/-- The fields of an object as they are printed, by induction on those after the first. -/
theorem spells_renderFields (layout : l.Blank) (before : Blank front) (after : Blank back)
    {k : List Char} {v : Json} {fs : List (Option (List Char) × Json)}
    (value : Spells n (.value v) (render l depth v)) (keys : ∀ f ∈ fs, f.1.isSome)
    (each : ∀ f ∈ fs, Spells n (.value f.2) (render l depth f.2)) :
    Spells n (.fields ((some k, v) :: fs)) (front ++ (quoted (some k) ++ (l.colon ++
      (render l depth v ++ (renderFields l depth fs ++ (back ++ ['\x7d'])))))) := by
  obtain ⟨gap, white, colon⟩ := layout.colon
  rw [colon]
  induction fs generalizing k v front with
  | nil => exact .lastField before blank_nil white value after
  | cons f fs ih =>
    rw [List.forall_mem_cons] at keys each
    obtain ⟨key, w⟩ := f
    obtain ⟨k', rfl⟩ : ∃ k', key = some k' := Option.isSome_iff_exists.mp keys.1
    have later := ih (k := k') (v := w) (layout.newline depth) each.1 keys.2 each.2
    have form : renderFields l depth ((some k', w) :: fs) ++ (back ++ ['\x7d']) = ',' ::
        (l.newline depth ++ (quoted (some k') ++ (':' :: gap ++
          (render l depth w ++ (renderFields l depth fs ++ (back ++ ['\x7d'])))))) := by
      simp [renderFields, colon]
    rw [form]
    exact .field before blank_nil white value blank_nil later

/-- What is printed for a document is a text of it, by induction on the document. -/
theorem Known.spells_render (layout : l.Blank) {v : Json} (known : Known n v) :
    Spells n (.value v) (render l depth v) := by
  induction known generalizing depth with
  | null => exact .null
  | bool b => exact .bool b
  | number word => exact .number word
  | text t => exact .text t
  | @array n items each ih =>
    cases items with
    | nil => exact .noItems blank_nil
    | cons v vs =>
      have items := spells_renderItems layout (layout.newline (depth + 1)) (layout.newline depth)
        fun w member => @ih w member (depth + 1)
      simpa [render] using Spells.array items
  | @object n fields keys each ih =>
    cases fields with
    | nil => exact .noFields blank_nil
    | cons f fs =>
      rw [List.forall_mem_cons] at keys ih
      obtain ⟨key, v⟩ := f
      obtain ⟨k, rfl⟩ : ∃ k, key = some k := Option.isSome_iff_exists.mp keys.1
      have fields := spells_renderFields (k := k) layout (layout.newline (depth + 1))
        (layout.newline depth) (@ih.1 (depth + 1)) keys.2 fun f member => @ih.2 f member (depth + 1)
      simpa [render] using Spells.object fields

end

/-- What is printed for a document is read as the document, in every layout. -/
theorem Library.Parses.parse?_print {lib : Library} (parses : lib.Parses) {l : Layout}
    (layout : l.Blank) {v : Json} (known : Known nestingLimit v) :
    lib.parse? (v.print l) = some v := by
  refine parses v _ ⟨[], render l 0 v, [], blank_nil, known.spells_render layout, blank_nil, ?_⟩
  rw [List.append_nil, List.nil_append]
  exact String.toList_ofList

end SparseStream.Json
