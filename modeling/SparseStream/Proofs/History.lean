import Mathlib.Data.List.Induction
import Mathlib.Data.List.Nodup
import SparseStream.Proofs.Search
import SparseStream.Registry

/-! What a registry holds after any calls. Its entries are worked out from the calls that were given a
flag: the kinds in the order of first sight, and for each of them how many units there were and how
many elements they cover. -/
namespace SparseStream

theorem eraseDups_snoc [DecidableEq α] (xs : List α) (x : α) :
    (xs ++ [x]).eraseDups = xs.eraseDups ++ if x ∈ xs then [] else [x] := by
  rw [List.eraseDups_append]
  by_cases known : x ∈ xs
  · simp [List.removeAll, known]
  · simp [List.removeAll, List.eraseDups_cons, known]

theorem nodup_eraseDups [DecidableEq α] (xs : List α) : xs.eraseDups.Nodup := by
  generalize bound : xs.length = n
  induction n using Nat.strongRecOn generalizing xs with
  | ind n ih =>
    cases xs with
    | nil => simp
    | cons x xs =>
      rw [List.eraseDups_cons, List.nodup_cons]
      have shorter := List.length_filter_le (fun b => !b == x) xs
      rw [List.length_cons] at bound
      exact ⟨by simp, ih _ (by omega) _ rfl⟩

namespace Registry

/-- The kinds of some calls, in the order of first sight. -/
def seen (calls : List (Kind × Nat)) : List Kind := (calls.map Prod.fst).eraseDups

/-- The entry of a kind with its place, for calls that were all given a flag. -/
def entryOf (calls : List (Kind × Nat)) (kind : Kind) (place : Nat) : KindEntry :=
  let same := calls.filter (·.1 = kind)
  ⟨kind, place + 1, same.length, total (same.map Prod.snd)⟩

def entriesOf (calls : List (Kind × Nat)) : List KindEntry :=
  (seen calls).zipIdx.map fun (kind, place) => entryOf calls kind place

theorem nodup_seen (calls : List (Kind × Nat)) : (seen calls).Nodup := nodup_eraseDups _

theorem mem_seen {kind : Kind} {calls : List (Kind × Nat)} :
    kind ∈ seen calls ↔ ∃ c ∈ calls, c.1 = kind := by
  rw [seen, List.mem_eraseDups, List.mem_map]

theorem seen_snoc (calls : List (Kind × Nat)) (c : Kind × Nat) :
    seen (calls ++ [c]) = seen calls ++ if c.1 ∈ seen calls then [] else [c.1] := by
  simp only [seen, List.map_append, List.map_singleton, eraseDups_snoc, List.mem_eraseDups]

theorem kinds_entriesOf (calls : List (Kind × Nat)) :
    (entriesOf calls).map KindEntry.kind = seen calls := by
  rw [entriesOf, List.map_map]
  exact List.zipIdx_map_fst 0 _

theorem length_entriesOf (calls : List (Kind × Nat)) :
    (entriesOf calls).length = (seen calls).length := by
  rw [← kinds_entriesOf, List.length_map]

theorem getElem_entriesOf (calls : List (Kind × Nat)) (i : Nat) (bound : i < (entriesOf calls).length)
    (inSeen : i < (seen calls).length) :
    (entriesOf calls)[i] = entryOf calls (seen calls)[i] i := by
  simp [entriesOf]

theorem flags_entriesOf (calls : List (Kind × Nat)) :
    (entriesOf calls).map KindEntry.flag = List.range' 1 (entriesOf calls).length := by
  apply List.ext_getElem
  · simp
  · intro i _ inside
    rw [List.length_range'] at inside
    rw [List.getElem_map, getElem_entriesOf calls i inside (length_entriesOf calls ▸ inside),
      List.getElem_range', Nat.one_mul, Nat.add_comm]
    rfl

/-- The entry of a kind after one more unit of it. -/
def counted (kind : Kind) (n : Nat) (e : KindEntry) : KindEntry :=
  if e.kind = kind then { e with units := e.units + 1, elements := e.elements + n } else e

theorem count?_of_mem {es : List KindEntry} {e : KindEntry} {n : Nat}
    (distinct : (es.map KindEntry.kind).Nodup) (member : e ∈ es) :
    count? e.kind n es = some (e.flag, es.map (counted e.kind n)) := by
  induction es with
  | nil => cases member
  | cons first rest ih =>
    rw [List.map_cons, List.nodup_cons] at distinct
    rcases List.mem_cons.mp member with rfl | later
    · have others : ∀ other ∈ rest, counted e.kind n other = other := by
        intro other inRest
        rw [counted, if_neg]
        intro same
        exact distinct.1 (same ▸ List.mem_map_of_mem inRest)
      simp only [count?, if_pos, List.map_cons, List.map_congr_left others, counted]
      simp
    · have apart : first.kind ≠ e.kind := fun same =>
        distinct.1 (same ▸ List.mem_map_of_mem later)
      rw [count?, if_neg apart, ih distinct.2 later]
      simp [counted, apart]

theorem entryOf_snoc (calls : List (Kind × Nat)) (c : Kind × Nat) (kind : Kind) (place : Nat) :
    entryOf (calls ++ [c]) kind place = counted c.1 c.2 (entryOf calls kind place) := by
  by_cases same : c.1 = kind
  · simp [entryOf, counted, same]
  · simp [entryOf, counted, same, Ne.symm same]

theorem entriesOf_snoc_of_mem {calls : List (Kind × Nat)} {c : Kind × Nat}
    (known : c.1 ∈ seen calls) :
    entriesOf (calls ++ [c]) = (entriesOf calls).map (counted c.1 c.2) := by
  rw [entriesOf, seen_snoc, if_pos known, List.append_nil, entriesOf, List.map_map]
  exact List.map_congr_left fun _ _ => entryOf_snoc calls c _ _

theorem entriesOf_snoc_of_not_mem {calls : List (Kind × Nat)} {c : Kind × Nat}
    (new : c.1 ∉ seen calls) :
    entriesOf (calls ++ [c]) = entriesOf calls ++ [⟨c.1, (seen calls).length + 1, 1, c.2⟩] := by
  have absent : calls.filter (·.1 = c.1) = [] := by
    apply List.filter_eq_nil_iff.mpr
    intro other member same
    exact new (mem_seen.mpr ⟨other, member, of_decide_eq_true same⟩)
  have first : entryOf (calls ++ [c]) c.1 (seen calls).length
      = ⟨c.1, (seen calls).length + 1, 1, c.2⟩ := by
    simp [entryOf, absent]
  rw [entriesOf, seen_snoc, if_neg new, List.zipIdx_append, List.map_append, entriesOf]
  refine congr (congrArg _ (List.map_congr_left ?_)) ?_
  · rintro ⟨kind, place⟩ member
    have old : kind ∈ seen calls := List.fst_mem_of_mem_zipIdx member
    refine (entryOf_snoc calls c kind place).trans (if_neg ?_)
    rintro rfl
    exact new old
  · simpa using first

/-- One more call is given the flag of its kind, unless the kind is new and the flags are used up. -/
theorem assign_entriesOf (calls : List (Kind × Nat)) (c : Kind × Nat) :
    assign ⟨entriesOf calls⟩ c.1 c.2 =
      if c.1 ∉ seen calls ∧ Header.maxFlag ≤ (seen calls).length then .error .tooManyKinds
      else .ok ((seen calls).idxOf c.1 + 1, ⟨entriesOf (calls ++ [c])⟩) := by
  by_cases known : c.1 ∈ seen calls
  · have inSeen : (seen calls).idxOf c.1 < (seen calls).length := List.idxOf_lt_length_of_mem known
    have bound : (seen calls).idxOf c.1 < (entriesOf calls).length :=
      length_entriesOf calls ▸ inSeen
    have entry : (entriesOf calls)[(seen calls).idxOf c.1]
        = entryOf calls c.1 ((seen calls).idxOf c.1) := by
      rw [getElem_entriesOf calls _ bound inSeen, List.getElem_idxOf inSeen]
    have found : count? c.1 c.2 (entriesOf calls)
        = some ((seen calls).idxOf c.1 + 1, entriesOf (calls ++ [c])) := by
      rw [entriesOf_snoc_of_mem known]
      exact count?_of_mem (e := entryOf calls c.1 _) (kinds_entriesOf calls ▸ nodup_seen calls)
        (entry ▸ List.getElem_mem bound)
    simp only [assign, found, known, not_true, false_and, ite_false]
  · have absent : count? c.1 c.2 (entriesOf calls) = none := by
      rw [count?_eq_none_iff]
      intro e member same
      exact known (kinds_entriesOf calls ▸ same ▸ List.mem_map_of_mem member)
    simp only [assign, absent, known, not_false_eq_true, true_and, length_entriesOf]
    split
    · rfl
    · rw [entriesOf_snoc_of_not_mem known, List.idxOf_eq_length known]

/-! ### Calls one after another -/

/-- What calls give, and the registry after all of them. -/
def callAll (r : Registry) : List (Kind × Nat) → List (Except Error Nat) × Registry
  | [] => ([], r)
  | c :: cs =>
    let (outcome, r') := r.call c.1 c.2
    let (outcomes, r'') := r'.callAll cs
    (outcome :: outcomes, r'')

/-- The flag of a kind, where kinds were seen in some order: its number, if there is a flag for it. -/
def verdict (kinds : List Kind) (kind : Kind) : Except Error Nat :=
  if kinds.idxOf kind < Header.maxFlag then .ok (kinds.idxOf kind + 1) else .error .tooManyKinds

/-- The calls that were given a flag. -/
def granted (calls : List (Kind × Nat)) (outcomes : List (Except Error Nat)) :
    List (Kind × Nat) :=
  ((calls.zip outcomes).filter (·.2.isOk)).map Prod.fst

theorem callAll_append (r : Registry) (xs ys : List (Kind × Nat)) :
    r.callAll (xs ++ ys) = ((r.callAll xs).1 ++ ((r.callAll xs).2.callAll ys).1,
      ((r.callAll xs).2.callAll ys).2) := by
  induction xs generalizing r with
  | nil => rfl
  | cons x xs ih => simp only [List.cons_append, callAll, ih]

theorem length_callAll (r : Registry) (calls : List (Kind × Nat)) :
    (r.callAll calls).1.length = calls.length := by
  induction calls generalizing r with
  | nil => rfl
  | cons c calls ih => exact congrArg (· + 1) (ih (r.call c.1 c.2).2)

theorem callAll_snoc (r : Registry) (calls : List (Kind × Nat)) (c : Kind × Nat) :
    r.callAll (calls ++ [c]) = ((r.callAll calls).1 ++ [((r.callAll calls).2.call c.1 c.2).1],
      ((r.callAll calls).2.call c.1 c.2).2) :=
  callAll_append r calls [c]

theorem granted_snoc {calls : List (Kind × Nat)} {outcomes : List (Except Error Nat)}
    (length : outcomes.length = calls.length) (c : Kind × Nat) (outcome : Except Error Nat) :
    granted (calls ++ [c]) (outcomes ++ [outcome])
      = granted calls outcomes ++ if outcome.isOk then [c] else [] := by
  rw [granted, List.zip_append length.symm, List.filter_append, List.map_append, granted]
  cases outcome <;> rfl

/-- A kind seen before has its verdict for good. -/
theorem verdict_append {kinds : List Kind} {kind : Kind} (more : List Kind) (known : kind ∈ kinds) :
    verdict (kinds ++ more) kind = verdict kinds kind := by
  rw [verdict, List.idxOf_append, if_pos known, verdict]

theorem call_of_ok {r r' : Registry} {kind : Kind} {n flag : Nat}
    (given : r.assign kind n = .ok (flag, r')) : r.call kind n = (.ok flag, r') := by
  rw [call, given]

theorem call_of_error {r : Registry} {kind : Kind} {n : Nat} {error : Error}
    (refused : r.assign kind n = .error error) : r.call kind n = (.error error, r) := by
  rw [call, refused]

/-- A kind that is one of the first, or becomes one of them, has its place among them for a flag. -/
theorem verdict_of_room {kinds : List Kind} {kind : Kind}
    (room : kind ∈ kinds.take Header.maxFlag ∨ kinds.length < Header.maxFlag) :
    verdict (kinds ++ if kind ∈ kinds then [] else [kind]) kind
        = .ok ((kinds.take Header.maxFlag).idxOf kind + 1) ∧
      (kinds ++ if kind ∈ kinds then [] else [kind]).take Header.maxFlag
        = kinds.take Header.maxFlag ++ if kind ∈ kinds.take Header.maxFlag then [] else [kind] := by
  by_cases first : kind ∈ kinds.take Header.maxFlag
  · have known : kind ∈ kinds := List.mem_of_mem_take first
    have early := (List.mem_take_iff_idxOf_lt known).mp first
    have same := (List.take_prefix Header.maxFlag kinds).idxOf_eq_of_mem first
    rw [if_pos known, if_pos first, List.append_nil, List.append_nil, verdict, if_pos early, same]
    exact ⟨rfl, rfl⟩
  · have short : kinds.length < Header.maxFlag := room.resolve_left first
    have all : kinds.take Header.maxFlag = kinds := List.take_of_length_le (Nat.le_of_lt short)
    rw [all] at first ⊢
    have place : (kinds ++ [kind]).idxOf kind = kinds.length := by
      rw [List.idxOf_append, if_neg first]
      simp
    have fits : (kinds ++ [kind]).length ≤ Header.maxFlag := by
      rw [List.length_append]
      exact short
    rw [if_neg first, verdict, place, if_pos short, List.idxOf_eq_length first]
    exact ⟨rfl, List.take_of_length_le fits⟩

/-- A kind that comes too late has no flag, however often it is asked for. -/
theorem verdict_of_full {kinds : List Kind} {kind : Kind}
    (late : kind ∉ kinds.take Header.maxFlag) (full : Header.maxFlag ≤ kinds.length) :
    verdict (kinds ++ if kind ∈ kinds then [] else [kind]) kind = .error .tooManyKinds ∧
      (kinds ++ if kind ∈ kinds then [] else [kind]).take Header.maxFlag
        = kinds.take Header.maxFlag := by
  refine ⟨if_neg (Nat.not_lt_of_le ?_), List.take_append_of_le_length full⟩
  by_cases known : kind ∈ kinds
  · rw [if_pos known, List.append_nil]
    exact Nat.le_of_not_lt (mt (List.mem_take_iff_idxOf_lt known).mpr late)
  · rw [if_neg known, List.idxOf_append, if_neg known]
    exact Nat.le_trans full (Nat.le_add_left _ _)

/-- What the next call adds to those that were granted. -/
def added (calls : List (Kind × Nat)) (c : Kind × Nat) : List (Kind × Nat) :=
  if (verdict (seen (calls ++ [c])) c.1).isOk then [c] else []

/-- The next call, when the registry counts the calls `held` and their kinds are the first ones of all
that were asked for. -/
theorem call_entriesOf {calls held : List (Kind × Nat)} (c : Kind × Nat)
    (first : seen held = (seen calls).take Header.maxFlag) :
    call ⟨entriesOf held⟩ c.1 c.2
        = (verdict (seen (calls ++ [c])) c.1, ⟨entriesOf (held ++ added calls c)⟩) ∧
      seen (held ++ added calls c) = (seen (calls ++ [c])).take Header.maxFlag := by
  have assigned := assign_entriesOf held c
  have length : (seen held).length = min Header.maxFlag (seen calls).length := by
    rw [first, List.length_take]
  by_cases refused : c.1 ∉ seen held ∧ Header.maxFlag ≤ (seen held).length
  · obtain ⟨outcome, kinds⟩ := verdict_of_full (first ▸ refused.1) (by omega)
    rw [← seen_snoc] at outcome kinds
    have nothing : held ++ added calls c = held := by
      rw [added, outcome]
      exact List.append_nil held
    rw [if_pos refused] at assigned
    rw [nothing, outcome, call_of_error assigned, kinds]
    exact ⟨rfl, first⟩
  · have room : c.1 ∈ (seen calls).take Header.maxFlag ∨ (seen calls).length < Header.maxFlag := by
      rw [← first]
      by_cases known : c.1 ∈ seen held
      · exact .inl known
      · have short : ¬Header.maxFlag ≤ (seen held).length := fun full => refused ⟨known, full⟩
        exact .inr (by omega)
    obtain ⟨outcome, kinds⟩ := verdict_of_room room
    rw [← seen_snoc, ← first] at outcome kinds
    have more : held ++ added calls c = held ++ [c] := by
      rw [added, outcome]
      rfl
    rw [if_neg refused] at assigned
    rw [more, outcome, call_of_ok assigned, kinds]
    exact ⟨rfl, seen_snoc held c⟩

/-- What is known of calls to a new registry, of what they gave, and of the registry they left. -/
structure History (calls : List (Kind × Nat)) (outcomes : List (Except Error Nat))
    (r : Registry) : Prop where
  answers : outcomes = calls.map fun c => verdict (seen calls) c.1
  kinds : r.entries.map KindEntry.kind = (seen calls).take Header.maxFlag
  accepted : r.entries.map KindEntry.kind = seen (granted calls outcomes)
  flags : r.entries.map KindEntry.flag = List.range' 1 r.entries.length
  units : ∀ e ∈ r.entries,
    e.units = ((granted calls outcomes).filter (·.1 = e.kind)).length
  elements : ∀ e ∈ r.entries,
    e.elements = total (((granted calls outcomes).filter (·.1 = e.kind)).map Prod.snd)

/-- The calls that are granted tell all about the registry, by induction along the calls. -/
theorem callAll_eq (calls : List (Kind × Nat)) :
    (callAll {} calls).1 = calls.map (fun c => verdict (seen calls) c.1) ∧
      (callAll {} calls).2 = ⟨entriesOf (granted calls (callAll {} calls).1)⟩ ∧
      seen (granted calls (callAll {} calls).1) = (seen calls).take Header.maxFlag := by
  induction calls using List.reverseRecOn with
  | nil => exact ⟨rfl, rfl, rfl⟩
  | append_singleton calls c ih =>
    obtain ⟨outcomes, registry, first⟩ := ih
    obtain ⟨next, kinds⟩ := call_entriesOf c first
    rw [← registry] at next
    have longer : granted (calls ++ [c]) (callAll {} (calls ++ [c])).1
        = granted calls (callAll {} calls).1 ++ added calls c := by
      rw [callAll_snoc, next, granted_snoc (length_callAll {} calls)]
      rfl
    rw [longer, callAll_snoc, next]
    refine ⟨?_, rfl, kinds⟩
    have before : calls.map (fun c' => verdict (seen (calls ++ [c])) c'.1)
        = calls.map (fun c' => verdict (seen calls) c'.1) := by
      apply List.map_congr_left
      intro c' member
      rw [seen_snoc]
      exact verdict_append _ (mem_seen.mpr ⟨c', member, rfl⟩)
    rw [List.map_append, List.map_singleton, before, outcomes]

theorem history_callAll (calls : List (Kind × Nat)) :
    History calls (callAll {} calls).1 (callAll {} calls).2 := by
  obtain ⟨outcomes, registry, first⟩ := callAll_eq calls
  rw [registry]
  refine ⟨outcomes, ?_, kinds_entriesOf _, flags_entriesOf _, ?_, ?_⟩
  · exact (kinds_entriesOf _).trans first
  all_goals
    intro e member
    obtain ⟨⟨kind, place⟩, -, rfl⟩ := List.mem_map.mp member
    rfl

namespace History

variable {calls : List (Kind × Nat)} {outcomes : List (Except Error Nat)} {r : Registry}

theorem distinct (history : History calls outcomes r) : (r.entries.map KindEntry.kind).Nodup :=
  history.accepted ▸ nodup_seen _

theorem getElem_flag (history : History calls outcomes r) (i : Nat) (bound : i < r.entries.length) :
    r.entries[i].flag = i + 1 := by
  have flag : (r.entries.map KindEntry.flag)[i]? = some (1 + i) := by
    rw [history.flags, List.getElem?_range' bound, Nat.one_mul]
  rw [List.getElem?_map, List.getElem?_eq_getElem bound, Option.map_some, Option.some.injEq] at flag
  rw [flag, Nat.add_comm]

/-- A kind that has a flag is given the same one again. -/
theorem call_known (history : History calls outcomes r) {kind : Kind} (n : Nat)
    (known : kind ∈ r.entries.map KindEntry.kind) :
    (r.call kind n).1 = .ok ((r.entries.map KindEntry.kind).idxOf kind + 1) := by
  have inKinds := List.idxOf_lt_length_of_mem known
  have bound := inKinds
  rw [List.length_map] at bound
  have same := List.getElem_idxOf inKinds
  rw [List.getElem_map] at same
  have found := count?_of_mem (n := n) history.distinct (List.getElem_mem bound)
  rw [same, history.getElem_flag _ bound] at found
  have given : r.assign kind n = .ok ((r.entries.map KindEntry.kind).idxOf kind + 1,
      ⟨r.entries.map (counted kind n)⟩) := by
    rw [assign, found]
  rw [call_of_ok given]

/-- A full registry refuses a new kind, and stays as it is. -/
theorem call_new {kind : Kind} (n : Nat) (new : kind ∉ r.entries.map KindEntry.kind)
    (full : Header.maxFlag ≤ r.entries.length) : r.call kind n = (.error .tooManyKinds, r) := by
  have absent : count? kind n r.entries = none := by
    rw [count?_eq_none_iff]
    intro e member same
    exact new (same ▸ List.mem_map_of_mem member)
  apply call_of_error
  rw [assign, absent]
  exact if_pos full

/-- Sorting by flag undoes any reordering of the entries, since no two of them share a flag. -/
theorem tableOf_perm (history : History calls outcomes r) {entries : List KindEntry}
    (perm : entries.Perm r.entries) : tableOf entries = r.table := by
  let before (a b : KindEntry) : Bool := a.flag ≤ b.flag
  have unique : (r.entries.map KindEntry.flag).Nodup := history.flags ▸ List.nodup_range'
  have sorted : (entries.mergeSort before).Pairwise fun a b => before a b := by
    apply List.pairwise_mergeSort
    · intro a b c
      simp only [before, decide_eq_true_eq]
      exact Nat.le_trans
    · intro a b
      simp only [before, Bool.or_eq_true, decide_eq_true_eq]
      exact Nat.le_total _ _
  have ordered : r.entries.Pairwise fun a b => before a b := by
    have flags : (r.entries.map KindEntry.flag).Pairwise (· < ·) :=
      history.flags ▸ List.pairwise_lt_range'
    exact (List.pairwise_map.mp flags).imp fun less => decide_eq_true (Nat.le_of_lt less)
  have same : (entries.mergeSort before).Perm r.entries := (List.mergeSort_perm _ _).trans perm
  have equal : entries.mergeSort before = r.entries := by
    refine same.eq_of_pairwise ?_ sorted ordered
    intro a b inSorted inEntries ab ba
    refine List.inj_on_of_nodup_map unique (same.subset inSorted) inEntries ?_
    exact Nat.le_antisymm (of_decide_eq_true ab) (of_decide_eq_true ba)
  exact congrArg KindTable.mk equal

/-- The table knows the flags that were given out, and no other. -/
theorem kind?_table (history : History calls outcomes r) (flag : Nat) :
    r.table.kind? flag = if 1 ≤ flag ∧ flag ≤ r.entries.length
      then (r.entries.map KindEntry.kind)[flag - 1]? else none := by
  split
  next given =>
    have bound : flag - 1 < r.entries.length := by omega
    have found := KindTable.kind?_of_numbered r.table history.getElem_flag (flag - 1) bound
    rw [Nat.sub_add_cancel given.1] at found
    rw [found, List.getElem?_map, List.getElem?_eq_getElem bound]
    rfl
  next other =>
    refine Option.eq_none_iff_forall_ne_some.mpr fun kind known => other ?_
    obtain ⟨e, member, rfl, -⟩ := KindTable.mem_of_kind? known
    have flags := List.mem_map_of_mem (f := KindEntry.flag) member
    simp only [table, history.flags, List.mem_range'_1] at flags
    omega

end History

/-- Whatever calls are made to a new registry, a kind has the number of its first sight for a flag, up
to the last flag there is. The registry counts the calls that were given a flag, a kind without one is
refused and changes nothing, and the table finds each kind under its flag alone. -/
theorem history_of_calls (calls : List (Kind × Nat)) :
    let outcomes := (callAll {} calls).1
    let r := (callAll {} calls).2
    History calls outcomes r ∧
      (∀ kind n, kind ∈ r.entries.map KindEntry.kind →
        (r.call kind n).1 = .ok ((r.entries.map KindEntry.kind).idxOf kind + 1)) ∧
      (∀ kind n, kind ∉ r.entries.map KindEntry.kind → Header.maxFlag ≤ r.entries.length →
        r.call kind n = (.error .tooManyKinds, r)) ∧
      (∀ entries, entries.Perm r.entries → tableOf entries = r.table) ∧
      ∀ flag, r.table.kind? flag = if 1 ≤ flag ∧ flag ≤ r.entries.length
        then (r.entries.map KindEntry.kind)[flag - 1]? else none := by
  have history := history_callAll calls
  refine ⟨history, ?_, ?_, ?_, history.kind?_table⟩
  · intro kind n known
    exact history.call_known n known
  · intro kind n new full
    exact History.call_new n new full
  · intro entries perm
    exact history.tableOf_perm perm

/-- A kind asked for again, after another one, has its first flag. -/
example : (callAll {} [(.run .u8, 3), (.run .u16, 4), (.run .u8, 5)]).1.map Except.toOption
    = [some 1, some 2, some 1] := by decide

end Registry
end SparseStream
