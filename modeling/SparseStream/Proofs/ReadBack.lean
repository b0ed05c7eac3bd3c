import SparseStream.Buffer
import SparseStream.Proofs.Fields

/-! What is written to a buffer is read back. Nothing in the bytes tells where a field ends, so a
reader has to ask for the same fields in the same order. It gets the values that were written then;
the flags of a header come with all bits that were set on them while the buffer grew. -/
namespace SparseStream

/-- A write to a buffer. A bit is set on the flags of a header, which is named by its number among
the headers written so far. -/
inductive Write where
  | header (flags size : UInt8)
  | varint (n : Nat)
  | fullColumn (col : Nat)
  | packed (width : Width) (ns : List Nat)
  | bit (header bit : Nat)

/-- A buffer, with the offsets that its headers were given. -/
structure Draft where
  buffer : Buffer := {}
  headers : List Nat := []

/-- Flags after some bits were set on them. -/
def Header.withBits (flags : UInt8) (bits : List Nat) : UInt8 :=
  bits.foldl (fun flags bit => flags ||| ((1 : UInt8) <<< bit.toUInt8)) flags

namespace Reader

/-- The values that calls give one after another. -/
def readAll (r : Reader) : List Call → Except Corruption (List Nat × Reader)
  | [] => .ok ([], r)
  | c :: cs => do
    let (n, r) ← r.read c
    let (ns, r) ← r.readAll cs
    return (n :: ns, r)

theorem readAll_cons {r r' r'' : Reader} {c : Call} {cs : List Call} {n : Nat} {ns : List Nat}
    (first : r.read c = .ok (n, r')) (rest : r'.readAll cs = .ok (ns, r'')) :
    r.readAll (c :: cs) = .ok (n :: ns, r'') := by
  simp only [readAll, first, rest, bind, Except.bind, pure, Except.pure]

theorem readAll_append {r r' r'' : Reader} {xs ys : List Call} {ms ns : List Nat}
    (first : r.readAll xs = .ok (ms, r')) (rest : r'.readAll ys = .ok (ns, r'')) :
    r.readAll (xs ++ ys) = .ok (ms ++ ns, r'') := by
  induction xs generalizing r ms with
  | nil =>
    cases first
    exact rest
  | cons c xs ih =>
    simp only [readAll, bind_eq_ok, Prod.exists, pure, Except.pure, Except.ok.injEq,
      Prod.mk.injEq] at first
    obtain ⟨n, r₁, head, ms', r₂, tail, rfl, rfl⟩ := first
    exact readAll_cons head (ih tail)

end Reader

namespace Write

/-- A write, unless it is for a header that does not exist or is not inside of the buffer. -/
def run? (d : Draft) : Write → Option Draft
  | header flags size =>
    some ⟨d.buffer.header flags.toNat size.toNat, d.headers ++ [d.buffer.size]⟩
  | varint n => some { d with buffer := d.buffer.varint n }
  | fullColumn col => some { d with buffer := d.buffer.fullColumn col }
  | packed w ns => some { d with buffer := d.buffer.packed w ns }
  | bit h b => do
    let offset ← d.headers[h]?
    let buffer ← d.buffer.setBit? offset b
    return { d with buffer }

def runAll? (d : Draft) (ws : List Write) : Option Draft := ws.foldlM run? d

/-- The calls that a write is read back with. -/
def calls : Write → List Reader.Call
  | header _ _ => [.byte, .byte]
  | varint _ => [.varint]
  | fullColumn _ => [.fullColumn]
  | packed w ns => List.replicate ns.length (.packed w)
  | bit _ _ => []

/-- What these calls give. -/
def values : Write → List Nat
  | header flags size => [flags.toNat, size.toNat]
  | varint n => [n]
  | fullColumn col => [col]
  | packed _ ns => ns
  | bit _ _ => []

/-- The bytes that a write adds. -/
def bytes : Write → List UInt8
  | header flags size => [flags, size]
  | varint n => Varint.encode n
  | fullColumn col => littleEndian 4 col
  | packed w ns => ns.flatMap w.pack
  | bit _ _ => []

/-- Each number is of the type that its field holds, and packed ones fit their width. -/
def InRange : Write → Prop
  | header _ _ => True
  | varint n => n < wordLimit
  | fullColumn col => col < fullColumnLimit
  | packed w ns => ∀ n ∈ ns, n < wordLimit ∧ (Width.classify n).bytes ≤ w.bytes
  | bit _ b => b < 8

def isHeader : Write → Bool
  | header _ _ => true
  | _ => false

/-- Bits are set on headers that were written before. -/
def BitsFollow (ws : List Write) : Prop :=
  ∀ i h b, ws[i]? = some (bit h b) → h < (ws.take i).countP isHeader

/-- The bits that are set on a header, in order. -/
def bitsOn (ws : List Write) (h : Nat) : List Nat :=
  ws.filterMap fun
    | bit h' b => if h' = h then some b else none
    | _ => none

/-- The write with these bits set, if it is a header. -/
def settle (bits : List Nat) : Write → Write
  | header flags size => header (Header.withBits flags bits) size
  | w => w

/-- The writes with the flags of each header as they are in the end, for headers from number `h`
on. -/
def settled (bits : Nat → List Nat) (h : Nat) : List Write → List Write
  | [] => []
  | w :: ws => w.settle (bits h) :: settled bits (h + if w.isHeader then 1 else 0) ws

/-- Where the headers lie, from some offset on. -/
def offsets (start : Nat) : List Write → List Nat
  | [] => []
  | w :: ws => (if w.isHeader then [start] else []) ++ offsets (start + w.bytes.length) ws

/-! ### Reading -/

theorem byteLimit_mono {m n : Nat} (le : m ≤ n) : byteLimit m ≤ byteLimit n := by
  induction le with
  | refl => exact Nat.le_refl _
  | step _ ih => exact Nat.le_trans ih (Nat.le_mul_of_pos_left _ (by decide))

theorem lt_limit_of_classify_le {w : Width} {n : Nat} (word : n < wordLimit)
    (narrow : (Width.classify n).bytes ≤ w.bytes) : n < w.limit :=
  Nat.lt_of_lt_of_le (Width.lt_limit_classify word) (byteLimit_mono narrow)

theorem readAll_packed {w : Width} {ns : List Nat} {r r' : Reader} (fit : ∀ n ∈ ns, n < w.limit)
    (before : r.Before (ns.flatMap w.pack) r') :
    r.readAll (List.replicate ns.length (.packed w)) = .ok (ns, r') := by
  induction ns generalizing r with
  | nil => rw [(Reader.Before.refl r).unique before]; rfl
  | cons n ns ih =>
    rw [List.forall_mem_cons] at fit
    rw [List.flatMap_cons] at before
    obtain ⟨between, first, rest⟩ := before.split
    exact Reader.readAll_cons (Reader.packed_eq_ok_iff.mpr ⟨fit.1, first⟩) (ih fit.2 rest)

/-- One write, read back behind the bytes before it. -/
theorem InRange.readAll_calls {w : Write} {r r' : Reader} (inRange : w.InRange)
    (before : r.Before w.bytes r') : r.readAll w.calls = .ok (w.values, r') := by
  cases w with
  | header flags size =>
    have both : r.Before ([flags] ++ [size]) r' := before
    obtain ⟨between, first, second⟩ := both.split
    have readFlags : r.read .byte = .ok (flags.toNat, between) := by
      simp only [Reader.read, Reader.byte_eq_ok_iff.mpr first]
      rfl
    have readSize : between.read .byte = .ok (size.toNat, r') := by
      simp only [Reader.read, Reader.byte_eq_ok_iff.mpr second]
      rfl
    exact Reader.readAll_cons readFlags (Reader.readAll_cons readSize rfl)
  | varint n =>
    have word : n < wordLimit := inRange
    have read : r.varint = .ok (n, r') :=
      Reader.varint_eq_ok_iff.mpr ⟨_, spellsNumber_encode n word, before⟩
    exact Reader.readAll_cons read rfl
  | fullColumn col =>
    have narrow : col < byteLimit 4 := inRange
    have value : ofLittleEndian (littleEndian 4 col) = col :=
      (ofLittleEndian_littleEndian 4 col).trans (Nat.mod_eq_of_lt narrow)
    have read : r.fullColumn = .ok (col, r') :=
      Reader.fullColumn_eq_ok_iff.mpr ⟨_, length_littleEndian 4 col, value, before⟩
    exact Reader.readAll_cons read rfl
  | packed w ns =>
    have narrow : ∀ n ∈ ns, n < wordLimit ∧ (Width.classify n).bytes ≤ w.bytes := inRange
    exact readAll_packed (fun n member =>
      lt_limit_of_classify_le (narrow n member).1 (narrow n member).2) before
  | bit h b =>
    rw [(Reader.Before.refl r).unique before]
    rfl

/-- Writes one after another, by induction along them. -/
theorem readAll_flatMap {ws : List Write} {r r' : Reader} (inRange : ∀ w ∈ ws, w.InRange)
    (before : r.Before (ws.flatMap bytes) r') :
    r.readAll (ws.flatMap calls) = .ok (ws.flatMap values, r') := by
  induction ws generalizing r with
  | nil => rw [(Reader.Before.refl r).unique before]; rfl
  | cons w ws ih =>
    rw [List.forall_mem_cons] at inRange
    rw [List.flatMap_cons] at before
    obtain ⟨between, first, rest⟩ := before.split
    exact Reader.readAll_append (inRange.1.readAll_calls first) (ih inRange.2 rest)

/-! ### Settled flags -/

theorem calls_settle (bits : List Nat) (w : Write) : (w.settle bits).calls = w.calls := by
  cases w <;> rfl

theorem length_bytes_settle (bits : List Nat) (w : Write) :
    (w.settle bits).bytes.length = w.bytes.length := by
  cases w <;> rfl

theorem InRange.settle {w : Write} (inRange : w.InRange) (bits : List Nat) :
    (w.settle bits).InRange := by
  cases w <;> exact inRange

theorem settle_of_not_isHeader {w : Write} (other : w.isHeader = false) (bits : List Nat) :
    w.settle bits = w := by
  cases w with
  | header flags size => contradiction
  | _ => rfl

variable {bits bits' : Nat → List Nat} {h : Nat}

theorem calls_settled (bits : Nat → List Nat) (h : Nat) (ws : List Write) :
    (settled bits h ws).flatMap calls = ws.flatMap calls := by
  induction ws generalizing h with
  | nil => rfl
  | cons w ws ih => rw [settled, List.flatMap_cons, List.flatMap_cons, calls_settle, ih]

theorem length_bytes_settled (ws : List Write) :
    ((settled bits h ws).flatMap bytes).length = (ws.flatMap bytes).length := by
  induction ws generalizing h with
  | nil => rfl
  | cons w ws ih =>
    simp only [settled, List.flatMap_cons, List.length_append, length_bytes_settle, ih]

theorem inRange_settled {ws : List Write} (inRange : ∀ w ∈ ws, w.InRange) :
    ∀ w ∈ settled bits h ws, w.InRange := by
  induction ws generalizing h with
  | nil => exact inRange
  | cons w ws ih =>
    rw [List.forall_mem_cons] at inRange
    exact List.forall_mem_cons.mpr ⟨inRange.1.settle _, ih inRange.2⟩

theorem settled_append (xs ys : List Write) :
    settled bits h (xs ++ ys)
      = settled bits h xs ++ settled bits (h + xs.countP isHeader) ys := by
  induction xs generalizing h with
  | nil => rfl
  | cons w xs ih =>
    rw [List.cons_append, settled, ih, settled, List.cons_append, List.countP_cons, Nat.add_assoc,
      Nat.add_comm (xs.countP isHeader)]

/-- Only the bits of the headers among the writes matter to them. -/
theorem settled_congr {ws : List Write}
    (same : ∀ j, h ≤ j → j < h + ws.countP isHeader → bits j = bits' j) :
    settled bits h ws = settled bits' h ws := by
  induction ws generalizing h with
  | nil => rfl
  | cons w ws ih =>
    rw [List.countP_cons] at same
    have rest := ih (h := h + if w.isHeader then 1 else 0) fun j low high =>
      same j (by omega) (by omega)
    rw [settled, settled, rest]
    cases is : w.isHeader with
    | true => rw [same h (Nat.le_refl h) (by rw [is, if_pos rfl]; omega)]
    | false => rw [settle_of_not_isHeader is, settle_of_not_isHeader is]

/-! ### Writing -/

theorem bitsOn_append (xs ys : List Write) (h : Nat) :
    bitsOn (xs ++ ys) h = bitsOn xs h ++ bitsOn ys h :=
  List.filterMap_append

theorem length_offsets (start : Nat) (ws : List Write) :
    (offsets start ws).length = ws.countP isHeader := by
  induction ws generalizing start with
  | nil => rfl
  | cons w ws ih =>
    rw [offsets, List.length_append, ih, List.countP_cons, Nat.add_comm]
    split <;> rfl

theorem offsets_append (start : Nat) (xs ys : List Write) :
    offsets start (xs ++ ys)
      = offsets start xs ++ offsets (start + (xs.flatMap bytes).length) ys := by
  induction xs generalizing start with
  | nil => rfl
  | cons w xs ih =>
    rw [List.cons_append, offsets, ih, offsets, List.append_assoc, List.flatMap_cons,
      List.length_append, Nat.add_assoc]

/-- Each header has its place among the writes. -/
theorem exists_header {ws : List Write} (known : h < ws.countP isHeader) :
    ∃ front flags size back, ws = front ++ header flags size :: back ∧
      front.countP isHeader = h := by
  induction ws generalizing h with
  | nil => contradiction
  | cons w ws ih =>
    cases w with
    | header flags size =>
      cases h with
      | zero => exact ⟨[], flags, size, ws, rfl, rfl⟩
      | succ h =>
        rw [List.countP_cons_of_pos rfl] at known
        obtain ⟨front, flags', size', back, rfl, count⟩ := ih (Nat.lt_of_succ_lt_succ known)
        exact ⟨header flags size :: front, flags', size', back, rfl,
          by rw [List.countP_cons_of_pos rfl, count]⟩
    | _ =>
      rw [List.countP_cons_of_neg (by simp [isHeader])] at known
      obtain ⟨front, flags', size', back, rfl, count⟩ := ih known
      exact ⟨_ :: front, flags', size', back, rfl,
        by rw [List.countP_cons_of_neg (by simp [isHeader]), count]⟩

/-- What some writes have made of an empty draft. -/
structure Wrote (ws : List Write) (d : Draft) : Prop where
  bytes : d.buffer.bytes.toList = (settled (bitsOn ws) 0 ws).flatMap bytes
  headers : d.headers = offsets 0 ws
  fresh : ∀ h, ws.countP isHeader ≤ h → bitsOn ws h = []

variable {ws : List Write} {d : Draft} {w : Write}

theorem Wrote.size (wrote : Wrote ws d) : d.buffer.size = (ws.flatMap Write.bytes).length := by
  rw [Buffer.size, ← Array.length_toList, wrote.bytes, length_bytes_settled]

/-- A write other than a bit adds its bytes, and an offset if it is a header. -/
theorem run?_of_adds (adds : ∀ h b, w ≠ bit h b) :
    w.run? d = some ⟨d.buffer.append w.bytes,
      d.headers ++ if w.isHeader then [d.buffer.size] else []⟩ := by
  cases w with
  | header flags size => simp [run?, Buffer.header, bytes, isHeader]
  | bit h b => exact absurd rfl (adds h b)
  | _ => simp [run?, Buffer.varint, Buffer.fullColumn, Buffer.packed, bytes, isHeader]

theorem Wrote.add (wrote : Wrote ws d) (adds : ∀ h b, w ≠ bit h b) :
    ∃ d', w.run? d = some d' ∧ Wrote (ws ++ [w]) d' := by
  have noBits : bitsOn (ws ++ [w]) = bitsOn ws := by
    funext h
    rw [bitsOn_append]
    cases w with
    | bit h' b => exact absurd rfl (adds h' b)
    | _ => exact List.append_nil _
  have unset : w.settle (bitsOn ws (0 + ws.countP isHeader)) = w := by
    rw [wrote.fresh _ (Nat.le_add_left _ 0)]
    cases w <;> rfl
  refine ⟨_, run?_of_adds adds, ?_, ?_, ?_⟩
  · rw [noBits, settled_append, settled, settled, unset, Buffer.toList_append, wrote.bytes,
      List.flatMap_append, List.flatMap_singleton]
  · rw [offsets_append, offsets, offsets, List.append_nil, Nat.zero_add, ← wrote.headers,
      ← wrote.size]
  · intro h beyond
    rw [List.countP_append] at beyond
    rw [noBits]
    exact wrote.fresh h (Nat.le_trans (Nat.le_add_right _ _) beyond)

theorem bitsOn_snoc_bit (ws : List Write) (h b j : Nat) :
    bitsOn (ws ++ [bit h b]) j = bitsOn ws j ++ if h = j then [b] else [] := by
  rw [bitsOn_append]
  congr 1
  by_cases same : h = j <;> simp [bitsOn, same]

theorem settled_header (bits : Nat → List Nat) (front : List Write) (flags size : UInt8)
    (back : List Write) :
    settled bits 0 (front ++ header flags size :: back)
      = settled bits 0 front ++ header (Header.withBits flags (bits (front.countP isHeader))) size ::
        settled bits (front.countP isHeader + 1) back := by
  rw [settled_append, Nat.zero_add]
  rfl

theorem getElem?_offsets (front : List Write) (flags size : UInt8) (back : List Write) :
    (offsets 0 (front ++ header flags size :: back))[front.countP isHeader]?
      = some (front.flatMap bytes).length := by
  rw [offsets_append, List.getElem?_append_right (Nat.le_of_eq (length_offsets 0 front)), length_offsets,
    Nat.sub_self, Nat.zero_add]
  rfl

/-- A bit changes the flags of its header. The header is found where it was put, since the bits set
before have left all lengths as they were. -/
theorem Wrote.set {h b : Nat} (wrote : Wrote ws d) (known : h < ws.countP isHeader) :
    ∃ d', (bit h b).run? d = some d' ∧ Wrote (ws ++ [bit h b]) d' := by
  obtain ⟨front, flags, size, back, rfl, rfl⟩ := exists_header known
  let ws := front ++ header flags size :: back
  let h := front.countP isHeader
  let lead := (settled (bitsOn ws) 0 front).flatMap Write.bytes
  have place : d.headers[h]? = some lead.length := by
    rw [wrote.headers, getElem?_offsets, length_bytes_settled]
  have stream : d.buffer.bytes.toList = lead ++ Header.withBits flags (bitsOn ws h) ::
      (size :: (settled (bitsOn ws) (h + 1) back).flatMap Write.bytes) := by
    rw [wrote.bytes, settled_header, List.flatMap_append, List.flatMap_cons]
    rfl
  have inside : lead.length < d.buffer.size := by
    rw [Buffer.size, ← Array.length_toList, stream, List.length_append, List.length_cons]
    omega
  have found : (bit h b).run? d = some { d with buffer := d.buffer.setBit lead.length b } := by
    simp only [run?, place, Buffer.setBit?, if_pos inside, bind, Option.bind, pure]
  refine ⟨_, found, ?_, ?_, ?_⟩
  · have bits : ∀ j, bitsOn (ws ++ [bit h b]) j = bitsOn ws j ++ if h = j then [b] else [] :=
      bitsOn_snoc_bit ws h b
    have before : settled (bitsOn (ws ++ [bit h b])) 0 front = settled (bitsOn ws) 0 front :=
      settled_congr fun j _ low => by rw [bits, if_neg (by omega), List.append_nil]
    have behind : settled (bitsOn (ws ++ [bit h b])) (h + 1) back
        = settled (bitsOn ws) (h + 1) back :=
      settled_congr fun j high _ => by rw [bits, if_neg (by omega), List.append_nil]
    have regroup : ws ++ [bit h b] = front ++ header flags size :: (back ++ [bit h b]) := by
      simp [ws]
    have marked : Header.withBits flags (bitsOn (ws ++ [bit h b]) h)
        = Header.withBits flags (bitsOn ws h) ||| (1 <<< b.toUInt8) := by
      rw [bits, if_pos rfl, Header.withBits, List.foldl_append]
      rfl
    have tail : settled (bitsOn (ws ++ [bit h b])) (h + 1) (back ++ [bit h b])
        = settled (bitsOn ws) (h + 1) back ++ [bit h b] := by
      rw [settled_append, behind]
      rfl
    rw [Buffer.toList_setBit b stream]
    generalize bitsOn (ws ++ [bit h b]) = bits' at before marked tail ⊢
    rw [regroup, settled_header, before, marked, tail]
    simp [lead, Write.bytes]
  · rw [wrote.headers, offsets_append 0 ws [bit h b]]
    exact (List.append_nil (offsets 0 ws)).symm
  · intro j beyond
    rw [List.countP_append] at beyond
    have old : bitsOn ws j = [] := wrote.fresh j (by omega)
    rw [bitsOn_snoc_bit, old, if_neg (by omega)]
    rfl

theorem BitsFollow.lt {front back : List Write} {h b : Nat}
    (follow : BitsFollow (front ++ bit h b :: back)) : h < front.countP isHeader := by
  have known := follow front.length h b (by simp)
  rwa [List.take_left] at known

theorem BitsFollow.front {front back : List Write} (follow : BitsFollow (front ++ back)) :
    BitsFollow front := by
  intro i h b found
  have inside : i < front.length := (List.getElem?_eq_some_iff.mp found).1
  have known := follow i h b (by rw [List.getElem?_append_left inside, found])
  rwa [List.take_append_of_le_length (Nat.le_of_lt inside)] at known

/-- A run that goes on behind other writes, by induction along what is still to be written. -/
theorem Wrote.runAll (rest : List Write) (wrote : Wrote ws d) (follow : BitsFollow (ws ++ rest)) :
    ∃ d', runAll? d rest = some d' ∧ Wrote (ws ++ rest) d' := by
  induction rest generalizing ws d with
  | nil => exact ⟨d, rfl, (List.append_nil ws).symm ▸ wrote⟩
  | cons w rest ih =>
    have step : ∃ d', w.run? d = some d' ∧ Wrote (ws ++ [w]) d' := by
      cases w with
      | bit h b => exact wrote.set follow.lt
      | _ => exact wrote.add (by simp)
    have regroup : ws ++ w :: rest = (ws ++ [w]) ++ rest := by simp
    obtain ⟨d₁, first, wrote₁⟩ := step
    rw [regroup] at follow ⊢
    obtain ⟨d', more, wrote'⟩ := ih wrote₁ follow
    refine ⟨d', ?_, wrote'⟩
    rw [runAll?, List.foldlM_cons, first]
    exact more

/-- Setting a bit touches one byte, that of the header. -/
theorem frame_of_bit {d' : Draft} {h b : Nat} (ran : (bit h b).run? d = some d') :
    ∃ offset, d.headers[h]? = some offset ∧ d'.buffer.size = d.buffer.size ∧
      ∀ i ≠ offset, d'.buffer.bytes[i]? = d.buffer.bytes[i]? := by
  simp only [run?, bind, Option.bind_eq_some_iff, pure, Option.some.injEq] at ran
  obtain ⟨offset, place, buffer, set, rfl⟩ := ran
  unfold Buffer.setBit? at set
  split at set
  · cases set
    exact ⟨offset, place, Buffer.size_setBit _ _ _, fun i apart =>
      Buffer.getElem?_setBit_of_ne _ _ (Ne.symm apart)⟩
  · contradiction

/-- Any writes to an empty buffer, with bits set on earlier headers in between: each is done, and
the matching calls give what was written, the flags with all bits set on them since, and leave nothing
to be read. A bit that is set changes one byte. -/
theorem reads_back (ws : List Write) (inRange : ∀ w ∈ ws, w.InRange) (follow : BitsFollow ws) :
    ∃ d, runAll? {} ws = some d ∧
      Reader.readAll ⟨0, d.buffer.bytes.toList⟩ (ws.flatMap calls)
        = .ok ((settled (bitsOn ws) 0 ws).flatMap values, ⟨d.buffer.size, []⟩) ∧
      ∀ front back h b, ws = front ++ bit h b :: back →
        ∃ before after offset, runAll? {} front = some before ∧
          (bit h b).run? before = some after ∧ before.headers[h]? = some offset ∧
          after.buffer.size = before.buffer.size ∧
          ∀ i ≠ offset, after.buffer.bytes[i]? = before.buffer.bytes[i]? := by
  have start : Wrote [] {} := ⟨rfl, rfl, fun _ _ => rfl⟩
  obtain ⟨d, ran, wrote⟩ := start.runAll ws follow
  rw [List.nil_append] at wrote
  refine ⟨d, ran, ?_, ?_⟩
  · have length : d.buffer.size = ((settled (bitsOn ws) 0 ws).flatMap bytes).length := by
      rw [← wrote.bytes, Array.length_toList, Buffer.size]
    have before : Reader.Before ⟨0, d.buffer.bytes.toList⟩
        ((settled (bitsOn ws) 0 ws).flatMap bytes) ⟨d.buffer.size, []⟩ :=
      ⟨by rw [wrote.bytes, List.append_nil], by rw [length, Nat.zero_add]⟩
    rw [← calls_settled (bitsOn ws) 0 ws]
    exact readAll_flatMap (inRange_settled inRange) before
  · rintro front back h b rfl
    have known : h < front.countP isHeader := follow.lt
    obtain ⟨before, ranFront, wroteFront⟩ := start.runAll front follow.front
    obtain ⟨after, set, -⟩ := wroteFront.set known
    obtain ⟨offset, place, size, others⟩ := frame_of_bit set
    exact ⟨before, after, offset, ranFront, set, place, size, others⟩

/-- Two headers with a number, a column and packed values between and behind them; the first one is
marked after the second was written. -/
theorem reads_back_two_headers :
    let ws : List Write := [.header 1 2, .varint 300, .header 2 1, .bit 0 7, .bit 0 6,
      .fullColumn 77, .packed .u16 [513]]
    (∀ w ∈ ws, w.InRange) ∧ BitsFollow ws ∧ ∃ d, runAll? {} ws = some d ∧
      Reader.readAll ⟨0, d.buffer.bytes.toList⟩
          [.byte, .byte, .varint, .byte, .byte, .fullColumn, .packed .u16]
        = .ok ([193, 2, 300, 2, 1, 77, 513], ⟨d.buffer.size, []⟩) := by
  intro ws
  have inRange : ∀ w ∈ ws, w.InRange := by simp [ws, InRange]; decide
  have follow : BitsFollow ws := by
    rintro (_ | _ | _ | _ | _ | _ | _ | i) h b found <;> cases found <;> decide
  obtain ⟨d, ran, read, -⟩ := reads_back ws inRange follow
  exact ⟨inRange, follow, d, ran, read⟩

end Write
end SparseStream
