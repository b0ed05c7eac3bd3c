import SparseStream.Bytes

/-!
Variable-length numbers: groups of seven bits, lowest first, every byte but the last with its high
bit set. A number of `wordLimit` or more is refused, and so is an eleventh byte.
-/
namespace SparseStream.Varint

/-- The longest number takes this many bytes. -/
def maxLength : Nat := 10

def encode (n : Nat) : List UInt8 :=
  if n < 128 then [n.toUInt8] else (n % 128 + 128).toUInt8 :: encode (n / 128)
termination_by n
decreasing_by omega

/-- How many groups of seven bits hold `n`; zero takes one. -/
def length (n : Nat) : Nat := n.log2 / 7 + 1

theorem length_encode (n : Nat) : (encode n).length = length n := by
  induction n using Nat.strongRecOn with
  | ind n ih =>
    rw [encode, length]
    split
    · rename_i small
      have : n.log2 < 7 ∨ n = 0 := by
        by_cases h : n = 0
        · exact .inr h
        · exact .inl ((Nat.log2_lt h).2 small)
      rcases this with h | rfl
      · simp; omega
      · rfl
    · rename_i big
      have h := ih (n / 128) (by omega)
      have shift : n.log2 = (n / 128).log2 + 7 := by
        have step : ∀ m, 2 ≤ m → m.log2 = (m / 2).log2 + 1 := fun m hm => by
          rw [Nat.log2_def]; simp [hm]
        rw [step n (by omega), step (n / 2) (by omega), step (n / 2 / 2) (by omega),
          step (n / 2 / 2 / 2) (by omega), step (n / 2 / 2 / 2 / 2) (by omega),
          step (n / 2 / 2 / 2 / 2 / 2) (by omega), step (n / 2 / 2 / 2 / 2 / 2 / 2) (by omega)]
        simp [Nat.div_div_eq_div_mul]
      simp only [List.length_cons, h, length]
      omega

/-- Why no number stands at the start of some bytes. -/
inductive Fault where
  | cut (groups : Nat)
  | tooWide
  deriving DecidableEq, Repr

/-- Reads on from group `i`, with the groups before it worth `acc`: the number, how many groups it
took in all, and the bytes after it. -/
def decodeFrom (i acc : Nat) : List UInt8 → Except Fault (Nat × Nat × List UInt8)
  | [] => .error (.cut i)
  | b :: rest =>
    let group := (b.toNat % 128) <<< (7 * i)
    if maxLength ≤ i ∨ wordLimit ≤ group then .error .tooWide
    else if b.toNat < 128 then .ok (acc + group, i + 1, rest)
    else decodeFrom (i + 1) (acc + group) rest

def decode (bytes : List UInt8) : Except Fault (Nat × Nat × List UInt8) := decodeFrom 0 0 bytes

/-- Reading on takes a byte per group. -/
theorem length_of_decodeFrom {i acc n groups : Nat} {bytes rest : List UInt8}
    (h : decodeFrom i acc bytes = .ok (n, groups, rest)) :
    rest.length + (groups - i) = bytes.length ∧ i < groups := by
  induction bytes generalizing i acc with
  | nil => simp [decodeFrom] at h
  | cons b bytes ih =>
    simp only [decodeFrom] at h
    split at h
    · contradiction
    split at h
    · simp only [Except.ok.injEq, Prod.mk.injEq] at h
      obtain ⟨-, rfl, rfl⟩ := h
      simp
    · have := ih h
      simp only [List.length_cons]
      omega

end SparseStream.Varint
