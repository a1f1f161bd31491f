
namespace ActorMachine.Utf8

def replacement : Char := Char.ofNat 0xfffd

/-- The number of bytes that a leading byte announces after itself, and the range of the first of
them. It excludes overlong forms, surrogates and codes above the last character. -/
def lead? (b : UInt8) : Option (Nat × UInt8 × UInt8) :=
  if 0xc2 ≤ b ∧ b ≤ 0xdf then some (1, 0x80, 0xbf)
  else if b = 0xe0 then some (2, 0xa0, 0xbf)
  else if b = 0xed then some (2, 0x80, 0x9f)
  else if 0xe1 ≤ b ∧ b ≤ 0xef then some (2, 0x80, 0xbf)
  else if b = 0xf0 then some (3, 0x90, 0xbf)
  else if 0xf1 ≤ b ∧ b ≤ 0xf3 then some (3, 0x80, 0xbf)
  else if b = 0xf4 then some (3, 0x80, 0x8f)
  else none

def leadBits (b : UInt8) : Nat → Nat
  | 1 => b.toNat % 32
  | 2 => b.toNat % 16
  | _ => b.toNat % 8

/-- Take `n` further bytes of a character, the first of them from the given range. Gives the
character code, or nothing if the run breaks off, and the bytes left. -/
def continuation (code : Nat) : (n : Nat) → (lo hi : UInt8) → List UInt8 → Option Nat × List UInt8
  | 0, _, _, rest => (some code, rest)
  | _ + 1, _, _, [] => (none, [])
  | n + 1, lo, hi, b :: rest =>
    if lo ≤ b ∧ b ≤ hi then continuation (code * 64 + b.toNat % 64) n 0x80 0xbf rest
    else (none, b :: rest)

theorem length_continuation_le (code n : Nat) (lo hi : UInt8) (bytes : List UInt8) :
    (continuation code n lo hi bytes).2.length ≤ bytes.length := by
  induction bytes generalizing code n lo hi with
  | nil => cases n <;> simp [continuation]
  | cons b rest ih =>
    cases n with
    | zero => simp [continuation]
    | succ n =>
      simp only [continuation]
      split
      · exact Nat.le_succ_of_le (ih ..)
      · simp

def decodeChar (b : UInt8) (rest : List UInt8) : Char × List UInt8 :=
  if b < 0x80 then (Char.ofNat b.toNat, rest)
  else match lead? b with
    | none => (replacement, rest)
    | some (n, lo, hi) =>
      match continuation (leadBits b n) n lo hi rest with
      | (some code, rest) => (Char.ofNat code, rest)
      | (none, rest) => (replacement, rest)

theorem length_decodeChar_le (b : UInt8) (rest : List UInt8) :
    (decodeChar b rest).2.length ≤ rest.length := by
  unfold decodeChar
  split
  · exact Nat.le_refl _
  · split
    · exact Nat.le_refl _
    · next n lo hi _ =>
      have h := length_continuation_le (leadBits b n) n lo hi rest
      split <;> simp_all

def decodeChars : List UInt8 → List Char
  | [] => []
  | b :: rest => (decodeChar b rest).1 :: decodeChars (decodeChar b rest).2
termination_by bytes => bytes.length
decreasing_by
  have := length_decodeChar_le b rest
  simp only [List.length_cons]
  omega

def decode (bytes : List UInt8) : String := String.ofList (decodeChars bytes)

end ActorMachine.Utf8
