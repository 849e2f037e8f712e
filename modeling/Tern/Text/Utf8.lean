import Tern.Text.Units

/-!
# UTF-8 with replacement

Decoding never fails: each longest part that starts an encoded character and cannot be
finished becomes one replacement character, and so does each byte that starts none. The
decoder is a machine that takes one byte at a time; `Pending` is what it owes.
-/

namespace Tern.Text.Utf8

/-- An unfinished character: the bytes still owed, the range the next one must lie in, and the
bits read so far. -/
structure Pending where
  owed : Nat
  low : Nat
  high : Nat
  bits : Nat

/-- What a first byte begins: a whole character, a longer one, or nothing (`none`). -/
def lead (b : Nat) : Option (Char ⊕ Pending) :=
  if b < 0x80 then some (.inl (Char.ofNat b))
  else if 0xC2 ≤ b && b ≤ 0xDF then some (.inr ⟨1, 0x80, 0xBF, b - 0xC0⟩)
  else if b == 0xE0 then some (.inr ⟨2, 0xA0, 0xBF, 0⟩)
  else if b == 0xED then some (.inr ⟨2, 0x80, 0x9F, 0xD⟩)
  else if 0xE1 ≤ b && b ≤ 0xEF then some (.inr ⟨2, 0x80, 0xBF, b - 0xE0⟩)
  else if b == 0xF0 then some (.inr ⟨3, 0x90, 0xBF, 0⟩)
  else if 0xF1 ≤ b && b ≤ 0xF3 then some (.inr ⟨3, 0x80, 0xBF, b - 0xF0⟩)
  else if b == 0xF4 then some (.inr ⟨3, 0x80, 0x8F, 4⟩)
  else none

/-- A byte between characters: the characters it completes and what it leaves owed. -/
def start (b : Nat) : List Char × Option Pending :=
  match lead b with
  | some (.inl c) => ([c], none)
  | some (.inr p) => ([], some p)
  | none => ([replacement], none)

/-- One byte. A byte that does not continue the pending character gives that character up and
is then read afresh. -/
def step : Option Pending → Nat → List Char × Option Pending
  | none, b => start b
  | some p, b =>
    if p.low ≤ b && b ≤ p.high then
      let bits := p.bits * 64 + (b - 0x80)
      if p.owed ≤ 1 then ([Char.ofNat bits], none)
      else ([], some ⟨p.owed - 1, 0x80, 0xBF, bits⟩)
    else
      let (cs, q) := start b
      (replacement :: cs, q)

/-- The characters of a byte sequence, from a given state of the machine. -/
def decodeFrom : Option Pending → List Nat → List Char
  | none, [] => []
  | some _, [] => [replacement]
  | p, b :: bs =>
    let (cs, q) := step p b
    cs ++ decodeFrom q bs

/-- The text of a byte sequence. -/
def decode (bytes : List Nat) : String :=
  String.ofList (decodeFrom none bytes)

end Tern.Text.Utf8
