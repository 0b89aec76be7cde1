/-!
UTF-8 read by a machine that takes one byte at a time. A fault stays in its place: each longest run
of bytes that begins a character but cannot be finished counts as one fault, so that text can be
shown with one replacement mark per fault or refused as a whole.
-/

set_option autoImplicit false

namespace SandboxMounts

abbrev Bytes := List UInt8

namespace Utf8

/-- A character under way: its value so far, the bytes owed after the next one, and the range of the next. -/
structure Owed where
  value : Nat
  after : Nat
  low : Nat
  high : Nat
  deriving DecidableEq, Repr

inductive Lead where
  | char (c : Char)
  | owed (o : Owed)
  | fault
  deriving DecidableEq, Repr

/-- What a byte begins. The second byte's range shuts out overlong forms, surrogates and values past the
last character. -/
def lead (b : Nat) : Lead :=
  if b < 0x80 then .char (Char.ofNat b)
  else if b < 0xC2 then .fault
  else if b < 0xE0 then .owed ⟨b - 0xC0, 0, 0x80, 0xBF⟩
  else if b < 0xF0 then
    .owed ⟨b - 0xE0, 1, if b = 0xE0 then 0xA0 else 0x80, if b = 0xED then 0x9F else 0xBF⟩
  else if b < 0xF5 then
    .owed ⟨b - 0xF0, 2, if b = 0xF0 then 0x90 else 0x80, if b = 0xF4 then 0x8F else 0xBF⟩
  else .fault

def start (b : Nat) : List (Option Char) × Option Owed :=
  match lead b with
  | .char c => ([some c], none)
  | .owed o => ([], some o)
  | .fault => ([none], none)

/-- One byte: a byte that does not continue the character under way is a fault, and begins anew. -/
def step : Option Owed → Nat → List (Option Char) × Option Owed
  | none, b => start b
  | some o, b =>
    if o.low ≤ b ∧ b ≤ o.high then
      let value := o.value * 64 + (b - 0x80)
      match o.after with
      | 0 => ([some (Char.ofNat value)], none)
      | k + 1 => ([], some ⟨value, k, 0x80, 0xBF⟩)
    else
      let (out, owed) := start b
      (none :: out, owed)

def scan : Option Owed → Bytes → List (Option Char)
  | none, [] => []
  | some _, [] => [none]
  | owed, b :: r => (step owed b.toNat).1 ++ scan (step owed b.toNat).2 r

def replacement : Char := '\uFFFD'

def lossy (bs : Bytes) : String :=
  String.ofList ((scan none bs).map (·.getD replacement))

def decode? (bs : Bytes) : Option (List Char) :=
  (scan none bs).mapM id

def text? (bs : Bytes) : Option String :=
  (decode? bs).map String.ofList

def encodeChar (c : Char) : Bytes :=
  let n := c.toNat
  if n < 0x80 then [UInt8.ofNat n]
  else if n < 0x800 then [UInt8.ofNat (0xC0 + n / 64), UInt8.ofNat (0x80 + n % 64)]
  else if n < 0x10000 then
    [UInt8.ofNat (0xE0 + n / 4096), UInt8.ofNat (0x80 + n / 64 % 64), UInt8.ofNat (0x80 + n % 64)]
  else
    [UInt8.ofNat (0xF0 + n / 262144), UInt8.ofNat (0x80 + n / 4096 % 64),
      UInt8.ofNat (0x80 + n / 64 % 64), UInt8.ofNat (0x80 + n % 64)]

def encode (cs : List Char) : Bytes := cs.flatMap encodeChar

def ofString (s : String) : Bytes := encode s.toList

theorem scan_cons (owed : Option Owed) (b : UInt8) (r : Bytes) :
    scan owed (b :: r) = (step owed b.toNat).1 ++ scan (step owed b.toNat).2 r := by
  cases owed <;> rfl

@[simp] theorem encode_append (x y : List Char) : encode (x ++ y) = encode x ++ encode y := by
  simp [encode]

end Utf8

end SandboxMounts
