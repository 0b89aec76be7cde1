/-!
The tokens of JSON text, read by a machine that takes one character at a time, and their written
form. A string keeps its escaped code units apart from its characters, so that a text with half a
surrogate pair can be passed over where its value does not matter.
-/

set_option autoImplicit false

namespace SandboxMounts.Json

/-- One character of a string, or one code unit written as an escape. -/
inductive Piece where
  | char (c : Char)
  | unit (u : Nat)
  deriving DecidableEq, Repr

def isHighSurrogate (u : Nat) : Bool := 0xD800 ≤ u && u < 0xDC00

def isLowSurrogate (u : Nat) : Bool := 0xDC00 ≤ u && u < 0xE000

/-- The characters of a string: surrogates must come in pairs, high before low. -/
def textOf? : List Piece → Option (List Char)
  | [] => some []
  | .char c :: r => (textOf? r).map (c :: ·)
  | .unit u :: r =>
    if isHighSurrogate u then
      match r with
      | .unit l :: r' =>
        if isLowSurrogate l then
          (textOf? r').map (Char.ofNat (0x10000 + (u - 0xD800) * 0x400 + (l - 0xDC00)) :: ·)
        else none
      | _ => none
    else if isLowSurrogate u then none
    else (textOf? r).map (Char.ofNat u :: ·)

theorem textOf?_map_char (cs : List Char) : textOf? (cs.map .char) = some cs := by
  induction cs with
  | nil => rfl
  | cons c r ih => simp [textOf?, ih]

inductive Token where
  | leftBrace
  | rightBrace
  | leftBracket
  | rightBracket
  | comma
  | colon
  | null
  | bool (b : Bool)
  | number (literal : List Char)
  | string (pieces : List Piece)
  deriving DecidableEq, Repr

inductive NumberPart where
  | minus
  | zero
  | digits
  | point
  | fraction
  | mark
  | sign
  | exponent
  deriving DecidableEq, Repr

def NumberPart.next? (part : NumberPart) (c : Char) : Option NumberPart :=
  match part with
  | .minus => if c = '0' then some .zero else if c.isDigit then some .digits else none
  | .zero =>
    if c = '.' then some .point else if c = 'e' ∨ c = 'E' then some .mark else none
  | .digits =>
    if c.isDigit then some .digits
    else if c = '.' then some .point
    else if c = 'e' ∨ c = 'E' then some .mark
    else none
  | .point => if c.isDigit then some .fraction else none
  | .fraction =>
    if c.isDigit then some .fraction else if c = 'e' ∨ c = 'E' then some .mark else none
  | .mark =>
    if c.isDigit then some .exponent else if c = '+' ∨ c = '-' then some .sign else none
  | .sign | .exponent => if c.isDigit then some .exponent else none

def NumberPart.isComplete : NumberPart → Bool
  | .zero | .digits | .fraction | .exponent => true
  | .minus | .point | .mark | .sign => false

/-- Where the machine stands; what a token has so far is kept newest first. -/
inductive Scan where
  | between
  | string (read : List Piece)
  | escape (read : List Piece)
  | unit (read : List Piece) (value owed : Nat)
  | number (part : NumberPart) (read : List Char)
  | word (rest : List Char) (token : Token)
  deriving DecidableEq, Repr

def isBlank (c : Char) : Bool := c == ' ' || c == '\t' || c == '\n' || c == '\r'

def begin? (c : Char) : Option (List Token × Scan) :=
  if isBlank c then some ([], .between)
  else
    match c with
    | '\x7b' => some ([.leftBrace], .between)
    | '\x7d' => some ([.rightBrace], .between)
    | '[' => some ([.leftBracket], .between)
    | ']' => some ([.rightBracket], .between)
    | ',' => some ([.comma], .between)
    | ':' => some ([.colon], .between)
    | '"' => some ([], .string [])
    | '-' => some ([], .number .minus [c])
    | '0' => some ([], .number .zero [c])
    | 'n' => some ([], .word ['u', 'l', 'l'] .null)
    | 't' => some ([], .word ['r', 'u', 'e'] (.bool true))
    | 'f' => some ([], .word ['a', 'l', 's', 'e'] (.bool false))
    | _ => if c.isDigit then some ([], .number .digits [c]) else none

def escaped? : Char → Option Char
  | '"' => some '"'
  | '\\' => some '\\'
  | '/' => some '/'
  | 'b' => some '\x08'
  | 't' => some '\t'
  | 'n' => some '\n'
  | 'f' => some '\x0c'
  | 'r' => some '\r'
  | _ => none

def hexValue? (c : Char) : Option Nat :=
  if '0' ≤ c ∧ c ≤ '9' then some (c.toNat - '0'.toNat)
  else if 'a' ≤ c ∧ c ≤ 'f' then some (c.toNat - 'a'.toNat + 10)
  else if 'A' ≤ c ∧ c ≤ 'F' then some (c.toNat - 'A'.toNat + 10)
  else none

/-- One character. A number ends where it cannot go on, and the character there begins anew. -/
def Scan.step? (st : Scan) (c : Char) : Option (List Token × Scan) :=
  match st with
  | .between => begin? c
  | .string read =>
    if c = '"' then some ([.string read.reverse], .between)
    else if c = '\\' then some ([], .escape read)
    else if c < ' ' then none
    else some ([], .string (.char c :: read))
  | .escape read =>
    if c = 'u' then some ([], .unit read 0 4)
    else (escaped? c).map fun e => ([], .string (.char e :: read))
  | .unit read value owed =>
    (hexValue? c).map fun d =>
      match owed with
      | 0 | 1 => ([], .string (.unit (value * 16 + d) :: read))
      | k + 2 => ([], .unit read (value * 16 + d) (k + 1))
  | .number part read =>
    match part.next? c with
    | some p => some ([], .number p (c :: read))
    | none =>
      if part.isComplete then
        (begin? c).map fun (ts, st) => (.number read.reverse :: ts, st)
      else none
  | .word [] _ => none
  | .word (w :: rest) token =>
    if c = w then
      match rest with
      | [] => some ([token], .between)
      | _ :: _ => some ([], .word rest token)
    else none

def Scan.finish? : Scan → Option (List Token)
  | .between => some []
  | .number part read => if part.isComplete then some [.number read.reverse] else none
  | _ => none

def Scan.run? : Scan → List Char → Option (List Token)
  | st, [] => st.finish?
  | st, c :: r => do
    let (ts, st') ← st.step? c
    let rest ← run? st' r
    return ts ++ rest

def tokens? (text : List Char) : Option (List Token) := Scan.between.run? text

def hexDigit (n : Nat) : Char :=
  Char.ofNat (if n < 10 then '0'.toNat + n else 'a'.toNat + (n - 10))

def unitEscape (u : Nat) : List Char :=
  ['\\', 'u', hexDigit (u / 4096 % 16), hexDigit (u / 256 % 16), hexDigit (u / 16 % 16), hexDigit (u % 16)]

/-- Only what may not stand in a string is escaped, by one letter where there is one. -/
def charText (c : Char) : List Char :=
  match c with
  | '"' => ['\\', '"']
  | '\\' => ['\\', '\\']
  | '\x08' => ['\\', 'b']
  | '\t' => ['\\', 't']
  | '\n' => ['\\', 'n']
  | '\x0c' => ['\\', 'f']
  | '\r' => ['\\', 'r']
  | _ => if c < ' ' then unitEscape c.toNat else [c]

def Piece.text : Piece → List Char
  | .char c => charText c
  | .unit u => unitEscape u

def Token.text : Token → List Char
  | .leftBrace => ['\x7b']
  | .rightBrace => ['\x7d']
  | .leftBracket => ['[']
  | .rightBracket => [']']
  | .comma => [',']
  | .colon => [':']
  | .null => ['n', 'u', 'l', 'l']
  | .bool true => ['t', 'r', 'u', 'e']
  | .bool false => ['f', 'a', 'l', 's', 'e']
  | .number literal => literal
  | .string pieces => '"' :: pieces.flatMap Piece.text ++ ['"']

end SandboxMounts.Json
