import SandboxMounts.Json.Token

/-!
JSON values, read from tokens with a stack of the containers that are open, and written back as
tokens without blanks.
-/

set_option autoImplicit false

namespace SandboxMounts

inductive Json where
  | null
  | bool (b : Bool)
  | number (literal : List Char)
  | string (pieces : List Json.Piece)
  | array (items : List Json)
  | object (members : List (List Json.Piece × Json))
  deriving Repr

namespace Json

/-- A container that is open around the value being read; its items stand newest first. -/
inductive Frame where
  | array (items : List Json)
  | object (members : List (List Piece × Json)) (key : List Piece)
  deriving Repr

inductive Want where
  | value
  | firstItem
  | firstKey
  | key (members : List (List Piece × Json))
  | colon (members : List (List Piece × Json)) (key : List Piece)
  | after (v : Json)
  deriving Repr

def open? (t : Token) (stack : List Frame) : Option (Want × List Frame) :=
  match t with
  | .null => some (.after .null, stack)
  | .bool b => some (.after (.bool b), stack)
  | .number literal => some (.after (.number literal), stack)
  | .string pieces => some (.after (.string pieces), stack)
  | .leftBracket => some (.firstItem, .array [] :: stack)
  | .leftBrace => some (.firstKey, stack)
  | .rightBrace | .rightBracket | .comma | .colon => none

def close? (v : Json) (t : Token) (stack : List Frame) : Option (Want × List Frame) :=
  match stack, t with
  | .array items :: outer, .comma => some (.value, .array (v :: items) :: outer)
  | .array items :: outer, .rightBracket => some (.after (.array (v :: items).reverse), outer)
  | .object members key :: outer, .comma => some (.key ((key, v) :: members), outer)
  | .object members key :: outer, .rightBrace =>
    some (.after (.object ((key, v) :: members).reverse), outer)
  | _, _ => none

def Want.step? (w : Want) (t : Token) (stack : List Frame) : Option (Want × List Frame) :=
  match w, t, stack with
  | .value, t, stack => open? t stack
  | .firstItem, .rightBracket, .array [] :: outer => some (.after (.array []), outer)
  | .firstItem, t, stack => open? t stack
  | .firstKey, .rightBrace, stack => some (.after (.object []), stack)
  | .firstKey, .string k, stack => some (.colon [] k, stack)
  | .key members, .string k, stack => some (.colon members k, stack)
  | .colon members k, .colon, stack => some (.value, .object members k :: stack)
  | .after v, t, stack => close? v t stack
  | _, _, _ => none

def build? : List Token → Want → List Frame → Option Json
  | [], .after v, [] => some v
  | [], _, _ => none
  | t :: ts, w, stack =>
    match w.step? t stack with
    | some (w', stack') => build? ts w' stack'
    | none => none

def ofTokens? (ts : List Token) : Option Json := build? ts .value []

def parse? (text : List Char) : Option Json := (tokens? text).bind ofTokens?

mutual

def tokens : Json → List Token
  | .null => [.null]
  | .bool b => [.bool b]
  | .number literal => [.number literal]
  | .string pieces => [.string pieces]
  | .array [] => [.leftBracket, .rightBracket]
  | .array (v :: vs) => .leftBracket :: v.tokens ++ itemTokens vs ++ [.rightBracket]
  | .object [] => [.leftBrace, .rightBrace]
  | .object (m :: ms) =>
    .leftBrace :: .string m.1 :: .colon :: m.2.tokens ++ memberTokens ms ++ [.rightBrace]

def itemTokens : List Json → List Token
  | [] => []
  | v :: vs => .comma :: v.tokens ++ itemTokens vs

def memberTokens : List (List Piece × Json) → List Token
  | [] => []
  | m :: ms => .comma :: .string m.1 :: .colon :: m.2.tokens ++ memberTokens ms

end

def compact (v : Json) : List Char := v.tokens.flatMap Token.text

def ofChars (cs : List Char) : Json := .string (cs.map .char)

def ofString (s : String) : Json := ofChars s.toList

def ofNat (n : Nat) : Json := .number (Nat.toDigits 10 n)

end Json

end SandboxMounts
