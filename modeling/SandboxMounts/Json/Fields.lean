import SandboxMounts.Json.Value

/-!
Reading records. A record is an object, whose unknown keys are passed over and whose known keys come
once at most, or an array of its fields in order.
-/

set_option autoImplicit false

namespace SandboxMounts.Json

/-- The value under a key; `none` when the key comes twice. -/
def only? (members : List (List Char × Json)) (key : List Char) : Option (Option Json) :=
  match members.filter (·.1 = key) with
  | [] => some none
  | [m] => some (some m.2)
  | _ :: _ :: _ => none

/-- The fields of a record by position, `none` for one that is left out. -/
def fields? (keys : List (List Char)) : Json → Option (List (Option Json))
  | .object members => do
    let named ← members.mapM fun m => (textOf? m.1).map (·, m.2)
    keys.mapM (only? named)
  | .array items =>
    if items.length ≤ keys.length then
      some (items.map some ++ List.replicate (keys.length - items.length) none)
    else none
  | _ => none

def string? : Json → Option String
  | .string pieces => (textOf? pieces).map String.ofList
  | _ => none

def strings? : Json → Option (List String)
  | .array items => items.mapM string?
  | _ => none

def bool? : Json → Option Bool
  | .bool b => some b
  | _ => none

def digitsValue (ds : List Char) : Nat := ds.foldl (fun n c => n * 10 + (c.toNat - '0'.toNat)) 0

/-- Only a plain run of digits within range is a number of this kind. -/
def uint32? : Json → Option UInt32
  | .number literal =>
    if literal.all Char.isDigit ∧ digitsValue literal < UInt32.size then
      some (UInt32.ofNat (digitsValue literal))
    else none
  | _ => none

end SandboxMounts.Json
