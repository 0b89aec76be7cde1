import SandboxMounts.Device.Number
import SandboxMounts.Json.Fields

/-!
The JSON form of device numbers.
-/

set_option autoImplicit false

namespace SandboxMounts.DeviceNumber

def keys : List String := ["major", "minor"]

def toJson (d : DeviceNumber) : Json :=
  .object <| (keys.map fun k => k.toList.map .char).zip [.ofNat d.major.toNat, .ofNat d.minor.toNat]

def ofJson? (v : Json) : Option DeviceNumber := do
  match ← v.fields? (keys.map String.toList) with
  | [some major, some minor] => return ⟨← major.uint32?, ← minor.uint32?⟩
  | _ => none

def jsonText (d : DeviceNumber) : String := String.ofList d.toJson.compact

def ofText? (s : String) : Option DeviceNumber := (Json.parse? s.toList).bind ofJson?

end SandboxMounts.DeviceNumber
