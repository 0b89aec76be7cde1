import SandboxMounts.Json.Fields

/-!
The description of a mount that a container owns, and its JSON form.
-/

set_option autoImplicit false

namespace SandboxMounts

structure ContainerMount where
  source : String
  destination : String
  fsType : String
  options : List String
  hostPath : String
  readOnly : Bool
  blockDeviceId : String
  deriving DecidableEq, Repr

namespace ContainerMount

def empty : ContainerMount := ⟨"", "", "", [], "", false, ""⟩

def keys : List String :=
  ["source", "destination", "type", "options", "host_path", "read_only", "block_device_id"]

def toJson (m : ContainerMount) : Json :=
  .object <| (keys.map fun k => k.toList.map .char).zip
    [.ofString m.source, .ofString m.destination, .ofString m.fsType,
      .array (m.options.map .ofString), .ofString m.hostPath, .bool m.readOnly,
      .ofString m.blockDeviceId]

/-- Every field must be there. -/
def ofJson? (v : Json) : Option ContainerMount := do
  match ← v.fields? (keys.map String.toList) with
  | [some source, some destination, some fsType, some options, some hostPath, some readOnly,
      some blockDeviceId] =>
    return {
      source := ← source.string?
      destination := ← destination.string?
      fsType := ← fsType.string?
      options := ← options.strings?
      hostPath := ← hostPath.string?
      readOnly := ← readOnly.bool?
      blockDeviceId := ← blockDeviceId.string? }
  | _ => none

def text (m : ContainerMount) : String := String.ofList m.toJson.compact

def ofText? (s : String) : Option ContainerMount := (Json.parse? s.toList).bind ofJson?

end ContainerMount

end SandboxMounts
