import SandboxMounts.Command.Arguments
import SandboxMounts.Config.Load
import SandboxMounts.Device.Report
import SandboxMounts.MountTable
import SandboxMounts.Rootfs.Share

/-!
Running a command. What has been printed stays printed when a later part fails.
-/

set_option autoImplicit false

namespace SandboxMounts

structure Run where
  printed : String
  result : Except Error Unit

namespace Run

def failed (e : Error) : Run := ⟨"", .error e⟩

def printing {α : Type} (x : Action α) (text : α → String) : StateM Host Run := fun h =>
  match x h with
  | (.ok a, h') => (⟨text a, .ok ()⟩, h')
  | (.error e, h') => (failed e, h')

def mountInfo (entry : MountTable.Entry) : String :=
  reportLine "DEVICE PATH" entry.devicePath ++ "\n" ++ reportLine "FS TYPE" entry.fsType ++ "\n"

/-- A device node has no mount point to look up. -/
def device (c : Config) (p : Path) (withMountInfo : Bool) : StateM Host Run := fun h =>
  match (BlockDevice.ofPath (Mapper.probe c.sysfsBlockDir) p : Action BlockDevice) h with
  | (.error e, h') => (failed e, h')
  | (.ok b, h') =>
    let report := b.report ++ "\n"
    match withMountInfo, b.device.mountPoint with
    | true, some point =>
      match MountTable.lookup c.mountTable point h' with
      | (.ok entry, h'') => (⟨report ++ mountInfo entry, .ok ()⟩, h'')
      | (.error e, h'') => (⟨report, .error e⟩, h'')
    | _, _ => (⟨report, .ok ()⟩, h')

def command (c : Config) : Command → StateM Host Run
  | .device p withMountInfo => device c p withMountInfo
  | .mountEntry point =>
    printing (MountTable.deviceAndType c.mountTable point) fun (device, fsType) =>
      device ++ " " ++ fsType ++ "\n"
  | .bind sandbox container rootfs readOnly =>
    printing (Rootfs.share c.sharedDir sandbox container rootfs readOnly) fun _ =>
      (Rootfs.target c.sharedDir sandbox container).display ++ "\n"
  | .unbind sandbox container =>
    printing (Rootfs.unshare c.sharedDir sandbox container) fun _ => ""

end Run

def Invocation.run (i : Invocation) : StateM Host Run := fun h =>
  match Config.inEffect i.config i.sharedDir h with
  | (.ok c, h') => Run.command c i.command h'
  | (.error e, h') => (Run.failed e, h')

def Run.ofArguments (environment : Option Bytes) (args : List Bytes) :
    StateM Host (Except Refusal Run) := fun h =>
  match Arguments.invocation environment args with
  | .error refusal => (.error refusal, h)
  | .ok invocation =>
    let (run, h') := invocation.run h
    (.ok run, h')

end SandboxMounts
