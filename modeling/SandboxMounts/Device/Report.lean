import SandboxMounts.Device.Mapper

/-!
The report on a block device: on each line a label padded to one width, a space and a value.
-/

set_option autoImplicit false

namespace SandboxMounts

def labelWidth : Nat := 14

def reportLine (label value : String) : String :=
  String.ofList (label.toList ++ List.replicate (labelWidth - label.length) ' ') ++ " " ++ value

/-- A device node shows a dash for its mount point. -/
def BlockDevice.report (b : BlockDevice) : String :=
  "\n".intercalate
    [reportLine "DEVICE" b.device.number.text,
      reportLine "MOUNT POINT" ((b.device.mountPoint.map Path.display).getD "-"),
      reportLine "DEVICE MAPPER" (if b.deviceMapper then "yes" else "no")]

end SandboxMounts
