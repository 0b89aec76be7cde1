/-!
Device numbers. A raw value holds twelve bits of the major number and twenty of the minor, the minor
split around the major; the bits above the low thirty-two hold nothing.
-/

set_option autoImplicit false

namespace SandboxMounts

abbrev RawDevice := UInt64

structure DeviceNumber where
  major : UInt32
  minor : UInt32
  deriving DecidableEq, Repr

namespace DeviceNumber

def decode (raw : RawDevice) : DeviceNumber where
  major := UInt32.ofNat (raw.toNat / 0x100 % 0x1000)
  minor := UInt32.ofNat (raw.toNat % 0x100 + raw.toNat / 0x100000 % 0x1000 * 0x100)

def text (d : DeviceNumber) : String := s!"{d.major.toNat}:{d.minor.toNat}"

theorem toNat_major_decode (raw : RawDevice) :
    (decode raw).major.toNat = raw.toNat / 0x100 % 0x1000 := by
  simp only [decode, UInt32.toNat_ofNat']
  omega

theorem toNat_minor_decode (raw : RawDevice) :
    (decode raw).minor.toNat = raw.toNat % 0x100 + raw.toNat / 0x100000 % 0x1000 * 0x100 := by
  simp only [decode, UInt32.toNat_ofNat']
  omega

end DeviceNumber

end SandboxMounts
