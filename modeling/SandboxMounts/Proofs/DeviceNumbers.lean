import Mathlib.Data.Nat.Bitwise
import SandboxMounts.Device.Mapper
import SandboxMounts.Proofs.Isolation

/-!
Device numbers and the raw values that hold them. The low thirty-two bits of a raw value and the
numbers of twelve and twenty bits stand for each other one to one; so do numbers and their texts, and
devices and their entries below one directory.
-/

set_option autoImplicit false

namespace SandboxMounts

namespace DeviceNumber

variable {raw raw' : UInt64} {d e : DeviceNumber}

def encode (d : DeviceNumber) : UInt64 :=
  (d.minor.toUInt64 &&& 0xFF) ||| (d.major.toUInt64 <<< (8 : UInt64)) |||
    ((d.minor.toUInt64 &&& 0xFFF00) <<< (12 : UInt64))

/-! ### Masks -/

theorem and_low_byte (n : Nat) : n &&& 0xFF = n % 0x100 := Nat.and_two_pow_sub_one_eq_mod n 8

theorem and_low_twelve (n : Nat) : n &&& 0xFFF = n % 0x1000 := Nat.and_two_pow_sub_one_eq_mod n 12

theorem and_above_byte (n : Nat) : n &&& 0xFFF00 = n / 0x100 % 0x1000 * 0x100 := by
  have hmask : (0xFFF00 : Nat) = 0xFFF <<< 8 := rfl
  refine Nat.eq_of_testBit_eq fun i => ?_
  rw [← and_low_twelve, show n / 0x100 = n >>> 8 from (Nat.shiftRight_eq_div_pow n 8).symm,
    show (0x100 : Nat) = 2 ^ 8 from rfl, ← Nat.shiftLeft_eq, hmask]
  simp only [Nat.testBit_and, Nat.testBit_shiftLeft, Nat.testBit_shiftRight]
  by_cases hi : 8 ≤ i
  · simp [hi]
  · simp [hi]

theorem or_above {n : Nat} (k m : Nat) (hn : n < 2 ^ k) : n ||| m * 2 ^ k = n + m * 2 ^ k := by
  rw [Nat.or_comm, Nat.mul_comm, ← Nat.two_pow_add_eq_or_of_lt hn, Nat.add_comm]

/-! ### Raw values -/

theorem toUInt64_decode (raw : UInt64) :
    (decode raw).major.toUInt64 = (raw >>> (8 : UInt64)) &&& 0xFFF ∧
      (decode raw).minor.toUInt64 = (raw &&& 0xFF) ||| ((raw >>> (12 : UInt64)) &&& 0xFFF00) := by
  constructor
  · refine UInt64.toNat_inj.1 ?_
    rw [UInt32.toNat_toUInt64, toNat_major_decode, UInt64.toNat_and, UInt64.toNat_shiftRight]
    change _ = raw.toNat >>> 8 &&& 0xFFF
    rw [and_low_twelve, Nat.shiftRight_eq_div_pow]
  · refine UInt64.toNat_inj.1 ?_
    rw [UInt32.toNat_toUInt64, toNat_minor_decode, UInt64.toNat_or, UInt64.toNat_and, UInt64.toNat_and,
      UInt64.toNat_shiftRight]
    change _ = (raw.toNat &&& 0xFF) ||| (raw.toNat >>> 12 &&& 0xFFF00)
    rw [and_low_byte, and_above_byte, Nat.shiftRight_eq_div_pow, Nat.div_div_eq_div_mul]
    exact (or_above 8 _ (Nat.mod_lt _ (by decide))).symm

theorem decode_eq_iff : decode raw = decode raw' ↔ raw.toNat % 2 ^ 32 = raw'.toNat % 2 ^ 32 := by
  have hext : decode raw = decode raw' ↔ (decode raw).major.toNat = (decode raw').major.toNat ∧
      (decode raw).minor.toNat = (decode raw').minor.toNat := by
    rw [UInt32.toNat_inj, UInt32.toNat_inj, DeviceNumber.mk.injEq]
  rw [hext, toNat_major_decode, toNat_major_decode, toNat_minor_decode, toNat_minor_decode]
  omega

theorem toNat_encode (hM : d.major.toNat < 2 ^ 12) (hm : d.minor.toNat < 2 ^ 20) :
    d.encode.toNat = d.minor.toNat % 0x100 + d.major.toNat * 2 ^ 8 +
      d.minor.toNat / 0x100 * 2 ^ 20 := by
  have hmajor : (d.major.toUInt64 <<< 8).toNat = d.major.toNat * 2 ^ 8 := by
    rw [UInt64.toNat_shiftLeft, UInt32.toNat_toUInt64]
    change d.major.toNat <<< 8 % 2 ^ 64 = _
    rw [Nat.shiftLeft_eq]
    omega
  have hhigh : ((d.minor.toUInt64 &&& 0xFFF00) <<< 12).toNat = d.minor.toNat / 0x100 * 2 ^ 20 := by
    rw [UInt64.toNat_shiftLeft, UInt64.toNat_and, UInt32.toNat_toUInt64]
    change (d.minor.toNat &&& 0xFFF00) <<< 12 % 2 ^ 64 = _
    rw [and_above_byte, Nat.shiftLeft_eq]
    omega
  have hlow : (d.minor.toUInt64 &&& 0xFF).toNat = d.minor.toNat % 0x100 := by
    rw [UInt64.toNat_and, UInt32.toNat_toUInt64]
    exact and_low_byte _
  rw [encode, UInt64.toNat_or, UInt64.toNat_or, hlow, hmajor, hhigh, or_above 8 _ (by omega),
    or_above 20 _ (by omega)]

/-- A number of twelve and twenty bits is held by one raw value of thirty-two bits. -/
theorem decode_eq_iff_encode (hM : d.major.toNat < 2 ^ 12) (hm : d.minor.toNat < 2 ^ 20)
    (hraw : raw.toNat < 2 ^ 32) : decode raw = d ↔ raw = d.encode := by
  have hcode := toNat_encode hM hm
  have hdecode : decode d.encode = d := by
    obtain ⟨major, minor⟩ := d
    have hmajor := toNat_major_decode (encode ⟨major, minor⟩)
    have hminor := toNat_minor_decode (encode ⟨major, minor⟩)
    rw [hcode] at hmajor hminor
    simp only at hM hm hmajor hminor
    rw [DeviceNumber.mk.injEq, ← UInt32.toNat_inj, ← UInt32.toNat_inj]
    omega
  constructor
  · intro hd
    refine UInt64.toNat_inj.1 ?_
    rw [← hdecode, decode_eq_iff] at hd
    rw [hcode] at hd ⊢
    omega
  · rintro rfl
    exact hdecode

/-! ### Texts -/

theorem toList_text (d : DeviceNumber) :
    d.text.toList = Nat.toDigits 10 d.major.toNat ++ ':' :: Nat.toDigits 10 d.minor.toNat := by
  simp [text, show (toString ":").toList = [':'] from rfl]

theorem isDigit_of_mem_digits {n : Nat} {c : Char} (hc : c ∈ Nat.toDigits 10 n) : c.isDigit = true :=
  Nat.isDigit_of_mem_toDigits (by decide) (by decide) hc

theorem mem_text {c : Char} (hc : c ∈ d.text.toList) : c.isDigit = true ∨ c = ':' := by
  rw [toList_text, List.mem_append, List.mem_cons] at hc
  rcases hc with hc | rfl | hc
  · exact .inl (isDigit_of_mem_digits hc)
  · exact .inr rfl
  · exact .inl (isDigit_of_mem_digits hc)

theorem colon_notMem_digits (n : Nat) : ':' ∉ Nat.toDigits 10 n := fun hc => by
  have hdigit := isDigit_of_mem_digits hc
  revert hdigit
  decide

theorem digits_injective {m n : Nat} (h : Nat.toDigits 10 m = Nat.toDigits 10 n) : m = n := by
  rw [← Nat.ofDigitChars_ten_toDigits (n := m), h, Nat.ofDigitChars_ten_toDigits]

/-- The first colon ends the major number, since no digit is one. -/
theorem text_injective (h : d.text = e.text) : d = e := by
  have hlist := congrArg String.toList h
  rw [toList_text, toList_text, List.append_cons_inj_of_notMem (colon_notMem_digits _)
    (colon_notMem_digits _)] at hlist
  obtain ⟨hmajor, -, hminor⟩ := hlist
  obtain ⟨major, minor⟩ := d
  obtain ⟨major', minor'⟩ := e
  rw [DeviceNumber.mk.injEq, ← UInt32.toNat_inj, ← UInt32.toNat_inj]
  exact ⟨digits_injective hmajor, digits_injective hminor⟩

theorem isOneName_text (d : DeviceNumber) : Rootfs.IsOneName d.text := by
  have hcolon : ':' ∈ d.text.toList := by
    rw [toList_text]
    exact List.mem_append_right _ List.mem_cons_self
  refine ⟨fun hc => ?_, fun hc => ?_, fun hc => ?_, fun hc => ?_⟩
  · exact absurd (hc ▸ hcolon) (by decide)
  · exact absurd (hc ▸ hcolon) (by decide)
  · exact absurd (hc ▸ hcolon) (by decide)
  · rcases mem_text hc with hdigit | hdigit <;> revert hdigit <;> decide

end DeviceNumber

namespace Mapper

variable {dir : Path} {d e : DeviceNumber}

theorem components_entry (dir : Path) (d : DeviceNumber) :
    (entry dir d).components =
      dir.components ++ [.name (Utf8.ofString d.text), .name (Utf8.ofString entryName)] := by
  have hname : Rootfs.IsOneName entryName := Rootfs.isSingleName_iff.1 (by decide)
  unfold entry Path.ofString
  rw [Path.components_join _ hname.isEntry, Path.components_join _ d.isOneName_text.isEntry,
    List.append_assoc]
  rfl

theorem entry_injective (h : (entry dir d).sameComponents (entry dir e) = true) : d = e := by
  rw [Path.sameComponents, beq_iff_eq, components_entry, components_entry, List.append_cancel_left_eq,
    List.cons.injEq, Component.name.injEq] at h
  exact DeviceNumber.text_injective (Utf8.ofString_injective h.1)

end Mapper

/-- The twelve and twenty bits of the two numbers are the low thirty-two bits of the raw value, all of
them and no others. So devices have one entry below a directory exactly if these bits agree. -/
theorem DeviceNumber.decode_bits :
    (∀ raw : UInt64, (decode raw).major.toUInt64 = (raw >>> (8 : UInt64)) &&& 0xFFF ∧
      (decode raw).minor.toUInt64 = (raw &&& 0xFF) ||| ((raw >>> (12 : UInt64)) &&& 0xFFF00) ∧
      (decode raw).major.toNat < 2 ^ 12 ∧ (decode raw).minor.toNat < 2 ^ 20) ∧
    (∀ raw raw' : UInt64, raw.toNat % 2 ^ 32 = raw'.toNat % 2 ^ 32 → decode raw = decode raw') ∧
    (∀ d : DeviceNumber, d.major.toNat < 2 ^ 12 → d.minor.toNat < 2 ^ 20 →
      d.encode.toNat < 2 ^ 32 ∧ ∀ raw : UInt64, raw.toNat < 2 ^ 32 → (decode raw = d ↔ raw = d.encode)) ∧
    ∀ (dir : Path) (raw raw' : UInt64),
      (Mapper.entry dir (decode raw) = Mapper.entry dir (decode raw') ↔
        raw.toNat % 2 ^ 32 = raw'.toNat % 2 ^ 32) ∧
      ((Mapper.entry dir (decode raw)).sameComponents (Mapper.entry dir (decode raw')) = true ↔
        raw.toNat % 2 ^ 32 = raw'.toNat % 2 ^ 32) := by
  refine ⟨fun raw => ?_, fun raw raw' => decode_eq_iff.2, fun d hM hm => ⟨?_, fun raw hraw => ?_⟩,
    fun dir raw raw' => ⟨?_, ?_⟩⟩
  · obtain ⟨hmajor, hminor⟩ := toUInt64_decode raw
    refine ⟨hmajor, hminor, ?_, ?_⟩
    · rw [toNat_major_decode]
      omega
    · rw [toNat_minor_decode]
      omega
  · rw [toNat_encode hM hm]
    omega
  · exact decode_eq_iff_encode hM hm hraw
  · rw [← decode_eq_iff]
    refine ⟨fun hsame => ?_, fun hsame => by rw [hsame]⟩
    have hcomponents : (Mapper.entry dir (decode raw)).sameComponents
        (Mapper.entry dir (decode raw')) = true := by
      rw [hsame]
      exact beq_self_eq_true _
    exact Mapper.entry_injective hcomponents
  · rw [← decode_eq_iff]
    refine ⟨Mapper.entry_injective, fun hsame => ?_⟩
    rw [hsame]
    exact beq_self_eq_true _

theorem DeviceNumber.decode_bits_split :
    decode 0x1230FD45 = ⟨253, 0x12345⟩ ∧ encode ⟨253, 0x12345⟩ = 0x1230FD45 ∧
      Mapper.entry Mapper.defaultDir (decode 0x10000000801) =
        Mapper.entry Mapper.defaultDir (decode 0x801) ∧
      Mapper.entry Mapper.defaultDir (decode 0x80000801) ≠
        Mapper.entry Mapper.defaultDir (decode 0x801) := by
  obtain ⟨-, -, hnumber, hentry⟩ := decode_bits
  obtain ⟨-, hraw⟩ := hnumber ⟨253, 0x12345⟩ (by decide) (by decide)
  have hdecode : decode 0x1230FD45 = ⟨253, 0x12345⟩ := by decide
  refine ⟨hdecode, ((hraw 0x1230FD45 (by decide)).1 hdecode).symm, ?_, fun hc => ?_⟩
  · exact (hentry Mapper.defaultDir 0x10000000801 0x801).1.2 (by decide)
  · exact absurd ((hentry Mapper.defaultDir 0x80000801 0x801).1.1 hc) (by decide)

end SandboxMounts
