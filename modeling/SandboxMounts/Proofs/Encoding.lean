import SandboxMounts.Text.Utf8

/-!
UTF-8 read back and written again. Each text has one encoding, and the reader takes exactly what is
one: no fault is met in an encoding, and bytes without a fault are the encoding of what they say.
-/

set_option autoImplicit false

namespace SandboxMounts.Utf8

variable {c : Char} {cs : List Char} {bs r : Bytes} {b : UInt8} {o : Owed} {n : Nat}

theorem toNat_ofNat_of_lt (hn : n < 256) : (UInt8.ofNat n).toNat = n := by
  rw [UInt8.toNat_ofNat']
  omega

theorem toNat_char (hn : n.isValidChar) : (Char.ofNat n).toNat = n := by
  rw [Char.ofNat, dif_pos hn]
  rfl

theorem start_char (hn : n < 0x80) : start n = ([some (Char.ofNat n)], none) := by
  simp [start, lead, hn]

theorem scan_owed (hlow : o.low ≤ b.toNat) (hhigh : b.toNat ≤ o.high) :
    scan (some o) (b :: r) =
      match o.after with
      | 0 => some (Char.ofNat (o.value * 64 + (b.toNat - 0x80))) :: scan none r
      | k + 1 => scan (some ⟨o.value * 64 + (b.toNat - 0x80), k, 0x80, 0xBF⟩) r := by
  rw [scan_cons, step, if_pos ⟨hlow, hhigh⟩]
  cases o.after <;> rfl

theorem scan_tail (value k : Nat) (r : Bytes) {m low high : Nat} (hm : m < 64) (hlow : low ≤ 0x80 + m)
    (hhigh : 0x80 + m ≤ high) :
    scan (some ⟨value, k, low, high⟩) (UInt8.ofNat (0x80 + m) :: r) =
      match k with
      | 0 => some (Char.ofNat (value * 64 + m)) :: scan none r
      | k + 1 => scan (some ⟨value * 64 + m, k, 0x80, 0xBF⟩) r := by
  have hb : (UInt8.ofNat (0x80 + m)).toNat = 0x80 + m := toNat_ofNat_of_lt (by omega)
  rw [scan_owed (by rw [hb]; exact hlow) (by rw [hb]; exact hhigh), hb, Nat.add_sub_cancel_left]

theorem scan_lead {n : Nat} (hn : n < 256) (hl : lead n = .owed o) (r : Bytes) :
    scan none (UInt8.ofNat n :: r) = scan (some o) r := by
  rw [scan_cons, toNat_ofNat_of_lt hn, step, start, hl]
  rfl

theorem lead_two (h₁ : 0xC2 ≤ n) (h₂ : n < 0xE0) : lead n = .owed ⟨n - 0xC0, 0, 0x80, 0xBF⟩ := by
  rw [lead, if_neg (by omega), if_neg (by omega), if_pos h₂]

theorem lead_three (h₁ : 0xE0 ≤ n) (h₂ : n < 0xF0) :
    lead n = .owed ⟨n - 0xE0, 1, if n = 0xE0 then 0xA0 else 0x80, if n = 0xED then 0x9F else 0xBF⟩ := by
  rw [lead, if_neg (by omega), if_neg (by omega), if_neg (by omega), if_pos h₂]

theorem lead_four (h₁ : 0xF0 ≤ n) (h₂ : n < 0xF5) :
    lead n = .owed ⟨n - 0xF0, 2, if n = 0xF0 then 0x90 else 0x80, if n = 0xF4 then 0x8F else 0xBF⟩ := by
  rw [lead, if_neg (by omega), if_neg (by omega), if_neg (by omega), if_neg (by omega), if_pos h₂]

theorem scan_encodeChar (c : Char) (r : Bytes) : scan none (encodeChar c ++ r) = some c :: scan none r := by
  have hvalid : c.toNat < 0xD800 ∨ 0xDFFF < c.toNat ∧ c.toNat < 0x110000 := c.valid
  have hc := Char.ofNat_toNat c
  unfold encodeChar
  generalize c.toNat = n at hvalid hc
  simp only
  split
  · rename_i h₁
    rw [List.singleton_append, scan_cons, toNat_ofNat_of_lt (by omega), step, start_char h₁, hc]
    rfl
  split
  · rename_i h₁ h₂
    simp only [List.cons_append, List.nil_append]
    rw [scan_lead (by omega) (lead_two (by omega) (by omega)),
      scan_tail _ _ _ (by omega) (by omega) (by omega)]
    have hn : (0xC0 + n / 64 - 0xC0) * 64 + n % 64 = n := by omega
    rw [hn, hc]
  split
  · rename_i h₁ h₂ h₃
    simp only [List.cons_append, List.nil_append]
    rw [scan_lead (by omega) (lead_three (by omega) (by omega)),
      scan_tail _ _ _ (by omega) (by split <;> omega) (by split <;> omega)]
    simp only
    rw [scan_tail _ _ _ (by omega) (by omega) (by omega)]
    have hn : ((0xE0 + n / 4096 - 0xE0) * 64 + n / 64 % 64) * 64 + n % 64 = n := by omega
    simp only
    rw [hn, hc]
  · rename_i h₁ h₂ h₃
    simp only [List.cons_append, List.nil_append]
    rw [scan_lead (by omega) (lead_four (by omega) (by omega)),
      scan_tail _ _ _ (by omega) (by split <;> omega) (by split <;> omega)]
    simp only
    rw [scan_tail _ _ _ (by omega) (by omega) (by omega)]
    simp only
    rw [scan_tail _ _ _ (by omega) (by omega) (by omega)]
    have hn : (((0xF0 + n / 262144 - 0xF0) * 64 + n / 4096 % 64) * 64 + n / 64 % 64) * 64 + n % 64 = n := by
      omega
    simp only
    rw [hn, hc]

theorem scan_encode (cs : List Char) : scan none (encode cs) = cs.map some := by
  induction cs with
  | nil => rfl
  | cons c cs ih =>
    rw [encode, List.flatMap_cons, scan_encodeChar, List.map_cons, ← ih]
    rfl

theorem scan_fault (hl : lead b.toNat = .fault) : scan none (b :: r) ≠ cs.map some := by
  rw [scan_cons, step, start, hl]
  cases cs <;> simp

theorem scan_owed_ok {value k low high : Nat} (h80 : 0x80 ≤ low)
    (hs : scan (some ⟨value, k, low, high⟩) bs = cs.map some) :
    ∃ m r, bs = UInt8.ofNat (0x80 + m) :: r ∧ low ≤ 0x80 + m ∧ 0x80 + m ≤ high ∧ 0x80 + m < 256 := by
  cases bs with
  | nil => cases cs <;> cases hs
  | cons b r =>
    by_cases hrange : low ≤ b.toNat ∧ b.toNat ≤ high
    · have hm : 0x80 + (b.toNat - 0x80) = b.toNat := by omega
      refine ⟨b.toNat - 0x80, r, ?_, ?_⟩
      · rw [hm, UInt8.ofNat_toNat]
      · rw [hm]
        exact ⟨hrange.1, hrange.2, b.toNat_lt⟩
    · rw [scan_cons, step, if_neg hrange] at hs
      cases cs <;> cases hs

theorem scan_more {value k low high : Nat} (h80 : 0x80 ≤ low) (hBF : high ≤ 0xBF)
    (hs : scan (some ⟨value, k + 1, low, high⟩) bs = cs.map some) :
    ∃ m r, bs = UInt8.ofNat (0x80 + m) :: r ∧ low ≤ 0x80 + m ∧ 0x80 + m ≤ high ∧
      scan (some ⟨value * 64 + m, k, 0x80, 0xBF⟩) r = cs.map some := by
  obtain ⟨m, r, rfl, hlow, hhigh, -⟩ := scan_owed_ok h80 hs
  rw [scan_tail _ _ _ (by omega) hlow hhigh] at hs
  exact ⟨m, r, rfl, hlow, hhigh, hs⟩

theorem scan_last {value : Nat} (hs : scan (some ⟨value, 0, 0x80, 0xBF⟩) bs = cs.map some) :
    ∃ m r cs', bs = UInt8.ofNat (0x80 + m) :: r ∧ m < 64 ∧ cs = Char.ofNat (value * 64 + m) :: cs' ∧
      scan none r = cs'.map some := by
  obtain ⟨m, r, rfl, hlow, hhigh, -⟩ := scan_owed_ok (Nat.le_refl 0x80) hs
  rw [scan_tail _ _ _ (by omega) hlow hhigh] at hs
  obtain ⟨c, cs', rfl, hc, hs'⟩ := List.map_eq_cons_iff.1 hs.symm
  cases hc
  exact ⟨m, r, cs', rfl, by omega, rfl, hs'.symm⟩

theorem exists_lead (b : UInt8) (base : Nat) (hb : base ≤ b.toNat) :
    ∃ q, b = UInt8.ofNat (base + q) ∧ b.toNat = base + q := by
  refine ⟨b.toNat - base, ?_, by omega⟩
  have hq : base + (b.toNat - base) = b.toNat := by omega
  rw [hq, UInt8.ofNat_toNat]

theorem encodeChar_two {q m : Nat} (hq : 2 ≤ q) (hq' : q < 32) (hm : m < 64) :
    encodeChar (Char.ofNat (q * 64 + m)) = [UInt8.ofNat (0xC0 + q), UInt8.ofNat (0x80 + m)] := by
  have h₁ : (q * 64 + m) / 64 = q := by omega
  have h₂ : (q * 64 + m) % 64 = m := by omega
  rw [encodeChar, toNat_char (.inl (by omega)), if_neg (by omega), if_pos (by omega), h₁, h₂]

theorem encodeChar_three {q m₁ m₂ : Nat} (hv : ((q * 64 + m₁) * 64 + m₂).isValidChar) (hq : q < 16)
    (h : q = 0 → 32 ≤ m₁) (hm₁ : m₁ < 64) (hm₂ : m₂ < 64) :
    encodeChar (Char.ofNat ((q * 64 + m₁) * 64 + m₂)) =
      [UInt8.ofNat (0xE0 + q), UInt8.ofNat (0x80 + m₁), UInt8.ofNat (0x80 + m₂)] := by
  have h₁ : ((q * 64 + m₁) * 64 + m₂) / 4096 = q := by omega
  have h₂ : ((q * 64 + m₁) * 64 + m₂) / 64 % 64 = m₁ := by omega
  have h₃ : ((q * 64 + m₁) * 64 + m₂) % 64 = m₂ := by omega
  rw [encodeChar, toNat_char hv, if_neg (by omega), if_neg (by omega), if_pos (by omega), h₁, h₂, h₃]

theorem encodeChar_four {q m₁ m₂ m₃ : Nat} (hv : (((q * 64 + m₁) * 64 + m₂) * 64 + m₃).isValidChar)
    (h : q = 0 → 16 ≤ m₁) (hm₁ : m₁ < 64) (hm₂ : m₂ < 64) (hm₃ : m₃ < 64) :
    encodeChar (Char.ofNat (((q * 64 + m₁) * 64 + m₂) * 64 + m₃)) =
      [UInt8.ofNat (0xF0 + q), UInt8.ofNat (0x80 + m₁), UInt8.ofNat (0x80 + m₂),
        UInt8.ofNat (0x80 + m₃)] := by
  have h₁ : (((q * 64 + m₁) * 64 + m₂) * 64 + m₃) / 262144 = q := by omega
  have h₂ : (((q * 64 + m₁) * 64 + m₂) * 64 + m₃) / 4096 % 64 = m₁ := by omega
  have h₃ : (((q * 64 + m₁) * 64 + m₂) * 64 + m₃) / 64 % 64 = m₂ := by omega
  have h₄ : (((q * 64 + m₁) * 64 + m₂) * 64 + m₃) % 64 = m₃ := by omega
  rw [encodeChar, toNat_char hv, if_neg (by omega), if_neg (by omega), if_neg (by omega), h₁, h₂, h₃,
    h₄]

theorem exists_encodeChar (hs : scan none (b :: r) = cs.map some) :
    ∃ c cs' rest, cs = c :: cs' ∧ b :: r = encodeChar c ++ rest ∧ scan none rest = cs'.map some := by
  have hb := b.toNat_lt
  by_cases h₁ : b.toNat < 0x80
  · rw [scan_cons, step, start_char h₁] at hs
    obtain ⟨c, cs', rfl, hc, hs'⟩ := List.map_eq_cons_iff.1 hs.symm
    cases hc
    refine ⟨_, cs', r, rfl, ?_, hs'.symm⟩
    rw [encodeChar, toNat_char (.inl (by omega)), if_pos h₁, UInt8.ofNat_toNat]
    rfl
  by_cases h₂ : b.toNat < 0xC2
  · exact absurd hs (scan_fault (by rw [lead, if_neg h₁, if_pos h₂]))
  by_cases h₃ : b.toNat < 0xE0
  · obtain ⟨q, rfl, hn⟩ := exists_lead b 0xC0 (by omega)
    rw [scan_lead (by omega) (lead_two (by omega) (by omega)), Nat.add_sub_cancel_left] at hs
    obtain ⟨m, rest, cs', rfl, hm, rfl, hs'⟩ := scan_last hs
    refine ⟨_, cs', rest, rfl, ?_, hs'⟩
    rw [encodeChar_two (by omega) (by omega) hm]
    rfl
  by_cases h₄ : b.toNat < 0xF0
  · obtain ⟨q, rfl, hn⟩ := exists_lead b 0xE0 (by omega)
    rw [scan_lead (by omega) (lead_three (by omega) (by omega)), Nat.add_sub_cancel_left] at hs
    obtain ⟨m₁, rest, rfl, hlow, hhigh, hs⟩ := scan_more (by split <;> omega) (by split <;> omega) hs
    obtain ⟨m₂, rest, cs', rfl, hm₂, rfl, hs'⟩ := scan_last hs
    refine ⟨_, cs', rest, rfl, ?_, hs'⟩
    have hv : ((q * 64 + m₁) * 64 + m₂).isValidChar := by
      unfold Nat.isValidChar
      split at hhigh <;> omega
    rw [encodeChar_three hv (by omega) (by split at hlow <;> omega) (by split at hhigh <;> omega) hm₂]
    rfl
  by_cases h₅ : b.toNat < 0xF5
  · obtain ⟨q, rfl, hn⟩ := exists_lead b 0xF0 (by omega)
    rw [scan_lead (by omega) (lead_four (by omega) (by omega)), Nat.add_sub_cancel_left] at hs
    obtain ⟨m₁, rest, rfl, hlow, hhigh, hs⟩ := scan_more (by split <;> omega) (by split <;> omega) hs
    obtain ⟨m₂, rest, rfl, hlow₂, hhigh₂, hs⟩ := scan_more (by omega) (by omega) hs
    obtain ⟨m₃, rest, cs', rfl, hm₃, rfl, hs'⟩ := scan_last hs
    refine ⟨_, cs', rest, rfl, ?_, hs'⟩
    have hv : (((q * 64 + m₁) * 64 + m₂) * 64 + m₃).isValidChar := by
      unfold Nat.isValidChar
      split at hlow <;> split at hhigh <;> omega
    rw [encodeChar_four hv (by split at hlow <;> omega) (by split at hhigh <;> omega) (by omega) hm₃]
    rfl
  · exact absurd hs (scan_fault (by
      rw [lead, if_neg h₁, if_neg h₂, if_neg h₃, if_neg h₄, if_neg h₅]))

theorem encode_of_scan (hs : scan none bs = cs.map some) : encode cs = bs := by
  -- on the length, since a character takes up to four bytes
  induction hlen : bs.length using Nat.strongRecOn generalizing bs cs with
  | _ k ih =>
    cases bs with
    | nil =>
      obtain rfl : cs = [] := by simpa [scan] using hs.symm
      rfl
    | cons b r =>
      obtain ⟨c, cs, rest, rfl, hbs, hs⟩ := exists_encodeChar hs
      have hc : 0 < (encodeChar c).length := by
        unfold encodeChar
        simp only
        split
        · simp
        split
        · simp
        split <;> simp
      have hshort : rest.length < k := by
        rw [← hlen, hbs, List.length_append]
        omega
      rw [hbs, encode, List.flatMap_cons]
      exact congrArg (encodeChar c ++ ·) (ih rest.length hshort hs rfl)

theorem mapM_id_eq_some {os : List (Option Char)} : os.mapM id = some cs ↔ os = cs.map some := by
  induction os generalizing cs with
  | nil => cases cs <;> simp
  | cons o os ih =>
    cases o with
    | none => cases cs <;> simp
    | some c =>
      simp only [List.mapM_cons, id, Option.bind_eq_bind, Option.bind_some, Option.bind_eq_some_iff,
        Option.pure_def, ih]
      cases cs with
      | nil => simp
      | cons c' cs => simpa using and_comm

/-- Exactly the encodings are read, each as the text that it encodes. -/
theorem decode?_eq_some_iff : decode? bs = some cs ↔ encode cs = bs := by
  rw [decode?, mapM_id_eq_some]
  constructor
  · exact encode_of_scan
  · intro he
    rw [← he, scan_encode]

theorem text?_eq_some_iff {s : String} : text? bs = some s ↔ ofString s = bs := by
  rw [text?, Option.map_eq_some_iff, ofString, ← decode?_eq_some_iff]
  constructor
  · intro hs
    obtain ⟨cs, hcs, rfl⟩ := hs
    rwa [String.toList_ofList]
  · exact fun hs => ⟨s.toList, hs, String.ofList_toList⟩

theorem ofString_injective {s t : String} (h : ofString s = ofString t) : s = t := by
  have hs := text?_eq_some_iff.2 h
  rw [text?_eq_some_iff.2 rfl] at hs
  exact (Option.some.inj hs).symm

theorem lossy_ofString (s : String) : lossy (ofString s) = s := by
  rw [lossy, ofString, scan_encode, List.map_map]
  have hid : ((·.getD replacement) ∘ some : Char → Char) = id := rfl
  rw [hid, List.map_id, String.ofList_toList]

theorem high_of_mem_encodeChar (hc : 0x80 ≤ c.toNat) (hb : b ∈ encodeChar c) : 0x80 ≤ b.toNat := by
  have hvalid : c.toNat < 0xD800 ∨ 0xDFFF < c.toNat ∧ c.toNat < 0x110000 := c.valid
  have high : ∀ k < 128, b = UInt8.ofNat (0x80 + k) → 0x80 ≤ b.toNat := fun k hk he => by
    rw [he, toNat_ofNat_of_lt (by omega)]
    omega
  unfold encodeChar at hb
  generalize c.toNat = n at hvalid hc hb
  simp only [if_neg (Nat.not_lt.2 hc)] at hb
  split at hb
  · simp only [List.mem_cons, List.not_mem_nil, or_false] at hb
    rcases hb with hb | hb
    · exact high (0x40 + n / 64) (by omega) (by rw [hb]; congr 1; omega)
    · exact high _ (by omega) hb
  split at hb
  · simp only [List.mem_cons, List.not_mem_nil, or_false] at hb
    rcases hb with hb | hb | hb
    · exact high (0x60 + n / 4096) (by omega) (by rw [hb]; congr 1; omega)
    · exact high _ (by omega) hb
    · exact high _ (by omega) hb
  · simp only [List.mem_cons, List.not_mem_nil, or_false] at hb
    rcases hb with hb | hb | hb | hb
    · exact high (0x70 + n / 262144) (by omega) (by rw [hb]; congr 1; omega)
    · exact high _ (by omega) hb
    · exact high _ (by omega) hb
    · exact high _ (by omega) hb

/-- A character below 128 is a byte by itself, and that byte is part of no other. -/
theorem mem_encode {c : Char} (hc : c.toNat < 0x80) : UInt8.ofNat c.toNat ∈ encode cs ↔ c ∈ cs := by
  rw [encode, List.mem_flatMap]
  constructor
  · intro hmem
    obtain ⟨c', hc', hb⟩ := hmem
    by_cases hlow : c'.toNat < 0x80
    · rw [encodeChar, if_pos hlow, List.mem_singleton] at hb
      have hn : c.toNat = c'.toNat := by
        rw [← toNat_ofNat_of_lt (by omega : c.toNat < 256), hb, toNat_ofNat_of_lt (by omega)]
      rwa [← Char.ofNat_toNat c, hn, Char.ofNat_toNat c']
    · have hhigh := high_of_mem_encodeChar (by omega) hb
      rw [toNat_ofNat_of_lt (by omega)] at hhigh
      omega
  · intro hmem
    refine ⟨c, hmem, ?_⟩
    rw [encodeChar, if_pos hc, List.mem_singleton]

end SandboxMounts.Utf8
