import SandboxMounts.Device.Report
import SandboxMounts.Proofs.DeviceAnswers
import SandboxMounts.Proofs.DeviceNumbers

/-!
What can be read back from a report on a block device. The number is in the first line, since no number
holds a line feed, and the last line is told from the end; all between them is the mount point, whatever
lines it imitates.
-/

set_option autoImplicit false

namespace SandboxMounts

theorem append_cons_inj {α : Type} {a : α} {x y s t : List α} (hx : a ∉ x) (hy : a ∉ y) :
    x ++ a :: s = y ++ a :: t ↔ x = y ∧ s = t := by
  constructor
  · intro h
    induction x generalizing y with
    | nil =>
      cases y with
      | nil => exact ⟨rfl, (List.cons.inj h).2⟩
      | cons b y => exact absurd ((List.cons.inj h).1 ▸ List.mem_cons_self) hy
    | cons c x ih =>
      cases y with
      | nil => exact absurd ((List.cons.inj h).1 ▸ List.mem_cons_self) hx
      | cons b y =>
        obtain ⟨rfl, hrest⟩ := List.cons.inj h
        obtain ⟨rfl, rfl⟩ := ih (fun hc => hx (List.mem_cons_of_mem c hc))
          (fun hc => hy (List.mem_cons_of_mem c hc)) hrest
        exact ⟨rfl, rfl⟩
  · rintro ⟨rfl, rfl⟩
    rfl

theorem append_cons_inj_last {α : Type} {a : α} {x y s t : List α} (hs : a ∉ s) (ht : a ∉ t) :
    x ++ a :: s = y ++ a :: t ↔ x = y ∧ s = t := by
  have hturn : ∀ u v : List α, (u ++ a :: v).reverse = v.reverse ++ a :: u.reverse := by simp
  rw [← List.reverse_inj, hturn, hturn, append_cons_inj (by simpa using hs) (by simpa using ht),
    List.reverse_inj, List.reverse_inj, and_comm]

/-! ### Lines -/

def linePrefix (label : String) : List Char :=
  label.toList ++ List.replicate (labelWidth - label.length) ' ' ++ [' ']

theorem toList_reportLine (label value : String) :
    (reportLine label value).toList = linePrefix label ++ value.toList := by
  simp [reportLine, linePrefix]

theorem reportLine_inj {label v w : String} : reportLine label v = reportLine label w ↔ v = w := by
  rw [← String.toList_inj, toList_reportLine, toList_reportLine, List.append_cancel_left_eq,
    String.toList_inj]

theorem lineFeed_notMem_number (d : DeviceNumber) : '\n' ∉ (reportLine "DEVICE" d.text).toList := by
  rw [toList_reportLine, List.mem_append]
  rintro (hc | hc)
  · revert hc
    decide
  · rcases DeviceNumber.mem_text hc with hdigit | hcolon
    · revert hdigit
      decide
    · revert hcolon
      decide

/-! ### Reports -/

def Device.shown (d : Device) : String := (d.mountPoint.map Path.display).getD "-"

def mapperLine (isMapper : Bool) : String := reportLine "DEVICE MAPPER" (if isMapper then "yes" else "no")

theorem lineFeed_notMem_mapperLine (isMapper : Bool) : '\n' ∉ (mapperLine isMapper).toList := by
  cases isMapper <;> decide

theorem mapperLine_inj {x y : Bool} : mapperLine x = mapperLine y ↔ x = y := by
  unfold mapperLine
  rw [reportLine_inj]
  revert x y
  decide

namespace BlockDevice

variable {b c : BlockDevice}

theorem toList_report (b : BlockDevice) :
    b.report.toList = (reportLine "DEVICE" b.device.number.text).toList ++
      '\n' :: ((reportLine "MOUNT POINT" b.device.shown).toList ++
        '\n' :: (mapperLine b.deviceMapper).toList) := by
  have hfeed : "\n".toList = ['\n'] := rfl
  simp [report, String.intercalate_cons_cons, hfeed, mapperLine, Device.shown]

/-- A report says the number, the mount point as it is shown, and the kind of the device. -/
theorem report_eq_iff : b.report = c.report ↔ b.device.number = c.device.number ∧
    b.device.shown = c.device.shown ∧ b.deviceMapper = c.deviceMapper := by
  rw [← String.toList_inj, toList_report, toList_report,
    append_cons_inj (lineFeed_notMem_number _) (lineFeed_notMem_number _),
    append_cons_inj_last (lineFeed_notMem_mapperLine _) (lineFeed_notMem_mapperLine _),
    String.toList_inj, String.toList_inj, String.toList_inj, reportLine_inj, reportLine_inj,
    mapperLine_inj]
  refine and_congr_left fun _ => ⟨DeviceNumber.text_injective, fun h => by rw [h]⟩

end BlockDevice

def Device.IsPlain (d : Device) : Prop :=
  ∀ m, d.mountPoint = some m → m.isAbsolute = true ∧ (Utf8.text? m.bytes).isSome = true

namespace Device

variable {d e : Device}

theorem display_ne_dash {m : Path} (hm : m.isAbsolute = true) : m.display ≠ "-" := by
  obtain ⟨bs⟩ := m
  cases bs with
  | nil => simp [Path.isAbsolute] at hm
  | cons b r =>
    obtain rfl : b = slash := by simpa [Path.isAbsolute] using hm
    have hscan : Utf8.scan none (slash :: r) = some '/' :: Utf8.scan none r := rfl
    intro hc
    rw [Path.display, Utf8.lossy, hscan, List.map_cons, ← String.toList_inj, String.toList_ofList] at hc
    cases hc

theorem IsPlain.shown_inj (hd : d.IsPlain) (he : e.IsPlain) :
    d.shown = e.shown ↔ d.mountPoint = e.mountPoint := by
  refine ⟨fun h => ?_, fun h => by rw [shown, shown, h]⟩
  unfold shown at h
  cases hm : d.mountPoint with
  | none =>
    cases hn : e.mountPoint with
    | none => rfl
    | some n =>
      rw [hm, hn] at h
      exact absurd h.symm (display_ne_dash (he n hn).1)
  | some m =>
    obtain ⟨habs, htext⟩ := hd m hm
    cases hn : e.mountPoint with
    | none =>
      rw [hm, hn] at h
      exact absurd h (display_ne_dash habs)
    | some n =>
      rw [hm, hn] at h
      obtain ⟨s, hs⟩ := Option.isSome_iff_exists.1 htext
      obtain ⟨t, ht⟩ := Option.isSome_iff_exists.1 (he n hn).2
      obtain ⟨bs⟩ := m
      obtain ⟨cs⟩ := n
      obtain rfl := Utf8.text?_eq_some_iff.1 hs
      obtain rfl := Utf8.text?_eq_some_iff.1 ht
      have hst : s = t := by simpa [Path.display, Utf8.lossy_ofString] using h
      rw [hst]

end Device

/-- Reports are equal only on equal devices, as long as mount points are text; those that are found are
absolute in any case. -/
theorem BlockDevice.report_unambiguous :
    (∀ b c : BlockDevice, b.device.IsPlain → c.device.IsPlain → (b.report = c.report ↔ b = c)) ∧
    ∀ (p : Path) (h : Host) (d : Device), (Device.ofPath p h).1 = .ok d →
      ∀ m, d.mountPoint = some m → m.isAbsolute = true := by
  refine ⟨fun b c hb hc => ?_, fun p h d hd m hm => ?_⟩
  · obtain ⟨⟨number, point⟩, isMapper⟩ := b
    obtain ⟨⟨number', point'⟩, isMapper'⟩ := c
    rw [report_eq_iff, hb.shown_inj hc]
    simp [and_assoc]
  · obtain ⟨l, rfl⟩ := Device.exists_location_of_mountPoint hd hm
    exact l.path_isAbsolute

theorem BlockDevice.report_unambiguous_imitation :
    report ⟨⟨⟨8, 1⟩, some (.ofString "/a\nDEVICE MAPPER  no")⟩, true⟩ ≠
        report ⟨⟨⟨8, 1⟩, some (.ofString "/a")⟩, false⟩ ∧
      report ⟨⟨⟨8, 1⟩, some (.ofString "/")⟩, true⟩ ≠ report ⟨⟨⟨8, 1⟩, none⟩, true⟩ ∧
      ∃ d m, (Device.ofPath (.ofString "null") .inDev).1 = .ok d ∧ d.mountPoint = some m ∧
        m.isAbsolute = true := by
  obtain ⟨hreport, hfound⟩ := report_unambiguous
  have hplain : ∀ s, (Path.ofString s).isAbsolute = true →
      ∀ number, Device.IsPlain ⟨number, some (.ofString s)⟩ := fun s hs number m hm => by
    obtain rfl := Option.some.inj hm
    exact ⟨hs, by rw [Path.ofString, Utf8.text?_eq_some_iff.2 rfl]; rfl⟩
  have hnode : ∀ number, Device.IsPlain ⟨number, none⟩ := fun number m hm => by cases hm
  refine ⟨fun hc => ?_, fun hc => ?_, ?_⟩
  · have hsame := (hreport _ _ (hplain _ (by decide) _) (hplain _ (by decide) _)).1 hc
    exact absurd (congrArg deviceMapper hsame) (by decide)
  · have hsame := (hreport _ _ (hplain _ (by decide) _) (hnode _)).1 hc
    exact absurd (congrArg (·.device.mountPoint) hsame) (by decide)
  · have hd : (Device.ofPath (.ofString "null") .inDev).1 =
        .ok ⟨⟨8, 16⟩, some (.ofString "/dev")⟩ := rfl
    exact ⟨_, _, hd, rfl, hfound _ _ _ hd _ rfl⟩

end SandboxMounts
