import SandboxMounts.Proofs.Confinement
import SandboxMounts.Proofs.DeviceReport
import SandboxMounts.Proofs.FirstMatch

/-!
The runs that tell the device of a path. What is printed first is the report, or nothing at all; the
mount table can only add to it, and is read only if there is a mount point to look up.
-/

set_option autoImplicit false

namespace SandboxMounts

/-! ### Finding and classifying a device -/

namespace Mapper

variable {dir : Path} {d : DeviceNumber} {h h' : Host}

theorem probe_of_found {st : Host.Stat} (hs : Host.stat (entry dir d) h = (.ok st, h')) :
    probe dir d h = (.ok true, h') := by
  unfold probe
  rw [Effect.bind_of_ok (Effect.orFail_of_ok (Effect.outcome_of_eq hs))]
  rfl

theorem probe_of_missing (hs : Host.stat (entry dir d) h = (.error (.os .noEntry), h')) :
    probe dir d h = (.ok false, h') := by
  unfold probe
  rw [Effect.bind_of_ok (Effect.orFail_of_ok (Effect.outcome_of_eq hs))]
  rfl

theorem probe_of_failure {cause : IoError} (hc : cause ≠ .os .noEntry)
    (hs : Host.stat (entry dir d) h = (.error cause, h')) :
    probe dir d h = (.error (.deviceMapperProbe (entry dir d) cause), h') := by
  unfold probe
  rw [Effect.bind_of_ok (Effect.orFail_of_ok (Effect.outcome_of_eq hs))]
  cases cause with
  | os e => cases e <;> first | rfl | exact absurd rfl hc
  | _ => rfl

end Mapper

namespace BlockDevice

variable {probe : DeviceNumber → Action Bool} {p : Path} {h h₁ h₂ : Host}

theorem ofPath_of_unresolved {e : Error} (hd : Device.ofPath p h = (.error e, h₁)) :
    (ofPath probe p : Action BlockDevice) h = (.error e, h₁) := Effect.bind_of_error hd

theorem ofPath_of_unclassified {d : Device} {e : Error} (hd : Device.ofPath p h = (.ok d, h₁))
    (hprobe : probe d.number h₁ = (.error e, h₂)) :
    (ofPath probe p : Action BlockDevice) h = (.error e, h₂) :=
  (Effect.bind_of_ok hd).trans (Effect.bind_of_error hprobe)

theorem ofPath_eq_ok {b : BlockDevice} : (ofPath probe p : Action BlockDevice) h = (.ok b, h₂) ↔
    Device.ofPath p h = (.ok b.device, h) ∧ probe b.device.number h = (.ok b.deviceMapper, h₂) := by
  constructor
  · intro hb
    obtain ⟨d, h₁, hd, hrest⟩ := Effect.bind_eq_ok.1 hb
    obtain ⟨isMapper, h₃, hprobe, hdone⟩ := Effect.bind_eq_ok.1 hrest
    obtain rfl := (Device.ofPath_found hd).1
    cases hdone
    exact ⟨hd, hprobe⟩
  · intro hb
    exact (Effect.bind_of_ok hb.1).trans (Effect.bind_of_ok hb.2)

theorem printed_eq {b : BlockDevice} {number : DeviceNumber} {middle : String} (isMapper : Bool)
    (hb : b.report ++ "\n" = reportLine "DEVICE" number.text ++ "\n" ++ middle ++ "\n" ++
      mapperLine isMapper ++ "\n") : b.device.number = number ∧ b.deviceMapper = isMapper := by
  have hfeed : "\n".toList = ['\n'] := rfl
  rw [← String.toList_inj, String.toList_append, String.toList_append] at hb
  have hreport := List.append_cancel_right hb
  simp only [String.toList_append, toList_report, hfeed, List.append_assoc, List.cons_append,
    List.nil_append] at hreport
  obtain ⟨hnumber, hrest⟩ :=
    (append_cons_inj (lineFeed_notMem_number _) (lineFeed_notMem_number _)).1 hreport
  obtain ⟨-, hkind⟩ :=
    (append_cons_inj_last (lineFeed_notMem_mapperLine _) (lineFeed_notMem_mapperLine _)).1 hrest
  rw [String.toList_inj] at hnumber hkind
  exact ⟨DeviceNumber.text_injective (reportLine_inj.1 hnumber), mapperLine_inj.1 hkind⟩

end BlockDevice

namespace Run

/-! ### Ends of a run -/

/-- How a run about `p` ends that does not look into the mount table, when device-mapper devices are told
by their entries. -/
inductive PlainEnd (entry : DeviceNumber → Path) (p : Path) (h : Host) : Run → Host → Prop
  /-- No probe is asked, whichever there is. -/
  | unresolved {e : Error} {h' : Host} (hd : Device.ofPath p h = (.error e, h'))
      (hprobe : ∀ probe : DeviceNumber → Action Bool,
        (BlockDevice.ofPath probe p : Action BlockDevice) h = (.error e, h')) :
      PlainEnd entry p h (failed e) h'
  | unclassified {d : Device} {cause : IoError} {h' : Host} (hd : Device.ofPath p h = (.ok d, h))
      (hs : Host.stat (entry d.number) h = (.error cause, h')) (hc : cause ≠ .os .noEntry) :
      PlainEnd entry p h (failed (.deviceMapperProbe (entry d.number) cause)) h'
  | mapper {d : Device} {st : Host.Stat} (hd : Device.ofPath p h = (.ok d, h))
      (hs : Host.stat (entry d.number) h = (.ok st, h)) :
      PlainEnd entry p h ⟨BlockDevice.report ⟨d, true⟩ ++ "\n", .ok ()⟩ h
  | noMapper {d : Device} {h' : Host} (hd : Device.ofPath p h = (.ok d, h))
      (hs : Host.stat (entry d.number) h = (.error (.os .noEntry), h')) :
      PlainEnd entry p h ⟨BlockDevice.report ⟨d, false⟩ ++ "\n", .ok ()⟩ h'

def withEntry (printed : String) : Except Error MountTable.Entry → Run
  | .ok entry =>
    ⟨printed ++ ("DEVICE PATH    " ++ entry.devicePath ++ "\nFS TYPE        " ++ entry.fsType ++ "\n"),
      .ok ()⟩
  | .error e => ⟨printed, .error e⟩

/-- How a run about `p` ends that is to look into the mount table, when the one that is not ends with
`plain` at `h₁`. -/
inductive FullEnd (c : Config) (p : Path) (h : Host) (plain : Run) (h₁ : Host) : Run → Host → Prop
  | idle
      (hwhy : (∃ e, plain.result = .error e) ∨
        ∃ d, Device.ofPath p h = (.ok d, h) ∧ d.mountPoint = none)
      (hunread : ∀ table, device { c with mountTable := table } p true h = (plain, h₁)) :
      FullEnd c p h plain h₁ plain h₁
  | unreadable {d : Device} {m : Path} {cause : IoError} {h₂ : Host} (hplain : plain.result = .ok ())
      (hd : Device.ofPath p h = (.ok d, h)) (hm : d.mountPoint = some m)
      (hr : Host.read c.mountTable h₁ = (.error cause, h₂)) :
      FullEnd c p h plain h₁ ⟨plain.printed, .error (.mountTable c.mountTable cause)⟩ h₂
  | searched {d : Device} {m : Path} {content : Bytes} {ls : List Bytes}
      {r : Except Error MountTable.Entry} (hplain : plain.result = .ok ())
      (hd : Device.ofPath p h = (.ok d, h)) (hm : d.mountPoint = some m)
      (hr : Host.read c.mountTable h₁ = (.ok content, h₁)) (hls : MountTable.Lines content ls)
      (hend : MountTable.SearchEnd m ls r) :
      FullEnd c p h plain h₁ (withEntry plain.printed r) h₁

section

variable {c : Config} {p m : Path} {h h₁ h₂ : Host} {b : BlockDevice} {plain full : Run}
  {entry : DeviceNumber → Path}

theorem mountInfo_eq (e : MountTable.Entry) : mountInfo e =
    "DEVICE PATH    " ++ e.devicePath ++ "\nFS TYPE        " ++ e.fsType ++ "\n" := by
  have hpath : reportLine "DEVICE PATH" e.devicePath = "DEVICE PATH    " ++ e.devicePath := rfl
  have htype : "\n" ++ reportLine "FS TYPE" e.fsType = "\nFS TYPE        " ++ e.fsType := by
    rw [reportLine, ← String.append_assoc]
    rfl
  have hsplit : "DEVICE PATH    " ++ e.devicePath ++ "\n" ++ reportLine "FS TYPE" e.fsType =
      "DEVICE PATH    " ++ e.devicePath ++ ("\n" ++ reportLine "FS TYPE" e.fsType) :=
    String.append_assoc
  rw [mountInfo, hpath, hsplit, htype, ← String.append_assoc]

theorem device_of_error {e : Error}
    (hb : (BlockDevice.ofPath (Mapper.probe c.sysfsBlockDir) p : Action BlockDevice) h =
      (.error e, h₁)) (withMountInfo : Bool) : device c p withMountInfo h = (failed e, h₁) := by
  simp only [device, hb]

theorem device_of_ok
    (hb : (BlockDevice.ofPath (Mapper.probe c.sysfsBlockDir) p : Action BlockDevice) h = (.ok b, h₁)) :
    device c p false h = (⟨b.report ++ "\n", .ok ()⟩, h₁) := by
  simp only [device, hb]

theorem device_of_node
    (hb : (BlockDevice.ofPath (Mapper.probe c.sysfsBlockDir) p : Action BlockDevice) h = (.ok b, h₁))
    (hm : b.device.mountPoint = none) :
    device c p true h = (⟨b.report ++ "\n", .ok ()⟩, h₁) := by
  simp only [device, hb, hm]

theorem device_of_mounted
    (hb : (BlockDevice.ofPath (Mapper.probe c.sysfsBlockDir) p : Action BlockDevice) h = (.ok b, h₁))
    (hm : b.device.mountPoint = some m) :
    device c p true h = (withEntry (b.report ++ "\n") (MountTable.lookup c.mountTable m h₁).1,
      (MountTable.lookup c.mountTable m h₁).2) := by
  simp only [device, hb, hm]
  obtain ⟨r, h₂⟩ := MountTable.lookup c.mountTable m h₁
  cases r with
  | ok e => rw [withEntry, ← mountInfo_eq]
  | error e => rfl

theorem device_plainEnd (c : Config) (p : Path) (h : Host) :
    ∃ plain h₁, device c p false h = (plain, h₁) ∧
      PlainEnd (Mapper.entry c.sysfsBlockDir) p h plain h₁ := by
  rcases hd : Device.ofPath p h with ⟨r, h'⟩
  cases r with
  | error e =>
    exact ⟨_, _, device_of_error (BlockDevice.ofPath_of_unresolved hd) false,
      .unresolved hd fun _ => BlockDevice.ofPath_of_unresolved hd⟩
  | ok d =>
    obtain rfl := (Device.ofPath_found hd).1
    rcases hs : Host.stat (Mapper.entry c.sysfsBlockDir d.number) h' with ⟨r, h₁⟩
    cases r with
    | ok st =>
      obtain ⟨-, rfl⟩ := Host.stat_ok hs
      have hb := (BlockDevice.ofPath_eq_ok (b := ⟨d, true⟩)).2 ⟨hd, Mapper.probe_of_found hs⟩
      exact ⟨_, _, device_of_ok hb, .mapper hd hs⟩
    | error cause =>
      by_cases hc : cause = .os .noEntry
      · subst hc
        have hb := (BlockDevice.ofPath_eq_ok (b := ⟨d, false⟩)).2 ⟨hd, Mapper.probe_of_missing hs⟩
        exact ⟨_, _, device_of_ok hb, .noMapper hd hs⟩
      · have hb := BlockDevice.ofPath_of_unclassified hd (Mapper.probe_of_failure hc hs)
        exact ⟨_, _, device_of_error hb false, .unclassified hd hs hc⟩

theorem device_fullEnd (hplain : device c p false h = (plain, h₁)) :
    ∃ full h₂, device c p true h = (full, h₂) ∧ FullEnd c p h plain h₁ full h₂ := by
  rcases hb : (BlockDevice.ofPath (Mapper.probe c.sysfsBlockDir) p : Action BlockDevice) h with ⟨r, h'⟩
  cases r with
  | error e =>
    cases hplain.symm.trans (device_of_error hb false)
    exact ⟨_, _, device_of_error hb true, .idle (.inl ⟨e, rfl⟩)
      fun table => device_of_error (c := { c with mountTable := table }) hb true⟩
  | ok b =>
    cases hplain.symm.trans (device_of_ok hb)
    obtain ⟨hd, -⟩ := BlockDevice.ofPath_eq_ok.1 hb
    cases hm : b.device.mountPoint with
    | none =>
      exact ⟨_, _, device_of_node hb hm, .idle (.inr ⟨_, hd, hm⟩)
        fun table => device_of_node (c := { c with mountTable := table }) hb hm⟩
    | some m =>
      have hrun := device_of_mounted hb hm
      obtain ⟨l, rfl⟩ := Device.exists_location_of_mountPoint (congrArg Prod.fst hd) hm
      have hne := l.path_not_isEmpty
      rcases hr : Host.read c.mountTable h₁ with ⟨r, h₂⟩
      cases r with
      | error cause =>
        rw [MountTable.lookup_of_unreadable hne hr] at hrun
        exact ⟨_, _, hrun, .unreadable rfl hd hm hr⟩
      | ok content =>
        obtain ⟨rfl, -⟩ := Host.read_ok hr
        rw [MountTable.lookup_of_read hne hr] at hrun
        exact ⟨_, _, hrun, .searched rfl hd hm hr (MountTable.lines_cut content)
          (MountTable.search_end _ _)⟩

theorem FullEnd.extends (hf : FullEnd c p h plain h₁ full h₂) :
    ∃ more, full.printed = plain.printed ++ more := by
  cases hf with
  | idle => exact ⟨"", by simp⟩
  | unreadable => exact ⟨"", by simp⟩
  | @searched d m content ls r =>
    cases r with
    | ok e => exact ⟨_, rfl⟩
    | error e => exact ⟨"", by simp [withEntry]⟩

theorem PlainEnd.unique {plain' : Run} (he : PlainEnd entry p h plain h₁)
    (he' : PlainEnd entry p h plain' h₂) : plain' = plain ∧ h₂ = h₁ := by
  cases he with
  | unresolved hd =>
    cases he' with
    | unresolved hd' =>
      cases hd.symm.trans hd'
      exact ⟨rfl, rfl⟩
    | unclassified hd' | mapper hd' | noMapper hd' => cases hd.symm.trans hd'
  | unclassified hd hs hc =>
    cases he' with
    | unresolved hd' => cases hd.symm.trans hd'
    | unclassified hd' hs' =>
      cases hd.symm.trans hd'
      cases hs.symm.trans hs'
      exact ⟨rfl, rfl⟩
    | mapper hd' hs' =>
      cases hd.symm.trans hd'
      cases hs.symm.trans hs'
    | noMapper hd' hs' =>
      cases hd.symm.trans hd'
      cases hs.symm.trans hs'
      exact absurd rfl hc
  | mapper hd hs =>
    cases he' with
    | unresolved hd' => cases hd.symm.trans hd'
    | mapper hd' =>
      cases hd.symm.trans hd'
      exact ⟨rfl, rfl⟩
    | unclassified hd' hs' | noMapper hd' hs' =>
      cases hd.symm.trans hd'
      cases hs.symm.trans hs'
  | noMapper hd hs =>
    cases he' with
    | unresolved hd' => cases hd.symm.trans hd'
    | unclassified hd' hs' hc' =>
      cases hd.symm.trans hd'
      cases hs.symm.trans hs'
      exact absurd rfl hc'
    | mapper hd' hs' =>
      cases hd.symm.trans hd'
      cases hs.symm.trans hs'
    | noMapper hd' hs' =>
      cases hd.symm.trans hd'
      cases hs.symm.trans hs'
      exact ⟨rfl, rfl⟩

theorem not_idle {d : Device} (hplain : plain.result = .ok ()) (hd : Device.ofPath p h = (.ok d, h))
    (hm : d.mountPoint = some m) :
    ¬ ((∃ e, plain.result = .error e) ∨ ∃ d, Device.ofPath p h = (.ok d, h) ∧ d.mountPoint = none) := by
  rintro (⟨e, he⟩ | ⟨d', hd', hm'⟩)
  · cases hplain.symm.trans he
  · cases hd.symm.trans hd'
    cases hm.symm.trans hm'

theorem FullEnd.unique {full' : Run} {h₃ : Host} (hf : FullEnd c p h plain h₁ full h₂)
    (hf' : FullEnd c p h plain h₁ full' h₃) : full' = full ∧ h₃ = h₂ := by
  cases hf with
  | idle hwhy =>
    cases hf' with
    | idle => exact ⟨rfl, rfl⟩
    | unreadable hplain hd hm | searched hplain hd hm => exact absurd hwhy (not_idle hplain hd hm)
  | unreadable hplain hd hm hr =>
    cases hf' with
    | idle hwhy => exact absurd hwhy (not_idle hplain hd hm)
    | unreadable _ _ _ hr' =>
      cases hr.symm.trans hr'
      exact ⟨rfl, rfl⟩
    | searched _ _ _ hr' => cases hr.symm.trans hr'
  | searched hplain hd hm hr hls hend =>
    cases hf' with
    | idle hwhy => exact absurd hwhy (not_idle hplain hd hm)
    | unreadable _ _ _ hr' => cases hr.symm.trans hr'
    | searched _ hd' hm' hr' hls' hend' =>
      cases hd.symm.trans hd'
      cases hm.symm.trans hm'
      cases hr.symm.trans hr'
      obtain rfl := MountTable.lines_iff.1 hls
      obtain rfl := MountTable.lines_iff.1 hls'
      rw [← MountTable.search_iff.2 hend, ← MountTable.search_iff.2 hend']
      exact ⟨rfl, rfl⟩

/-- Only for a number whose entry is missing does a report end by saying that it is no mapper's. -/
theorem PlainEnd.stat_of_no (he : PlainEnd entry p h plain h₁) {number : DeviceNumber} {middle : String}
    (hp : plain.printed =
      "DEVICE         " ++ number.text ++ "\n" ++ middle ++ "\nDEVICE MAPPER  no\n") :
    Host.stat (entry number) h = (.error (.os .noEntry), h₁) := by
  have hno : "\n" ++ reportLine "DEVICE MAPPER" "no" ++ "\n" = "\nDEVICE MAPPER  no\n" := rfl
  have hreport : plain.printed = reportLine "DEVICE" number.text ++ "\n" ++ middle ++ "\n" ++
      reportLine "DEVICE MAPPER" "no" ++ "\n" := by
    rw [hp, ← hno]
    simp only [String.append_assoc]
    rfl
  have hsilent : "" ≠ plain.printed := by
    intro hc
    have hlast := congrArg (fun s => '\n' ∈ s.toList) (hc.trans hreport)
    simp at hlast
  cases he with
  | unresolved => exact absurd rfl hsilent
  | unclassified => exact absurd rfl hsilent
  | mapper hd hs => cases (BlockDevice.printed_eq false hreport).2
  | noMapper hd hs =>
    obtain ⟨rfl, -⟩ := BlockDevice.printed_eq false hreport
    exact hs

end

end Run

/-- Without the mount table a run prints the report on the device and a line feed, or nothing and fails.
It says that the device is no mapper's only if there is no `dm` in the directory of the number that it
names. With the mount table it is the same run where that one fails or the device is a node, and else it
has the same text, and after it what the first line of the mount point says or nothing and the failure of
the table. -/
theorem Invocation.device_ends (i : Invocation) (p : Path) {c : Config} {h : Host}
    (hc : (Config.inEffect i.config i.sharedDir h).1 = .ok c) :
    let text := fun number : DeviceNumber => s!"{number.major.toNat}:{number.minor.toNat}"
    let entry := fun number => (c.sysfsBlockDir.join (.ofString (text number))).join (.ofString "dm")
    ∃ plain h₁ full h₂,
      ({ i with command := .device p false } : Invocation).run h = (plain, h₁) ∧
      ({ i with command := .device p true } : Invocation).run h = (full, h₂) ∧
      (∀ environment args withMountInfo, Arguments.invocation environment args =
          .ok { i with command := .device p withMountInfo } →
        Run.ofArguments environment args h =
          if withMountInfo then (.ok full, h₂) else (.ok plain, h₁)) ∧
      Run.PlainEnd entry p h plain h₁ ∧ Run.FullEnd c p h plain h₁ full h₂ ∧
      (∃ more, full.printed = plain.printed ++ more) ∧
      ∀ number middle, plain.printed =
          "DEVICE         " ++ text number ++ "\n" ++ middle ++ "\nDEVICE MAPPER  no\n" →
        Host.stat (entry number) h = (.error (.os .noEntry), h₁) := by
  intro text entry
  obtain ⟨plain, h₁, hplain, hend⟩ := Run.device_plainEnd c p h
  obtain ⟨full, h₂, hfull, hmore⟩ := Run.device_fullEnd hplain
  have hrun : ∀ withMountInfo, ({ i with command := .device p withMountInfo } : Invocation).run h =
      Run.device c p withMountInfo h := fun _ => run_of_config hc
  have hentry : Mapper.entry c.sysfsBlockDir = entry := rfl
  rw [hentry] at hend
  refine ⟨plain, h₁, full, h₂, (hrun false).trans hplain, (hrun true).trans hfull, ?_, hend, hmore,
    hmore.extends, fun _ _ => hend.stat_of_no⟩
  intro environment args withMountInfo hi
  rw [Run.ofArguments_of_ok hi, hrun]
  cases withMountInfo with
  | false => rw [hplain, if_neg Bool.false_ne_true]
  | true => rw [hfull, if_pos rfl]

/-- The files `/a/f` and `/b/g` are on the devices 8:16 and 253:0, both in the mount table. There are
directories for both in sysfs, and a `dm` in that of the second alone. -/
def Host.listed : Host :=
  let sysfs := [Utf8.ofString "block", Utf8.ofString "dev", Utf8.ofString "sys"]
  { Host.nested with
    tree := ⟨[([[0x61]], .dir 0o755), ([[0x66], [0x61]], .leaf .regular 0o644 []),
      ([[0x62]], .dir 0o755), ([[0x67], [0x62]], .leaf .regular 0o644 []),
      ([Utf8.ofString "proc"], .dir 0o555),
      ([Utf8.ofString "mounts", Utf8.ofString "proc"],
        .leaf .regular 0o444 (Utf8.ofString "d /a t o 0 0\nm /b u o 0 0\n")),
      (sysfs.drop 2, .dir 0o555), (sysfs.drop 1, .dir 0o555), (sysfs, .dir 0o555),
      (Utf8.ofString "8:16" :: sysfs, .dir 0o555), (Utf8.ofString "253:0" :: sysfs, .dir 0o555),
      (Utf8.ofString "dm" :: Utf8.ofString "253:0" :: sysfs, .dir 0o555)]⟩
    devices := [([[0x61]], 2064), ([[0x62]], 64768)] }

theorem Invocation.device_ends_listed :
    (∃ plain h₁ full h₂,
      (⟨none, none, false, .device (.ofString "/a/f") false⟩ : Invocation).run .listed =
        (plain, h₁) ∧
      (⟨none, none, false, .device (.ofString "/a/f") true⟩ : Invocation).run .listed = (full, h₂) ∧
      plain.printed = "DEVICE         8:16\nMOUNT POINT    /a\nDEVICE MAPPER  no\n" ∧
      full.printed = plain.printed ++ "DEVICE PATH    d\nFS TYPE        t\n" ∧
      Host.stat (.ofString "/sys/dev/block/8:16/dm") .listed = (.error (.os .noEntry), h₁)) ∧
    (∃ plain h₁ full h₂,
      (⟨none, none, false, .device (.ofString "/b/g") false⟩ : Invocation).run .listed =
        (plain, h₁) ∧
      (⟨none, none, false, .device (.ofString "/b/g") true⟩ : Invocation).run .listed = (full, h₂) ∧
      plain.printed = "DEVICE         253:0\nMOUNT POINT    /b\nDEVICE MAPPER  yes\n" ∧
      full.printed = plain.printed ++ "DEVICE PATH    m\nFS TYPE        u\n") ∧
    ∃ run h', (⟨none, none, false, .device (.ofString "/dev/null") true⟩ : Invocation).run .inDev =
        (run, h') ∧
      run.printed = "DEVICE         1:3\nMOUNT POINT    -\nDEVICE MAPPER  no\n" := by
  have hread : Host.read Config.default.mountTable .listed =
      (.ok (Utf8.ofString "d /a t o 0 0\nm /b u o 0 0\n"), .listed) := rfl
  have hc : (Config.inEffect none none .listed).1 = .ok Config.default := rfl
  refine ⟨?_, ?_, ?_⟩
  · have hd : Device.ofPath (.ofString "/a/f") .listed =
        (.ok ⟨⟨8, 16⟩, some (.ofString "/a")⟩, .listed) := rfl
    have hs : Host.stat (.ofString "/sys/dev/block/8:16/dm") .listed =
        (.error (.os .noEntry), .listed) := rfl
    obtain ⟨plain, h₁, full, h₂, hplain, hfull, -, hend, hmore, -, hno⟩ :=
      device_ends ⟨none, none, false, .device (.ofString "/a/f") false⟩ (.ofString "/a/f") hc
    obtain ⟨rfl, rfl⟩ := (Run.PlainEnd.noMapper hd hs).unique hend
    obtain ⟨rfl, rfl⟩ := (Run.FullEnd.searched rfl hd rfl hread (MountTable.lines_cut _)
      (MountTable.search_end _ _)).unique hmore
    exact ⟨_, _, _, _, hplain, hfull, rfl, rfl, hno ⟨8, 16⟩ "MOUNT POINT    /a" rfl⟩
  · have hd : Device.ofPath (.ofString "/b/g") .listed =
        (.ok ⟨⟨253, 0⟩, some (.ofString "/b")⟩, .listed) := rfl
    have hs : Host.stat (.ofString "/sys/dev/block/253:0/dm") .listed =
        (.ok ⟨.dir 0o555, 2049, 0⟩, .listed) := rfl
    obtain ⟨plain, h₁, full, h₂, hplain, hfull, -, hend, hmore, -, -⟩ :=
      device_ends ⟨none, none, false, .device (.ofString "/b/g") false⟩ (.ofString "/b/g") hc
    obtain ⟨rfl, rfl⟩ := (Run.PlainEnd.mapper hd hs).unique hend
    obtain ⟨rfl, rfl⟩ := (Run.FullEnd.searched rfl hd rfl hread (MountTable.lines_cut _)
      (MountTable.search_end _ _)).unique hmore
    exact ⟨_, _, _, _, hplain, hfull, rfl, rfl⟩
  · have hd : Device.ofPath (.ofString "/dev/null") .inDev = (.ok ⟨⟨1, 3⟩, none⟩, .inDev) := rfl
    have hs : Host.stat (.ofString "/sys/dev/block/1:3/dm") .inDev =
        (.error (.os .noEntry), .inDev) := rfl
    have hc : (Config.inEffect none none .inDev).1 = .ok Config.default := rfl
    obtain ⟨plain, h₁, full, h₂, hplain, hfull, -, hend, hmore, -, -⟩ :=
      device_ends ⟨none, none, false, .device (.ofString "/dev/null") false⟩
        (.ofString "/dev/null") hc
    obtain ⟨rfl, rfl⟩ := (Run.PlainEnd.noMapper hd hs).unique hend
    cases hmore with
    | idle => exact ⟨_, _, hfull, rfl⟩
    | unreadable hok hd' hm | searched hok hd' hm =>
      exact absurd (.inr ⟨_, hd, rfl⟩) (Run.not_idle hok hd' hm)

end SandboxMounts
