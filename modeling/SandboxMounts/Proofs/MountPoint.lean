import SandboxMounts.Proofs.BoundaryWalk
import SandboxMounts.Proofs.Cleaning

/-!
Whether the mount point that is found for a path is on the device of that path. The device is told by
following the path as it is written, while the walk goes up from its normal form and looks at links
themselves. The two agree unless the mount point is itself a link, or `..` leaves one.
-/

set_option autoImplicit false

namespace SandboxMounts

theorem statOf_of_deviceOf {h : Host} {m : Location} {d : RawDevice} (hd : h.deviceOf m = .ok d) :
    ∃ own, (Host.lstat m.path h).1 = .ok own ∧ own.device = d ∧
      ((∀ target, own.node ≠ .link target) → h.statOf .followed m.path = .ok own) := by
  unfold Host.deviceOf at hd
  cases hs : (Host.lstat m.path h).1 with
  | error c =>
    rw [hs] at hd
    cases hd
  | ok own =>
    rw [hs] at hd
    exact ⟨own, rfl, Except.ok.inj hd, Host.statOf_of_lstat hs⟩

/-- The mount point is the normal form of the path or a directory above it. One above has the device of
the path when it is looked at itself, and through links too if it is none. The normal form leads to the
same node as the path, whatever links it passes, if no `..` leaves one; that of a relative path must be
one that can be looked up. -/
theorem Device.mountPoint_restat {h : Host} {p : Path} {d : Device}
    (hd : (Device.ofPath p h).1 = .ok d) (hn : (namesDevice p h).1 = false) :
    ∃ (st : Host.Stat) (l m : Location), h.statOf .followed p = .ok st ∧
      (absolute p h).1 = .ok l ∧ m <:+ l ∧ d = ⟨.decode st.device, some m.path⟩ ∧
      (m ≠ l → ∃ own, (Host.lstat m.path h).1 = .ok own ∧ own.device = st.device ∧
        ((∀ target, own.node ≠ .link target) → h.statOf .followed m.path = .ok own)) ∧
      (m = l → ¬ h.LeavesLink p →
        (p.isAbsolute = false → h.tree.IsPlainDir h.cwd ∧ l.path.bytes.length < maxPath) →
        h.statOf .followed m.path = .ok st) := by
  obtain ⟨st, hs, hcase⟩ := Device.ofPath_ok hd
  obtain ⟨hs, -⟩ := Host.stat_ok hs
  rcases hcase with ⟨hn', -⟩ | ⟨-, l, habs, hcase⟩
  · rw [hn] at hn'
    cases hn'
  obtain ⟨rfl, hc, -⟩ := absolute_ok habs
  have hself : ¬ h.LeavesLink p → (p.isAbsolute = false → h.tree.IsPlainDir h.cwd ∧
      (p.normalize h.cwd).path.bytes.length < maxPath) →
      h.statOf .followed (p.normalize h.cwd).path = .ok st := by
    intro hno hcwd
    exact Host.statOf_normalize hs (fun hp => ⟨hc hp, hcwd hp⟩) hno
  rcases hcase with ⟨hl, rfl⟩ | ⟨-, m, hb, rfl⟩
  · refine ⟨st, _, [], hs, by rw [habs], List.nil_suffix, rfl, fun hne => absurd hl.symm hne, ?_⟩
    intro hm
    rw [hm]
    exact hself
  · refine ⟨st, _, m, hs, by rw [habs], hb.suffix, rfl, fun hne => ?_, ?_⟩
    · exact statOf_of_deviceOf (hb.inside m ⟨hb.suffix, hne⟩ List.suffix_rfl)
    · intro hm
      rw [hm]
      exact hself

theorem mountPoint_restat_nested :
    (Device.ofPath ⟨[slash, 0x61, slash, 0x66]⟩ .nested).1 = .ok ⟨⟨8, 16⟩, some ⟨[slash, 0x61]⟩⟩ ∧
      ∃ own, Host.nested.statOf .followed ⟨[slash, 0x61]⟩ = .ok own ∧
        DeviceNumber.decode own.device = ⟨8, 16⟩ := by
  have hd : (Device.ofPath ⟨[slash, 0x61, slash, 0x66]⟩ .nested).1 =
      .ok ⟨⟨8, 16⟩, some ⟨[slash, 0x61]⟩⟩ := by rfl
  have hn : (namesDevice ⟨[slash, 0x61, slash, 0x66]⟩ .nested).1 = false := by rfl
  have ha : (absolute ⟨[slash, 0x61, slash, 0x66]⟩ .nested).1 = .ok [[0x66], [0x61]] := by rfl
  obtain ⟨st, l, m, -, hl, -, hm, habove, -⟩ := Device.mountPoint_restat hd hn
  have hpath : ⟨[slash, 0x61]⟩ = m.path := Option.some.inj (congrArg Device.mountPoint hm)
  have hnumber : (⟨8, 16⟩ : DeviceNumber) = .decode st.device := congrArg Device.number hm
  rw [ha] at hl
  obtain rfl := Except.ok.inj hl
  have hne : m ≠ [[0x66], [0x61]] := by
    intro hml
    rw [hml] at hpath
    exact absurd hpath (by decide)
  obtain ⟨own, hown, hdev, hfollow⟩ := habove hne
  rw [← hpath] at hown hfollow
  refine ⟨hd, own, hfollow fun target ht => ?_, by rw [hdev, hnumber]⟩
  have hdir : (Host.lstat ⟨[slash, 0x61]⟩ .nested).1 = .ok ⟨.dir 0o755, 2064, 0⟩ := by rfl
  rw [hdir] at hown
  obtain rfl := Except.ok.inj hown
  cases ht

/-- `/s` leads to the mount `/m`, in which `t` leads back out to `/o`; there `x` is a mount again. -/
def Host.linked : Host :=
  { Host.initial with
    tree := ⟨[([[0x6D]], .dir 0o755), ([[0x74], [0x6D]], .link ⟨[slash, 0x6F]⟩),
      ([[0x6F]], .dir 0o755), ([[0x78], [0x6F]], .dir 0o755),
      ([[0x73]], .link ⟨[slash, 0x6D]⟩)]⟩
    devices := [([[0x6D]], 2064), ([[0x78], [0x6F]], 2064)] }

/-- `/s` leads to `/m/d`, next to which `e` holds a file `f`; `/e` is a mount. -/
def Host.detoured : Host :=
  { Host.initial with
    tree := ⟨[([[0x6D]], .dir 0o755), ([[0x64], [0x6D]], .dir 0o755), ([[0x65], [0x6D]], .dir 0o755),
      ([[0x66], [0x65], [0x6D]], .leaf .regular 0o644 []), ([[0x65]], .dir 0o755),
      ([[0x73]], .link ⟨[slash, 0x6D, slash, 0x64]⟩)]⟩
    devices := [([[0x65]], 2064)] }

/-- The mount point of `/s/t/x` is the link `/s/t`, on the device itself, that leads off it. That of
`/s/../e/f` is `/e/f`, which is not there. -/
theorem mountPoint_restat_linked :
    (∃ st, (namesDevice ⟨[slash, 0x73, slash, 0x74, slash, 0x78]⟩ .linked).1 = false ∧
      (Device.ofPath ⟨[slash, 0x73, slash, 0x74, slash, 0x78]⟩ .linked).1 =
        .ok ⟨⟨8, 16⟩, some ⟨[slash, 0x73, slash, 0x74]⟩⟩ ∧
      Host.linked.statOf .followed ⟨[slash, 0x73, slash, 0x74]⟩ = .ok st ∧
      DeviceNumber.decode st.device ≠ ⟨8, 16⟩) ∧
    (namesDevice ⟨[slash, 0x73, slash, dot, dot, slash, 0x65, slash, 0x66]⟩ .detoured).1 = false ∧
      (Device.ofPath ⟨[slash, 0x73, slash, dot, dot, slash, 0x65, slash, 0x66]⟩ .detoured).1 =
        .ok ⟨⟨8, 1⟩, some ⟨[slash, 0x65, slash, 0x66]⟩⟩ ∧
      Host.detoured.statOf .followed ⟨[slash, 0x65, slash, 0x66]⟩ = .error .noEntry := by
  refine ⟨⟨⟨.dir 0o755, 2049, 0⟩, ?_, ?_, ?_, ?_⟩, ?_, ?_, ?_⟩
  · rfl
  · rfl
  · rfl
  · decide
  · rfl
  · rfl
  · rfl

end SandboxMounts
