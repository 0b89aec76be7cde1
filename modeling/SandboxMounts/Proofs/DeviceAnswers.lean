import SandboxMounts.Proofs.MountPoint
import SandboxMounts.Proofs.Normalization

/-!
What an answer for a path says. It has no mount point exactly if the path, as it is written, names a
device node. A relative path is never taken for one, so it may be told apart from the same path
written out behind the working directory; in all else the two have one answer.
-/

set_option autoImplicit false

namespace SandboxMounts

namespace Path

variable {p : Path}

theorem isAbsolute_of_root_mem (hp : .root ∈ p.components) : p.isAbsolute = true := by
  rw [components_eq, List.mem_append] at hp
  rcases hp with hp | hp
  · rw [isAbsolute_eq_anchored, decide_eq_true_eq]
    cases ha : p.anchored.1 with
    | root => rfl
    | here => simp [ha, Anchor.components] at hp
    | bare => simp [ha, Anchor.components] at hp
  · obtain ⟨n, -, hn⟩ := List.mem_map.1 hp
    unfold Name.component at hn
    split at hn <;> cases hn

theorem steps_ne_nil (hp : p.isAbsolute = false) (he : p.isEmpty = false) : p.steps ≠ [] := by
  obtain ⟨s, ss, hs, hnil⟩ := segments_of_relative hp
  have hne : s ≠ [] := fun hc => by
    have hback := Bytes.joinWith_splitWhen slash p.bytes
    change Bytes.joinWith slash p.segments = p.bytes at hback
    rw [hs, hnil hc, hc] at hback
    rw [isEmpty, ← hback] at he
    cases he
  rw [steps, hs, List.filter_cons_of_pos (by simp [hne])]
  exact List.cons_ne_nil s _

end Path

namespace Tree

variable {t : Tree} {k links : Nat} {d l : Location} {names : List Name} {s : Bool} {how : LastName}
  {q : Place}

theorem HasDirs.reaches_eq (hd : t.HasDirs d) (hs : d.IsSpellable)
    (hr : Reaches t k [] d.reverse l) : k = 0 ∧ l = d := by
  induction d generalizing k l with
  | nil => exact hr.nil_eq
  | cons n above ih =>
    have hn := hs n List.mem_cons_self
    rw [List.reverse_cons] at hr
    obtain ⟨i, j, m, rfl, h₁, h₂⟩ := hr.split
    obtain ⟨rfl, rfl⟩ := ih hd.tail hs.tail h₁
    cases h₂ with
    | here => exact absurd rfl hn.ne_here
    | up => exact absurd rfl hn.ne_up
    | dir hn hg hr =>
      obtain ⟨rfl, rfl⟩ := hr.nil_eq
      exact ⟨rfl, rfl⟩
    | link hn hg =>
      have hdir := hd _ List.suffix_rfl
      rw [hg] at hdir
      cases hdir

theorem HasDirs.locate_of_append (hd : t.HasDirs d) (hs : d.IsSpellable) (hne : names ≠ [])
    (hl : t.locate how links [] (d.reverse ++ names) s = .ok q) :
    t.locate how links d names s = .ok q := by
  obtain ⟨k, l, -, hr⟩ := exists_reaches hne hl
  obtain ⟨rfl, rfl⟩ := hd.reaches_eq hs hr
  have hsame : t.locate how links [] (l.reverse ++ names) s = t.locate how links l names s :=
    hr.locate_append hne
  rw [← hsame]
  exact hl

end Tree

inductive IsMountPoint (h : Host) (device : RawDevice) : Location → Location → Prop
  | root : IsMountPoint h device [] []
  | boundary {l m : Location} (hl : l ≠ []) (hb : IsBoundary h device l m) :
    IsMountPoint h device l m

namespace IsMountPoint

variable {h : Host} {device : RawDevice} {l m m' : Location}

theorem unique (hm : IsMountPoint h device l m) (hm' : IsMountPoint h device l m') : m = m' := by
  cases hm with
  | root =>
    cases hm' with
    | root => rfl
    | boundary hl => exact absurd rfl hl
  | boundary hl hb =>
    cases hm' with
    | root => exact absurd rfl hl
    | boundary _ hb' => exact hb.unique hb'

theorem suffix (hm : IsMountPoint h device l m) : m <:+ l := by
  cases hm with
  | root => exact List.nil_suffix
  | boundary _ hb => exact hb.suffix

theorem eq_nil_iff (hm : IsMountPoint h device l m) : m = [] ↔ l = [] := by
  cases hm with
  | root => rfl
  | boundary hl hb => exact iff_of_false hb.ne_root hl

end IsMountPoint

section

variable {h : Host} {p : Path} {d d' : Device}

theorem namesDevice_of_relative (h : Host) (hp : p.isAbsolute = false) :
    namesDevice p h = (false, h) := by
  have hsame : p.sameComponents devDir = false := by
    refine Bool.eq_false_iff.2 fun hc => ?_
    have hroot : .root ∈ p.components := by
      rw [show p.components = devDir.components by simpa [Path.sameComponents] using hc]
      decide
    rw [Path.isAbsolute_of_root_mem hroot] at hp
    cases hp
  have hbelow : (devDir.bytes ++ [slash]).isPrefixOf p.bytes = false := by
    refine Bool.eq_false_iff.2 fun hc => ?_
    obtain ⟨rest, hrest⟩ := List.isPrefixOf_iff_prefix.1 hc
    rw [Path.isAbsolute, ← hrest] at hp
    cases hp
  simp [namesDevice, hsame, hbelow]

theorem Host.IsSound.isSpellable_cwd (hs : h.IsSound) (hg : h.cwdGone = false) :
    h.cwd.IsSpellable := by
  obtain ⟨node, hnode, -⟩ := (Option.any_eq_true _ _).1 (hs.cwd hg)
  exact hs.tree.isSpellable hnode

/-- A relative path and the same path behind the working directory lead to one place. -/
theorem Host.statOf_join_cwd {st : Host.Stat} (hs : h.IsSound) (hg : h.cwdGone = false)
    (hp : p.isAbsolute = false) (he : p.isEmpty = false)
    (hstat : h.statOf .followed (h.cwd.path.join p) = .ok st) : h.statOf .followed p = .ok st := by
  obtain ⟨place, hl, -⟩ := Host.statOf_ok hstat
  obtain ⟨hlen, hne⟩ := Host.locate_ok hl
  have hd := hs.tree.hasDirs (hs.cwd hg)
  have hspell := hs.isSpellable_cwd hg
  have habs : (h.cwd.path.join p).isAbsolute = true :=
    (Path.isAbsolute_join_of_relative _ hp).trans h.cwd.path_isAbsolute
  have hlocate : h.locate .followed p = .ok place := by
    rw [Host.locate_eq hlen hne (by simp [habs]), Path.start, if_pos habs,
      Path.steps_join_of_relative _ hp, Location.steps_path hspell,
      Path.endsInSlash_join_of_relative _ hp he] at hl
    have hlen' := Nat.lt_of_le_of_lt (Path.length_le_join h.cwd.path hp) hlen
    rw [Host.locate_eq hlen' he fun _ => hg, Path.start, if_neg (by simp [hp])]
    exact hd.locate_of_append hspell (Path.steps_ne_nil hp he) hl
  rw [← hstat]
  exact Host.statOf_congr (hlocate.trans hl.symm)

/-- An answer is made of one stat of the path; that of a node is read off at once, and any other has
the mount point of the lexical form. -/
theorem Device.ofPath_cases (hd : (Device.ofPath p h).1 = .ok d) :
    ∃ st, Host.stat p h = (.ok st, h) ∧
      ((namesDevice p h).1 = true ∧ d = ⟨.decode st.special, none⟩ ∨
        (namesDevice p h).1 = false ∧ ∃ l m, absolute p h = (.ok l, h) ∧
          IsMountPoint h st.device l m ∧ d = ⟨.decode st.device, some m.path⟩) := by
  obtain ⟨st, hst, hnode | ⟨hn, l, habs, ⟨rfl, rfl⟩ | ⟨hl, m, hb, rfl⟩⟩⟩ := Device.ofPath_ok hd
  · exact ⟨st, hst, .inl hnode⟩
  · exact ⟨st, hst, .inr ⟨hn, [], [], habs, .root, rfl⟩⟩
  · exact ⟨st, hst, .inr ⟨hn, l, m, habs, .boundary hl hb, rfl⟩⟩

theorem Device.exists_location_of_mountPoint {m : Path} (hd : (Device.ofPath p h).1 = .ok d)
    (hm : d.mountPoint = some m) : ∃ l : Location, m = l.path := by
  obtain ⟨st, -, ⟨-, rfl⟩ | ⟨-, l, m', -, -, rfl⟩⟩ := Device.ofPath_cases hd
  · cases hm
  · exact ⟨m', (Option.some.inj hm).symm⟩

theorem Device.not_isEmpty_of_ofPath (hd : (Device.ofPath p h).1 = .ok d) : p.isEmpty = false := by
  refine Bool.eq_false_iff.2 fun he => ?_
  rw [Device.ofPath, if_pos he] at hd
  cases hd

/-- A relative path and the same path behind the working directory have one answer, unless the
latter names a device node, which the former never does: then the one answers with the mount that
holds the node and the other with the node. -/
theorem Device.ofPath_join_cwd (hs : h.IsSound) (hp : p.isAbsolute = false)
    (hd : (Device.ofPath p h).1 = .ok d) (hd' : (Device.ofPath (h.cwd.path.join p) h).1 = .ok d') :
    (namesDevice p h).1 = false ∧
      ((namesDevice (h.cwd.path.join p) h).1 = false → d = d') ∧
      ((namesDevice (h.cwd.path.join p) h).1 = true → ∃ st q, (Host.stat p h).1 = .ok st ∧
        (Host.stat (h.cwd.path.join p) h).1 = .ok st ∧ q.isAbsolute = true ∧
        d = ⟨.decode st.device, some q⟩ ∧ d' = ⟨.decode st.special, none⟩) := by
  have hrel : (namesDevice p h).1 = false := by rw [namesDevice_of_relative h hp]
  obtain ⟨st, hst, hcase⟩ := Device.ofPath_cases hd
  obtain ⟨hn, -⟩ | ⟨-, l, m, habs, hm, rfl⟩ := hcase
  · rw [hrel] at hn
    cases hn
  obtain ⟨st', hst', hcase'⟩ := Device.ofPath_cases hd'
  obtain ⟨rfl, hg, -⟩ := absolute_ok habs
  have hsame : st' = st := by
    have hjoin := Host.statOf_join_cwd hs (hg hp) hp (Device.not_isEmpty_of_ofPath hd)
      (Host.stat_ok hst').1
    rw [(Host.stat_ok hst).1] at hjoin
    exact (Except.ok.inj hjoin).symm
  subst hsame
  refine ⟨hrel, fun hn' => ?_, fun hn' => ?_⟩
  · obtain ⟨hn, -⟩ | ⟨-, l, m', habs', hm', rfl⟩ := hcase'
    · rw [hn'] at hn
      cases hn
    · obtain ⟨rfl, -, -⟩ := absolute_ok habs'
      have hspell := hs.isSpellable_cwd (hg hp)
      rw [Path.normalize_join _ _ hp, Location.normalize_path hspell] at hm'
      rw [hm.unique hm']
  · obtain ⟨-, rfl⟩ | ⟨hn, -⟩ := hcase'
    · exact ⟨st', m.path, by rw [hst], by rw [hst'], m.path_isAbsolute, rfl, rfl⟩
    · rw [hn'] at hn
      cases hn

def Host.inDev : Host :=
  { Host.initial with
    tree := ⟨[([Utf8.ofString "dev"], .dir 0o755),
      ([Utf8.ofString "null", Utf8.ofString "dev"], .leaf .char 0o666 [])]⟩
    devices := [([Utf8.ofString "dev"], 2064)]
    specials := [([Utf8.ofString "null", Utf8.ofString "dev"], 259)]
    cwd := [Utf8.ofString "dev"] }

/-- The node `null` is found to be on the device of `/dev`, and to be itself if it is written out. -/
theorem ofPath_join_cwd_null : Host.inDev.IsSound ∧
    Host.inDev.cwd.path.join (.ofString "null") = .ofString "/dev/null" ∧
    (Device.ofPath (.ofString "null") .inDev).1 = .ok ⟨⟨8, 16⟩, some (.ofString "/dev")⟩ ∧
    (Device.ofPath (.ofString "/dev/null") .inDev).1 = .ok ⟨⟨1, 3⟩, none⟩ :=
  ⟨⟨Tree.isSound_of_entries (by decide), fun _ => rfl⟩, rfl, rfl, rfl⟩

theorem ofPath_join_cwd_below :
    (∃ d, (Device.ofPath (.ofString "f") { Host.nested with cwd := [[0x61]] }).1 = .ok d ∧
      (Device.ofPath (.ofString "/a/f") { Host.nested with cwd := [[0x61]] }).1 = .ok d) ∧
    ∃ st, (Host.stat (.ofString "null") .inDev).1 = .ok st ∧
      DeviceNumber.decode st.device = ⟨8, 16⟩ ∧ DeviceNumber.decode st.special = ⟨1, 3⟩ := by
  have hnested : ({ Host.nested with cwd := [[0x61]] } : Host).IsSound :=
    ⟨Tree.isSound_of_entries (by decide), fun _ => rfl⟩
  have hinDev : Host.inDev.IsSound := ⟨Tree.isSound_of_entries (by decide), fun _ => rfl⟩
  constructor
  · have hd : (Device.ofPath (.ofString "f") { Host.nested with cwd := [[0x61]] }).1 =
        .ok ⟨⟨8, 16⟩, some (.ofString "/a")⟩ := rfl
    have hd' : (Device.ofPath (.ofString "/a/f") { Host.nested with cwd := [[0x61]] }).1 =
        .ok ⟨⟨8, 16⟩, some (.ofString "/a")⟩ := rfl
    obtain ⟨-, hsame, -⟩ := Device.ofPath_join_cwd hnested (by decide) hd hd'
    exact ⟨_, hd, hd'.trans (congrArg _ (hsame rfl).symm)⟩
  · have hd : (Device.ofPath (.ofString "null") .inDev).1 =
        .ok ⟨⟨8, 16⟩, some (.ofString "/dev")⟩ := rfl
    have hd' : (Device.ofPath (.ofString "/dev/null") .inDev).1 = .ok ⟨⟨1, 3⟩, none⟩ := rfl
    obtain ⟨-, -, hnode⟩ := Device.ofPath_join_cwd hinDev (by decide) hd hd'
    obtain ⟨st, q, hst, -, -, hon, hself⟩ := hnode rfl
    exact ⟨st, hst, (congrArg Device.number hon).symm, (congrArg Device.number hself).symm⟩

/-! ### The mount point as a path -/

/-- The mount point as it is handed on: the empty path stands for none. -/
def Device.mountPath (d : Device) : Path := d.mountPoint.getD ⟨[]⟩

/-- An answer has the empty mount point exactly if the path names a device node, and then the number
of the node. Any other answer has the number of the device that the path is on, and an absolute mount
point, the root only for the root. The walk stays among the lexical form and what is above it in
text, and none of these is empty. -/
theorem Device.mountPath_correct (hs : h.cwd.IsSpellable) :
    (∀ p d, (Device.ofPath p h).1 = .ok d →
      (d.isNode = true ↔ (namesDevice p h).1 = true) ∧ d.mountPath.isEmpty = d.isNode ∧
      ∃ st, (Host.stat p h).1 = .ok st ∧ (d.isNode = true → d.number = .decode st.special) ∧
        (d.isNode = false → d.number = .decode st.device ∧ d.mountPath.isAbsolute = true ∧
          ∃ l, (absolute p h).1 = .ok l ∧ (d.mountPath = ⟨[slash]⟩ ↔ l.path = ⟨[slash]⟩))) ∧
    ∀ p l, (absolute p h).1 = .ok l →
      (∀ q ∈ l.path :: l.path.parents, q.isAbsolute = true ∧ q.isEmpty = false) ∧
      ∀ device m, (boundary device l h).1 = .ok m → m.path ∈ l.path :: l.path.parents := by
  have hclean : ∀ p l, (absolute p h).1 = .ok l → l.IsSpellable := fun p l habs => by
    obtain ⟨rfl, -⟩ := absolute_ok (Prod.ext habs rfl)
    exact Path.normalize_isSpellable hs p
  refine ⟨fun p d hd => ?_, fun p l habs => ⟨fun q hq => ?_, fun device m hm => ?_⟩⟩
  · obtain ⟨st, hst, ⟨hn, rfl⟩ | ⟨hn, l, m, habs, hm, rfl⟩⟩ := Device.ofPath_cases hd
    · exact ⟨iff_of_true rfl hn, rfl, st, by rw [hst], fun _ => rfl, fun hno => by cases hno⟩
    · have hl := hclean p l (by rw [habs])
      have hmspell : m.IsSpellable := fun n hmem => hl n (hm.suffix.subset hmem)
      refine ⟨iff_of_false Bool.false_ne_true (by simp [hn]), m.path_not_isEmpty, st, by rw [hst],
        fun hnode => (by cases hnode), fun _ => ⟨rfl, m.path_isAbsolute, l, by rw [habs], ?_⟩⟩
      exact (Location.path_eq_root_iff hmspell).trans
        (hm.eq_nil_iff.trans (Location.path_eq_root_iff hl).symm)
  · obtain ⟨a, -, rfl⟩ := (Location.mem_ancestors_iff (hclean p l habs)).1 hq
    exact ⟨Location.path_isAbsolute a, Location.path_not_isEmpty a⟩
  · cases (boundary_eq_iff h device l _).1 hm with
    | found hb => exact (Location.mem_ancestors_iff (hclean p l habs)).2 ⟨m, hb.suffix, rfl⟩

theorem mountPath_correct_null :
    (∃ d, (Device.ofPath (.ofString "/dev/null") .inDev).1 = .ok d ∧ d.isNode = true ∧
      d.mountPath.isEmpty = true) ∧
    ∃ d, (Device.ofPath (.ofString "null") .inDev).1 = .ok d ∧ d.isNode = false ∧
      d.mountPath.isAbsolute = true ∧ d.mountPath ≠ ⟨[slash]⟩ := by
  have hspell : Host.inDev.cwd.IsSpellable := fun n hn => by
    obtain rfl := List.mem_singleton.1 hn
    decide
  obtain ⟨hanswer, -⟩ := Device.mountPath_correct hspell
  constructor
  · have hd : (Device.ofPath (.ofString "/dev/null") .inDev).1 = .ok ⟨⟨1, 3⟩, none⟩ := rfl
    obtain ⟨hnode, hempty, -⟩ := hanswer _ _ hd
    exact ⟨_, hd, hnode.2 rfl, hempty.trans (hnode.2 rfl)⟩
  · have hd : (Device.ofPath (.ofString "null") .inDev).1 =
        .ok ⟨⟨8, 16⟩, some (.ofString "/dev")⟩ := rfl
    obtain ⟨-, -, st, -, -, hmount⟩ := hanswer _ _ hd
    obtain ⟨-, habs, l, hl, hroot⟩ := hmount rfl
    have hform : (absolute (.ofString "null") .inDev).1 =
        .ok [Utf8.ofString "null", Utf8.ofString "dev"] := rfl
    rw [hform] at hl
    obtain rfl := Except.ok.inj hl
    exact ⟨_, hd, rfl, habs, fun hc => absurd (hroot.1 hc) (by decide)⟩

end

end SandboxMounts
