import SandboxMounts.Proofs.Components
import SandboxMounts.Proofs.Encoding
import SandboxMounts.Proofs.TreeGrowth
import SandboxMounts.Proofs.Visits

/-!
Shares of different containers are apart. Ids that are accepted are one component each, so that of two
places neither lies at or below the other; all other ids are turned down before anything happens.
-/

set_option autoImplicit false

namespace SandboxMounts

namespace Tree

def HasNoLinks (t : Tree) : Prop := ∀ l target, t.get? l ≠ some (.link target)

theorem mem_entries {t : Tree} {n : Name} {l : Location} {node : Node}
    (hl : t.get? (n :: l) = some node) : (n :: l, node) ∈ t.entries := by
  obtain ⟨before, after, hsplit, -⟩ := List.lookup_eq_some_iff.1 hl
  simp [hsplit]

theorem hasNoLinks_of_entries {t : Tree} (he : ∀ e ∈ t.entries, ∀ target, e.2 ≠ .link target) :
    t.HasNoLinks := by
  intro l target hl
  cases l with
  | nil => cases hl
  | cons n l => exact he _ (mem_entries hl) target rfl

section

variable {t : Tree} {how : LastName} {links : Nat} {dir l : Location} {n : Name} {names : List Name}
  {s : Bool} (ht : t.HasNoLinks)
include ht

theorem HasNoLinks.last {stop : Stop} (hw : t.last how s dir n = .ok stop) :
    ∃ p, stop = .place p ∧ ∀ l, p = .node l → l = n :: dir := by
  unfold Tree.last at hw
  split at hw
  · cases hw
  split at hw
  · cases hw
  split at hw
  · cases hw
    exact ⟨_, rfl, fun l hl => by cases hl⟩
  · cases hw
    exact ⟨_, rfl, fun l hl => by cases hl; rfl⟩
  · exact absurd ‹_› (ht _ _)
  · split at hw <;> cases hw
    exact ⟨_, rfl, fun l hl => by cases hl; rfl⟩

theorem HasNoLinks.walk {stop : Stop} (hw : t.walk how s dir names = .ok stop) :
    ∃ p, stop = .place p ∧ ∀ l, p = .node l → l = names.foldl Location.follow dir := by
  replace hw := walks_of_walk hw
  induction hw with
  | nil => exact ⟨_, rfl, fun l hl => by cases hl; rfl⟩
  | here hw ih => simpa only [List.foldl_cons, Location.follow_here] using ih
  | up hw ih => simpa only [List.foldl_cons, Location.follow_up] using ih
  | last hh hu hl =>
    rw [List.foldl_cons, Location.follow_entry hh hu]
    exact ht.last hl
  | dir hn hg hr hw ih =>
    rw [List.foldl_cons, Location.follow_entry hn.ne_here hn.ne_up]
    exact ih
  | link hn hg hr => exact absurd hg (ht _ _)

/-- Without links a lookup finds a node nowhere but where the names lead. -/
theorem HasNoLinks.locate (hl : t.locate how links dir names s = .ok (.node l)) :
    l = names.foldl Location.follow dir := by
  rcases locate_ok hl with hw | ⟨_, _, _, _, _, -, hw, -⟩
  · obtain ⟨p, hp, hnode⟩ := ht.walk hw
    cases hp
    exact hnode l rfl
  · obtain ⟨p, hp, -⟩ := ht.walk hw
    cases hp

end

end Tree

theorem Host.locate_of_hasNoLinks {h : Host} {how : LastName} {p : Path} {l : Location}
    (ht : h.tree.HasNoLinks) (hl : h.locate how p = .ok (.node l)) : l = p.normalize h.cwd := by
  rw [Path.normalize_eq, Path.start]
  unfold Host.locate at hl
  split at hl
  · cases hl
  split at hl
  · cases hl
  split at hl
  · rw [if_pos ‹_›]
    exact ht.locate hl
  rw [if_neg ‹_›]
  split at hl
  · rcases Tree.locateAdrift_ok hl with ⟨_, hc⟩ | hl'
    · cases hc
    · exact ht.locate hl'
  · exact ht.locate hl

namespace Host

theorem editNewest?_filter {p q : Path} (hne : p ≠ q) {ms ms' : List Mount}
    (he : editNewest? p (fun _ => []) ms = some ms') :
    ms'.filter (·.target = q) = ms.filter (·.target = q) := by
  induction ms generalizing ms' with
  | nil => cases he
  | cons m ms ih =>
    rw [editNewest?] at he
    split at he
    · rename_i hm
      obtain rfl := Option.some.inj he
      have hq : m.target ≠ q := fun hc => hne (hm.symm.trans hc)
      simp [hq]
    · obtain ⟨rest, hrest, rfl⟩ := Option.map_eq_some_iff.1 he
      rw [List.filter_cons, List.filter_cons, ih hrest]

end Host

/-- A detach at one target leaves the mounts at every other. -/
theorem Bind.detach_elsewhere {p q : Path} (hne : p ≠ q) (h : Host) :
    (detach p h).2.mounts.filter (·.target = q) = h.mounts.filter (·.target = q) := by
  unfold detach
  rw [Effect.orFail_snd]
  cases hn : p.hasNul with
  | true => rw [Host.issue_of_hasNul .detach h hn]
  | false =>
    obtain ⟨errno, h', hi, -, hafter⟩ := Host.issue_recorded .detach h hn
    rw [hi]
    cases errno with
    | some e => rw [Option.some.inj hafter]
    | none => exact Host.editNewest?_filter hne hafter

namespace Rootfs

/-- An id that is one component of a path and no other than itself. -/
def IsOneName (id : String) : Prop := id ≠ "" ∧ id ≠ "." ∧ id ≠ ".." ∧ '/' ∉ id.toList

variable {id sandbox container sandbox' container' : String}

theorem isSingleName_iff : isSingleName id = true ↔ IsOneName id := by
  simp [isSingleName, IsOneName, and_assoc]

theorem requireNames_eq_ok :
    requireNames sandbox container = .ok () ↔ IsOneName sandbox ∧ IsOneName container := by
  rw [requireNames_ok, isSingleName_iff, isSingleName_iff]

theorem IsOneName.isEntry (h : IsOneName id) : Name.IsEntry (Utf8.ofString id) where
  ne_nil hc := h.1 (Utf8.ofString_injective hc)
  no_slash hc := h.2.2.2 ((Utf8.mem_encode (c := '/') (by decide)).1 hc)
  ne_here hc := h.2.1 (Utf8.ofString_injective hc)
  ne_up hc := h.2.2.1 (Utf8.ofString_injective hc)

theorem isEntry_dirName : Name.IsEntry (Utf8.ofString dirName) :=
  (isSingleName_iff.1 (by decide)).isEntry

theorem components_target (sharedDir : Path) (hs : IsOneName sandbox) (hc : IsOneName container) :
    (target sharedDir sandbox container).components =
      sharedDir.components ++ [.name (Utf8.ofString sandbox), .name (Utf8.ofString container),
        .name (Utf8.ofString dirName)] := by
  unfold target Path.ofString
  rw [Path.components_join _ isEntry_dirName, Path.components_join _ hc.isEntry,
    Path.components_join _ hs.isEntry, List.append_assoc, List.append_assoc]
  rfl

theorem normalize_target (cwd : Location) (sharedDir : Path) (hs : IsOneName sandbox)
    (hc : IsOneName container) :
    (target sharedDir sandbox container).normalize cwd =
      Utf8.ofString dirName :: Utf8.ofString container :: Utf8.ofString sandbox ::
        sharedDir.normalize cwd := by
  rw [Path.normalize, components_target sharedDir hs hc, List.foldl_append]
  rfl

section

variable (sharedDir : Path) (hs : IsOneName sandbox) (hc : IsOneName container)
  (hs' : IsOneName sandbox') (hc' : IsOneName container')
include hs hc hs' hc'

theorem eq_of_components_prefix
    (hp : (target sharedDir sandbox container).components <+:
      (target sharedDir sandbox' container').components) :
    sandbox = sandbox' ∧ container = container' := by
  rw [components_target sharedDir hs hc, components_target sharedDir hs' hc',
    List.prefix_append_right_inj] at hp
  have hnames := hp.eq_of_length rfl
  simp only [List.cons.injEq, Component.name.injEq] at hnames
  exact ⟨Utf8.ofString_injective hnames.1, Utf8.ofString_injective hnames.2.1⟩

theorem eq_of_locate_suffix {h : Host} {how how' : LastName} {l l' : Location}
    (ht : h.tree.HasNoLinks)
    (hl : h.locate how (target sharedDir sandbox container) = .ok (.node l))
    (hl' : h.locate how' (target sharedDir sandbox' container') = .ok (.node l'))
    (hsuffix : l <:+ l') : sandbox = sandbox' ∧ container = container' := by
  rw [Host.locate_of_hasNoLinks ht hl, Host.locate_of_hasNoLinks ht hl',
    normalize_target h.cwd sharedDir hs hc, normalize_target h.cwd sharedDir hs' hc'] at hsuffix
  have hnames := hsuffix.eq_of_length rfl
  simp only [List.cons.injEq] at hnames
  exact ⟨Utf8.ofString_injective hnames.2.2.1, Utf8.ofString_injective hnames.2.1⟩

end

theorem requireNames_of_not_sandbox (hs : ¬ IsOneName sandbox) (container : String) :
    requireNames sandbox container = .error (.emptyArgument "sandbox id") := by
  rw [← isSingleName_iff, Bool.not_eq_true] at hs
  simp [requireNames, hs]

theorem requireNames_of_not_container (hs : IsOneName sandbox) (hc : ¬ IsOneName container) :
    requireNames sandbox container = .error (.emptyArgument "container id") := by
  rw [← isSingleName_iff] at hs
  rw [← isSingleName_iff, Bool.not_eq_true] at hc
  simp [requireNames, hs, hc]

/-- The place of a share is given by three names below the shared directory. Different ids have places
apart, also for an unshare; ids that are not one name each are turned down, the sandbox first. -/
theorem shares_apart (sharedDir : Path) (sandbox container : String) :
    (requireNames sandbox container = .ok () ↔ IsOneName sandbox ∧ IsOneName container) ∧
    (IsOneName sandbox → IsOneName container →
      (target sharedDir sandbox container).components =
        sharedDir.components ++ [.name (Utf8.ofString sandbox), .name (Utf8.ofString container),
          .name (Utf8.ofString dirName)] ∧
      ∀ sandbox' container', IsOneName sandbox' → IsOneName container' →
        (target sharedDir sandbox container = target sharedDir sandbox' container' ∨
            (target sharedDir sandbox container).components <+:
              (target sharedDir sandbox' container').components →
          sandbox = sandbox' ∧ container = container') ∧
        (¬ (sandbox = sandbox' ∧ container = container') → ∀ h : Host,
          (unshare sharedDir sandbox container h).2.mounts.filter
              (·.target = target sharedDir sandbox' container') =
            h.mounts.filter (·.target = target sharedDir sandbox' container') ∧
          (h.tree.HasNoLinks → ∀ how how' l l',
            h.locate how (target sharedDir sandbox container) = .ok (.node l) →
            h.locate how' (target sharedDir sandbox' container') = .ok (.node l') →
            ¬ l <:+ l' ∧ ¬ l' <:+ l))) ∧
    (¬ IsOneName sandbox → ∀ rootfs readOnly h,
      share sharedDir sandbox container rootfs readOnly h = (.error (.emptyArgument "sandbox id"), h) ∧
      unshare sharedDir sandbox container h = (.error (.emptyArgument "sandbox id"), h)) ∧
    (IsOneName sandbox → ¬ IsOneName container → ∀ rootfs readOnly h,
      share sharedDir sandbox container rootfs readOnly h =
        (.error (.emptyArgument "container id"), h) ∧
      unshare sharedDir sandbox container h = (.error (.emptyArgument "container id"), h)) := by
  refine ⟨requireNames_eq_ok, fun hs hc => ⟨components_target sharedDir hs hc, ?_⟩, ?_, ?_⟩
  · intro sandbox' container' hs' hc'
    have hsame : target sharedDir sandbox container = target sharedDir sandbox' container' ∨
        (target sharedDir sandbox container).components <+:
          (target sharedDir sandbox' container').components →
        sandbox = sandbox' ∧ container = container' := by
      rintro (heq | hbegins)
      · exact eq_of_components_prefix sharedDir hs hc hs' hc' (heq ▸ List.prefix_rfl)
      · exact eq_of_components_prefix sharedDir hs hc hs' hc' hbegins
    refine ⟨hsame, fun hne h => ⟨?_, fun ht how how' l l' hl hl' => ⟨fun hsuffix => ?_, fun hsuffix => ?_⟩⟩⟩
    · rw [unshare_of_ok sharedDir h (requireNames_eq_ok.2 ⟨hs, hc⟩)]
      exact Bind.detach_elsewhere (fun heq => hne (hsame (.inl heq))) h
    · exact hne (eq_of_locate_suffix sharedDir hs hc hs' hc' ht hl hl' hsuffix)
    · obtain ⟨hsandbox, hcontainer⟩ := eq_of_locate_suffix sharedDir hs' hc' hs hc ht hl' hl hsuffix
      exact hne ⟨hsandbox.symm, hcontainer.symm⟩
  · intro hs rootfs readOnly h
    have hr := requireNames_of_not_sandbox hs container
    exact ⟨share_of_error sharedDir rootfs readOnly h hr, unshare_of_error sharedDir h hr⟩
  · intro hs hc rootfs readOnly h
    have hr := requireNames_of_not_container hs hc
    exact ⟨share_of_error sharedDir rootfs readOnly h hr, unshare_of_error sharedDir h hr⟩

/-- Shares of `/r` for these containers of the sandbox `b`, below `/s`. -/
def sharing (containers : List String) : Host :=
  let shared := target ⟨[slash, 0x73]⟩ "b"
  let made := containers.foldl
    (fun h id => h.place ((shared id).normalize []) (.dir 0o755) none none) Host.initial
  { made with mounts := containers.map fun id => ⟨⟨[slash, 0x72]⟩, shared id, true, false⟩ }

theorem shares_apart_sharing :
    let shared := target ⟨[slash, 0x73]⟩ "b"
    let h := sharing ["c", "cd"]
    requireNames "b" "c" = .ok () ∧
    (shared "c").components = [.root, .name [0x73], .name [0x62], .name [0x63],
      .name (Utf8.ofString "rootfs")] ∧
    ¬ (shared "c").components <+: (shared "cd").components ∧
    (unshare ⟨[slash, 0x73]⟩ "b" "c" h).1 = .ok () ∧
    (unshare ⟨[slash, 0x73]⟩ "b" "c" h).2.mounts.filter (·.target = shared "cd") =
      [⟨⟨[slash, 0x72]⟩, shared "cd", true, false⟩] ∧
    (∃ l l', h.locate .followed (shared "c") = .ok (.node l) ∧
      h.locate .followed (shared "cd") = .ok (.node l') ∧ ¬ l <:+ l' ∧ ¬ l' <:+ l) ∧
    share ⟨[slash, 0x73]⟩ ".." "c" ⟨[slash, 0x72]⟩ true h =
      (.error (.emptyArgument "sandbox id"), h) ∧
    unshare ⟨[slash, 0x73]⟩ "b" "c/d" h = (.error (.emptyArgument "container id"), h) := by
  intro shared h
  have hb : IsOneName "b" := isSingleName_iff.1 (by decide)
  have hc : IsOneName "c" := isSingleName_iff.1 (by decide)
  have hcd : IsOneName "cd" := isSingleName_iff.1 (by decide)
  have hup : ¬ IsOneName ".." := mt isSingleName_iff.2 (by decide)
  have hslash : ¬ IsOneName "c/d" := mt isSingleName_iff.2 (by decide)
  have hne : ¬ ("b" = "b" ∧ "c" = "cd") := by decide
  have hdirs : ∀ e ∈ h.tree.entries, e.2.isDir = true := by decide +kernel
  have hlinks : h.tree.HasNoLinks := Tree.hasNoLinks_of_entries fun e he target hlink => by
    have hdir := hdirs e he
    rw [hlink] at hdir
    cases hdir
  obtain ⟨hnames, haccepted, -, -⟩ := shares_apart ⟨[slash, 0x73]⟩ "b" "c"
  obtain ⟨hcomponents, hothers⟩ := haccepted hb hc
  obtain ⟨hsame, hapart⟩ := hothers "b" "cd" hb hcd
  obtain ⟨hleft, hplaces⟩ := hapart hne h
  obtain ⟨-, -, hsandbox, -⟩ := shares_apart ⟨[slash, 0x73]⟩ ".." "c"
  obtain ⟨-, -, -, hcontainer⟩ := shares_apart ⟨[slash, 0x73]⟩ "b" "c/d"
  have hl : h.locate .followed (shared "c") = .ok (.node ((shared "c").normalize [])) := by
    decide +kernel
  have hl' : h.locate .followed (shared "cd") = .ok (.node ((shared "cd").normalize [])) := by
    decide +kernel
  have hdetached : (unshare ⟨[slash, 0x73]⟩ "b" "c" h).1 = .ok () := by decide +kernel
  have hmounts : h.mounts.filter (·.target = shared "cd") =
      [⟨⟨[slash, 0x72]⟩, shared "cd", true, false⟩] := by decide +kernel
  exact ⟨hnames.2 ⟨hb, hc⟩, hcomponents.trans (by decide +kernel),
    fun hbegins => hne (hsame (.inr hbegins)), hdetached, hleft.trans hmounts,
    ⟨_, _, hl, hl', hplaces hlinks _ _ _ _ hl hl'⟩, (hsandbox hup _ _ h).1,
    (hcontainer hb hslash ⟨[slash, 0x72]⟩ true h).2⟩

end Rootfs

end SandboxMounts
