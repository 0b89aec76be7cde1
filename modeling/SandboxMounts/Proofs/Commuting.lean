import SandboxMounts.Proofs.Placement

/-!
Shares of different containers below one directory. On a host without links and faults it makes no
difference which of the two is made first, but for the words in which an obstacle on the way is told.
-/

set_option autoImplicit false

namespace SandboxMounts

/-- What a preparation comes to: it is turned down, or what is to be done is done at a site. -/
inductive Course where
  | refused (e : IoError)
  | placed (s : Site)

namespace Course

def gain (mode : Nat) (t : Tree) : Course → Location → Option Node
  | refused _ => fun _ => none
  | placed s => s.gain mode t

def Says (mode : Nat) (t : Tree) (r : Except IoError Unit) : Course → Prop
  | refused e => r = .error e
  | placed s => s.Says mode t r

def Ignores (more : Location → Option Node) : Course → Prop
  | refused _ => True
  | placed s => s.Ignores more

def IsFor (base : Location) (shared : List Name) (sandbox container : Name) : Course → Prop
  | refused _ => True
  | placed s => s.base = base ∧ s.shared = shared ∧ s.sandbox = sandbox ∧ s.container = container

def IsClear (t : Tree) : Course → Prop
  | refused _ => True
  | placed s => s.IsClear t

section

variable {c : Course} {mode : Nat} {t : Tree} {r r' : Except IoError Unit}

theorem Says.alike (hs : c.Says mode t r) (hs' : c.Says mode t r') :
    r = r' ∨
      ∃ e e' : Errno, e.IsObstacle ∧ e'.IsObstacle ∧ r = .error (.os e) ∧ r' = .error (.os e') := by
  cases c with
  | refused e => exact .inl (Eq.trans hs (Eq.symm hs'))
  | placed s => exact Site.Says.alike hs hs'

theorem Says.unique (hclear : c.IsClear t) (hs : c.Says mode t r) (hs' : c.Says mode t r') :
    r = r' := by
  cases c with
  | refused e => exact Eq.trans hs (Eq.symm hs')
  | placed s => exact Site.Says.unique hclear hs hs'

theorem ignores_none (c : Course) : c.Ignores fun _ => none := by
  cases c with
  | refused e => trivial
  | placed s => exact ⟨(fun _ _ _ hn => by cases hn), fun _ => rfl⟩

section

variable {more : Location → Option Node} {t' : Tree} (hi : c.Ignores more) (hf : t.Filled more t')
include hi hf

theorem Ignores.gain_eq : c.gain mode t' = c.gain mode t := by
  cases c with
  | refused e => rfl
  | placed s => exact Site.Ignores.gain_eq hi hf

theorem Ignores.says (hs : c.Says mode t' r) : c.Says mode t r := by
  cases c with
  | refused e => exact hs
  | placed s => exact Site.Ignores.says hi hf hs

end

theorem IsFor.isClear {h : Host} {p : Path} {us shared : List Name} {base : Location}
    {sandbox container : Name} (hc : c.IsFor base shared sandbox container) (hs : sandbox.IsEntry)
    (hk : container.IsEntry) (hsound : h.tree.IsSound) (ht : h.tree.HasNoLinks)
    (hstarts : h.Starts p.isAbsolute us base) (hsteps : p.steps = us ++ shared)
    (hplain : h.leadsToDir p = true ∨ Name.up ∉ p.steps) : c.IsClear h.tree := by
  cases c with
  | refused e => trivial
  | placed s =>
    obtain ⟨rfl, rfl, rfl, rfl⟩ := hc
    have hn : s.IsNamed := ⟨hs, hk⟩
    rcases hplain with hdir | hup
    · exact hn.isClear_of_survey hsound (Host.survey_of_leadsToDir ht hstarts rfl hsteps hdir)
    · exact hn.isClear_of_no_up hsound fun hmem => hup (by simp [hsteps, hmem])

/-- Courses for different containers do not notice each other, and agree where they make the same. -/
theorem IsFor.apart (mode : Nat) (t : Tree) {c' : Course} {base : Location} {shared : List Name}
    {sandbox container sandbox' container' : Name} (hc : c.IsFor base shared sandbox container)
    (hc' : c'.IsFor base shared sandbox' container') (hs : sandbox.IsEntry) (hk : container.IsEntry)
    (hs' : sandbox'.IsEntry) (hk' : container'.IsEntry)
    (hne : sandbox = sandbox' → container ≠ container') :
    c.Ignores (c'.gain mode t) ∧ c'.Ignores (c.gain mode t) ∧ ∀ l node node',
      c.gain mode t l = some node → c'.gain mode t l = some node' → node = node' := by
  cases c with
  | refused e => exact ⟨trivial, c'.ignores_none, fun l node node' hg => by cases hg⟩
  | placed s =>
    cases c' with
    | refused e => exact ⟨ignores_none (placed s), trivial, fun l node node' _ hg => by cases hg⟩
    | placed s' =>
      obtain ⟨hbase, hshared, rfl, rfl⟩ := hc
      obtain ⟨hbase', hshared', rfl, rfl⟩ := hc'
      have hn : s.Neighbours s' := ⟨⟨hs, hk⟩, ⟨hs', hk'⟩, hbase'.trans hbase.symm,
        hshared'.trans hshared.symm, hne⟩
      exact ⟨hn.ignores, hn.symm.ignores, fun l node node' => hn.gain_agree⟩

theorem gain_ne_link (c : Course) (mode : Nat) (t : Tree) (l : Location) (target : Path) :
    c.gain mode t l ≠ some (.link target) := by
  cases c with
  | refused e => exact fun hl => by cases hl
  | placed s =>
    intro hl
    rcases Site.of_gain hl with ⟨-, hdir⟩ | ⟨-, -, hmade⟩
    · cases hdir
    · rw [Bind.made] at hmade
      split at hmade <;> cases hmade

end

end Course

namespace Host

/-- From `h` to `h'` the tree has been filled up with `more`; apart from it only the mounts and
their calls may differ. -/
structure Gains (h : Host) (more : Location → Option Node) (h' : Host) : Prop where
  tree : h.tree.Filled more h'.tree
  cwd : h'.cwd = h.cwd
  cwdGone : h'.cwdGone = h.cwdGone
  umask : h'.umask = h.umask
  faults : h'.faults = h.faults

section

variable {h h' : Host} {more : Location → Option Node}

theorem gains_none (h : Host) : h.Gains (fun _ => none) h :=
  ⟨fun _ => (Option.or_none).symm, rfl, rfl, rfl, rfl⟩

theorem Gains.grows (hg : h.Gains more h') : h.Grows h' where
  tree := hg.tree.extends
  cwd := hg.cwd
  cwdGone := hg.cwdGone
  faults := fun f hf => ⟨f, hg.faults ▸ hf, .refl f⟩

theorem Gains.isCalm (hg : h.Gains more h') (hcalm : h.IsCalm)
    (hlinks : ∀ l target, more l ≠ some (.link target)) : h'.IsCalm where
  faults := hg.faults.trans hcalm.faults
  links := hg.tree.hasNoLinks hcalm.links hlinks

theorem Gains.modeOf (hg : h.Gains more h') : h'.modeOf = h.modeOf := by
  rw [Host.modeOf, Host.modeOf, hg.umask]

/-- With or without what another makes, the action makes what is `mine` and one mount if it
succeeds. -/
def Acts (h : Host) (a : Action Unit) (mine others : Location → Option Node) (m : Mount)
    (Ends : Except Error Unit → Prop) : Prop :=
  ∀ h', h.Gains (fun _ => none) h' ∨ h.Gains others h' → ∃ r h'', a h' = (r, h'') ∧ h'.Gains mine h'' ∧
    h''.mounts = (if r.isOk then [m] else []) ++ h'.mounts ∧ Ends r

end

end Host

def Action.inTurn (a b : Action Unit) (h : Host) : Except Error Unit × Except Error Unit × Host :=
  let (r, h₁) := a h
  let (r', h₂) := b h₁
  (r, r', h₂)

/-- Actions that do not see what the other makes can change places. -/
theorem Host.Acts.swap {h : Host} {a b : Action Unit} {more more' : Location → Option Node}
    {m m' : Mount}
    {Ends Ends' : Except Error Unit → Prop} (ha : h.Acts a more more' m Ends)
    (hb : h.Acts b more' more m' Ends')
    (hagree : ∀ l node node', more l = some node → more' l = some node' → node = node')
    (hok : ∀ r k, Ends r → Ends k → r.isOk = k.isOk)
    (hok' : ∀ r k, Ends' r → Ends' k → r.isOk = k.isOk) :
    ∃ r r' h₁ k k' h₂, a.inTurn b h = (r, r', h₁) ∧ b.inTurn a h = (k', k, h₂) ∧
      (Ends r ∧ Ends k) ∧ (Ends' r' ∧ Ends' k') ∧ (∀ l, h₁.tree.get? l = h₂.tree.get? l) ∧
      h₁.mounts.Perm h₂.mounts := by
  obtain ⟨r, ha₁, hr, hgr, hmr, her⟩ := ha h (.inl h.gains_none)
  obtain ⟨r', h₁, hr', hgr', hmr', her'⟩ := hb ha₁ (.inr hgr)
  obtain ⟨k', hb₁, hk', hgk', hmk', hek'⟩ := hb h (.inl h.gains_none)
  obtain ⟨k, h₂, hk, hgk, hmk, hek⟩ := ha hb₁ (.inr hgk')
  refine ⟨r, r', h₁, k, k', h₂, ?_, ?_, ⟨her, hek⟩, ⟨her', hek'⟩, fun l => ?_, ?_⟩
  · rw [Action.inTurn, hr]
    simp only [hr']
  · rw [Action.inTurn, hk']
    simp only [hk]
  · rw [hgr'.tree l, hgr.tree l, hgk.tree l, hgk'.tree l, Option.or_assoc, Option.or_assoc]
    cases hl : more l with
    | none => rw [Option.none_or, Option.or_none]
    | some node =>
      cases hl' : more' l with
      | none => rfl
      | some node' => rw [hagree l node node' hl hl']
  · rw [hmr', hmr, hmk, hmk', hok r k her hek, hok' r' k' her' hek', ← List.append_assoc,
      ← List.append_assoc]
    exact List.perm_append_comm.append_right _

namespace Host

section

variable {h : Host} {ms : List Mount}

theorem issue_of_calm (request : MountRequest) {target : Path} (hf : h.faults = [])
    (hn : target.hasNul = false) (hr : request ≠ .detach)
    (hms : mountsAfter? request target h.mounts = some ms) :
    ∃ calls, issue request target h = (.ok (), { h with mounts := ms, calls }) := by
  have hchange : change (performIn request target) h = (.ok (), { h with mounts := ms }) := by
    simp only [change, performIn, hr, if_false, hms]
  rw [issue, Effect.bind_of_ok (refuseNul_of_clean hn),
    Effect.bind_of_ok (meetFault_of_nil hf), hchange]
  exact ⟨_, rfl⟩

end

end Host

namespace Bind

variable {h : Host} {source destination : Path} {l : Location}

theorem attach_of_calm (source : Path) (readOnly : Bool) (hf : h.faults = [])
    (hn : destination.hasNul = false) :
    ∃ calls, attach source destination readOnly h = (.ok (), { h with
      mounts := ⟨source, destination, true, readOnly⟩ :: h.mounts, calls }) := by
  obtain ⟨calls₁, hbind⟩ := Host.issue_of_calm (.bind source) hf hn (by simp) rfl
  obtain ⟨calls₂, hprivate⟩ := Host.issue_of_calm .makePrivate
    (h := { h with mounts := ⟨source, destination, false, false⟩ :: h.mounts, calls := calls₁ }) hf hn
    (by simp) (Host.makePrivate_newest source destination false false h.mounts)
  rw [attach, Effect.bind_of_ok (Effect.orFail_of_ok hbind), Effect.bind_of_ok (followUp_ok hprivate)]
  cases readOnly with
  | false => exact ⟨_, rfl⟩
  | true =>
    obtain ⟨calls₃, hremount⟩ := Host.issue_of_calm (.remountReadOnly source)
      (h := { h with mounts := ⟨source, destination, true, false⟩ :: h.mounts, calls := calls₂ }) hf hn
      (by simp) (Host.remountReadOnly_newest source destination true false h.mounts)
    exact ⟨calls₃, followUp_ok hremount⟩

theorem make_of_resolve (readOnly : Bool) (hr : Host.resolve source h = (.ok l, h))
    (hd : destination.isEmpty = false) :
    make source destination readOnly h = (do
      (prepare l.path destination).orFail (.destinationCreation destination)
      attach l.path destination readOnly : Action Unit) h := by
  obtain ⟨-, -, hl, -⟩ := Host.resolve_ok hr
  obtain ⟨-, hs⟩ := Host.locate_ok hl
  have hmake : make source destination readOnly = (do
      let resolved ← (Host.resolve source).orFail (.sourceResolution source)
      (prepare resolved.path destination).orFail (.destinationCreation destination)
      attach resolved.path destination readOnly : Action Unit) := by
    simp only [make, hs, hd, Bool.false_eq_true, if_false]
  rw [hmake, Effect.bind_of_ok (Effect.orFail_of_ok hr)]

end Bind

def Course.Serves (c : Course) (h : Host) (x : Call Unit) (others : Location → Option Node) : Prop :=
  ∀ h', h.Gains (fun _ => none) h' ∨ h.Gains others h' → ∃ r t', x h' = (r, { h' with tree := t' }) ∧
    h'.tree.Filled (c.gain h.modeOf h.tree) t' ∧ c.Says h.modeOf h.tree r

/-- The same result, but that what is in the way of the destination may be told as there already or
as no directory. -/
inductive Alike (destination : Path) : Except Error Unit → Except Error Unit → Prop
  | same (r : Except Error Unit) : Alike destination r r
  | obstacle {e e' : Errno} (he : e.IsObstacle) (he' : e'.IsObstacle) :
    Alike destination (.error (.destinationCreation destination (.os e)))
      (.error (.destinationCreation destination (.os e')))

theorem Alike.isOk_eq {destination : Path} {r k : Except Error Unit} (hr : Alike destination r k) :
    r.isOk = k.isOk := by
  cases hr <;> rfl

namespace Rootfs

section

variable {sharedDir : Path} {sandbox container : String} {rootfs : Path} {h : Host} {l : Location}
  {c : Course} {others : Location → Option Node}

def EndsBy (c : Course) (h : Host) (destination : Path) (r : Except Error Unit) : Prop :=
  ∃ cause, c.Says h.modeOf h.tree cause ∧ r = cause.mapError (.destinationCreation destination)

theorem EndsBy.alike {destination : Path} {r k : Except Error Unit} (hr : EndsBy c h destination r)
    (hk : EndsBy c h destination k) : Alike destination r k := by
  obtain ⟨cause, hcause, rfl⟩ := hr
  obtain ⟨cause', hcause', rfl⟩ := hk
  rcases hcause.alike hcause' with rfl | ⟨e, e', he, he', rfl, rfl⟩
  · exact .same _
  · exact .obstacle he he'

theorem EndsBy.unique {destination : Path} {r k : Except Error Unit} (hclear : c.IsClear h.tree)
    (hr : EndsBy c h destination r) (hk : EndsBy c h destination k) : r = k := by
  obtain ⟨cause, hcause, rfl⟩ := hr
  obtain ⟨cause', hcause', rfl⟩ := hk
  rw [hcause.unique hclear hcause']

theorem share_acts (readOnly : Bool) (hf : h.faults = []) (hs : IsOneName sandbox)
    (hc : IsOneName container) (hr : Host.resolve rootfs h = (.ok l, h))
    (hserves : c.Serves h (Bind.prepare l.path (target sharedDir sandbox container)) others) :
    h.Acts (share sharedDir sandbox container rootfs readOnly) (c.gain h.modeOf h.tree) others
      ⟨l.path, target sharedDir sandbox container, true, readOnly⟩
      (EndsBy c h (target sharedDir sandbox container)) := by
  intro h' hh'
  have hgrows : h.Grows h' := by
    rcases hh' with hg | hg <;> exact hg.grows
  have hf' : h'.faults = [] := by
    rcases hh' with hg | hg <;> exact hg.faults.trans hf
  have hempty : (target sharedDir sandbox container).isEmpty = false := by
    rw [Path.isEmpty, target_bytes sharedDir hc]
    simp
  obtain ⟨r, t', hp, htree, hsays⟩ := hserves h' hh'
  rw [share_of_ok sharedDir rootfs readOnly h' (requireNames_eq_ok.2 ⟨hs, hc⟩),
    Bind.make_of_resolve readOnly (Host.resolve_grows hr hgrows) hempty]
  cases r with
  | error e =>
    refine ⟨_, _, Effect.bind_of_error (Effect.orFail_of_error hp), ⟨htree, rfl, rfl, rfl, rfl⟩, rfl,
      _, hsays, rfl⟩
  | ok u =>
    obtain ⟨calls, ha⟩ := Bind.attach_of_calm (h := { h' with tree := t' }) l.path readOnly hf'
      (Bind.hasNul_eq_false_of_prepare hp)
    rw [Effect.bind_of_ok (Effect.orFail_of_ok hp), ha]
    exact ⟨_, _, rfl, ⟨htree, rfl, rfl, rfl, rfl⟩, rfl, _, hsays, rfl⟩

section

variable {d : Location} {us rest : List Name} {node : Node} (hsound : h.IsSound) (hcalm : h.IsCalm)
  (hs : IsOneName sandbox) (hc : IsOneName container) (hl : h.tree.get? l = some node)
include hsound hcalm hs hc hl

theorem exists_course (hstarts : h.Starts sharedDir.isAbsolute us d) (hd : h.tree.HasDirs d)
    (hsteps : sharedDir.steps = us ++ rest) :
    ∃ c : Course, c.IsFor d rest (Utf8.ofString sandbox) (Utf8.ofString container) ∧
      ∀ others, c.Ignores others → (∀ l target, others l ≠ some (.link target)) →
        c.Serves h (Bind.prepare l.path (target sharedDir sandbox container)) others := by
  -- what others make is not noticed, and neither is nothing
  have hserves : ∀ c : Course, (∀ h', h.Grows h' → h'.IsCalm → ∃ r t',
        Bind.prepare l.path (target sharedDir sandbox container) h' = (r, { h' with tree := t' }) ∧
        h'.tree.Filled (c.gain h'.modeOf h'.tree) t' ∧ c.Says h'.modeOf h'.tree r) →
      ∀ others, c.Ignores others → (∀ l target, others l ≠ some (.link target)) →
        c.Serves h (Bind.prepare l.path (target sharedDir sandbox container)) others := by
    intro c hrun others hi hlinks h' hh'
    obtain ⟨more, hg, hi', hlinks'⟩ : ∃ more, h.Gains more h' ∧ c.Ignores more ∧
        ∀ l target, more l ≠ some (.link target) := by
      rcases hh' with hg | hg
      · exact ⟨_, hg, c.ignores_none, fun _ _ hc => by cases hc⟩
      · exact ⟨_, hg, hi, hlinks⟩
    obtain ⟨r, t', hp, htree, hsays⟩ := hrun h' hg.grows (hg.isCalm hcalm hlinks')
    rw [hg.modeOf] at htree hsays
    rw [hi'.gain_eq hg.tree] at htree
    exact ⟨r, t', hp, htree, hi'.says hg.tree hsays⟩
  rcases prepare_placed sharedDir hs hc hsound.tree hstarts hd hsteps hl
    with ⟨e, he⟩ | ⟨isDir, tooLong, hrun⟩
  · refine ⟨.refused e, trivial, hserves (.refused e) fun h' hg hcalm' => ?_⟩
    exact ⟨_, h'.tree, he h' hg hcalm', fun _ => (Option.or_none).symm, rfl⟩
  · exact ⟨.placed _, ⟨rfl, rfl, rfl, rfl⟩, hserves (.placed _) hrun⟩

theorem refused_of_isLost (habs : sharedDir.isAbsolute = false) (hgone : h.cwdGone = true)
    (hlost : h.tree.IsLost h.cwd sharedDir.steps) :
    ∃ e, (Course.refused e).Serves h (Bind.prepare l.path (target sharedDir sandbox container))
      fun _ => none := by
  obtain ⟨e, he⟩ := prepare_of_isLost sharedDir hs hc hsound.tree habs hgone hlost hl
  refine ⟨e, fun h' hh' => ?_⟩
  have hg : h.Gains (fun _ => none) h' := by
    rcases hh' with hg | hg <;> exact hg
  refine ⟨_, h'.tree, he h' hg.grows (fun k node hk => ?_) (hg.isCalm hcalm fun _ _ hc => by cases hc),
    fun _ => (Option.or_none).symm, rfl⟩
  rw [← hk, hg.tree k, Option.or_none]

end

end

/-- Each of two preparations takes a course that the other does not divert. -/
theorem exists_courses (sharedDir : Path) {sandbox container sandbox' container' : String} {h : Host}
    {l l' : Location} {node node' : Node} (hsound : h.IsSound) (hcalm : h.IsCalm)
    (hs : IsOneName sandbox) (hc : IsOneName container) (hs' : IsOneName sandbox')
    (hc' : IsOneName container') (hne : (sandbox, container) ≠ (sandbox', container'))
    (hl : h.tree.get? l = some node) (hl' : h.tree.get? l' = some node') :
    ∃ c c' : Course,
      c.Serves h (Bind.prepare l.path (target sharedDir sandbox container))
        (c'.gain h.modeOf h.tree) ∧
      c'.Serves h (Bind.prepare l'.path (target sharedDir sandbox' container'))
        (c.gain h.modeOf h.tree) ∧
      (∀ k node node', c.gain h.modeOf h.tree k = some node →
        c'.gain h.modeOf h.tree k = some node' → node = node') ∧
      (h.leadsToDir sharedDir = true ∨ Name.up ∉ sharedDir.steps →
        c.IsClear h.tree ∧ c'.IsClear h.tree) := by
  rcases Host.starts_or_isLost hsound sharedDir.isAbsolute sharedDir.steps with
    ⟨us, rest, d, hsteps, hstarts, hd⟩ | ⟨habs, hgone, hlost⟩
  · obtain ⟨c, hfor, hserves⟩ := exists_course hsound hcalm hs hc hl hstarts hd hsteps
    obtain ⟨c', hfor', hserves'⟩ := exists_course hsound hcalm hs' hc' hl' hstarts hd hsteps
    have hapart : Utf8.ofString sandbox = Utf8.ofString sandbox' →
        Utf8.ofString container ≠ Utf8.ofString container' := fun heq heq' =>
      hne (Prod.ext (Utf8.ofString_injective heq) (Utf8.ofString_injective heq'))
    obtain ⟨hi, hi', hagree⟩ := hfor.apart h.modeOf h.tree hfor' hs.isEntry hc.isEntry
      hs'.isEntry hc'.isEntry hapart
    refine ⟨c, c', hserves _ hi (c'.gain_ne_link _ _), hserves' _ hi' (c.gain_ne_link _ _),
      hagree, fun hplain => ⟨?_, ?_⟩⟩
    · exact hfor.isClear hs.isEntry hc.isEntry hsound.tree hcalm.links hstarts hsteps hplain
    · exact hfor'.isClear hs'.isEntry hc'.isEntry hsound.tree hcalm.links hstarts hsteps hplain
  · obtain ⟨e, he⟩ := refused_of_isLost hsound hcalm hs hc hl habs hgone hlost
    obtain ⟨e', he'⟩ := refused_of_isLost hsound hcalm hs' hc' hl' habs hgone hlost
    exact ⟨.refused e, .refused e', he, he', (fun _ _ _ hg => by cases hg),
      fun _ => ⟨trivial, trivial⟩⟩

/-- Shares of different containers below one directory, of sources that are there, can be made in
either order, on a host without links and faults: the trees are the same afterwards, the mounts are
the same but for their order, and each of the two ends alike. Their errors are the very same if the
shared directory is there already, or if it is spelled without `..`. -/
theorem shares_commute {h : Host} (sharedDir : Path) {rootfs rootfs' : Path}
    {sandbox container sandbox' container' : String} (readOnly readOnly' : Bool) (hsound : h.IsSound)
    (hcalm : h.IsCalm) (hs : IsOneName sandbox) (hc : IsOneName container) (hs' : IsOneName sandbox')
    (hc' : IsOneName container') (hne : (sandbox, container) ≠ (sandbox', container'))
    (hr : ∃ l, Host.resolve rootfs h = (.ok l, h)) (hr' : ∃ l, Host.resolve rootfs' h = (.ok l, h)) :
    ∃ r r' h₁ k k' h₂,
      (share sharedDir sandbox container rootfs readOnly).inTurn
        (share sharedDir sandbox' container' rootfs' readOnly') h = (r, r', h₁) ∧
      (share sharedDir sandbox' container' rootfs' readOnly').inTurn
        (share sharedDir sandbox container rootfs readOnly) h = (k', k, h₂) ∧
      (∀ l, h₁.tree.get? l = h₂.tree.get? l) ∧ h₁.mounts.Perm h₂.mounts ∧
      Alike (target sharedDir sandbox container) r k ∧
      Alike (target sharedDir sandbox' container') r' k' ∧
      (h.leadsToDir sharedDir = true ∨ Name.up ∉ sharedDir.steps → r = k ∧ r' = k') := by
  obtain ⟨l, hl⟩ := hr
  obtain ⟨l', hl'⟩ := hr'
  obtain ⟨node, hnode⟩ := Host.exists_node_of_resolve hsound hl
  obtain ⟨node', hnode'⟩ := Host.exists_node_of_resolve hsound hl'
  obtain ⟨c, c', hserves, hserves', hagree, hclear⟩ :=
    exists_courses sharedDir hsound hcalm hs hc hs' hc' hne hnode hnode'
  have hacts := share_acts readOnly hcalm.faults hs hc hl hserves
  have hacts' := share_acts readOnly' hcalm.faults hs' hc' hl' hserves'
  obtain ⟨r, r', h₁, k, k', h₂, hturn, hturn', ⟨hr, hk⟩, ⟨hr', hk'⟩, htree, hmounts⟩ :=
    hacts.swap hacts' hagree (fun r k hr hk => (hr.alike hk).isOk_eq)
      fun r k hr hk => (hr.alike hk).isOk_eq
  refine ⟨r, r', h₁, k, k', h₂, hturn, hturn', htree, hmounts, hr.alike hk, hr'.alike hk', ?_⟩
  intro hplain
  exact ⟨hr.unique (hclear hplain).1 hk, hr'.unique (hclear hplain).2 hk'⟩

theorem shares_commute_bindable :
    ∃ h₁ h₂,
      (share ⟨[slash, 0x73]⟩ "s" "c" ⟨[slash, 0x72]⟩ false).inTurn
        (share ⟨[slash, 0x73]⟩ "s" "d" ⟨[slash, 0x72]⟩ true) Host.bindable = (.ok (), .ok (), h₁) ∧
      (share ⟨[slash, 0x73]⟩ "s" "d" ⟨[slash, 0x72]⟩ true).inTurn
        (share ⟨[slash, 0x73]⟩ "s" "c" ⟨[slash, 0x72]⟩ false) Host.bindable = (.ok (), .ok (), h₂) ∧
      (∀ l, h₁.tree.get? l = h₂.tree.get? l) ∧ h₁.mounts.Perm h₂.mounts := by
  have hsound : Host.bindable.IsSound := ⟨Tree.isSound_of_entries (by decide), fun _ => rfl⟩
  have hcalm : Host.bindable.IsCalm := ⟨rfl, Tree.hasNoLinks_of_entries (by simp [Host.bindable])⟩
  have hr : ∃ l, Host.resolve ⟨[slash, 0x72]⟩ Host.bindable = (.ok l, Host.bindable) := ⟨[[0x72]], rfl⟩
  have hid : IsOneName "s" ∧ IsOneName "c" ∧ IsOneName "d" :=
    ⟨isSingleName_iff.1 rfl, isSingleName_iff.1 rfl, isSingleName_iff.1 rfl⟩
  obtain ⟨r, r', h₁, k, k', h₂, hturn, hturn', htree, hmounts, -, -, hsame⟩ :=
    shares_commute ⟨[slash, 0x73]⟩ false true hsound hcalm hid.1 hid.2.1 hid.1 hid.2.2
      (by decide) hr hr
  obtain ⟨rfl, rfl⟩ := hsame (.inr (by decide))
  have hok : ((share ⟨[slash, 0x73]⟩ "s" "c" ⟨[slash, 0x72]⟩ false).inTurn
      (share ⟨[slash, 0x73]⟩ "s" "d" ⟨[slash, 0x72]⟩ true) Host.bindable).1 = .ok () := by
    decide +kernel
  have hok' : ((share ⟨[slash, 0x73]⟩ "s" "c" ⟨[slash, 0x72]⟩ false).inTurn
      (share ⟨[slash, 0x73]⟩ "s" "d" ⟨[slash, 0x72]⟩ true) Host.bindable).2.1 = .ok () := by
    decide +kernel
  rw [hturn] at hok hok'
  obtain rfl : r = .ok () := hok
  obtain rfl : r' = .ok () := hok'
  exact ⟨h₁, h₂, hturn, hturn', htree, hmounts⟩

def cluttered : Host :=
  { Host.initial with
    tree := ⟨[([[0x72]], .dir 0o755), ([[0x66]], .leaf .regular 0o644 [])]⟩ }

/-- Below `/a/../f` the first to be made makes `/a` and then finds `/f` there already; to the
second, which finds the way there as far as `/f`, that is no directory. -/
theorem shares_commute_reworded :
    cluttered.IsSound ∧ cluttered.IsCalm ∧ IsOneName "s" ∧ IsOneName "c" ∧ IsOneName "d" ∧
    Host.resolve ⟨[slash, 0x72]⟩ cluttered = (.ok [[0x72]], cluttered) ∧
    ((share ⟨[slash, 0x61, slash, dot, dot, slash, 0x66]⟩ "s" "c" ⟨[slash, 0x72]⟩ false).inTurn
      (share ⟨[slash, 0x61, slash, dot, dot, slash, 0x66]⟩ "s" "d" ⟨[slash, 0x72]⟩ false)
        cluttered).1 =
      .error (.destinationCreation (target ⟨[slash, 0x61, slash, dot, dot, slash, 0x66]⟩ "s" "c")
        (.os .alreadyExists)) ∧
    ((share ⟨[slash, 0x61, slash, dot, dot, slash, 0x66]⟩ "s" "d" ⟨[slash, 0x72]⟩ false).inTurn
      (share ⟨[slash, 0x61, slash, dot, dot, slash, 0x66]⟩ "s" "c" ⟨[slash, 0x72]⟩ false)
        cluttered).2.1 =
      .error (.destinationCreation (target ⟨[slash, 0x61, slash, dot, dot, slash, 0x66]⟩ "s" "c")
        (.os .notDirectory)) := by
  have hsound : cluttered.IsSound := ⟨Tree.isSound_of_entries (by decide), fun _ => rfl⟩
  have hcalm : cluttered.IsCalm := ⟨rfl, Tree.hasNoLinks_of_entries (by simp [cluttered])⟩
  refine ⟨hsound, hcalm, isSingleName_iff.1 rfl, isSingleName_iff.1 rfl, isSingleName_iff.1 rfl, rfl,
    ?_, ?_⟩
  all_goals decide +kernel

end Rootfs

end SandboxMounts
