import SandboxMounts.Proofs.Cleaning
import SandboxMounts.Proofs.Growth
import SandboxMounts.Proofs.Operations

/-!
The shape of a destination. Before a bind is made its destination is there, a directory if the source is
one and a file if not, unless `mkdir` has found something in its place and nobody looked what it is.
-/

set_option autoImplicit false

namespace SandboxMounts

def Operation.source? : Operation → Option Path
  | .bind source _ _ => some source
  | .bindContainer m => some (.ofString m.source)
  | .share _ _ _ rootfs _ => some rootfs
  | .detach _ | .unshare _ _ _ | .tearDown _ _ _ => none

theorem Operation.run_outset {o : Operation} {source destination : Path} {readOnly : Bool}
    (hs : o.source? = some source) (ha : o.asked? = some (destination, readOnly)) (h : Host) :
    Bind.Outset source destination readOnly h (o.run h) := by
  cases o with
  | bind _ _ _ =>
    cases hs
    cases ha
    exact Bind.make_outset source destination readOnly h
  | bindContainer m =>
    cases hs
    cases ha
    exact Bind.make_outset (.ofString m.source) (.ofString m.destination) m.readOnly h
  | share sharedDir sandbox container _ _ =>
    cases hs
    cases ha
    simp only [Operation.run]
    cases hr : Rootfs.requireNames sandbox container with
    | error e =>
      rw [Rootfs.share_of_error sharedDir source readOnly h hr]
      obtain ⟨argument, rfl⟩ : ∃ argument, e = .emptyArgument argument := by
        unfold Rootfs.requireNames at hr
        split at hr
        · cases hr
          exact ⟨_, rfl⟩
        · split at hr <;> cases hr
          exact ⟨_, rfl⟩
      exact .refused argument
    | ok u =>
      rw [Rootfs.share_of_ok sharedDir source readOnly h hr]
      exact Bind.make_outset source (Rootfs.target sharedDir sandbox container) readOnly h
  | detach p => cases hs
  | unshare sharedDir sandbox container => cases hs
  | tearDown sharedDir sandbox containers => cases hs

namespace Host

/-- Both paths lead somewhere, and either both to directories or neither. -/
def Mirrors (h : Host) (p q : Path) : Prop :=
  ∃ st st', h.statOf .followed p = .ok st ∧ h.statOf .followed q = .ok st' ∧
    st.node.isDir = st'.node.isDir

/-- There is something at `p`, and it leads to no directory. -/
def IsBlocked (h : Host) (p : Path) : Prop :=
  (∃ place, h.locate .kept p = .ok place ∧ ∀ dir n, place ≠ .vacant dir n) ∧ h.leadsToDir p = false

section

variable {h h' : Host} {p : Path} {how : LastName} {st : Stat}

theorem leadsToDir_iff :
    h.leadsToDir p = true ↔ ∃ st, h.statOf .followed p = .ok st ∧ st.node.isDir = true := by
  unfold leadsToDir
  cases h.statOf .followed p <;> simp

theorem leadsToDir_of_statOf (hs : h.statOf .followed p = .ok st) : h.leadsToDir p = st.node.isDir := by
  rw [leadsToDir, hs]

theorem Grows.statOf_absolute (hg : h.Grows h') (hp : p.isAbsolute = true)
    (hs : h.statOf how p = .ok st) : ∃ st', h'.statOf how p = .ok st' ∧ st'.node = st.node := by
  obtain ⟨place, hl, hs⟩ := except_bind_eq_ok.1 hs
  obtain ⟨hlen, hempty⟩ := locate_ok hl
  have hlocate : ∀ h : Host, h.locate how p = h.tree.locate how maxLinks (p.start h.cwd) p.steps
      p.endsInSlash := fun h => locate_eq hlen hempty (by simp [hp])
  have hback : (∃ dir n, place = .vacant dir n) ∨ h'.locate how p = .ok place := by
    rw [hlocate h, Path.start, if_pos hp] at hl
    rw [hlocate h', Path.start, if_pos hp]
    rcases hg.tree.locate hl with ⟨dir, n, hv, -⟩ | ⟨-, hl'⟩
    · exact .inl ⟨dir, n, hv⟩
    · exact .inr hl'
  cases place with
  | vacant dir n => cases hs
  | adrift l =>
    rcases hback with ⟨_, _, hv⟩ | hl'
    · cases hv
    cases hs
    refine ⟨⟨.dir 0o755, h'.deviceAt l, 0⟩, ?_, rfl⟩
    rw [statOf, hl']
    rfl
  | node l =>
    rcases hback with ⟨_, _, hv⟩ | hl'
    · cases hv
    simp only at hs
    split at hs <;> cases hs
    exact ⟨_, statOf_node hl' (hg.tree _ _ ‹_›), rfl⟩

theorem statOf_add {dir : Location} {m : Name} {node : Node} (hf : how.IsFor node)
    (hl : h.locate how p = .ok (.vacant dir m)) :
    ∃ st, (h.add (m :: dir) node).statOf .followed p = .ok st ∧ st.node = node := by
  have hg : (h.add (m :: dir) node).tree.get? (m :: dir) = some node := Tree.get?_insert_self _ _ _ _
  exact ⟨_, statOf_node ((grows_add node hl).locate_followed hg hf hl rfl) hg, rfl⟩

theorem leadsToDir_of_mkdir {r : Except IoError Unit} (ht : h.IsTruthful p) (hm : mkdir p h = (r, h'))
    (hr : r = .ok () ∨ r = .error (.os .alreadyExists)) (hb : ¬ h'.IsBlocked p) :
    h'.leadsToDir p = true := by
  rcases hr with rfl | rfl
  · obtain ⟨dir, m, hl, rfl⟩ := mkdir_ok hm
    have hfor : LastName.kept.IsFor (.dir h.modeOf) := .inl rfl
    obtain ⟨st, hs, hnode⟩ := statOf_add hfor hl
    exact leadsToDir_iff.2 ⟨st, hs, by rw [hnode]; rfl⟩
  · obtain ⟨rfl, place, hl, hv⟩ := mkdir_exists ht hm
    by_contra hno
    exact hb ⟨⟨place, hl, hv⟩, Bool.eq_false_iff.2 hno⟩

theorem statOf_of_create {u : Unit} (hc : create p h = (.ok u, h')) :
    ∃ st, h'.statOf .followed p = .ok st ∧ st.node.isDir = false := by
  rcases create_ok hc with ⟨l, kind, mode, content, hl, hg, rfl⟩ | ⟨dir, m, hl, rfl⟩
  · have hfor : LastName.created.IsFor (.leaf kind mode content) := .inr ⟨rfl, _, _, _, rfl⟩
    exact ⟨_, statOf_node ((refl_of Grows h').locate_followed hg hfor hl rfl) hg, rfl⟩
  · obtain ⟨st, hs, hnode⟩ := statOf_add (.inr ⟨rfl, _, _, _, rfl⟩) hl
    exact ⟨st, hs, by rw [hnode]; rfl⟩

/-- A destination that has been prepared is of the shape of its source. -/
theorem mirrors_of_prepare {source : Path} (hp : source.isAbsolute = true)
    (hprep : Bind.prepare source p h = (.ok (), h'))
    (hdir : h.leadsToDir source = true → h.IsTruthful p ∧ ¬ h'.IsBlocked p) :
    h'.Mirrors source p := by
  have hg : h.Grows h' := by
    have hkeeps := keeps_prepare source p h
    rwa [hprep] at hkeeps
  obtain ⟨node, h₁, h₂, hmeta, hdirs, hlast⟩ := Bind.prepare_ok hprep
  obtain ⟨⟨st, hs, rfl⟩, rfl⟩ := metadata_ok hmeta
  obtain ⟨st', hs', hnode⟩ := hg.statOf_absolute hp hs
  rcases hlast with ⟨hd, r, hm, hr⟩ | ⟨hd, hc⟩
  · rw [leadsToDir_of_statOf hs] at hdir
    obtain ⟨htruth, hfree⟩ := hdir hd
    obtain ⟨stp, hsp, hdp⟩ := leadsToDir_iff.1 (leadsToDir_of_mkdir (htruth.of_mkdirs hdirs) hm hr hfree)
    exact ⟨st', stp, hs', hsp, by rw [hnode, hd, hdp]⟩
  · obtain ⟨stp, hsp, hdp⟩ := statOf_of_create hc
    exact ⟨st', stp, hs', hsp, by rw [hnode, hd, hdp]⟩

theorem SameFiles.keeps_attach (source destination : Path) (readOnly : Bool) :
    Effect.Keeps SameFiles (Bind.attach source destination readOnly) := by
  refine .attach (fun request => ?_) source readOnly
  refine .issue (.meetFault fun h faults => ⟨faults, h.mounts, h.calls, rfl⟩) ?_ ?_ request destination
  · exact fun h mounts => ⟨h.faults, mounts, h.calls, rfl⟩
  · exact fun h c => ⟨h.faults, h.mounts, h.calls ++ [c], rfl⟩

theorem SameFiles.isBlocked (hs : h.SameFiles h') (hb : h.IsBlocked p) : h'.IsBlocked p := by
  obtain ⟨⟨place, hl, hv⟩, hd⟩ := hb
  exact ⟨⟨place, (hs.locate .kept p).trans hl, hv⟩, (hs.leadsToDir p).trans hd⟩

end

end Host

/-- A bind stops before any mount call, for its arguments, its source or a destination that cannot be
prepared, or it comes to its calls with a destination of the shape of its source. Nothing more is needed
for a source that is a file. For a directory no `mkdir` may claim without reason that there is something
at the destination, and what is there in truth must lead to a directory. -/
theorem Operation.run_mirrors {o : Operation} {source destination : Path} {readOnly : Bool} {h : Host}
    (hs : o.source? = some source) (ha : o.asked? = some (destination, readOnly))
    (hdir : ∀ l, Host.resolve source h = (.ok l, h) → h.leadsToDir l.path = true →
      h.IsTruthful destination ∧ ¬ (o.run h).2.IsBlocked destination) :
    (∃ argument, o.run h = (.error (.emptyArgument argument), h)) ∨
    (∃ cause, o.run h = (.error (.sourceResolution source cause), h)) ∨
    (∃ cause h₁, o.run h = (.error (.destinationCreation destination cause), h₁) ∧ SameMounts h h₁) ∨
    ∃ l h₁, Host.resolve source h = (.ok l, h) ∧ SameMounts h h₁ ∧ h₁.Mirrors l.path destination ∧
      o.run h = Bind.attach l.path destination readOnly h₁ := by
  have hout := Operation.run_outset hs ha h
  generalize o.run h = run at hout hdir ⊢
  cases hout with
  | refused argument => exact .inl ⟨argument, rfl⟩
  | unresolved hl => exact .inr (.inl ⟨_, rfl⟩)
  | @unprepared l cause h₁ hl hp =>
    have hsame := SameMounts.keeps_prepare l.path destination h
    rw [hp] at hsame
    exact .inr (.inr (.inl ⟨cause, h₁, rfl, hsame⟩))
  | @prepared l h₁ hl hp =>
    have hsame := SameMounts.keeps_prepare l.path destination h
    rw [hp] at hsame
    -- the calls change nothing of what lies at the destination
    have hfiles := Host.SameFiles.keeps_attach l.path destination readOnly h₁
    refine .inr (.inr (.inr ⟨l, h₁, hl, hsame, ?_, rfl⟩))
    refine Host.mirrors_of_prepare l.path_isAbsolute hp fun hd => ?_
    obtain ⟨htruth, hfree⟩ := hdir l hl hd
    exact ⟨htruth, fun hb => hfree (hfiles.isBlocked hb)⟩

section

variable {h : Host} {p q : Path}

theorem Host.Mirrors.leadsToDir (hm : h.Mirrors p q) : h.leadsToDir p = h.leadsToDir q := by
  obtain ⟨st, st', hp, hq, hd⟩ := hm
  rw [leadsToDir_of_statOf hp, leadsToDir_of_statOf hq, hd]

end

def Host.bindable : Host := { Host.initial with tree := ⟨[([[0x72]], .dir 0o755)]⟩ }

theorem Operation.run_mirrors_linked :
    let h := (Host.bindable.place [[0x61]] (.link ⟨[slash, 0x62]⟩) none none).place [[0x64], [0x62]]
      (.link ⟨[slash, 0x72]⟩) none none
    ∃ l h₁, Host.resolve ⟨[slash, 0x72]⟩ h = (.ok l, h) ∧
      h₁.Mirrors l.path ⟨[slash, 0x61, slash, 0x64]⟩ ∧
      (Operation.bind ⟨[slash, 0x72]⟩ ⟨[slash, 0x61, slash, 0x64]⟩ true).run h =
        Bind.attach l.path ⟨[slash, 0x61, slash, 0x64]⟩ true h₁ := by
  intro h
  let o : Operation := .bind ⟨[slash, 0x72]⟩ ⟨[slash, 0x61, slash, 0x64]⟩ true
  have hok : (o.run h).1.isOk = true := by decide +kernel
  have hfree : ¬ (o.run h).2.IsBlocked ⟨[slash, 0x61, slash, 0x64]⟩ := fun hb => by
    have hd : (o.run h).2.leadsToDir ⟨[slash, 0x61, slash, 0x64]⟩ = true := by decide +kernel
    rw [hb.2] at hd
    cases hd
  have htruth : h.IsTruthful ⟨[slash, 0x61, slash, 0x64]⟩ := fun f hf => by cases hf
  rcases Operation.run_mirrors (o := o) rfl rfl fun _ _ _ => ⟨htruth, hfree⟩ with
    ⟨_, he⟩ | ⟨_, he⟩ | ⟨_, _, he, -⟩ | ⟨l, h₁, hl, -, hm, ha⟩
  · rw [he] at hok
    cases hok
  · rw [he] at hok
    cases hok
  · rw [he] at hok
    cases hok
  · exact ⟨l, h₁, hl, hm, ha⟩

def Host.blockedBy (n : Node) : Host := Host.bindable.place [[0x64]] n none none

def Operation.bindRoot : Operation := .bind ⟨[slash, 0x72]⟩ ⟨[slash, 0x64]⟩ false

def Host.BindsMisshapen (h : Host) : Prop :=
  (Operation.bindRoot.run h).1.isOk = true ∧
    ∃ l h₁, Host.resolve ⟨[slash, 0x72]⟩ h = (.ok l, h) ∧
      Operation.bindRoot.run h = Bind.attach l.path ⟨[slash, 0x64]⟩ false h₁ ∧
      ¬ h₁.Mirrors l.path ⟨[slash, 0x64]⟩

theorem Host.bindsMisshapen_of_after {h : Host} (hok : (Operation.bindRoot.run h).1.isOk = true)
    (hroot : (Host.resolve ⟨[slash, 0x72]⟩ h).1.toOption = some [[0x72]])
    (hsource : (Operation.bindRoot.run h).2.leadsToDir (Location.path [[0x72]]) = true)
    (hdestination : (Operation.bindRoot.run h).2.leadsToDir ⟨[slash, 0x64]⟩ = false) :
    h.BindsMisshapen := by
  refine ⟨hok, ?_⟩
  have hout := Operation.run_outset (o := .bindRoot) rfl rfl h
  generalize Operation.bindRoot.run h = run at hok hsource hdestination hout ⊢
  cases hout with
  | refused argument => cases hok
  | unresolved hl => cases hok
  | unprepared hl hp => cases hok
  | @prepared l h₁ hl hp =>
    have hfiles := Host.SameFiles.keeps_attach l.path ⟨[slash, 0x64]⟩ false h₁
    rw [hl] at hroot
    obtain rfl : l = [[0x72]] := Option.some.inj hroot
    refine ⟨_, h₁, hl, rfl, fun hm => ?_⟩
    have hd := hm.leadsToDir
    rw [← hfiles.leadsToDir, ← hfiles.leadsToDir, hsource, hdestination] at hd
    cases hd

/-- It is so where there is a file, and where a link leads nowhere. -/
theorem Operation.run_mirrors_blocked :
    (Host.blockedBy (.leaf .regular 0o644 [])).BindsMisshapen ∧
      (Host.blockedBy (.link ⟨[slash, 0x67]⟩)).BindsMisshapen := by
  constructor
  all_goals apply Host.bindsMisshapen_of_after
  all_goals decide +kernel

end SandboxMounts
