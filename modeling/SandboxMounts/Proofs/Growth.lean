import SandboxMounts.Proofs.BindSequence
import SandboxMounts.Proofs.Looks
import SandboxMounts.Proofs.TreeGrowth

/-!
Hosts whose trees only gain nodes and whose faults are only used up, as by all that a bind does. What a
path names it names from then on, and a destination that has been prepared is named.
-/

set_option autoImplicit false

namespace SandboxMounts

def Path.EndsInName (p : Path) : Prop := ∃ ns n, p.steps = ns ++ [n] ∧ n ≠ Name.here ∧ n ≠ Name.up

/-- What is left of a fault: it stands for the same error, and applies nowhere that it did not before. -/
structure Fault.Leaves (f f' : Fault) : Prop where
  errno : f.errno = f'.errno
  applies : ∀ k p, f'.applies k p = true → f.applies k p = true

namespace Fault.Leaves

theorem refl (f : Fault) : f.Leaves f := ⟨rfl, fun _ _ ha => ha⟩

theorem trans {f f' f'' : Fault} (h₁ : f.Leaves f') (h₂ : f'.Leaves f'') : f.Leaves f'' :=
  ⟨h₁.errno.trans h₂.errno, fun k p ha => h₁.applies k p (h₂.applies k p ha)⟩

theorem used (f : Fault) : f.Leaves { f with left := f.left.map (· - 1) } := by
  obtain ⟨call, path, errno, left⟩ := f
  refine ⟨rfl, fun k p ha => ?_⟩
  cases left with
  | none => exact ha
  | some n =>
    cases n with
    | zero => simp [Fault.applies] at ha
    | succ n =>
      simp only [Fault.applies, Bool.and_eq_true] at ha ⊢
      exact ⟨ha.1, by simp⟩

end Fault.Leaves

theorem useFault?_eq_none {k : CallKind} {p : Path} {fs : List Fault}
    (hfs : ∀ f ∈ fs, f.applies k p = false) : useFault? k p fs = none := by
  induction fs with
  | nil => rfl
  | cons f fs ih =>
    rw [useFault?, hfs f List.mem_cons_self, ih fun g hg => hfs g (List.mem_cons_of_mem f hg)]
    rfl

theorem useFault?_some {k : CallKind} {p : Path} {fs fs' : List Fault} {e : Errno}
    (hu : useFault? k p fs = some (e, fs')) :
    (∃ f ∈ fs, f.errno = e ∧ f.applies k p = true) ∧ ∀ f' ∈ fs', ∃ f ∈ fs, f.Leaves f' := by
  induction fs generalizing fs' with
  | nil => cases hu
  | cons f fs ih =>
    rw [useFault?] at hu
    split at hu
    · rename_i ha
      cases hu
      refine ⟨⟨f, List.mem_cons_self, rfl, ha⟩, List.forall_mem_cons.2 ⟨?_, fun f' hf' => ?_⟩⟩
      · exact ⟨f, List.mem_cons_self, .used f⟩
      · exact ⟨f', List.mem_cons_of_mem f hf', .refl f'⟩
    · obtain ⟨⟨e', fs₁⟩, hrest, hpair⟩ := Option.map_eq_some_iff.1 hu
      cases hpair
      obtain ⟨⟨f₀, hf₀, he, ha⟩, hall⟩ := ih hrest
      refine ⟨⟨f₀, List.mem_cons_of_mem f hf₀, he, ha⟩,
        List.forall_mem_cons.2 ⟨⟨f, List.mem_cons_self, .refl f⟩, fun f' hf' => ?_⟩⟩
      obtain ⟨f₁, hf₁, hl⟩ := hall f' hf'
      exact ⟨f₁, List.mem_cons_of_mem f hf₁, hl⟩

namespace Host

/-- From `h` to `h'` the tree has only grown, and faults have only been used up. -/
structure Grows (h h' : Host) : Prop where
  tree : h.tree.Extends h'.tree
  cwd : h'.cwd = h.cwd
  cwdGone : h'.cwdGone = h.cwdGone
  faults : ∀ f' ∈ h'.faults, ∃ f ∈ h.faults, f.Leaves f'

instance : IsPreorder Host Grows where
  refl h := ⟨refl_of _ h.tree, rfl, rfl, fun f hf => ⟨f, hf, .refl f⟩⟩
  trans _ _ _ h₁ h₂ := by
    refine ⟨trans_of _ h₁.tree h₂.tree, h₂.cwd.trans h₁.cwd, h₂.cwdGone.trans h₁.cwdGone, ?_⟩
    intro f'' hf''
    obtain ⟨f', hf', hl'⟩ := h₂.faults f'' hf''
    obtain ⟨f, hf, hl⟩ := h₁.faults f' hf'
    exact ⟨f, hf, hl.trans hl'⟩

def IsSpared (h : Host) (k : CallKind) (p : Path) : Prop := ∀ f ∈ h.faults, f.applies k p = false

/-- No `mkdir` at `p` fails by a fault that has something there already. -/
def IsTruthful (h : Host) (p : Path) : Prop :=
  ∀ f ∈ h.faults, f.applies .mkdir p = true → f.errno ≠ .alreadyExists

/-- A link counts as a node where it stands at the end, wherever it leads. -/
def Names (h : Host) (p : Path) : Prop :=
  ∃ l node, h.locate .kept p = .ok (.node l) ∧ h.tree.get? l = some node

/-- At `p` there is a link, and nothing where it leads. -/
def HasDeadLink (h : Host) (p : Path) : Prop :=
  (∃ st target, h.statOf .kept p = .ok st ∧ st.node = .link target) ∧
    ∀ st, h.statOf .followed p ≠ .ok st

section

variable {h h' : Host} {k : CallKind} {p : Path} {how : LastName}

theorem Grows.isTruthful (hg : h.Grows h') (ht : h.IsTruthful p) : h'.IsTruthful p := by
  intro f' hf' ha'
  obtain ⟨f, hf, hl⟩ := hg.faults f' hf'
  rw [← hl.errno]
  exact ht f hf (hl.applies .mkdir p ha')

theorem locate_ne_alreadyExists : h.locate how p ≠ .error .alreadyExists := by
  unfold Host.locate
  split
  · simp
  split
  · simp
  split
  · exact Tree.locate_ne_alreadyExists
  split
  · exact Tree.locateAdrift_ne_alreadyExists
  · exact Tree.locate_ne_alreadyExists

/-- In every larger tree the lookup of a path goes on from the same directory. -/
theorem Grows.locate_entry {q : Place} (hg : h.Grows h') (hp : p.EndsInName)
    (hl : h.locate how p = .ok q) :
    ∃ dir ms n, n ≠ Name.here ∧ n ≠ Name.up ∧
      h.tree.locate how maxLinks dir (ms ++ [n]) p.endsInSlash = .ok q ∧
      ∀ how', h'.locate how' p = h'.tree.locate how' maxLinks dir (ms ++ [n]) p.endsInSlash := by
  obtain ⟨ns, n, hs, hh, hu⟩ := hp
  by_cases hlong : maxPath ≤ p.bytes.length
  · simp only [locate, hlong, if_true] at hl
    cases hl
  by_cases hempty : p.isEmpty = true
  · simp only [locate, hlong, hempty, if_true, if_false] at hl
    cases hl
  simp only [locate, hlong, hempty, if_false, hs, hg.cwd, hg.cwdGone] at hl ⊢
  by_cases habs : p.isAbsolute = true
  · simp only [habs, if_true] at hl ⊢
    exact ⟨[], ns, n, hh, hu, hl, fun how' => rfl⟩
  · simp only [habs] at hl ⊢
    cases hgone : h.cwdGone with
    | false =>
      simp only [hgone, Bool.false_eq_true, if_false] at hl ⊢
      exact ⟨h.cwd, ns, n, hh, hu, hl, fun how' => rfl⟩
    | true =>
      simp only [hgone, if_true] at hl ⊢
      obtain ⟨hl', hback⟩ := hg.tree.locateAdrift hl hh hu
      exact ⟨h.cwd, ns, n, hh, hu, hl', hback⟩

theorem Grows.locate_of {how' : LastName} {q q' : Place} (hg : h.Grows h')
    (hq : ∀ l, q ≠ .adrift l) (hq' : ∀ l, q' ≠ .adrift l)
    (hback : ∀ dir names, h.tree.locate how maxLinks dir names p.endsInSlash = .ok q →
      h'.tree.locate how' maxLinks dir names p.endsInSlash = .ok q')
    (hl : h.locate how p = .ok q) : h'.locate how' p = .ok q' := by
  unfold locate at hl ⊢
  split at hl
  · cases hl
  rw [if_neg ‹_›]
  split at hl
  · cases hl
  rw [if_neg ‹_›, hg.cwd, hg.cwdGone]
  split at hl
  · rw [if_pos ‹_›]
    exact hback _ _ hl
  rw [if_neg ‹_›]
  split at hl
  · rw [if_pos ‹_›]
    exact hg.tree.locateAdrift_of hq hq' hback hl
  · rw [if_neg ‹_›]
    exact hback _ _ hl

theorem Grows.locate_node {l : Location} (hg : h.Grows h') (hl : h.locate how p = .ok (.node l)) :
    h'.locate how p = .ok (.node l) :=
  hg.locate_of (by simp) (by simp) (fun _ _ => hg.tree.locate_node) hl

theorem Grows.locate_followed {q : Place} {l : Location} {node : Node} (hg : h.Grows h')
    (hn : h'.tree.get? l = some node) (hf : how.IsFor node) (hl : h.locate how p = .ok q)
    (hq : q.location? = some l) : h'.locate .followed p = .ok (.node l) := by
  have hne : ∀ k, q ≠ .adrift k := fun k hc => by
    subst hc
    cases hq
  exact hg.locate_of hne (by simp) (fun _ _ hl' => hg.tree.locate_followed hn hf hl' hq) hl

theorem Grows.names (hg : h.Grows h') (hp : p.EndsInName) (hn : h.Names p) : h'.Names p := by
  obtain ⟨l, node, hl, hg'⟩ := hn
  obtain ⟨dir, ms, n, -, -, hl, hback⟩ := hg.locate_entry hp hl
  exact ⟨l, node, (hback .kept).trans (hg.tree.locate_node hl), hg.tree l node hg'⟩

theorem Grows.names_of_locate {q : Place} (hg : h.Grows h') (hp : p.EndsInName)
    (hl : h.locate how p = .ok q)
    (hq : ∀ dir m, q = .vacant dir m → ∃ node, h'.tree.get? (m :: dir) = some node) :
    h'.Names p := by
  obtain ⟨dir, ms, n, hh, hu, hl, hback⟩ := hg.locate_entry hp hl
  -- the place found need not be the name itself: a link that is followed stands there already
  obtain ⟨k, l, hk, hr, hn, hfree⟩ := Tree.locate_entry hh hu hl
  have hnode : ∃ node, h'.tree.get? (n :: l) = some node := by
    rcases hfree with hfree | ⟨node, hnode⟩
    · exact hq l n hfree
    · exact ⟨node, hg.tree _ node hnode⟩
  obtain ⟨node, hnode⟩ := hnode
  refine ⟨n :: l, node, ?_, hnode⟩
  rw [hback .kept]
  exact (hg.tree.reaches hr).locate_kept hk hn hnode

theorem statOf_node {l : Location} {node : Node} (hl : h.locate how p = .ok (.node l))
    (hg : h.tree.get? l = some node) :
    h.statOf how p = .ok ⟨node, h.deviceAt l, h.specialAt l⟩ := by
  unfold statOf
  rw [hl]
  simp only [bind, Except.bind, hg]

theorem Names.statOf_followed (hn : h.Names p) (hp : p.EndsInName) (hslash : p.endsInSlash = false)
    (hd : ¬ h.HasDeadLink p) :
    ∃ st, h.statOf .followed p = .ok st := by
  obtain ⟨l, node, hl, hg⟩ := hn
  by_cases hlink : ∃ target, node = .link target
  · obtain ⟨target, rfl⟩ := hlink
    by_contra hno
    exact hd ⟨⟨_, target, statOf_node hl hg, rfl⟩, fun st hst => hno ⟨st, hst⟩⟩
  · obtain ⟨dir, ms, n, -, -, hl', hback⟩ := (refl_of Grows h).locate_entry hp hl
    rw [hslash] at hl' hback
    refine ⟨_, statOf_node ((hback .followed).trans ?_) hg⟩
    refine Tree.locate_followed_of_kept hl' fun k target hk hlk => ?_
    cases hk
    rw [hg] at hlk
    exact hlink ⟨target, Option.some.inj hlk⟩

theorem vacant_of_locate {dir : Location} {m : Name} (hl : h.locate how p = .ok (.vacant dir m)) :
    h.tree.get? (m :: dir) = none := by
  unfold Host.locate at hl
  split at hl
  · cases hl
  split at hl
  · cases hl
  split at hl
  · exact Tree.vacant_of_locate hl
  split at hl
  · exact Tree.vacant_of_locateAdrift hl
  · exact Tree.vacant_of_locate hl

theorem grows_add {dir : Location} {m : Name} (node : Node)
    (hl : h.locate how p = .ok (.vacant dir m)) : h.Grows (h.add (m :: dir) node) where
  tree := Tree.extends_insert node (vacant_of_locate hl)
  cwd := rfl
  cwdGone := rfl
  faults := fun f hf => ⟨f, hf, .refl f⟩

theorem keeps_meetFault (k : CallKind) (p : Path) : Effect.Keeps Grows (meetFault k p) := by
  intro h
  unfold meetFault
  split
  · rename_i e faults hu
    exact ⟨refl_of Tree.Extends h.tree, rfl, rfl, (useFault?_some hu).2⟩
  · exact refl_of Grows h

theorem keeps_mkdirs (ps : List Path) : Effect.Keeps Grows (mkdirs ps) :=
  .mkdirs fun _ _ => .mkdir keeps_meetFault (grows_add _)

theorem IsTruthful.of_mkdirs {ps : List Path} {r : Except IoError Unit} (ht : h.IsTruthful p)
    (hm : mkdirs ps h = (r, h')) : h'.IsTruthful p := by
  have hg := keeps_mkdirs ps h
  rw [hm] at hg
  exact hg.isTruthful ht

theorem keeps_prepare (source destination : Path) :
    Effect.Keeps Grows (Bind.prepare source destination) :=
  .prepare keeps_meetFault grows_add source destination

theorem keeps_attach (source destination : Path) (readOnly : Bool) :
    Effect.Keeps Grows (Bind.attach source destination readOnly) := by
  refine .attach (fun request => ?_) source readOnly
  refine .issue keeps_meetFault (fun h _ => ?_) (fun h _ => ?_) request destination
  all_goals exact ⟨refl_of Tree.Extends h.tree, rfl, rfl, (refl_of Grows h).faults⟩

theorem keeps_make (source destination : Path) (readOnly : Bool) :
    Effect.Keeps Grows (Bind.make source destination readOnly) :=
  .make (fun l => keeps_prepare l.path destination) fun l => keeps_attach l.path destination readOnly

theorem change_ok {f : Host → Except Errno Host} {u : Unit} (hc : change f h = (.ok u, h')) :
    f h = .ok h' := by
  rcases change_cases f h with ⟨h₁, hf, hc'⟩ | ⟨e, -, hc'⟩
  · rw [hc'] at hc
    cases hc
    exact hf
  · rw [hc'] at hc
    cases hc

theorem meetFault_error {e : IoError} (hm : meetFault k p h = (.error e, h')) :
    ∃ f ∈ h.faults, e = .os f.errno ∧ f.applies k p = true := by
  unfold meetFault at hm
  split at hm <;> cases hm
  rename_i hu
  obtain ⟨⟨f, hf, rfl, ha⟩, -⟩ := useFault?_some hu
  exact ⟨f, hf, rfl, ha⟩

theorem mkdir_ok {u : Unit} (hm : mkdir p h = (.ok u, h')) :
    ∃ dir m, h.locate .kept p = .ok (.vacant dir m) ∧ h' = h.add (m :: dir) (.dir h.modeOf) := by
  obtain ⟨_, h₁, hn, hrest⟩ := Effect.bind_eq_ok.1 hm
  obtain ⟨_, h₂, hf, hc⟩ := Effect.bind_eq_ok.1 hrest
  obtain ⟨-, rfl⟩ := refuseNul_ok hn
  obtain rfl := meetFault_ok hf
  exact mkdirIn_ok (change_ok hc)

theorem create_ok {u : Unit} (hm : create p h = (.ok u, h')) :
    (∃ l kind mode content, h.locate .created p = .ok (.node l) ∧
        h.tree.get? l = some (.leaf kind mode content) ∧ h' = h) ∨
      ∃ dir m, h.locate .created p = .ok (.vacant dir m) ∧
        h' = h.add (m :: dir) (.leaf .regular h.modeOf []) := by
  obtain ⟨_, h₁, hn, hrest⟩ := Effect.bind_eq_ok.1 hm
  obtain ⟨_, h₂, hf, hc⟩ := Effect.bind_eq_ok.1 hrest
  obtain ⟨-, rfl⟩ := refuseNul_ok hn
  obtain rfl := meetFault_ok hf
  exact createIn_ok (change_ok hc)

theorem mkdirIn_exists (hm : mkdirIn p h = .error .alreadyExists) :
    ∃ q, h.locate .kept p = .ok q ∧ ∀ dir m, q ≠ .vacant dir m := by
  cases hl : h.locate .kept p with
  | error e =>
    simp only [mkdirIn, hl] at hm
    cases hm
    exact absurd hl locate_ne_alreadyExists
  | ok q =>
    refine ⟨q, rfl, fun dir m hq => ?_⟩
    subst hq
    simp only [mkdirIn, hl] at hm
    cases hm

theorem mkdir_exists (ht : h.IsTruthful p) (hm : mkdir p h = (.error (.os .alreadyExists), h')) :
    h' = h ∧ ∃ q, h.locate .kept p = .ok q ∧ ∀ dir m, q ≠ .vacant dir m := by
  rcases Effect.bind_eq_error.1 hm with hn | ⟨_, h₁, hn, hrest⟩
  · rw [refuseNul_apply] at hn
    split at hn <;> cases hn
  obtain ⟨-, rfl⟩ := refuseNul_ok hn
  rcases Effect.bind_eq_error.1 hrest with hf | ⟨_, h₂, hf, hc⟩
  · obtain ⟨f, hmem, he, ha⟩ := meetFault_error hf
    exact absurd (IoError.os.inj he).symm (ht f hmem ha)
  obtain rfl := meetFault_ok hf
  rcases change_cases (mkdirIn p) h₂ with ⟨h₃, -, hc'⟩ | ⟨e, hin, hc'⟩ <;> rw [hc'] at hc <;> cases hc
  exact ⟨rfl, mkdirIn_exists hin⟩

section

variable (hp : p.EndsInName)
include hp

theorem names_add {dir : Location} {m : Name} (node : Node)
    (hl : h.locate how p = .ok (.vacant dir m)) : (h.add (m :: dir) node).Names p := by
  refine (grows_add node hl).names_of_locate hp hl fun dir' m' hq => ?_
  cases hq
  exact ⟨node, Tree.get?_insert_self _ _ _ _⟩

theorem names_of_mkdir {r : Except IoError Unit} (ht : h.IsTruthful p) (hm : mkdir p h = (r, h'))
    (hr : r = .ok () ∨ r = .error (.os .alreadyExists)) : h'.Names p := by
  rcases hr with rfl | rfl
  · obtain ⟨dir, m, hl, rfl⟩ := mkdir_ok hm
    exact names_add hp _ hl
  · obtain ⟨rfl, q, hl, hq⟩ := mkdir_exists ht hm
    exact (refl_of Grows h').names_of_locate hp hl fun dir m hc => absurd hc (hq dir m)

theorem names_of_create {u : Unit} (hc : create p h = (.ok u, h')) : h'.Names p := by
  rcases create_ok hc with ⟨l, _, _, _, hl, -, rfl⟩ | ⟨dir, m, hl, rfl⟩
  · exact (refl_of Grows h').names_of_locate hp hl fun dir m hc => (by cases hc)
  · exact names_add hp _ hl

/-- A destination that has been prepared is there. -/
theorem names_of_prepare {source : Path} (ht : h.IsTruthful p)
    (hprep : Bind.prepare source p h = (.ok (), h')) : h'.Names p := by
  obtain ⟨node, h₁, h₂, hmeta, hdirs, hlast⟩ := Bind.prepare_ok hprep
  obtain ⟨-, rfl⟩ := metadata_ok hmeta
  -- the parents are made on the way; what is at `p` itself is up to the last call alone
  rcases hlast with ⟨-, r, hm, hr⟩ | ⟨-, hc⟩
  · exact names_of_mkdir hp (ht.of_mkdirs hdirs) hm hr
  · exact names_of_create hp hc

end

end

end Host

end SandboxMounts
