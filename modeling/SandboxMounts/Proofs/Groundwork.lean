import SandboxMounts.Proofs.Ascent

/-!
Preparing the place of a share. On a host without links and faults it comes down to what is missing on
the way and at the spot, as far as the way is open.
-/

set_option autoImplicit false

namespace SandboxMounts

namespace Bind

def finish (isDir : Bool) (destination : Path) : Call Unit := do
  if isDir then
    match ← (Host.mkdir destination).outcome with
    | .ok () | .error (.os .alreadyExists) => return ()
    | .error e => throw e
  else Host.create destination

theorem prepare_of_metadata {source destination : Path} {h h' : Host} {node : Node}
    (hm : Host.metadata source h = (.ok node, h')) :
    prepare source destination h =
      (do Host.mkdirs destination.parents; finish node.isDir destination : Call Unit) h' :=
  Effect.bind_of_ok hm

def made (isDir : Bool) (mode : Nat) : Node := if isDir then .dir mode else .leaf .regular mode []

def verdict (isDir thereIsDir : Bool) : Except IoError Unit :=
  if isDir = false ∧ thereIsDir then .error (.os .isDirectory) else .ok ()

end Bind

namespace Host

section

variable {h : Host} {p : Path} {d l : Location} {n : Name} {ns : List Name} {isDir : Bool} {e : Errno}

theorem create_of_calm (hf : h.faults = []) (hnul : p.hasNul = false) :
    create p h = change (createIn p) h := by
  rw [create, Effect.bind_of_ok (refuseNul_of_clean hnul), Effect.bind_of_ok (meetFault_of_nil hf)]

theorem finish_of_mkdir {h' : Host} {r : Except IoError Unit} (hm : mkdir p h = (r, h'))
    (hr : r = .ok () ∨ r = .error (.os .alreadyExists)) : Bind.finish true p h = (.ok (), h') := by
  rw [Bind.finish, if_pos rfl, Effect.bind_of_ok (Effect.outcome_of_eq hm)]
  rcases hr with rfl | rfl <;> rfl

theorem finish_of_error (hf : h.faults = []) (hnul : p.hasNul = false)
    (hl : ∀ how, h.locate how p = .error e) (he : e ≠ .alreadyExists) :
    Bind.finish isDir p h = (.error (.os e), h) := by
  cases isDir with
  | true =>
    have hin : mkdirIn p h = .error e := by
      rw [mkdirIn, hl]
      rfl
    have hm : mkdir p h = (.error (.os e), h) := by rw [mkdir_of_calm hf hnul, change, hin]
    rw [Bind.finish, if_pos rfl, Effect.bind_of_ok (Effect.outcome_of_eq hm)]
    cases e <;> first | rfl | exact absurd rfl he
  | false =>
    have hin : createIn p h = .error e := by
      rw [createIn, hl]
      rfl
    change create p h = _
    rw [create_of_calm hf hnul, change, hin]

theorem finish_of_there (isDir : Bool) (hf : h.faults = []) (ht : h.tree.HasNoLinks)
    (hnul : p.hasNul = false) (hn : n.IsPlain) (hlook : h.Looks p l [n]) :
    ∃ t', Bind.finish isDir p h =
        (Bind.verdict isDir ((h.tree.get? (n :: l)).any Node.isDir), { h with tree := t' }) ∧
      h.tree.Filled (fun k => if k = n :: l then some (Bind.made isDir h.modeOf) else none) t' := by
  have hshort : ¬ maxName < n.length := Nat.not_lt.2 hn.short
  cases hg : h.tree.get? (n :: l) with
  | none =>
    have hl : ∀ how, h.locate how p = .ok (.vacant l n) := fun how =>
      hlook.locate_none hn.ne_here hn.ne_up hshort hg
    refine ⟨_, ?_, Tree.filled_insert hg _⟩
    cases isDir with
    | true =>
      have hin : mkdirIn p h = .ok (h.add (n :: l) (.dir h.modeOf)) := by
        rw [mkdirIn, hl]
        rfl
      refine finish_of_mkdir (r := .ok ()) ?_ (.inl rfl)
      rw [mkdir_of_calm hf hnul, change, hin]
      rfl
    | false =>
      have hin : createIn p h = .ok (h.add (n :: l) (.leaf .regular h.modeOf [])) := by
        rw [createIn, hl]
        rfl
      change create p h = _
      rw [create_of_calm hf hnul, change, hin]
      rfl
  | some node =>
    have hl : ∀ how, h.locate how p = .ok (.node (n :: l)) := fun how =>
      hlook.locate_some hn.ne_here hn.ne_up ht hshort hg
    refine ⟨h.tree, ?_, Tree.filled_of_some hg _⟩
    cases isDir with
    | true =>
      have hin : mkdirIn p h = .error .alreadyExists := by
        rw [mkdirIn, hl]
        rfl
      refine finish_of_mkdir (r := .error (.os .alreadyExists)) ?_ (.inr rfl)
      rw [mkdir_of_calm hf hnul, change, hin]
    | false =>
      change create p h = _
      rw [create_of_calm hf hnul, change, createIn, hl]
      cases node with
      | link target => exact absurd hg (ht _ _)
      | dir mode => simp [bind, Except.bind, hg, Bind.verdict, Node.isDir]
      | leaf kind mode content => simp [bind, Except.bind, hg, Bind.verdict, Node.isDir]

end

end Host

/-- The place of a share below a directory that is there, and what is to be made of it. -/
structure Site where
  base : Location
  /-- What is left of the shared directory, seen from there. -/
  shared : List Name
  sandbox : Name
  container : Name
  isDir : Bool
  /-- The place has too long a path, though the directory above it has not. -/
  tooLong : Bool

namespace Site

def last : Name := Utf8.ofString Rootfs.dirName

def names (s : Site) : List Name := s.shared ++ [s.sandbox, s.container]

def way (s : Site) : List Location := s.base.passes s.names

def spot (s : Site) : Location := last :: s.names.foldl Location.follow s.base

def verdict (s : Site) (thereIsDir : Bool) : Except IoError Unit :=
  if s.tooLong then .error (.os .nameTooLong) else Bind.verdict s.isDir thereIsDir

def made (s : Site) (mode : Nat) (t : Tree) (l : Location) : Option Node :=
  if t.stop? s.way = none ∧ s.tooLong = false ∧ l = s.spot then some (Bind.made s.isDir mode) else none

def gain (s : Site) (mode : Nat) (t : Tree) (l : Location) : Option Node :=
  (Tree.dirsAt mode (s.way.takeWhile t.isOpen) l).or (s.made mode t l)

structure Says (s : Site) (mode : Nat) (t : Tree) (r : Except IoError Unit) : Prop where
  stopped : ∀ l, t.stop? s.way = some l → ∃ e, r = .error (.os e) ∧ Tree.Stops l e
  through : t.stop? s.way = none →
    r = s.verdict (((t.get? s.spot).or (Tree.dirsAt mode s.way s.spot)).any Node.isDir)
  surveyed : ∀ e, t.survey false s.base s.names = .error e → e ≠ .noEntry → r = .error (.os e)

structure Suits (s : Site) (h : Host) (destination : Path) : Prop where
  trail : h.Trail s.base s.names destination.parents
  dirs : h.tree.HasDirs s.base
  noNul : destination.hasNul = false
  tooLong : s.tooLong = true → maxPath ≤ destination.bytes.length
  looks : s.tooLong = false → ∀ h', h.Grows h' → h'.Looks destination s.base (s.names ++ [last])

section

variable {s : Site} {h : Host} {t t' : Tree} {destination : Path} {mode : Nat} {l : Location}
  {r : Except IoError Unit}

theorem last_isPlain : last.IsPlain := ⟨by decide, by decide, by decide⟩

theorem last_name (s : Site) : s.names.getLast? = some s.container := by
  simp [names]

theorem way_ne_nil (hh : s.container ≠ Name.here) (hu : s.container ≠ Name.up) : s.way ≠ [] := by
  have hnames : s.names = (s.shared ++ [s.sandbox]) ++ [s.container] := by simp [names]
  rw [way, hnames, Tree.passes_snoc rfl, Location.entered_entry hh hu]
  simp

theorem gain_of_stop (hstop : t.stop? s.way ≠ none) :
    s.gain mode t = Tree.dirsAt mode (s.way.takeWhile t.isOpen) := by
  funext l
  rw [gain, made, if_neg (by simp [hstop]), Option.or_none]

theorem gain_of_tooLong (hlong : s.tooLong = true) :
    s.gain mode t = Tree.dirsAt mode (s.way.takeWhile t.isOpen) := by
  funext l
  rw [gain, made, if_neg (by simp [hlong]), Option.or_none]

theorem gain_of_through (hstop : t.stop? s.way = none) (hshort : s.tooLong = false) :
    s.gain mode t = fun l => (Tree.dirsAt mode s.way l).or
      (if l = s.spot then some (Bind.made s.isDir mode) else none) := by
  have hopen := List.takeWhile_eq_self_iff.2 (Tree.stop?_eq_none.1 hstop)
  funext l
  simp only [gain, made, hopen, hstop, hshort, true_and]

theorem Suits.grows {h' : Host} (hs : s.Suits h destination) (hg : h.Grows h') :
    s.Suits h' destination where
  trail := hs.trail.grows hg
  dirs := hg.tree.hasDirs hs.dirs
  noNul := hs.noNul
  tooLong := hs.tooLong
  looks := fun hshort h'' hg' => hs.looks hshort h'' (trans_of Host.Grows hg hg')

/-- Whatever the tree, so much is made and such is the result. -/
theorem Suits.prepare (hs : s.Suits h destination) (hf : h.faults = []) (ht : h.tree.HasNoLinks)
    (hcontainer : s.container.IsEntry) :
    ∃ r t', (do Host.mkdirs destination.parents; Bind.finish s.isDir destination : Call Unit) h =
        (r, { h with tree := t' }) ∧
      h.tree.Filled (s.gain h.modeOf h.tree) t' ∧ s.Says h.modeOf h.tree r := by
  have hlast : s.names.getLast? ≠ some Name.here := by
    rw [last_name]
    simpa using hcontainer.ne_here
  obtain ⟨r₁, t₁, hm, hp⟩ := Host.mkdirs_of_trail hf ht hs.dirs hs.trail
    (way_ne_nil hcontainer.ne_here hcontainer.ne_up)
  cases r₁ with
  | error cause =>
    -- where the way is stopped nothing is made at the spot
    have hstop : h.tree.stop? s.way ≠ none := fun hnone => by cases hp.through hnone
    refine ⟨_, t₁, Effect.bind_of_error hm, ?_, hp.stopped, fun hnone => absurd hnone hstop,
      hp.surveyed hlast⟩
    rw [gain_of_stop hstop]
    exact hp.tree
  | ok u =>
    have hstop : h.tree.stop? s.way = none := Tree.stop?_eq_none.2 hp.open_of_ok
    have hfilled := hp.filled_of_ok
    have hsays : ∀ {r}, r = s.verdict ((t₁.get? s.spot).any Node.isDir) →
        s.Says h.modeOf h.tree r := by
      intro r hr
      refine ⟨fun l hl => ?_, fun _ => ?_, fun e he hne => ?_⟩
      · rw [hstop] at hl
        cases hl
      · rw [hr, hfilled s.spot]
        rfl
      · cases hp.surveyed hlast e he hne
    rw [Effect.bind_of_ok hm]
    cases hlong : s.tooLong with
    | true =>
      have hlocate : ∀ how, Host.locate { h with tree := t₁ } how destination = .error .nameTooLong :=
        fun how => by rw [Host.locate, if_pos (hs.tooLong hlong)]
      refine ⟨_, t₁, Host.finish_of_error hf hs.noNul hlocate (by simp), ?_, hsays ?_⟩
      · rw [gain_of_tooLong hlong]
        exact hp.tree
      · rw [verdict, if_pos hlong]
    | false =>
      have ht₁ := hp.hasNoLinks ht
      have hlook := (hs.looks hlong _ (Host.grows_of_filled hfilled)).last ht₁ hp.survey
      obtain ⟨t', hfin, hmade⟩ := Host.finish_of_there (h := { h with tree := t₁ }) s.isDir hf ht₁
        hs.noNul last_isPlain hlook
      refine ⟨_, t', hfin, ?_, hsays ?_⟩
      · rw [gain_of_through hstop hlong]
        exact hfilled.trans hmade
      · rw [verdict, if_neg (by simp [hlong])]
        rfl

end

end Site

end SandboxMounts
