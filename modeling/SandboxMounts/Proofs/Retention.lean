import SandboxMounts.Proofs.Placement

/-!
What lookups go on finding when a node is made. A name that was free is taken from then on, and what
led to a directory still does, even from a removed working directory, where a directory made anew
changes the way.
-/

set_option autoImplicit false

namespace SandboxMounts

namespace Tree

/-- All directories up to `d` are there, except that nothing is said of those up to `start`. -/
def HasDirsFrom (t : Tree) (start d : Location) : Prop :=
  ∀ l, l <:+ d → l <:+ start ∨ (t.get? l).any Node.isDir = true

def HasPlaceFrom (t : Tree) (start : Location) : Place → Prop
  | .node _ => True
  | .vacant l _ => t.HasDirsFrom start l
  | .adrift _ => False

def HasStopFrom (t : Tree) (start : Location) : Stop → Prop
  | .place q => t.HasPlaceFrom start q
  | .link l _ _ _ => t.HasDirsFrom start l

/-- From a removed directory the names lead no further than up to another one. -/
inductive Drifts (t : Tree) : Location → List Name → Location → Prop
  | nil {d : Location} : Drifts t d [] d
  | here {d l : Location} {rest : List Name} (hd : Drifts t d rest l) :
    Drifts t d (Name.here :: rest) l
  | up {d l : Location} {rest : List Name} (hgone : (t.get? d.tail).any Node.isDir = false)
    (hd : Drifts t d.tail rest l) : Drifts t d (Name.up :: rest) l

section

variable {t t' : Tree} {how : LastName} {links : Nat} {start d k l : Location} {m n : Name}
  {names : List Name} {node : Node} {s : Bool}

theorem HasDirsFrom.refl : t.HasDirsFrom d d := fun _ hl => .inl hl

theorem hasDirsFrom_nil : t.HasDirsFrom start [] := fun l hl => by
  rw [List.suffix_nil.1 hl]
  exact .inr rfl

theorem HasDirsFrom.tail (hd : t.HasDirsFrom start d) : t.HasDirsFrom start d.tail :=
  fun l hl => hd l (hl.trans (List.tail_suffix d))

theorem HasDirsFrom.cons (hd : t.HasDirsFrom start d) (hn : (t.get? (n :: d)).any Node.isDir = true) :
    t.HasDirsFrom start (n :: d) := by
  intro l hl
  rcases List.suffix_cons_iff.1 hl with rfl | hl
  · exact .inr hn
  · exact hd l hl

theorem HasDirsFrom.walk {stop : Stop} (hd : t.HasDirsFrom start d)
    (hw : t.walk how s d names = .ok stop) : t.HasStopFrom start stop := by
  replace hw := walks_of_walk hw
  induction hw with
  | nil => trivial
  | here hw ih => exact ih hd
  | up hw ih => exact ih hd.tail
  | last hh hu hl =>
    rcases (last_ok hl).2 with ⟨-, rfl⟩ | ⟨node, -, rfl⟩ | ⟨target, rfl⟩
    · exact hd
    · trivial
    · exact hd
  | dir hn hg hr hw ih => exact ih (hd.cons (by rw [hg]; rfl))
  | link hn hg hr => exact hd

theorem HasDirsFrom.locate {q : Place} (hd : t.HasDirsFrom start d)
    (hl : t.locate how links d names s = .ok q) : t.HasPlaceFrom start q := by
  induction links using Nat.strong_induction_on generalizing d names s with
  | _ links ih =>
    rcases locate_ok hl with hw | ⟨k, dir, target, rest, s', rfl, hw, -, hl'⟩
    · exact hd.walk hw
    · have hdir : t.HasDirsFrom start dir := hd.walk hw
      refine ih k (Nat.lt_succ_self k) ?_ hl'
      rw [Path.start]
      split
      · exact hasDirsFrom_nil
      · exact hdir

theorem locateAdrift_cons_ok {q : Place} (hl : t.locateAdrift how s d (n :: names) = .ok q) :
    (n = Name.here ∧ t.locateAdrift how s d names = .ok q) ∨
      (n = Name.up ∧ (t.get? d.tail).any Node.isDir = true ∧
        t.locate how maxLinks d.tail names s = .ok q) ∨
      n = Name.up ∧ (t.get? d.tail).any Node.isDir = false ∧
        t.locateAdrift how s d.tail names = .ok q := by
  by_cases hhere : n = Name.here
  · subst hhere
    exact .inl ⟨rfl, locateAdrift_here.symm.trans hl⟩
  by_cases hup : n = Name.up
  · subst hup
    rw [locateAdrift_up] at hl
    split at hl
    · exact .inr (.inl ⟨rfl, ‹_›, hl⟩)
    · exact .inr (.inr ⟨rfl, Bool.eq_false_iff.2 ‹_›, hl⟩)
  · rw [locateAdrift, if_neg hhere, if_neg hup] at hl
    cases hl

theorem exists_dir_of_locateAdrift (hl : t.locateAdrift how s d names = .ok (.vacant k m)) :
    ∃ x, x <:+ d.tail ∧ (t.get? x).any Node.isDir = true ∧ t.HasDirsFrom x k := by
  induction names generalizing d with
  | nil => cases hl
  | cons n names ih =>
    rcases locateAdrift_cons_ok hl with ⟨-, hl⟩ | ⟨-, hdir, hl⟩ | ⟨-, -, hl⟩
    · exact ih hl
    · exact ⟨d.tail, List.suffix_rfl, hdir, HasDirsFrom.refl.locate hl⟩
    · obtain ⟨x, hx, hdir, hk⟩ := ih hl
      exact ⟨x, hx.trans (List.tail_suffix _), hdir, hk⟩

theorem drifts_of_locateAdrift (hl : t.locateAdrift how s d names = .ok (.adrift l)) :
    t.Drifts d names l := by
  induction names generalizing d with
  | nil =>
    cases hl
    exact .nil
  | cons n names ih =>
    rcases locateAdrift_cons_ok hl with ⟨rfl, hl⟩ | ⟨-, -, hl⟩ | ⟨rfl, hgone, hl⟩
    · exact .here (ih hl)
    -- no lookup from a directory that is there ends adrift
    · exact (HasDirsFrom.refl.locate hl).elim
    · exact .up hgone (ih hl)

namespace Drifts

variable (hd : t.Drifts d names l)
include hd

theorem suffix : l <:+ d := by
  induction hd with
  | nil => exact List.suffix_rfl
  | here hd ih => exact ih
  | up hgone hd ih => exact ih.trans (List.tail_suffix _)

theorem locate : t'.locate how links d names s = .ok (.node l) := by
  induction hd with
  | nil => exact locate_nil
  | here hd ih => rw [locate_here, ih]
  | up hgone hd ih => rw [locate_up, ih]

theorem gone (hne : l ≠ []) {y : Location} (hy : y <:+ d.tail)
    (hdir : (t.get? y).any Node.isDir = true) : ¬ l <:+ y := by
  induction hd with
  | @nil d =>
    intro hl
    obtain ⟨n, d, rfl⟩ := List.exists_cons_of_ne_nil hne
    exact absurd (hl.trans hy).length_le (by simp)
  | here hd ih => exact ih hne hy
  | @up d l rest hgone hd ih =>
    cases htail : d.tail with
    | nil =>
      rw [htail] at hgone
      cases hgone
    | cons n above =>
      rw [htail] at hgone hy ih
      rcases List.suffix_cons_iff.1 hy with rfl | hy
      · rw [hdir] at hgone
        cases hgone
      · exact ih hne hy

theorem other (t' : Tree) (how : LastName) (s : Bool) :
    t'.locateAdrift how s d names = .ok (.adrift l) ∨
      t'.locateAdrift how s d names = .ok (.node l) ∧
        ∃ y, y <:+ d.tail ∧ (t'.get? y).any Node.isDir = true ∧ l <:+ y := by
  induction hd with
  | nil => exact .inl rfl
  | here hd ih => rwa [locateAdrift_here]
  | up hgone hd ih =>
    rw [locateAdrift_up]
    split
    · exact .inr ⟨hd.locate, _, List.suffix_rfl, ‹_›, hd.suffix⟩
    · rcases ih with ih | ⟨ih, y, hy, hdir, hl⟩
      · exact .inl ih
      · exact .inr ⟨ih, y, hy.trans (List.tail_suffix _), hdir, hl⟩

/-- If a new node ends the drift it is a directory, or below one, that the names lead to. -/
theorem insert {x : Location} (hx : x <:+ d.tail) (hdir : (t.get? x).any Node.isDir = true)
    (hk : t.HasDirsFrom x k) (node : Node) (how : LastName) (s : Bool) :
    (t.insert (m :: k) node).locateAdrift how s d names = .ok (.adrift l) ∨
      (t.insert (m :: k) node).locateAdrift how s d names = .ok (.node l) ∧
        ((t.insert (m :: k) node).get? l).any Node.isDir = true := by
  rcases hd.other (t.insert (m :: k) node) how s with hl | ⟨hl, y, hy, hydir, hly⟩
  · exact .inl hl
  refine .inr ⟨hl, ?_⟩
  by_cases hne : l = []
  · rw [hne]
    rfl
  by_cases hnew : y = m :: k
  · subst hnew
    rcases List.suffix_cons_iff.1 hly with rfl | hlk
    · exact hydir
    -- the lookup that found the name free has come from `x`, and above `x` the drift would have ended
    rcases hk l hlk with hlx | hldir
    · exact absurd hlx (hd.gone hne hx hdir)
    · exact absurd List.suffix_rfl (hd.gone hne (hly.trans hy) hldir)
  · rw [get?_insert_of_ne t node hnew] at hydir
    exact absurd hly (hd.gone hne hy hydir)

end Drifts

section

variable (hg : t'.get? (m :: k) = some node) (hf : how.IsFor node)
include hg hf

theorem last_filled (hl : t.last how s d n = .ok (.place (.vacant k m))) :
    t'.last how s d n = .ok (.place (.node (m :: k))) := by
  have hslash : ¬ (how = .created ∧ s = true) := fun hc => by simp [Tree.last, hc] at hl
  obtain ⟨hlong, ⟨-, hv⟩ | ⟨_, -, hv⟩ | ⟨_, hv⟩⟩ := last_ok hl <;> cases hv
  cases node with
  | dir mode => simp [Tree.last, hslash, hlong, hg]
  | link target => rcases hf with hf | ⟨-, _, _, _, hf⟩ <;> cases hf
  | leaf kind mode content =>
    rcases hf with hf | ⟨rfl, -⟩
    · cases hf
    · have hs : s = false := Bool.eq_false_iff.2 fun hc => hslash ⟨rfl, hc⟩
      simp [Tree.last, hlong, hg, hs]

theorem Extends.walk_filled (he : t.Extends t')
    (hw : t.walk how s d names = .ok (.place (.vacant k m))) :
    t'.walk how s d names = .ok (.place (.node (m :: k))) := by
  replace hw := walks_of_walk hw
  generalize hstop : Stop.place (.vacant k m) = stop at hw
  induction hw with
  | nil => cases hstop
  | here hw ih => simpa only [walk_here] using ih hstop
  | up hw ih => simpa only [walk_up] using ih hstop
  | last hh hu hl =>
    subst hstop
    rw [walk_last hh hu]
    exact last_filled hg hf hl
  | dir hn hd hr hw ih =>
    rw [walk_into hn (he _ _ hd) hr]
    exact ih hstop
  | link hn hlink hr => cases hstop

theorem Extends.locate_filled (he : t.Extends t')
    (hl : t.locate how links d names s = .ok (.vacant k m)) :
    t'.locate how links d names s = .ok (.node (m :: k)) := by
  induction links using Nat.strong_induction_on generalizing d names s with
  | _ links ih =>
    rcases locate_ok hl with hw | ⟨i, dir, target, rest, s', rfl, hw, ht, hl'⟩
    · exact locate_place (he.walk_filled hg hf hw)
    · rcases he.walk hw with ⟨_, _, hc, -⟩ | ⟨-, hw'⟩
      · cases hc
      · rw [locate_link hw' ht]
        exact ih i (Nat.lt_succ_self i) hl'

end

end

end Tree

namespace Host

def IsTaken (h : Host) (p : Path) : Prop :=
  ∃ q, h.locate .kept p = .ok q ∧ ∀ dir m, q ≠ .vacant dir m

structure Retains (h h' : Host) : Prop where
  taken : ∀ p, h.IsTaken p → h'.IsTaken p
  dirs : ∀ p, h.leadsToDir p = true → h'.leadsToDir p = true

instance : IsPreorder Host Retains where
  refl _ := ⟨fun _ ht => ht, fun _ hd => hd⟩
  trans _ _ _ h₁ h₂ := ⟨fun p ht => h₂.taken p (h₁.taken p ht), fun p hd => h₂.dirs p (h₁.dirs p hd)⟩

section

variable {h h' : Host} {p q : Path} {how how' : LastName} {k l : Location} {m : Name} {node : Node}

theorem Grows.locate_filled (hg : h.Grows h') (hn : h'.tree.get? (m :: k) = some node)
    (hf : how.IsFor node) (hl : h.locate how p = .ok (.vacant k m)) :
    h'.locate how p = .ok (.node (m :: k)) :=
  hg.locate_of (by simp) (by simp) (fun _ _ => hg.tree.locate_filled hn hf) hl

theorem locate_add (hf : how.IsFor node) (hl : h.locate how p = .ok (.vacant k m)) :
    (h.add (m :: k) node).locate how p = .ok (.node (m :: k)) :=
  (grows_add node hl).locate_filled (Tree.get?_insert_self _ _ _ _) hf hl

theorem drifts_of_locate (hl : h.locate how p = .ok (.adrift l)) :
    p.isAbsolute = false ∧ h.cwdGone = true ∧ h.tree.Drifts h.cwd p.steps l := by
  obtain ⟨hlen, hempty⟩ := locate_ok hl
  by_cases hback : p.isAbsolute = false → h.cwdGone = false
  · rw [locate_eq hlen hempty hback] at hl
    exact (Tree.HasDirsFrom.refl.locate hl).elim
  · obtain ⟨habs, hgone⟩ := Classical.not_imp.1 hback
    rw [Bool.not_eq_false] at hgone
    rw [locate_of_gone hgone hlen hempty habs] at hl
    exact ⟨habs, hgone, Tree.drifts_of_locateAdrift hl⟩

theorem exists_dir_of_locate (hgone : h.cwdGone = true) (hl : h.locate how p = .ok (.vacant k m)) :
    ∃ x, x <:+ h.cwd.tail ∧ (h.tree.get? x).any Node.isDir = true ∧ h.tree.HasDirsFrom x k := by
  obtain ⟨hlen, hempty⟩ := locate_ok hl
  cases habs : p.isAbsolute with
  | true =>
    rw [locate_eq hlen hempty (by simp [habs]), Path.start, if_pos habs] at hl
    exact ⟨[], List.nil_suffix, rfl, Tree.HasDirsFrom.refl.locate hl⟩
  | false =>
    rw [locate_of_gone hgone hlen hempty habs] at hl
    exact Tree.exists_dir_of_locateAdrift hl

/-- A path that led to a removed directory may lead to one that is there, now that a node has been
made. -/
theorem locate_add_of_adrift (node : Node) (hl : h.locate how p = .ok (.vacant k m))
    (hq : h.locate how' q = .ok (.adrift l)) (how'' : LastName) :
    (h.add (m :: k) node).locate how'' q = .ok (.adrift l) ∨
      (h.add (m :: k) node).locate how'' q = .ok (.node l) ∧
        ((h.add (m :: k) node).tree.get? l).any Node.isDir = true := by
  obtain ⟨hlen, hempty⟩ := locate_ok hq
  obtain ⟨habs, hgone, hdrifts⟩ := drifts_of_locate hq
  obtain ⟨x, hx, hdir, hk⟩ := exists_dir_of_locate hgone hl
  have hgone' : (h.add (m :: k) node).cwdGone = true := hgone
  rw [locate_of_gone hgone' hlen hempty habs]
  exact hdrifts.insert hx hdir hk node how'' q.endsInSlash

theorem leadsToDir_of_adrift (hl : h.locate .followed p = .ok (.adrift l)) : h.leadsToDir p = true := by
  rw [leadsToDir, statOf, hl]
  rfl

theorem locate_of_leadsToDir (hd : h.leadsToDir p = true) :
    (∃ l, h.locate .followed p = .ok (.node l) ∧ (h.tree.get? l).any Node.isDir = true) ∨
      ∃ l, h.locate .followed p = .ok (.adrift l) := by
  obtain ⟨st, hs, -⟩ := leadsToDir_iff.1 hd
  obtain ⟨place, hl, hs⟩ := except_bind_eq_ok.1 hs
  cases place with
  | node l => exact .inl ⟨l, hl, by rwa [leadsToDir_of_node hl] at hd⟩
  | vacant dir n => cases hs
  | adrift l => exact .inr ⟨l, hl⟩

theorem retains_add (node : Node) (hl : h.locate how p = .ok (.vacant k m)) :
    h.Retains (h.add (m :: k) node) where
  taken := by
    rintro q ⟨place, hq, hv⟩
    cases place with
    | node l => exact ⟨_, (grows_add node hl).locate_node hq, by simp⟩
    | vacant dir n => exact absurd rfl (hv dir n)
    | adrift l =>
      rcases locate_add_of_adrift node hl hq .kept with hq' | ⟨hq', -⟩ <;> exact ⟨_, hq', by simp⟩
  dirs := by
    intro q hd
    rcases locate_of_leadsToDir hd with ⟨l, hq, hdir⟩ | ⟨l, hq⟩
    · rw [leadsToDir_of_node ((grows_add node hl).locate_node hq)]
      exact (grows_add node hl).tree.isDir_at hdir
    · rcases locate_add_of_adrift node hl hq .followed with hq' | ⟨hq', hdir⟩
      · exact leadsToDir_of_adrift hq'
      · rwa [leadsToDir_of_node hq']

theorem Retains.keeps_meetFault (k : CallKind) (p : Path) : Effect.Keeps Retains (meetFault k p) :=
  .meetFault (fun h faults =>
    have hsame : h.SameFiles { h with faults } := ⟨faults, h.mounts, h.calls, rfl⟩
    ⟨fun p ⟨q, hq, hv⟩ => ⟨q, (hsame.locate .kept p).trans hq, hv⟩,
      fun p hd => (hsame.leadsToDir p).trans hd⟩) k p

theorem Retains.keeps_mkdir (p : Path) : Effect.Keeps Retains (mkdir p) :=
  .mkdir keeps_meetFault (retains_add _)

theorem Retains.keeps_create (p : Path) : Effect.Keeps Retains (create p) :=
  .create keeps_meetFault (retains_add _)

theorem Retains.keeps_prepare (source destination : Path) :
    Effect.Keeps Retains (Bind.prepare source destination) :=
  .prepare keeps_meetFault retains_add source destination

end

end Host

end SandboxMounts
