import SandboxMounts.Proofs.Growth
import SandboxMounts.Proofs.Passage

/-!
Hosts that hang together: every node has a name of its own and a directory above it, and a working
directory that has not been removed is there. All that sets up a host keeps it so, and so do binds.
-/

set_option autoImplicit false

namespace SandboxMounts

instance (n : Name) : Decidable n.IsEntry :=
  decidable_of_iff (n ≠ [] ∧ slash ∉ n ∧ n ≠ Name.here ∧ n ≠ Name.up)
    ⟨fun hn => ⟨hn.1, hn.2.1, hn.2.2.1, hn.2.2.2⟩,
      fun hn => ⟨hn.ne_nil, hn.no_slash, hn.ne_here, hn.ne_up⟩⟩

namespace Tree

def holds (t : Tree) : Location → Bool
  | [] => true
  | n :: l => decide n.IsEntry && (t.get? l).any Node.isDir

section

variable {t : Tree} {k l d : Location} {n : Name} {node : Node} {ns : List Name}

theorem isSound_of_entries (he : ∀ e ∈ t.entries, t.holds e.1 = true) : t.IsSound where
  entry := fun n l node hl => by
    have hholds := he _ (mem_entries hl)
    rw [holds, Bool.and_eq_true] at hholds
    exact of_decide_eq_true hholds.1
  above := fun n l node hl => by
    have hholds := he _ (mem_entries hl)
    rw [holds, Bool.and_eq_true] at hholds
    exact hholds.2

theorem lookup_filter_key (es : List (Location × Node)) (f : Location → Bool) (k : Location) :
    (es.filter fun e => f e.1).lookup k = if f k then es.lookup k else none := by
  induction es with
  | nil => simp
  | cons e es ih =>
    obtain ⟨m, node⟩ := e
    by_cases hk : k = m
    · subst hk
      cases hf : f k with
      | true => simp [hf]
      | false => simp [hf, ih]
    · have hkm : (k == m) = false := by simp [hk]
      cases hm : f m <;> simp [hm, List.lookup_cons, hkm, ih]

theorem get?_remove (t : Tree) (l : Location) (n : Name) (k : Location) :
    (t.remove l).get? (n :: k) = if l <:+ n :: k then none else t.get? (n :: k) := by
  change (t.entries.filter fun e => !l.isSuffixOf e.1).lookup (n :: k) = _
  rw [lookup_filter_key t.entries (fun m => !l.isSuffixOf m)]
  by_cases hl : l <:+ n :: k
  · rw [if_pos hl, List.isSuffixOf_iff_suffix.2 hl]
    rfl
  · rw [if_neg hl, Bool.eq_false_iff.2 fun hc => hl (List.isSuffixOf_iff_suffix.1 hc)]
    rfl

theorem IsSound.insert (ht : t.IsSound) (hn : n.IsEntry) (hd : (t.get? l).any Node.isDir = true)
    (hnode : t.get? (n :: l) = none ∨ node.isDir = true) : (t.insert (n :: l) node).IsSound := by
  have hdir : ∀ k, (t.get? k).any Node.isDir = true →
      ((t.insert (n :: l) node).get? k).any Node.isDir = true := by
    intro k hk
    by_cases heq : k = n :: l
    · subst heq
      rw [get?_insert_self]
      rcases hnode with hnone | hnode
      · rw [hnone] at hk
        cases hk
      · exact hnode
    · rwa [get?_insert_of_ne t node heq]
  constructor
  · intro m k node' hm
    by_cases heq : m :: k = n :: l
    · cases heq
      exact hn
    · rw [get?_insert_of_ne t node heq] at hm
      exact ht.entry m k node' hm
  · intro m k node' hm
    by_cases heq : m :: k = n :: l
    · cases heq
      exact hdir l hd
    · rw [get?_insert_of_ne t node heq] at hm
      exact hdir k (ht.above m k node' hm)

theorem IsSound.remove (ht : t.IsSound) (l : Location) : (t.remove l).IsSound := by
  have hold : ∀ m k node, (t.remove l).get? (m :: k) = some node →
      ¬ l <:+ m :: k ∧ t.get? (m :: k) = some node := by
    intro m k node hm
    rw [get?_remove] at hm
    split at hm
    · cases hm
    · exact ⟨‹_›, hm⟩
  constructor
  · intro m k node hm
    exact ht.entry m k node (hold m k node hm).2
  · intro m k node hm
    obtain ⟨hl, hm⟩ := hold m k node hm
    cases k with
    | nil => rfl
    | cons m' k =>
      rw [get?_remove, if_neg fun hc => hl (hc.trans (List.suffix_cons m _))]
      exact ht.above m _ node hm

theorem isDir_insertDirs (t : Tree) (l : Location) (hk : (t.get? k).any Node.isDir = true) :
    ((t.insertDirs l).get? k).any Node.isDir = true := by
  induction l with
  | nil => exact hk
  | cons n l ih =>
    rw [Tree.insertDirs]
    split
    · exact ih
    · by_cases heq : k = n :: l
      · rw [heq, get?_insert_self]
        rfl
      · rwa [get?_insert_of_ne _ _ heq]

theorem IsSound.insertDirs (ht : t.IsSound) (hl : l.IsSpellable) :
    (t.insertDirs l).IsSound ∧ ((t.insertDirs l).get? l).any Node.isDir = true := by
  induction l with
  | nil => exact ⟨ht, rfl⟩
  | cons n l ih =>
    obtain ⟨hsound, hd⟩ := ih hl.tail
    rw [Tree.insertDirs]
    split
    · rename_i hg
      exact ⟨hsound, by rw [hg]; rfl⟩
    · exact ⟨hsound.insert (hl n List.mem_cons_self) hd (.inr rfl), by rw [get?_insert_self]; rfl⟩

theorem IsSound.replace (ht : t.IsSound) (hn : n.IsEntry) (hd : (t.get? l).any Node.isDir = true)
    (node : Node) : (t.replace (n :: l) node).IsSound := by
  refine (ht.remove (n :: l)).insert hn ?_ (.inl ?_)
  · cases l with
    | nil => rfl
    | cons m l =>
      rw [get?_remove, if_neg fun hc => ?_]
      · exact hd
      · exact absurd hc.length_le (by simp)
  · rw [get?_remove, if_pos List.suffix_rfl]

section

variable {how : LastName} {links : Nat} {names : List Name} {s : Bool}

theorem hasDirs_nil (t : Tree) : t.HasDirs [] := fun l hl => by rw [List.suffix_nil.1 hl]; rfl

def HasPlace (t : Tree) : Place → Prop
  | .node l => ∃ node, t.get? l = some node
  | .vacant l n => t.HasDirs l ∧ n.IsEntry
  | .adrift _ => True

def HasStop (t : Tree) : Stop → Prop
  | .place q => t.HasPlace q
  | .link l _ rest _ => t.HasDirs l ∧ ∀ n ∈ rest, n ≠ [] ∧ slash ∉ n

theorem HasDirs.walk {stop : Stop} (hd : t.HasDirs d) (hnames : ∀ n ∈ names, n ≠ [] ∧ slash ∉ n)
    (hw : t.walk how s d names = .ok stop) : t.HasStop stop := by
  replace hw := walks_of_walk hw
  induction hw with
  | nil =>
    obtain ⟨node, hnode, -⟩ := (Option.any_eq_true _ _).1 (hd _ List.suffix_rfl)
    exact ⟨node, hnode⟩
  | here hw ih => exact ih hd fun n hn => hnames n (List.mem_cons_of_mem _ hn)
  | up hw ih => exact ih hd.tail fun n hn => hnames n (List.mem_cons_of_mem _ hn)
  | @last dir n stop hh hu hl =>
    obtain ⟨hne, hno⟩ := hnames n List.mem_cons_self
    rcases (last_ok hl).2 with ⟨-, rfl⟩ | ⟨node, hg, rfl⟩ | ⟨target, rfl⟩
    · exact ⟨hd, hne, hno, hh, hu⟩
    · exact ⟨node, hg⟩
    · exact ⟨hd, fun n hn => by cases hn⟩
  | @dir dir n rest mode stop hn hg hr hw ih =>
    exact ih (hd.cons (by rw [hg]; rfl)) fun m hm => hnames m (List.mem_cons_of_mem n hm)
  | link hn hg hr => exact ⟨hd, fun m hm => hnames m (List.mem_cons_of_mem _ hm)⟩

/-- A lookup that starts from a directory finds what is there, or a free name where there is none. -/
theorem HasDirs.locate {q : Place} (hd : t.HasDirs d) (hnames : ∀ n ∈ names, n ≠ [] ∧ slash ∉ n)
    (hl : t.locate how links d names s = .ok q) : t.HasPlace q := by
  -- a walk that does not end at a place spends a link
  induction links using Nat.strong_induction_on generalizing d names s with
  | _ links ih =>
    rcases locate_ok hl with hw | ⟨k, dir, target, rest, s', rfl, hw, -, hl'⟩
    · exact hd.walk hnames hw
    · obtain ⟨hdir, hrest⟩ := hd.walk hnames hw
      refine ih k (Nat.lt_succ_self k) ?_
        (List.forall_mem_append.2 ⟨fun n => Path.mem_steps, hrest⟩) hl'
      rw [Path.start]
      split
      · exact t.hasDirs_nil
      · exact hdir

theorem IsSound.locateAdrift {q : Place} (ht : t.IsSound) (hnames : ∀ n ∈ names, n ≠ [] ∧ slash ∉ n)
    (hl : t.locateAdrift how s d names = .ok q) : t.HasPlace q := by
  induction names generalizing d with
  | nil =>
    cases hl
    trivial
  | cons n names ih =>
    have hrest : ∀ n ∈ names, n ≠ [] ∧ slash ∉ n := fun k hk => hnames k (List.mem_cons_of_mem n hk)
    unfold Tree.locateAdrift at hl
    split at hl
    · exact ih hrest hl
    split at hl
    · split at hl
      · exact (ht.hasDirs ‹_›).locate hrest hl
      · exact ih hrest hl
    · cases hl

end

end

end Tree

namespace Host

/-- The tree hangs together, and a working directory that has not been removed is in it. -/
structure IsSound (h : Host) : Prop where
  tree : h.tree.IsSound
  cwd : h.cwdGone = false → (h.tree.get? h.cwd).any Node.isDir = true

section

variable {h : Host} {l : Location}

theorem isSound_initial : initial.IsSound :=
  ⟨Tree.isSound_of_entries fun e he => (by cases he), fun _ => rfl⟩

theorem IsSound.remove (hs : h.IsSound) (l : Location) : (h.remove l).IsSound where
  tree := hs.tree.remove l
  cwd := by
    intro hc
    obtain ⟨hgone, hl⟩ := Bool.or_eq_false_iff.1 hc
    have hd := hs.cwd hgone
    have hl' : ¬ l <:+ h.cwd := fun hc => by
      rw [List.isSuffixOf_iff_suffix.2 hc] at hl
      cases hl
    change ((h.tree.remove l).get? h.cwd).any Node.isDir = true
    cases hcwd : h.cwd with
    | nil => rfl
    | cons n k =>
      rw [hcwd] at hd hl'
      rw [Tree.get?_remove, if_neg hl']
      exact hd

theorem IsSound.place (hs : h.IsSound) (hl : l.IsSpellable) (node : Node)
    (device special : Option RawDevice)
    (hclear : node.isDir = true ∨ ¬ l <:+ h.cwd) : (h.place l node device special).IsSound := by
  unfold Host.place
  cases hnode : node.isDir with
  | true =>
    exact ⟨(hs.tree.insertDirs hl).1, fun hc => h.tree.isDir_insertDirs l (hs.cwd hc)⟩
  | false =>
    rw [hnode] at hclear
    obtain hclear | hclear := hclear
    · cases hclear
    cases l with
    | nil => exact ⟨hs.tree, hs.cwd⟩
    | cons n l =>
      obtain ⟨hsound, hd⟩ := hs.tree.insertDirs hl.tail
      refine ⟨hsound.replace (hl n List.mem_cons_self) hd node, fun hc => ?_⟩
      have hcwd := h.tree.isDir_insertDirs l (hs.cwd hc)
      let emptied := (h.tree.insertDirs l).remove (n :: l)
      change ((emptied.insert (n :: l) node).get? h.cwd).any Node.isDir = true
      have hne : h.cwd ≠ n :: l := fun heq => hclear (by simp [heq])
      rw [Tree.get?_insert_of_ne _ _ hne]
      cases hk : h.cwd with
      | nil => rfl
      | cons m k =>
        rw [hk] at hclear hcwd
        rw [Tree.get?_remove, if_neg hclear]
        exact hcwd

theorem IsSound.enter {h' : Host} {p : Path} (hs : h.IsSound) (he : h.enter p = .ok h') :
    h'.IsSound := by
  obtain ⟨place, -, he⟩ := except_bind_eq_ok.1 he
  cases place with
  | vacant dir n => cases he
  | adrift l =>
    cases he
    exact ⟨hs.tree, fun hc => by cases hc⟩
  | node l =>
    simp only at he
    split at he <;> cases he
    exact ⟨hs.tree, fun _ => ‹_›⟩

theorem IsSound.locate {how : LastName} {p : Path} {q : Place} (hs : h.IsSound)
    (hl : h.locate how p = .ok q) : h.tree.HasPlace q := by
  unfold Host.locate at hl
  split at hl
  · cases hl
  split at hl
  · cases hl
  split at hl
  · exact h.tree.hasDirs_nil.locate (fun n => Path.mem_steps) hl
  split at hl
  · exact hs.tree.locateAdrift (fun n => Path.mem_steps) hl
  · rename_i hgone
    exact (hs.tree.hasDirs (hs.cwd (Bool.eq_false_iff.2 hgone))).locate (fun n => Path.mem_steps) hl

theorem IsSound.add {how : LastName} {p : Path} {n : Name} (hs : h.IsSound)
    (hl : h.locate how p = .ok (.vacant l n)) (node : Node) : (h.add (n :: l) node).IsSound where
  tree := by
    obtain ⟨hd, hn⟩ := hs.locate hl
    exact hs.tree.insert hn (hd l List.suffix_rfl) (.inl (vacant_of_locate hl))
  cwd := fun hc => (grows_add node hl).tree.isDir_at (hs.cwd hc)

def StaysSound (h h' : Host) : Prop := h.IsSound → h'.IsSound

instance : IsPreorder Host StaysSound where
  refl _ hs := hs
  trans _ _ _ h₁ h₂ hs := h₂ (h₁ hs)

/-- What a bind makes it makes where it can be. -/
theorem StaysSound.keeps_make (source destination : Path) (readOnly : Bool) :
    Effect.Keeps StaysSound (Bind.make source destination readOnly) := by
  have hfaults : ∀ (h : Host) (faults : List Fault), h.StaysSound { h with faults } :=
    fun h faults hs => ⟨hs.tree, hs.cwd⟩
  have hprepare : ∀ l : Location, Effect.Keeps StaysSound (Bind.prepare l.path destination) :=
    fun l => .prepare (.meetFault hfaults) (fun node hl hs => hs.add hl node) l.path destination
  have hattach : ∀ l : Location, Effect.Keeps StaysSound (Bind.attach l.path destination readOnly) :=
    fun l => .attach (fun request => .issue (.meetFault hfaults) (fun h ms hs => ⟨hs.tree, hs.cwd⟩)
      (fun h c hs => ⟨hs.tree, hs.cwd⟩) request destination) l.path readOnly
  exact .make hprepare hattach

theorem StaysSound.keeps_share (sharedDir : Path) (sandbox container : String) (rootfs : Path)
    (readOnly : Bool) :
    Effect.Keeps StaysSound (Rootfs.share sharedDir sandbox container rootfs readOnly) :=
  .bind (.ofExcept _) fun _ => keeps_make rootfs (Rootfs.target sharedDir sandbox container) readOnly

end

end Host

end SandboxMounts
