import SandboxMounts.Proofs.Isolation

/-!
Ways through a tree without links. The names of a path bring up one location after another; how far a
lookup comes, and how far directories can be made, is a matter of what stands at these.
-/

set_option autoImplicit false

namespace SandboxMounts

def Errno.IsObstacle (e : Errno) : Prop := e = .alreadyExists ∨ e = .notDirectory

namespace Location

def entered (d : Location) (n : Name) : List Location :=
  if n = Name.here ∨ n = Name.up then [] else [n :: d]

/-- The locations that names bring up on the way from a directory. -/
def passes (d : Location) : List Name → List Location
  | [] => []
  | n :: ns => d.entered n ++ passes (d.follow n) ns

def isShort (l : Location) : Bool := l.head?.all (·.length ≤ maxName)

theorem passes_append (d : Location) (ns ms : List Name) :
    d.passes (ns ++ ms) = d.passes ns ++ passes (ns.foldl follow d) ms := by
  induction ns generalizing d with
  | nil => rfl
  | cons n ns ih => rw [List.cons_append, passes, passes, ih, List.foldl_cons, List.append_assoc]

theorem passes_singleton (d : Location) (n : Name) : d.passes [n] = d.entered n := List.append_nil _

theorem entered_entry {d : Location} {n : Name} (hh : n ≠ Name.here) (hu : n ≠ Name.up) :
    d.entered n = [n :: d] := if_neg (by simp [hh, hu])

theorem entered_silent {d : Location} {n : Name} (hn : n = Name.here ∨ n = Name.up) :
    d.entered n = [] :=
  if_pos hn

theorem passes_silent {d : Location} {n : Name} (hn : n = Name.here ∨ n = Name.up) (ns : List Name) :
    d.passes (n :: ns) = passes (d.follow n) ns := by
  rw [passes, entered_silent hn, List.nil_append]

theorem passes_entry {d : Location} {n : Name} (hn : ¬ (n = Name.here ∨ n = Name.up))
    (ns : List Name) : d.passes (n :: ns) = (n :: d) :: passes (n :: d) ns := by
  obtain ⟨hh, hu⟩ := not_or.1 hn
  rw [passes, entered_entry hh hu, follow_entry hh hu, List.singleton_append]

end Location

namespace Tree

def isOpen (t : Tree) (l : Location) : Bool := l.isShort && (t.get? l).all Node.isDir

/-- The directory that the names lead to. A name under which something else stands is reported by
itself only if it is the last of all. -/
def survey (t : Tree) (more : Bool) : Location → List Name → Except Errno Location
  | d, [] => .ok d
  | d, n :: ns =>
    if n = Name.here ∨ n = Name.up then t.survey more (d.follow n) ns
    else if maxName < n.length then .error .nameTooLong
    else
      match t.get? (n :: d) with
      | none => .error .noEntry
      | some node =>
        if node.isDir then t.survey more (n :: d) ns
        else .error (if ns = [] ∧ more = false then .alreadyExists else .notDirectory)

def HasDirs (t : Tree) (d : Location) : Prop := ∀ l, l <:+ d → (t.get? l).any Node.isDir = true

structure IsSound (t : Tree) : Prop where
  entry : ∀ n l node, t.get? (n :: l) = some node → n.IsEntry
  above : ∀ n l node, t.get? (n :: l) = some node → (t.get? l).any Node.isDir = true

def Stops (l : Location) (e : Errno) : Prop := if l.isShort then e.IsObstacle else e = .nameTooLong

/-- `t'` is `t`, and has more where `t` has nothing. -/
def Filled (t : Tree) (more : Location → Option Node) (t' : Tree) : Prop :=
  ∀ l, t'.get? l = (t.get? l).or (more l)

def dirsAt (mode : Nat) (ls : List Location) (l : Location) : Option Node :=
  if l ∈ ls then some (.dir mode) else none

section

variable {t t' t₁ t₂ : Tree} {d l : Location} {n : Name} {ns ms : List Name} {more : Bool} {e : Errno}
  {how : LastName} {s : Bool} {mode : Nat} {ls ks : List Location} {f g : Location → Option Node}

theorem survey_silent (hn : n = Name.here ∨ n = Name.up) :
    t.survey more d (n :: ns) = t.survey more (d.follow n) ns := by
  rw [survey, if_pos hn]

section

variable (hh : n ≠ Name.here) (hu : n ≠ Name.up)
include hh hu

theorem survey_long (hlong : maxName < n.length) :
    t.survey more d (n :: ns) = .error .nameTooLong := by
  rw [survey, if_neg (by simp [hh, hu]), if_pos hlong]

theorem survey_entry (hlong : ¬ maxName < n.length) :
    t.survey more d (n :: ns) =
      match t.get? (n :: d) with
      | none => .error .noEntry
      | some node =>
        if node.isDir then t.survey more (n :: d) ns
        else .error (if ns = [] ∧ more = false then .alreadyExists else .notDirectory) := by
  rw [survey, if_neg (by simp [hh, hu]), if_neg hlong]

end

theorem survey_append (hms : ms ≠ []) :
    t.survey more d (ns ++ ms) = (t.survey true d ns).bind fun l => t.survey more l ms := by
  induction ns generalizing d with
  | nil => rfl
  | cons n ns ih =>
    have hne : ns ++ ms ≠ [] := by simp [hms]
    rw [List.cons_append, survey, survey]
    split
    · exact ih
    split
    · rfl
    split
    · rfl
    split
    · exact ih
    · simp [hne, Except.bind]

theorem HasNoLinks.walk_append (ht : t.HasNoLinks) :
    t.walk how s d (ns ++ [n]) = (t.survey true d ns).bind fun l => t.walk how s l [n] := by
  induction ns generalizing d with
  | nil => rfl
  | cons m ns ih =>
    have hne : ns ++ [n] ≠ [] := by simp
    rw [List.cons_append]
    by_cases hh : m = Name.here
    · subst hh
      rw [walk_here, survey_silent (.inl rfl), Location.follow_here, ih]
    by_cases hu : m = Name.up
    · subst hu
      rw [walk_up, survey_silent (.inr rfl), Location.follow_up, ih]
    rw [Tree.walk, if_neg hh, if_neg hu, if_neg hne]
    by_cases hlong : maxName < m.length
    · rw [survey_long hh hu hlong, if_pos hlong]
      rfl
    rw [survey_entry hh hu hlong, if_neg hlong]
    cases hg : t.get? (m :: d) with
    | none => rfl
    | some node =>
      cases node with
      | dir mode => exact ih
      | link target => exact absurd hg (ht _ _)
      | leaf kind mode content => simp [Node.isDir, Except.bind]

theorem last_of_none (hn : ¬ maxName < n.length) (hg : t.get? (n :: d) = none) :
    t.last how false d n = .ok (.place (.vacant d n)) := by
  simp [Tree.last, hn, hg]

theorem HasNoLinks.last_of_some {node : Node} (ht : t.HasNoLinks) (hn : ¬ maxName < n.length)
    (hg : t.get? (n :: d) = some node) : t.last how false d n = .ok (.place (.node (n :: d))) := by
  cases node with
  | dir mode => simp [Tree.last, hn, hg]
  | link target => exact absurd hg (ht _ _)
  | leaf kind mode content => simp [Tree.last, hn, hg]

theorem last_ok {stop : Stop} (hl : t.last how s d n = .ok stop) :
    ¬ maxName < n.length ∧
      (t.get? (n :: d) = none ∧ stop = .place (.vacant d n) ∨
        (∃ node, t.get? (n :: d) = some node ∧ stop = .place (.node (n :: d))) ∨
        ∃ target, stop = .link d target [] (s || target.endsInSlash)) := by
  unfold Tree.last at hl
  split at hl
  · cases hl
  split at hl
  · cases hl
  refine ⟨‹_›, ?_⟩
  split at hl
  · cases hl
    exact .inl ⟨‹_›, rfl⟩
  · cases hl
    exact .inr (.inl ⟨_, ‹_›, rfl⟩)
  · split at hl <;> cases hl
    · exact .inr (.inl ⟨_, ‹_›, rfl⟩)
    · exact .inr (.inr ⟨_, rfl⟩)
  · split at hl <;> cases hl
    exact .inr (.inl ⟨_, ‹_›, rfl⟩)

theorem isShort_cons : Location.isShort (n :: d) = true ↔ ¬ maxName < n.length := by
  simp [Location.isShort]

theorem isOpen_of_long (hlong : maxName < n.length) : t.isOpen (n :: d) = false := by
  have hno : Location.isShort (n :: d) = false := by simpa [Location.isShort] using hlong
  rw [isOpen, hno, Bool.false_and]

theorem isOpen_of_some {node : Node} (hlong : ¬ maxName < n.length) (hg : t.get? (n :: d) = some node) :
    t.isOpen (n :: d) = node.isDir := by
  rw [isOpen, isShort_cons.2 hlong, hg, Option.all_some, Bool.true_and]

/-- The names lead through exactly when a directory stands at every location that they bring up. -/
theorem survey_eq_ok :
    t.survey more d ns = .ok l ↔
      (∀ k ∈ d.passes ns, t.isOpen k = true ∧ (t.get? k).isSome = true) ∧
        ns.foldl Location.follow d = l := by
  fun_induction t.survey more d ns with
  | case1 d => simp [Location.passes]
  | case2 d n ns hn ih => rw [Location.passes_silent hn, List.foldl_cons, ih]
  | case3 d n ns hn hlong =>
    rw [Location.passes_entry hn]
    simp [isOpen_of_long hlong]
  | case4 d n ns hn hlong hg =>
    rw [Location.passes_entry hn]
    simp [hg]
  | case5 d n ns hn hlong node hg hd ih =>
    obtain ⟨hh, hu⟩ := not_or.1 hn
    rw [Location.passes_entry hn, List.foldl_cons, Location.follow_entry hh hu, ih,
      List.forall_mem_cons, isOpen_of_some hlong hg, hg]
    simp [hd]
  | case6 d n ns hn hlong node hg hd =>
    rw [Location.passes_entry hn, List.forall_mem_cons, isOpen_of_some hlong hg]
    simp [hd]

/-- Where a survey fails for another reason than a gap, there is a first location that stops it, and
all before it are there. -/
theorem exists_stop (hs : t.survey more d ns = .error e) (he : e ≠ .noEntry) :
    ∃ before l after, d.passes ns = before ++ l :: after ∧
      (∀ k ∈ before, t.isOpen k = true ∧ (t.get? k).isSome = true) ∧ t.isOpen l = false ∧
        Stops l e := by
  fun_induction t.survey more d ns with
  | case1 d => cases hs
  | case2 d n ns hn ih =>
    rw [Location.passes_silent hn]
    exact ih hs
  | case3 d n ns hn hlong =>
    cases hs
    have hno : Location.isShort (n :: d) = false := by simpa [Location.isShort] using hlong
    exact ⟨[], n :: d, _, Location.passes_entry hn ns, by simp, isOpen_of_long hlong,
      by simp [Stops, hno]⟩
  | case4 d n ns hn hlong hg =>
    cases hs
    exact absurd rfl he
  | case5 d n ns hn hlong node hg hd ih =>
    obtain ⟨before, l, after, hsplit, hbefore, hl, hstop⟩ := ih hs
    refine ⟨(n :: d) :: before, l, after, ?_, ?_, hl, hstop⟩
    · rw [Location.passes_entry hn, hsplit, List.cons_append]
    · refine List.forall_mem_cons.2 ⟨?_, hbefore⟩
      rw [isOpen_of_some hlong hg, hg]
      exact ⟨hd, rfl⟩
  | case6 d n ns hn hlong node hg hd =>
    cases hs
    refine ⟨[], n :: d, _, Location.passes_entry hn ns, by simp, ?_, ?_⟩
    · rw [isOpen_of_some hlong hg, Bool.eq_false_iff.2 hd]
    · rw [Stops, if_pos (isShort_cons.2 hlong)]
      split
      · exact .inl rfl
      · exact .inr rfl

theorem Extends.survey_eq (he : t.Extends t') (hs : t.survey more d ns ≠ .error .noEntry) :
    t'.survey more d ns = t.survey more d ns := by
  fun_induction t.survey more d ns with
  | case1 d => rfl
  | case2 d n ns hn ih =>
    rw [survey_silent hn]
    exact ih hs
  | case3 d n ns hn hlong => exact survey_long (not_or.1 hn).1 (not_or.1 hn).2 hlong
  | case4 d n ns hn hlong hg => exact absurd rfl hs
  | case5 d n ns hn hlong node hg hd ih =>
    rw [survey_entry (not_or.1 hn).1 (not_or.1 hn).2 hlong, he _ _ hg]
    simp only [hd, if_true]
    exact ih hs
  | case6 d n ns hn hlong node hg hd =>
    rw [survey_entry (not_or.1 hn).1 (not_or.1 hn).2 hlong, he _ _ hg]
    exact if_neg hd

theorem exists_of_mem_passes (hup : Name.up ∉ ns) (hl : l ∈ d.passes ns) :
    ∃ n k, l = n :: k ∧ d <:+ k := by
  induction ns generalizing d with
  | nil => cases hl
  | cons m ns ih =>
    obtain ⟨hm, hns⟩ := not_or.1 (List.mem_cons.not.1 hup)
    rw [Location.passes] at hl
    by_cases hh : m = Name.here
    · subst hh
      rw [Location.entered_silent (.inl rfl), Location.follow_here] at hl
      exact ih hns hl
    · rw [Location.entered_entry hh (Ne.symm hm), Location.follow_entry hh (Ne.symm hm)] at hl
      rcases List.mem_cons.1 hl with rfl | hl
      · exact ⟨m, d, rfl, List.suffix_rfl⟩
      · obtain ⟨n, k, hk, hsuffix⟩ := ih hns hl
        exact ⟨n, k, hk, (List.suffix_cons m d).trans hsuffix⟩

theorem HasDirs.tail (hd : t.HasDirs d) : t.HasDirs d.tail :=
  fun l hl => hd l (hl.trans (List.tail_suffix d))

theorem HasDirs.cons (hd : t.HasDirs d) (hn : (t.get? (n :: d)).any Node.isDir = true) :
    t.HasDirs (n :: d) := by
  intro l hl
  rcases List.suffix_cons_iff.1 hl with rfl | hl
  · exact hn
  · exact hd l hl

theorem HasDirs.follow (hd : t.HasDirs d) (hs : ∀ k ∈ d.entered n, (t.get? k).any Node.isDir = true) :
    t.HasDirs (d.follow n) := by
  by_cases hh : n = Name.here
  · rwa [hh, Location.follow_here]
  by_cases hu : n = Name.up
  · rw [hu, Location.follow_up]
    exact hd.tail
  · rw [Location.entered_entry hh hu] at hs
    rw [Location.follow_entry hh hu]
    exact hd.cons (hs _ (List.mem_singleton_self _))

theorem HasDirs.of_survey (hd : t.HasDirs d) (hs : t.survey more d ns = .ok l) : t.HasDirs l := by
  obtain ⟨hall, rfl⟩ := survey_eq_ok.1 hs
  clear hs
  induction ns generalizing d with
  | nil => exact hd
  | cons n ns ih =>
    rw [Location.passes] at hall
    refine ih (hd.follow fun k hk => ?_) fun k hk => hall k (List.mem_append_right _ hk)
    obtain ⟨hopen, hsome⟩ := hall k (List.mem_append_left _ hk)
    obtain ⟨node, hnode⟩ := Option.isSome_iff_exists.1 hsome
    rw [isOpen, hnode, Bool.and_eq_true] at hopen
    rw [hnode]
    exact hopen.2

theorem IsSound.hasDirs (ht : t.IsSound) (hd : (t.get? d).any Node.isDir = true) : t.HasDirs d := by
  induction d with
  | nil =>
    intro l hl
    rwa [List.suffix_nil.1 hl]
  | cons n d ih =>
    obtain ⟨node, hnode, -⟩ := (Option.any_eq_true _ _).1 hd
    exact (ih (ht.above n d node hnode)).cons hd

/-- After a gap there is nothing, unless `..` leads back: only a name that is too long can stop the
way. -/
theorem IsSound.isShort_of_gap (ht : t.IsSound) (hup : Name.up ∉ ns)
    (hs : t.survey more d ns = .error .noEntry) (hl : l ∈ d.passes ns) (hno : t.isOpen l = false) :
    l.isShort = false := by
  fun_induction t.survey more d ns with
  | case1 d => cases hl
  | case2 d n ns hn ih =>
    rw [Location.passes_silent hn] at hl
    exact ih (not_or.1 (List.mem_cons.not.1 hup)).2 hs hl
  | case3 d n ns hn hlong => cases hs
  | case4 d n ns hn hlong hg =>
    rw [Location.passes_entry hn] at hl
    by_contra hshort
    rw [Bool.not_eq_false] at hshort
    -- what is no gap itself is a node below the gap, and would have a directory there
    obtain ⟨node, hnode⟩ : ∃ node, t.get? l = some node := by
      cases hg' : t.get? l with
      | some node => exact ⟨node, rfl⟩
      | none =>
        rw [isOpen, hshort, hg'] at hno
        cases hno
    rcases List.mem_cons.1 hl with rfl | hl
    · rw [hg] at hnode
      cases hnode
    obtain ⟨m, k, rfl, hsuffix⟩ :=
      exists_of_mem_passes (not_or.1 (List.mem_cons.not.1 hup)).2 hl
    have hd := ht.hasDirs (ht.above m k node hnode) (n :: d) hsuffix
    rw [hg] at hd
    cases hd
  | case5 d n ns hn hlong node hg hd ih =>
    rw [Location.passes_entry hn] at hl
    rcases List.mem_cons.1 hl with rfl | hl
    · rw [isOpen_of_some hlong hg, hd] at hno
      cases hno
    · exact ih (not_or.1 (List.mem_cons.not.1 hup)).2 hs hl
  | case6 d n ns hn hlong node hg hd => split at hs <;> cases hs

theorem IsSound.isSpellable {node : Node} (ht : t.IsSound) (hl : t.get? l = some node) :
    l.IsSpellable := by
  induction l generalizing node with
  | nil => exact fun n hn => by cases hn
  | cons n l ih =>
    obtain ⟨dir, hdir, -⟩ := (Option.any_eq_true _ _).1 (ht.above n l node hl)
    exact List.forall_mem_cons.2 ⟨ht.entry n l node hl, ih hdir⟩

/-! ### Trees that are filled up -/

theorem Filled.extends (hf : t.Filled f t') : t.Extends t' :=
  fun l n hn => by rw [hf l, hn, Option.some_or]

theorem Filled.trans (hf : t.Filled f t₁) (hg : t₁.Filled g t₂) :
    t.Filled (fun l => (f l).or (g l)) t₂ :=
  fun l => by rw [hg l, hf l, Option.or_assoc]

theorem filled_of_there (hls : ∀ l ∈ ls, (t.get? l).isSome = true) : t.Filled (dirsAt mode ls) t := by
  intro l
  rw [dirsAt]
  split
  · obtain ⟨node, hnode⟩ := Option.isSome_iff_exists.1 (hls l ‹_›)
    rw [hnode, Option.some_or]
  · rw [Option.or_none]

theorem isDir_of_dirsAt {node : Node} (hn : dirsAt mode ls l = some node) : node.isDir = true := by
  unfold dirsAt at hn
  split at hn
  · cases hn
    rfl
  · cases hn

theorem dirsAt_append (mode : Nat) (ls ks : List Location) :
    (fun l => (dirsAt mode ls l).or (dirsAt mode ks l)) = dirsAt mode (ls ++ ks) := by
  funext l
  unfold dirsAt
  by_cases hl : l ∈ ls <;> by_cases hk : l ∈ ks <;> simp [hl, hk]

theorem filled_insert (hv : t.get? (n :: d) = none) (node : Node) :
    t.Filled (fun l => if l = n :: d then some node else none) (t.insert (n :: d) node) := by
  intro l
  by_cases hl : l = n :: d
  · simp only [hl, get?_insert_self, hv, if_true, Option.none_or]
  · simp only [get?_insert_of_ne t node hl, if_neg hl, Option.or_none]

theorem filled_of_some {node : Node} (hl : t.get? l = some node) (new : Node) :
    t.Filled (fun k => if k = l then some new else none) t := by
  intro k
  by_cases hk : k = l
  · rw [hk, hl, Option.some_or]
  · simp only [if_neg hk, Option.or_none]

theorem Filled.hasNoLinks (hf : t.Filled f t') (ht : t.HasNoLinks)
    (hlinks : ∀ l target, f l ≠ some (.link target)) : t'.HasNoLinks := by
  intro l target hl
  rw [hf l] at hl
  rcases Option.or_eq_some_iff.1 hl with hl | ⟨-, hl⟩
  · exact ht l target hl
  · exact hlinks l target hl

theorem Extends.hasDirs (he : t.Extends t') (hd : t.HasDirs d) : t'.HasDirs d :=
  fun l hl => he.isDir_at (hd l hl)

theorem Filled.isOpen_eq (hf : t.Filled f t') (hl : ∀ node ∈ f l, node.isDir = true) :
    t'.isOpen l = t.isOpen l := by
  rw [isOpen, isOpen, hf l]
  cases t.get? l with
  | some node => rfl
  | none =>
    rw [Option.none_or]
    cases hfl : f l with
    | none => rfl
    | some node => simp [hl node hfl]

end

end Tree

end SandboxMounts
