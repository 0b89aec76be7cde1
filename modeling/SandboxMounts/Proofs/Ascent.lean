import SandboxMounts.Proofs.Paving
import SandboxMounts.Proofs.Soundness

/-!
The paths above a path. They are spellings of the first of its segments, and each leads one name
further than the one before, wherever a lookup of the path starts.
-/

set_option autoImplicit false

namespace SandboxMounts

namespace Bytes

theorem joinWith_snoc (x : UInt8) (ss : List Bytes) (s : Bytes) :
    ∃ bs, joinWith x (ss ++ [s]) = bs ++ s := by
  induction ss with
  | nil => exact ⟨[], rfl⟩
  | cons u ss ih =>
    obtain ⟨bs, hbs⟩ := ih
    have hne : ss ++ [s] ≠ [] := by simp
    obtain ⟨v, vs, hv⟩ := List.exists_cons_of_ne_nil hne
    refine ⟨u ++ x :: bs, ?_⟩
    rw [List.cons_append, hv, joinWith, ← hv, hbs, List.append_assoc, List.cons_append]
    simp

theorem joinWith_prefix (x : UInt8) {ss us : List Bytes} (hp : ss <+: us) :
    joinWith x ss <+: joinWith x us := by
  induction ss generalizing us with
  | nil => exact List.nil_prefix
  | cons s ss ih =>
    obtain ⟨rest, rfl⟩ := hp
    cases ss with
    | nil =>
      cases rest with
      | nil => exact List.prefix_rfl
      | cons u rest => exact List.prefix_append s _
    | cons u ss =>
      have hrest := ih (List.prefix_append (u :: ss) rest)
      change s ++ x :: joinWith x (u :: ss) <+: s ++ x :: joinWith x (u :: ss ++ rest)
      exact (List.prefix_append_right_inj s).2 (List.cons_prefix_cons.2 ⟨rfl, hrest⟩)

end Bytes

theorem eq_nil_or_snoc {α : Type} {xs us ms : List α} {n : α} (heq : xs ++ [n] = us ++ ms) :
    ms = [] ∨ ∃ ms', ms = ms' ++ [n] ∧ xs = us ++ ms' := by
  rcases List.eq_nil_or_concat ms with rfl | ⟨ms', m, rfl⟩
  · exact .inl rfl
  · rw [List.concat_eq_append, ← List.append_assoc] at heq
    obtain ⟨hinit, hlast⟩ := List.append_inj' heq rfl
    obtain rfl := List.singleton_inj.1 hlast
    exact .inr ⟨ms', List.concat_eq_append, hinit⟩

theorem Name.IsEntry.isSilent_eq_false {n : Name} (hn : n.IsEntry) : n.isSilent = false := by
  simp [Name.isSilent, hn.ne_nil, hn.ne_here]

def Anchor.steps (a : Anchor) : List Name := if a = .here then [Name.here] else []

/-- The names can come after such a beginning: an empty one would put a bare beginning at the root. -/
structure Anchor.Admits (a : Anchor) (ns : List Name) : Prop where
  no_slash : ∀ n ∈ ns, slash ∉ n
  first : a = .bare → ∀ n rest, ns = n :: rest → n = [] → rest = []

theorem Anchor.Admits.of_prefix {a : Anchor} {ns ms : List Name} (ha : a.Admits ms) (hp : ns <+: ms) :
    a.Admits ns where
  no_slash := fun n hn => ha.no_slash n (hp.subset hn)
  first := fun hbare n rest hn hnil => by
    obtain ⟨more, rfl⟩ := hp
    have hrest := ha.first hbare n (rest ++ more) (by rw [hn, List.cons_append]) hnil
    exact (List.append_eq_nil_iff.1 hrest).1

namespace Path

variable {p q : Path} {a : Anchor} {n : Name} {ns ms : List Name}

theorem ofAnchored_anchored (p : Path) : ofAnchored p.anchored.1 p.anchored.2 = p := by
  have hjoin : Bytes.joinWith slash p.segments = p.bytes := Bytes.joinWith_splitWhen slash p.bytes
  obtain ⟨s, ss, hs⟩ := List.exists_cons_of_ne_nil p.segments_ne_nil
  rw [hs] at hjoin
  simp only [anchored, hs]
  split
  · rename_i hroot
    obtain ⟨rfl, hss⟩ := hroot
    obtain ⟨u, us, rfl⟩ := List.exists_cons_of_ne_nil hss
    exact congrArg Path.mk hjoin
  split
  · rename_i hh
    subst hh
    cases ss with
    | nil => exact congrArg Path.mk hjoin
    | cons u us => exact congrArg Path.mk hjoin
  · exact congrArg Path.mk hjoin

theorem steps_ofAnchored (a : Anchor) (hns : ∀ n ∈ ns, slash ∉ n) :
    (ofAnchored a ns).steps = a.steps ++ ns.filter (· ≠ []) := by
  cases ns with
  | nil => cases a <;> rfl
  | cons n ns =>
    rw [steps, segments_ofAnchored a (List.cons_ne_nil n ns) hns, List.filter_append]
    cases a <;> rfl

theorem steps_eq_anchored (p : Path) :
    p.steps = p.anchored.1.steps ++ p.anchored.2.filter (· ≠ []) := by
  rw [← steps_ofAnchored _ p.slash_notMem_anchored, ofAnchored_anchored]

theorem isAbsolute_ofAnchored (ha : a.Admits ns) :
    (ofAnchored a ns).isAbsolute = decide (a = .root) := by
  cases a with
  | root => cases ns <;> rfl
  | here => cases ns <;> rfl
  | bare =>
    cases ns with
    | nil => rfl
    | cons n rest =>
      cases n with
      | nil =>
        rw [ha.first rfl [] rest rfl rfl]
        rfl
      | cons b bs =>
        have hb : b ≠ slash := fun hc => ha.no_slash (b :: bs) List.mem_cons_self (by simp [hc])
        simp [ofAnchored, Bytes.joinWith_cons_cons, isAbsolute, hb]

theorem anchored_admits (p : Path) : p.anchored.1.Admits p.anchored.2 where
  no_slash := p.slash_notMem_anchored
  first := fun hbare n rest hn => by
    obtain ⟨s, ss, hs, -, hnil⟩ := anchored_bare hbare
    rw [hs] at hn
    cases hn
    exact hnil

theorem isAbsolute_eq_anchored (p : Path) : p.isAbsolute = decide (p.anchored.1 = .root) := by
  have habs := isAbsolute_ofAnchored p.anchored_admits
  rwa [ofAnchored_anchored] at habs

theorem hasNul_of_prefix (hp : p.bytes <+: q.bytes) (hq : q.hasNul = false) : p.hasNul = false := by
  obtain ⟨rest, hrest⟩ := hp
  rw [hasNul, ← hrest, List.contains_append, Bool.or_eq_false_iff] at hq
  exact hq.1

theorem ofAnchored_snoc (a : Anchor) (ns : List Name) (n : Name) :
    ∃ bs, (ofAnchored a (ns ++ [n])).bytes = bs ++ n := by
  obtain ⟨bs, hbs⟩ := Bytes.joinWith_snoc slash ns n
  have hne : ns ++ [n] ≠ [] := by simp
  cases a with
  | root => exact ⟨slash :: bs, by rw [ofAnchored, hbs]; rfl⟩
  | here =>
    obtain ⟨m, rest, hm⟩ := List.exists_cons_of_ne_nil hne
    refine ⟨dot :: slash :: bs, ?_⟩
    rw [hm] at hbs ⊢
    rw [ofAnchored, hbs]
    · rfl
    · simp
  | bare => exact ⟨bs, hbs⟩

theorem isEmpty_ofAnchored_snoc (a : Anchor) (ns : List Name) (hn : n ≠ []) :
    (ofAnchored a (ns ++ [n])).isEmpty = false := by
  obtain ⟨bs, hbs⟩ := ofAnchored_snoc a ns n
  simp [isEmpty, hbs, hn]

theorem endsInSlash_ofAnchored_snoc (a : Anchor) (ns : List Name) (hn : n ≠ []) (hno : slash ∉ n) :
    (ofAnchored a (ns ++ [n])).endsInSlash = false := by
  obtain ⟨bs, hbs⟩ := ofAnchored_snoc a ns n
  rw [endsInSlash, hbs]
  exact endsInSlash_append bs hn hno

theorem ofAnchored_prefix (a : Anchor) (hp : ns <+: ms) :
    (ofAnchored a ns).bytes <+: (ofAnchored a ms).bytes := by
  have hjoin := Bytes.joinWith_prefix slash hp
  cases a with
  | root => exact List.cons_prefix_cons.2 ⟨rfl, hjoin⟩
  | here =>
    cases ns with
    | nil =>
      cases ms with
      | nil => exact List.prefix_rfl
      | cons m ms => exact List.prefix_append [dot] _
    | cons n ns =>
      obtain ⟨rest, rfl⟩ := hp
      exact List.cons_prefix_cons.2 ⟨rfl, List.cons_prefix_cons.2 ⟨rfl, hjoin⟩⟩
  | bare => exact hjoin

theorem segments_join_of_name (hp : p.bytes ≠ []) (hslash : p.endsInSlash = false) (hn : n.IsEntry) :
    (p.join ⟨n⟩).segments = p.segments ++ [n] := by
  have hjoin : (p.join ⟨n⟩).bytes = p.bytes ++ slash :: n := by
    simp [join, isAbsolute_of_name hn.ne_nil hn.no_slash, isEmpty, hp, hslash]
  rw [segments, hjoin, Bytes.splitWhen_append p.bytes (by simp) (Name.clean_of_no_slash hn.no_slash)]
  rfl

theorem anchored_join_of_name (hp : p.bytes ≠ []) (hslash : p.endsInSlash = false) (hn : n.IsEntry) :
    (p.join ⟨n⟩).anchored = (p.anchored.1, p.anchored.2 ++ [n]) := by
  obtain ⟨s, ss, hs⟩ := List.exists_cons_of_ne_nil p.segments_ne_nil
  have hjoin := segments_join_of_name hp hslash hn
  have hss : s = [] → ss ≠ [] := fun hnil hc => hp <| by
    have hback := Bytes.joinWith_splitWhen slash p.bytes
    rw [← hback]
    change Bytes.joinWith slash p.segments = []
    rw [hs, hnil, hc]
    rfl
  rw [hs, List.cons_append] at hjoin
  rw [anchored_eq hs hss, anchored_eq hjoin (by simp), Name.afterAnchor_append]

theorem parents_join_of_name (hp : p.bytes ≠ []) (hslash : p.endsInSlash = false) (hn : n.IsEntry) :
    (p.join ⟨n⟩).parents = above p.anchored.1 p.anchored.2.reverse := by
  rw [parents, anchored_join_of_name hp hslash hn, List.reverse_append, List.reverse_singleton,
    List.singleton_append, List.dropWhile_cons_of_neg (by simp [hn.isSilent_eq_false])]

theorem above_anchored (hq : q.anchored.2 = ns ++ [n]) (hn : n.isSilent = false) :
    above q.anchored.1 q.anchored.2.reverse = q :: above q.anchored.1 ns.reverse := by
  rw [hq, List.reverse_append, List.reverse_singleton, List.singleton_append, above,
    if_neg (by simp [hn]), List.reverse_cons, List.reverse_reverse, ← hq, ofAnchored_anchored]

theorem exists_of_mem_above (hq : q ∈ above a ns.reverse) :
    q = ⟨[]⟩ ∨ ∃ ms, ms <+: ns ∧ q = ofAnchored a ms := by
  induction ns using List.reverseRecOn with
  | nil =>
    cases a with
    | root => exact .inr ⟨[], List.prefix_rfl, List.mem_singleton.1 hq⟩
    | here =>
      rcases List.mem_cons.1 hq with rfl | hq
      · exact .inr ⟨[], List.prefix_rfl, rfl⟩
      · exact .inl (List.mem_singleton.1 hq)
    | bare => exact .inl (List.mem_singleton.1 hq)
  | append_singleton ns n ih =>
    have hrest : q ∈ above a ns.reverse → q = ⟨[]⟩ ∨ ∃ ms, ms <+: ns ++ [n] ∧ q = ofAnchored a ms := by
      intro hq
      rcases ih hq with hq | ⟨ms, hms, hq⟩
      · exact .inl hq
      · exact .inr ⟨ms, hms.trans (List.prefix_append ns [n]), hq⟩
    rw [List.reverse_append, List.reverse_singleton, List.singleton_append, above] at hq
    split at hq
    · exact hrest hq
    rcases List.mem_cons.1 hq with rfl | hq
    · exact .inr ⟨ns ++ [n], List.prefix_rfl, by rw [List.reverse_cons, List.reverse_reverse]⟩
    · exact hrest hq

end Path

namespace Tree

/-- From the removed directory `l` the names get back to the directory `d`, there and in every larger
tree. -/
def Lands (t : Tree) (l : Location) (us : List Name) (d : Location) : Prop :=
  (t.get? d).any Node.isDir = true ∧ ∀ t', t.Extends t' → ∀ how s ns,
    t'.locateAdrift how s l (us ++ ns) = t'.locate how maxLinks d ns s

/-- From the removed directory `l` no name can be looked up after these names, or before. -/
structure IsLost (t : Tree) (l : Location) (ns : List Name) : Prop where
  further : ∀ n rest, n ≠ Name.here → n ≠ Name.up → ∀ how s,
    t.locateAdrift how s l (ns ++ n :: rest) = .error .noEntry
  before : ∀ ms, ms <+: ns → (∀ how s, t.locateAdrift how s l ms = .error .noEntry) ∨
    ∃ k, ∀ how s, t.locateAdrift how s l ms = .ok (.adrift k)

section

variable {t : Tree} {l : Location} {n : Name} {ns us : List Name}

theorem locate_dots {how : LastName} {links : Nat} {s : Bool}
    (hus : ∀ n ∈ us, n = Name.here ∨ n = Name.up) :
    t.locate how links l (us ++ ns) s = t.locate how links (us.foldl Location.follow l) ns s := by
  induction us generalizing l with
  | nil => rfl
  | cons u us ih =>
    obtain ⟨hu, hrest⟩ := List.forall_mem_cons.1 hus
    rcases hu with rfl | rfl
    · rw [List.cons_append, locate_here, List.foldl_cons, Location.follow_here, ih hrest]
    · rw [List.cons_append, locate_up, List.foldl_cons, Location.follow_up, ih hrest]

theorem IsLost.nil : t.IsLost l [] where
  further := fun n rest hh hu how s => by rw [List.nil_append, locateAdrift, if_neg hh, if_neg hu]
  before := fun ms hms => by
    rw [List.prefix_nil.1 hms]
    exact .inr ⟨l, fun _ _ => rfl⟩

theorem IsLost.cons {l' : Location} (hl : t.IsLost l' ns)
    (hstep : ∀ how s ms, t.locateAdrift how s l (n :: ms) = t.locateAdrift how s l' ms) :
    t.IsLost l (n :: ns) where
  further := fun m rest hh hu how s => by
    rw [List.cons_append, hstep]
    exact hl.further m rest hh hu how s
  before := fun ms hms => by
    rcases List.prefix_cons_iff.1 hms with rfl | ⟨ms', rfl, hms'⟩
    · exact .inr ⟨l, fun _ _ => rfl⟩
    · simp only [hstep]
      exact hl.before ms' hms'

theorem IsLost.entry (hh : n ≠ Name.here) (hu : n ≠ Name.up) : t.IsLost l (n :: ns) where
  further := fun m rest _ _ how s => by rw [List.cons_append, locateAdrift, if_neg hh, if_neg hu]
  before := fun ms hms => by
    rcases List.prefix_cons_iff.1 hms with rfl | ⟨ms', rfl, -⟩
    · exact .inr ⟨l, fun _ _ => rfl⟩
    · exact .inl fun how s => by rw [locateAdrift, if_neg hh, if_neg hu]

/-- From a removed directory names first get back to a directory that is there, or never. -/
theorem lands_or_isLost (t : Tree) (l : Location) (ns : List Name) :
    (∃ us rest, ns = us ++ rest ∧ (∀ n ∈ us, n = Name.here ∨ n = Name.up) ∧
      t.Lands l us (us.foldl Location.follow l)) ∨ t.IsLost l ns := by
  induction ns generalizing l with
  | nil => exact .inr .nil
  | cons n ns ih =>
    by_cases hh : n = Name.here
    · subst hh
      rcases ih l with ⟨us, rest, rfl, hus, hd, hlands⟩ | hlost
      · refine .inl ⟨Name.here :: us, rest, rfl, List.forall_mem_cons.2 ⟨.inl rfl, hus⟩, ?_⟩
        rw [List.foldl_cons, Location.follow_here]
        refine ⟨hd, fun t' he how s ms => ?_⟩
        rw [List.cons_append, locateAdrift_here, hlands t' he]
      · exact .inr (hlost.cons fun _ _ _ => locateAdrift_here)
    by_cases hu : n = Name.up
    · subst hu
      cases hdir : (t.get? l.tail).any Node.isDir with
      | true =>
        -- the removed directories end here, in every larger tree too
        refine .inl ⟨[Name.up], ns, rfl, by simp, ?_⟩
        rw [List.foldl_cons, Location.follow_up]
        refine ⟨hdir, fun t' he how s ms => ?_⟩
        rw [List.singleton_append, locateAdrift_up, if_pos (he.isDir_at hdir)]
        rfl
      | false =>
        rcases ih l.tail with ⟨us, rest, rfl, hus, hd, hlands⟩ | hlost
        · refine .inl ⟨Name.up :: us, rest, rfl, List.forall_mem_cons.2 ⟨.inr rfl, hus⟩, ?_⟩
          rw [List.foldl_cons, Location.follow_up]
          refine ⟨hd, fun t' he how s ms => ?_⟩
          -- a larger tree may have the directory again, from which the rest leads up as well
          rw [List.cons_append, locateAdrift_up, locate_dots hus, hlands t' he, ite_self]
        · refine .inr (hlost.cons fun _ _ _ => ?_)
          rw [locateAdrift_up, if_neg (by simp [hdir])]
    · exact .inr (.entry hh hu)

theorem IsLost.not_lands {d : Location} (hl : t.IsLost l (us ++ ns)) : ¬ t.Lands l us d := by
  intro hlands
  have hback := hlands.2 t (refl_of Extends t) .kept false []
  rw [List.append_nil, locate_nil] at hback
  rcases hl.before us (List.prefix_append us ns) with he | ⟨k, hk⟩
  · rw [he] at hback
    cases hback
  · rw [hk] at hback
    cases hback

theorem IsLost.of_extends {t' : Tree} (hl : t.IsLost l ns) (he : t'.Extends t) : t'.IsLost l ns := by
  rcases lands_or_isLost t' l ns with ⟨us, rest, rfl, -, hd, hlands⟩ | hlost
  · refine absurd ⟨he.isDir_at hd, fun t'' he' => ?_⟩ (hl.not_lands (d := us.foldl Location.follow l))
    exact hlands t'' (trans_of Extends he he')
  · exact hlost

theorem IsLost.append (hl : t.IsLost l ns) (hh : n ≠ Name.here) (hu : n ≠ Name.up) (rest : List Name) :
    t.IsLost l (ns ++ n :: rest) where
  further := fun m more _ _ how s => by
    rw [List.append_assoc]
    exact hl.further n (rest ++ m :: more) hh hu how s
  before := fun ms hms => by
    have hprefix := List.prefix_append ns (n :: rest)
    rcases List.prefix_or_prefix_of_prefix hms hprefix with hms' | ⟨more, rfl⟩
    · exact hl.before ms hms'
    · have hmore := (List.prefix_append_right_inj ns).1 hms
      rcases List.prefix_cons_iff.1 hmore with rfl | ⟨more', rfl, -⟩
      · rw [List.append_nil]
        exact hl.before ns List.prefix_rfl
      · exact .inl fun how s => hl.further n more' hh hu how s

end

end Tree

namespace Host

def Starts (h : Host) (absolute : Bool) (us : List Name) (d : Location) : Prop :=
  ∀ h', h.Grows h' → ∀ (p : Path) ns, p.bytes.length < maxPath → p.isEmpty = false →
    p.isAbsolute = absolute → p.steps = us ++ ns →
    ∀ how, h'.locate how p = h'.tree.locate how maxLinks d ns p.endsInSlash

section

variable {h : Host} {d : Location} {absolute : Bool} {ns us : List Name} {a : Anchor}

theorem starts_absolute (h : Host) : h.Starts true [] [] := by
  intro h' hg p ns hlen hempty habs hsteps how
  rw [locate_eq hlen hempty (by simp [habs]), Path.start, if_pos habs, hsteps]
  rfl

theorem starts_cwd (hc : h.cwdGone = false) : h.Starts false [] h.cwd := by
  intro h' hg p ns hlen hempty habs hsteps how
  rw [locate_eq hlen hempty fun _ => hg.cwdGone.trans hc, Path.start, habs, hg.cwd, hsteps]
  rfl

theorem locate_of_gone {p : Path} {how : LastName} (hc : h.cwdGone = true)
    (hlen : p.bytes.length < maxPath)
    (hempty : p.isEmpty = false) (habs : p.isAbsolute = false) :
    h.locate how p = h.tree.locateAdrift how p.endsInSlash h.cwd p.steps := by
  rw [locate, if_neg (Nat.not_le.2 hlen), hempty, habs, hc]
  rfl

theorem starts_adrift (hc : h.cwdGone = true) (hl : h.tree.Lands h.cwd us d) :
    h.Starts false us d := by
  intro h' hg p ns hlen hempty habs hsteps how
  rw [locate_of_gone (hg.cwdGone.trans hc) hlen hempty habs, hg.cwd, hsteps,
    hl.2 h'.tree hg.tree how p.endsInSlash ns]

theorem starts_or_isLost (hs : h.IsSound) (absolute : Bool) (ns : List Name) :
    (∃ us rest d, ns = us ++ rest ∧ h.Starts absolute us d ∧ h.tree.HasDirs d) ∨
      absolute = false ∧ h.cwdGone = true ∧ h.tree.IsLost h.cwd ns := by
  cases absolute with
  | true => exact .inl ⟨[], ns, [], rfl, h.starts_absolute, h.tree.hasDirs_nil⟩
  | false =>
    cases hc : h.cwdGone with
    | false => exact .inl ⟨[], ns, h.cwd, rfl, starts_cwd hc, hs.tree.hasDirs (hs.cwd hc)⟩
    | true =>
      rcases h.tree.lands_or_isLost h.cwd ns with ⟨us, rest, rfl, -, hlands⟩ | hlost
      · exact .inl ⟨us, rest, _, rfl, starts_adrift hc hlands, hs.tree.hasDirs hlands.1⟩
      · exact .inr ⟨rfl, rfl, hlost⟩

theorem Starts.looks {n : Name} {ms : List Name} (hs : h.Starts (decide (a = .root)) us d)
    (ha : a.Admits (ns ++ [n])) (hn : n ≠ [])
    (hlen : (Path.ofAnchored a (ns ++ [n])).bytes.length < maxPath)
    (hms : a.steps ++ (ns ++ [n]).filter (· ≠ []) = us ++ ms) :
    ∀ h', h.Grows h' → h'.Looks (Path.ofAnchored a (ns ++ [n])) d ms := by
  intro h' hg how
  rw [← Path.endsInSlash_ofAnchored_snoc a ns hn (ha.no_slash n (by simp))]
  refine hs h' hg _ ms hlen (Path.isEmpty_ofAnchored_snoc a ns hn)
    (Path.isAbsolute_ofAnchored ha) ?_ how
  rw [Path.steps_ofAnchored a ha.no_slash, hms]

/-- Above a path that is looked up from `d` there is a trail that goes on from there. -/
theorem trail_above (hs : h.Starts (decide (a = .root)) us d) (ha : a.Admits ns)
    (hlen : (Path.ofAnchored a ns).bytes.length < maxPath)
    (hnul : (Path.ofAnchored a ns).hasNul = false)
    {ms : List Name} (hms : a.steps ++ ns.filter (· ≠ []) = us ++ ms) :
    h.Trail d ms (Path.above a ns.reverse) := by
  -- the paths above are got by taking names off the end
  induction ns using List.reverseRecOn generalizing ms with
  | nil =>
    rw [List.filter_nil, List.append_nil] at hms
    cases a with
    | root =>
      obtain rfl := (List.nil_eq_append_iff.1 hms).2
      exact .start _
    | bare =>
      obtain rfl := (List.nil_eq_append_iff.1 hms).2
      exact .start _
    | here =>
      have hone : [] ++ [Name.here] = us ++ ms := hms
      rcases eq_nil_or_snoc hone with rfl | ⟨ms', rfl, hinit⟩
      · exact .start _
      · obtain rfl := (List.nil_eq_append_iff.1 hinit).2
        exact .here (.start _)
  | append_singleton ns n ih =>
    have hprefix := Path.ofAnchored_prefix a (List.prefix_append ns [n])
    have hbefore : ∀ {ms}, a.steps ++ ns.filter (· ≠ []) = us ++ ms →
        h.Trail d ms (Path.above a ns.reverse) :=
      ih (ha.of_prefix (List.prefix_append ns [n])) (Nat.lt_of_le_of_lt hprefix.length_le hlen)
        (Path.hasNul_of_prefix hprefix hnul)
    rw [List.reverse_append, List.reverse_singleton, List.singleton_append, Path.above]
    by_cases hnil : n = []
    · rw [if_pos (by simp [hnil, Name.isSilent])]
      rw [List.filter_append, List.filter_cons_of_neg (by simp [hnil]), List.filter_nil,
        List.append_nil] at hms
      exact hbefore hms
    have hlooks := hs.looks ha hnil hlen hms
    rw [List.filter_append, List.filter_cons_of_pos (by simp [hnil]), List.filter_nil,
      ← List.append_assoc] at hms
    rcases eq_nil_or_snoc hms with rfl | ⟨ms', rfl, hinit⟩
    · exact .start _
    by_cases hh : n = Name.here
    · rw [if_pos (by simp [hh, Name.isSilent]), hh]
      exact .here (hbefore hinit)
    · rw [if_neg (by simp [hnil, hh, Name.isSilent]), List.reverse_cons, List.reverse_reverse]
      exact .step (hbefore hinit) (Path.isEmpty_ofAnchored_snoc a ns hnil) hnul hlooks

/-- At this path nothing can be made, and nothing is missing but what leads nowhere. -/
def IsStuck (h : Host) (p : Path) : Prop :=
  p.isEmpty = true ∨ p.hasNul = false ∧
    ((∀ how, h.locate how p = .error .noEntry) ∨ ∃ l, ∀ how, h.locate how p = .ok (.adrift l))

theorem mkdirs_of_stuck {ps : List Path} (hf : h.faults = []) (hps : ∀ p ∈ ps, h.IsStuck p) :
    mkdirs ps h = (.ok (), h) ∨ mkdirs ps h = (.error (.os .noEntry), h) := by
  induction ps with
  | nil => exact .inl rfl
  | cons p ps ih =>
    obtain ⟨hp, hrest⟩ := List.forall_mem_cons.1 hps
    cases hempty : p.isEmpty with
    | true =>
      left
      rw [mkdirs, hempty, if_pos rfl]
      rfl
    | false =>
      rcases hp with hp | ⟨hnul, hno | ⟨l, hl⟩⟩
      · rw [hempty] at hp
        cases hp
      · have hm := mkdirOrFind_of_error hf hnul (hno .kept)
        right
        rw [mkdirs_of_gap hempty hm]
        rcases ih hrest with hok | herror
        · exact (Effect.bind_of_ok hok).trans hm
        · exact Effect.bind_of_error herror
      · exact .inl (mkdirs_of_stop hempty (mkdirOrFind_of_adrift hf hnul hl) (by simp))

section

variable {q : Path} (hc : h.cwdGone = true) (hq : q.isAbsolute = false)
  (hlen : q.bytes.length < maxPath)
  (hnul : q.hasNul = false)
include hc hq hlen hnul

theorem isStuck_of_mem_above {p : Path} {ms : List Name} (hl : h.tree.IsLost h.cwd q.steps)
    (hms : ms <+: q.anchored.2) (hp : p ∈ Path.above q.anchored.1 ms.reverse) : h.IsStuck p := by
  rcases Path.exists_of_mem_above hp with rfl | ⟨ks, hks, rfl⟩
  · exact .inl rfl
  have hbegins := hks.trans hms
  have hadmits := q.anchored_admits.of_prefix hbegins
  have hbytes := Path.ofAnchored_prefix q.anchored.1 hbegins
  rw [Path.ofAnchored_anchored] at hbytes
  have hsteps : (Path.ofAnchored q.anchored.1 ks).steps <+: q.steps := by
    rw [Path.steps_ofAnchored _ hadmits.no_slash, Path.steps_eq_anchored q]
    exact (List.prefix_append_right_inj _).2 (hbegins.filter _)
  have habs : (Path.ofAnchored q.anchored.1 ks).isAbsolute = false := by
    rw [Path.isAbsolute_ofAnchored hadmits, ← q.isAbsolute_eq_anchored, hq]
  cases hempty : (Path.ofAnchored q.anchored.1 ks).isEmpty with
  | true => exact .inl hempty
  | false =>
    refine .inr ⟨Path.hasNul_of_prefix hbytes hnul, ?_⟩
    simp only [locate_of_gone hc (Nat.lt_of_le_of_lt hbytes.length_le hlen) hempty habs]
    rcases hl.before _ hsteps with hno | ⟨k, hk⟩
    · exact .inl fun how => hno how _
    · exact .inr ⟨k, fun how => hk how _⟩

/-- Nothing is made above a path from a removed directory that leads back nowhere. -/
theorem mkdirs_of_isLost {ns ms rest : List Name} {n m : Name} (hf : h.faults = [])
    (hl : h.tree.IsLost h.cwd ns) (hsteps : q.steps = ns ++ n :: rest) (hn : n.IsEntry)
    (hlast : q.anchored.2 = ms ++ [m]) (hm : m.IsEntry) :
    mkdirs (Path.above q.anchored.1 q.anchored.2.reverse) h = (.error (.os .noEntry), h) := by
  have hlost := hl.append hn.ne_here hn.ne_up rest
  rw [← hsteps] at hlost
  have hempty : q.isEmpty = false := by
    have hsnoc := Path.isEmpty_ofAnchored_snoc q.anchored.1 ms hm.ne_nil
    rwa [← hlast, Path.ofAnchored_anchored] at hsnoc
  have hself : mkdirOrFind q h = (.error (.os .noEntry), h) := by
    refine mkdirOrFind_of_error hf hnul ?_
    rw [locate_of_gone hc hlen hempty hq, hsteps]
    exact hl.further n rest hn.ne_here hn.ne_up _ _
  have hprefix : ms <+: q.anchored.2 := by
    rw [hlast]
    exact List.prefix_append ms [m]
  rw [Path.above_anchored hlast hm.isSilent_eq_false, mkdirs_of_gap hempty hself]
  have hstuck := fun p => isStuck_of_mem_above (p := p) hc hq hlen hnul hlost hprefix
  rcases mkdirs_of_stuck hf hstuck with hok | herror
  · exact (Effect.bind_of_ok hok).trans hself
  · exact Effect.bind_of_error herror

end

end

end Host

end SandboxMounts
