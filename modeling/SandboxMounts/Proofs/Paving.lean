import Mathlib.Data.List.TakeWhile
import SandboxMounts.Proofs.Passage
import SandboxMounts.Proofs.Shape

/-!
Making directories along a way. On a host without links and faults a way is paved as far as it is open:
whatever is missing before the first location that is not open is made, and nothing else.
-/

set_option autoImplicit false

namespace SandboxMounts

namespace Tree

def stop? (t : Tree) (ls : List Location) : Option Location := ls.find? fun l => !t.isOpen l

/-- From `t` the way along the names has been paved as far as it is open. That the first location to
stop it is said to stand there already, or to be no directory, depends on who comes first; but where
a plain survey sees the obstacle its verdict is given, but for a `.` at the end, for which nothing
is made. -/
structure Paves (t : Tree) (mode : Nat) (d : Location) (ns : List Name) (r : Except IoError Unit)
    (t' : Tree) : Prop where
  tree : t.Filled (dirsAt mode ((d.passes ns).takeWhile t.isOpen)) t'
  through : t.stop? (d.passes ns) = none → r = .ok ()
  stopped : ∀ l, t.stop? (d.passes ns) = some l → ∃ e, r = .error (.os e) ∧ Stops l e
  surveyed : ns.getLast? ≠ some Name.here → ∀ e, t.survey false d ns = .error e → e ≠ .noEntry →
    r = .error (.os e)

section

variable {t t' t₁ t₂ : Tree} {d l : Location} {n : Name} {ns : List Name} {e : Errno} {mode : Nat}
  {r : Except IoError Unit} {ls ks before after : List Location}

theorem stop?_eq_none : t.stop? ls = none ↔ ∀ k ∈ ls, t.isOpen k = true := by
  simp [stop?, List.find?_eq_none]

theorem stop?_eq_some :
    t.stop? ls = some l ↔ t.isOpen l = false ∧
      ∃ before after, ls = before ++ l :: after ∧ ∀ k ∈ before, t.isOpen k = true := by
  simp [stop?, List.find?_eq_some_iff_append]

theorem takeWhile_of_open (hls : ∀ k ∈ ls, t.isOpen k = true) (ks : List Location) :
    (ls ++ ks).takeWhile t.isOpen = ls ++ ks.takeWhile t.isOpen :=
  List.takeWhile_append_of_pos hls

theorem takeWhile_of_stop (hbefore : ∀ k ∈ before, t.isOpen k = true) (hl : t.isOpen l = false) :
    (before ++ l :: after).takeWhile t.isOpen = before := by
  rw [takeWhile_of_open hbefore, List.takeWhile_cons_of_neg (by simp [hl]), List.append_nil]

theorem stop?_append_of_open (hls : ∀ k ∈ ls, t.isOpen k = true) :
    t.stop? (ls ++ ks) = t.stop? ks := by
  have hnone : ls.find? (fun l => !t.isOpen l) = none := stop?_eq_none.2 hls
  rw [stop?, List.find?_append, hnone, Option.none_or]
  rfl

theorem passes_snoc (hl : ns.foldl Location.follow d = l) :
    d.passes (ns ++ [n]) = d.passes ns ++ l.entered n := by
  rw [Location.passes_append, hl, Location.passes_singleton]

namespace Paves

theorem isOpen_eq (hp : t.Paves mode d ns r t') : t'.isOpen = t.isOpen :=
  funext fun _ => hp.tree.isOpen_eq fun _ hn => isDir_of_dirsAt hn

theorem hasNoLinks (hp : t.Paves mode d ns r t') (ht : t.HasNoLinks) : t'.HasNoLinks :=
  hp.tree.hasNoLinks ht fun _ _ hl => by cases isDir_of_dirsAt hl

theorem open_of_ok (hp : t.Paves mode d ns (.ok ()) t') : ∀ k ∈ d.passes ns, t.isOpen k = true :=
  stop?_eq_none.1 <| by
    cases hfirst : t.stop? (d.passes ns) with
    | none => rfl
    | some l =>
      obtain ⟨e, he, -⟩ := hp.stopped l hfirst
      cases he

theorem filled_of_ok (hp : t.Paves mode d ns (.ok ()) t') :
    t.Filled (dirsAt mode (d.passes ns)) t' := by
  have htree := hp.tree
  rwa [List.takeWhile_eq_self_iff.2 hp.open_of_ok] at htree

theorem snoc_of_there (hs : t.survey true d ns = .ok l) (hp : t.Paves mode l [n] r t') :
    t.Paves mode d (ns ++ [n]) r t' := by
  obtain ⟨hthere, hl⟩ := survey_eq_ok.1 hs
  have hopen : ∀ k ∈ d.passes ns, t.isOpen k = true := fun k hk => (hthere k hk).1
  have hpasses : l.passes [n] = l.entered n := Location.passes_singleton l n
  constructor
  · have hthere' : t.Filled (dirsAt mode (d.passes ns)) t :=
      filled_of_there fun k hk => (hthere k hk).2
    have hall := hthere'.trans hp.tree
    rwa [dirsAt_append, hpasses, ← takeWhile_of_open hopen, ← passes_snoc hl] at hall
  · rw [passes_snoc hl, stop?_append_of_open hopen, ← hpasses]
    exact hp.through
  · rw [passes_snoc hl, stop?_append_of_open hopen, ← hpasses]
    exact hp.stopped
  · rw [survey_append (List.cons_ne_nil n []), hs, List.getLast?_append]
    exact hp.surveyed

theorem of_survey (hs : t.survey false d ns = .error e) (he : e ≠ .noEntry) :
    t.Paves mode d ns (.error (.os e)) t := by
  obtain ⟨before, l, after, hsplit, hbefore, hl, hstop⟩ := exists_stop hs he
  have hopen : ∀ k ∈ before, t.isOpen k = true := fun k hk => (hbefore k hk).1
  have hfirst : t.stop? (d.passes ns) = some l := stop?_eq_some.2 ⟨hl, before, after, hsplit, hopen⟩
  constructor
  · rw [hsplit, takeWhile_of_stop hopen hl]
    exact filled_of_there fun k hk => (hbefore k hk).2
  · intro hnone
    rw [hfirst] at hnone
    cases hnone
  · intro k hk
    rw [hfirst] at hk
    cases hk
    exact ⟨e, rfl, hstop⟩
  · intro _ e' he' _
    rw [hs] at he'
    cases he'
    rfl

theorem snoc_here (hp : t.Paves mode d ns r t') : t.Paves mode d (ns ++ [Name.here]) r t' := by
  have hpasses : d.passes (ns ++ [Name.here]) = d.passes ns := by
    rw [passes_snoc rfl, Location.entered_silent (.inl rfl), List.append_nil]
  constructor
  · rw [hpasses]
    exact hp.tree
  · rw [hpasses]
    exact hp.through
  · rw [hpasses]
    exact hp.stopped
  · intro hlast
    simp at hlast

theorem snoc_of_obstacle (hs : t.survey true d ns = .error e) (he : e ≠ .noEntry) (n : Name) :
    t.Paves mode d (ns ++ [n]) (.error (.os e)) t := by
  refine of_survey ?_ he
  rw [survey_append (List.cons_ne_nil n []), hs]
  rfl

theorem of_open (hopen : ∀ k ∈ d.passes ns, t.isOpen k = true)
    (htree : t.Filled (dirsAt mode (d.passes ns)) t') : t.Paves mode d ns (.ok ()) t' := by
  have hnone : t.stop? (d.passes ns) = none := stop?_eq_none.2 hopen
  constructor
  · rwa [List.takeWhile_eq_self_iff.2 hopen]
  · exact fun _ => rfl
  · intro l hl
    rw [hnone] at hl
    cases hl
  · intro _ e he hne
    obtain ⟨before, l, after, hsplit, -, hl, -⟩ := exists_stop he hne
    have hmem : l ∈ d.passes ns := by simp [hsplit]
    rw [hopen l hmem] at hl
    cases hl

theorem snoc_of_stopped {cause : IoError} (hs : t.survey true d ns = .error .noEntry)
    (hp : t.Paves mode d ns (.error cause) t₁) : t.Paves mode d (ns ++ [n]) (.error cause) t₁ := by
  obtain ⟨l, hfirst⟩ : ∃ l, t.stop? (d.passes ns) = some l := by
    cases hfirst : t.stop? (d.passes ns) with
    | none => cases hp.through hfirst
    | some l => exact ⟨l, rfl⟩
  obtain ⟨hl, before, after, hsplit, hopen⟩ := stop?_eq_some.1 hfirst
  have hpasses : d.passes (ns ++ [n]) =
      before ++ l :: (after ++ (ns.foldl Location.follow d).entered n) := by
    rw [passes_snoc rfl, hsplit, List.append_assoc, List.cons_append]
  have hfirst' : t.stop? (d.passes (ns ++ [n])) = some l :=
    stop?_eq_some.2 ⟨hl, before, _, hpasses, hopen⟩
  constructor
  · have htree := hp.tree
    rw [hsplit, takeWhile_of_stop hopen hl] at htree
    rwa [hpasses, takeWhile_of_stop hopen hl]
  · intro hnone
    rw [hfirst'] at hnone
    cases hnone
  · intro k hk
    rw [hfirst'] at hk
    cases hk
    exact hp.stopped l hfirst
  · intro _ e he hne
    rw [survey_append (List.cons_ne_nil n []), hs] at he
    cases he
    exact absurd rfl hne

theorem survey (hp : t.Paves mode d ns (.ok ()) t₁) :
    t₁.survey true d ns = .ok (ns.foldl Location.follow d) := by
  refine survey_eq_ok.2 ⟨fun k hk => ⟨?_, ?_⟩, rfl⟩
  · rw [hp.isOpen_eq]
    exact hp.open_of_ok k hk
  · rw [hp.filled_of_ok k, dirsAt, if_pos hk]
    cases t.get? k <;> rfl

theorem snoc_of_paved (hs : t.survey true d ns = .error .noEntry) (hp : t.Paves mode d ns (.ok ()) t₁)
    (hlast : t₁.Paves mode (ns.foldl Location.follow d) [n] r t₂) :
    t.Paves mode d (ns ++ [n]) r t₂ := by
  have hopen := hp.open_of_ok
  have hsame : ∀ ls, t₁.stop? ls = t.stop? ls := fun ls => by rw [stop?, stop?, hp.isOpen_eq]
  have hpasses : (ns.foldl Location.follow d).passes [n] = (ns.foldl Location.follow d).entered n :=
    Location.passes_singleton _ n
  constructor
  · have hall := hp.filled_of_ok.trans hlast.tree
    rwa [dirsAt_append, hp.isOpen_eq, hpasses, ← takeWhile_of_open hopen, ← passes_snoc rfl] at hall
  · rw [passes_snoc rfl, stop?_append_of_open hopen, ← hpasses, ← hsame]
    exact hlast.through
  · rw [passes_snoc rfl, stop?_append_of_open hopen, ← hpasses, ← hsame]
    exact hlast.stopped
  · intro _ e he hne
    rw [survey_append (List.cons_ne_nil n []), hs] at he
    cases he
    exact absurd rfl hne

end Paves

end

end Tree

namespace Host

variable {h : Host} {p : Path} {d l : Location} {n : Name} {ns : List Name} {ps : List Path}
  {e : Errno}
  {k : CallKind} {how : LastName}

theorem meetFault_of_nil (hf : h.faults = []) : meetFault k p h = (.ok (), h) := by
  simp [meetFault, hf, useFault?]

def Looks (h : Host) (p : Path) (d : Location) (ns : List Name) : Prop :=
  ∀ how, h.locate how p = h.tree.locate how maxLinks d ns false

theorem mkdir_of_calm (hf : h.faults = []) (hnul : p.hasNul = false) :
    mkdir p h = change (mkdirIn p) h := by
  rw [mkdir, Effect.bind_of_ok (refuseNul_of_clean hnul), Effect.bind_of_ok (meetFault_of_nil hf)]

theorem mkdirs_of_stop {h' : Host} {r : Except IoError Unit} (hempty : p.isEmpty = false)
    (hm : mkdirOrFind p h = (r, h')) (hr : r ≠ .error (.os .noEntry)) :
    mkdirs (p :: ps) h = (r, h') := by
  rw [mkdirs, hempty, if_neg Bool.false_ne_true, Effect.bind_of_ok (Effect.outcome_of_eq hm)]
  split
  · exact absurd rfl hr
  · rfl
  · rfl

theorem mkdirs_of_gap {h' : Host} (hempty : p.isEmpty = false)
    (hm : mkdirOrFind p h = (.error (.os .noEntry), h')) :
    mkdirs (p :: ps) h = (do mkdirs ps; mkdirOrFind p : Call Unit) h' := by
  rw [mkdirs, hempty, if_neg Bool.false_ne_true, Effect.bind_of_ok (Effect.outcome_of_eq hm)]

section

variable (hf : h.faults = []) (hnul : p.hasNul = false)
include hf hnul

theorem mkdirOrFind_of_vacant (hl : h.locate .kept p = .ok (.vacant d n)) :
    mkdirOrFind p h = (.ok (), h.add (n :: d) (.dir h.modeOf)) := by
  have hin : mkdirIn p h = .ok (h.add (n :: d) (.dir h.modeOf)) := by
    rw [mkdirIn, hl]
    rfl
  have hm : mkdir p h = (.ok (), h.add (n :: d) (.dir h.modeOf)) := by
    rw [mkdir_of_calm hf hnul, change, hin]
  rw [mkdirOrFind, Effect.bind_of_ok (Effect.outcome_of_eq hm)]
  rfl

theorem mkdirOrFind_of_exists (hin : mkdirIn p h = .error .alreadyExists) :
    mkdirOrFind p h = (if h.leadsToDir p then .ok () else .error (.os .alreadyExists), h) := by
  have hm : mkdir p h = (.error (.os .alreadyExists), h) := by
    rw [mkdir_of_calm hf hnul, change, hin]
  rw [mkdirOrFind, Effect.bind_of_ok (Effect.outcome_of_eq hm)]
  change look (fun h => if h.leadsToDir p then .ok () else .error .alreadyExists) h = _
  rw [look]
  cases h.leadsToDir p <;> rfl

theorem mkdirOrFind_of_node (hl : h.locate .kept p = .ok (.node l)) :
    mkdirOrFind p h = (if h.leadsToDir p then .ok () else .error (.os .alreadyExists), h) := by
  refine mkdirOrFind_of_exists hf hnul ?_
  rw [mkdirIn, hl]
  rfl

theorem mkdirOrFind_of_adrift (hl : ∀ how, h.locate how p = .ok (.adrift l)) :
    mkdirOrFind p h = (.ok (), h) := by
  have hin : mkdirIn p h = .error .alreadyExists := by
    rw [mkdirIn, hl]
    rfl
  have hs : h.statOf .followed p = .ok ⟨.dir 0o755, h.deviceAt l, 0⟩ := by
    rw [statOf, hl]
    rfl
  rw [mkdirOrFind_of_exists hf hnul hin, leadsToDir_of_statOf hs]
  rfl

theorem mkdirOrFind_of_error (hl : h.locate .kept p = .error e) :
    mkdirOrFind p h = (.error (.os e), h) := by
  have hin : mkdirIn p h = .error e := by
    rw [mkdirIn, hl]
    rfl
  have hm : mkdir p h = (.error (.os e), h) := by
    rw [mkdir_of_calm hf hnul, change, hin]
  have hne : e ≠ .alreadyExists := fun hc => locate_ne_alreadyExists (hc ▸ hl)
  rw [mkdirOrFind, Effect.bind_of_ok (Effect.outcome_of_eq hm)]
  cases e <;> first | rfl | exact absurd rfl hne

end

theorem leadsToDir_of_node (hl : h.locate .followed p = .ok (.node l)) :
    h.leadsToDir p = (h.tree.get? l).any Node.isDir := by
  cases hg : h.tree.get? l with
  | some node => rw [leadsToDir_of_statOf (statOf_node hl hg), Option.any_some]
  | none =>
    rw [leadsToDir, statOf, hl]
    simp [bind, Except.bind, hg]

theorem Looks.locate_error (ht : h.tree.HasNoLinks) (hlook : h.Looks p d (ns ++ [n]))
    (hs : h.tree.survey true d ns = .error e) : h.locate how p = .error e := by
  have hwalk : h.tree.walk how false d (ns ++ [n]) = .error e := by
    rw [ht.walk_append, hs]
    rfl
  rw [hlook how, Tree.locate, hwalk]

theorem Looks.last (ht : h.tree.HasNoLinks) (hlook : h.Looks p d (ns ++ [n]))
    (hs : h.tree.survey true d ns = .ok l) : h.Looks p l [n] := by
  intro how
  rw [hlook how]
  refine Tree.locate_congr ?_
  rw [ht.walk_append, hs]
  rfl

section

variable (hlook : h.Looks p l [n])
include hlook

theorem Looks.locate_dots (hn : n = Name.here ∨ n = Name.up) :
    h.locate how p = .ok (.node (l.follow n)) := by
  rw [hlook how]
  rcases hn with rfl | rfl
  · rw [Tree.locate_here, Location.follow_here, Tree.locate_nil]
  · rw [Tree.locate_up, Location.follow_up, Tree.locate_nil]

section

variable (hh : n ≠ Name.here) (hu : n ≠ Name.up)
include hh hu

theorem Looks.locate_long (hlong : maxName < n.length) : h.locate how p = .error .nameTooLong := by
  rw [hlook how, Tree.locate, Tree.walk_last hh hu]
  simp [Tree.last, hlong]

theorem Looks.locate_none (hshort : ¬ maxName < n.length) (hg : h.tree.get? (n :: l) = none) :
    h.locate how p = .ok (.vacant l n) := by
  rw [hlook how]
  exact Tree.locate_place ((Tree.walk_last hh hu).trans (Tree.last_of_none hshort hg))

theorem Looks.locate_some {node : Node} (ht : h.tree.HasNoLinks) (hshort : ¬ maxName < n.length)
    (hg : h.tree.get? (n :: l) = some node) : h.locate how p = .ok (.node (n :: l)) := by
  rw [hlook how]
  exact Tree.locate_place ((Tree.walk_last hh hu).trans (ht.last_of_some hshort hg))

end

end

section

variable (hf : h.faults = []) (hnul : p.hasNul = false) (hlook : h.Looks p l [n])
include hf hnul hlook

theorem mkdirOrFind_of_dots (hn : n = Name.here ∨ n = Name.up) (hd : h.tree.HasDirs l) :
    mkdirOrFind p h = (.ok (), h) := by
  have hdir : h.leadsToDir p = true := by
    rw [leadsToDir_of_node (hlook.locate_dots hn)]
    exact hd.follow (by simp [Location.entered_silent hn]) _ List.suffix_rfl
  rw [mkdirOrFind_of_node hf hnul (hlook.locate_dots hn), hdir, if_pos rfl]

theorem mkdirOrFind_of_entry (ht : h.tree.HasNoLinks) (hh : n ≠ Name.here) (hu : n ≠ Name.up) :
    ∃ r t', mkdirOrFind p h = (r, { h with tree := t' }) ∧ r ≠ .error (.os .noEntry) ∧
      h.tree.Paves h.modeOf l [n] r t' := by
  have hpasses : l.passes [n] = [n :: l] := by
    rw [Location.passes_singleton, Location.entered_entry hh hu]
  by_cases hlong : maxName < n.length
  · exact ⟨_, h.tree, mkdirOrFind_of_error hf hnul (hlook.locate_long hh hu hlong), by simp,
      .of_survey (Tree.survey_long hh hu hlong) (by simp)⟩
  have hshort : Location.isShort (n :: l) = true := Tree.isShort_cons.2 hlong
  cases hg : h.tree.get? (n :: l) with
  | none =>
    refine ⟨_, _, mkdirOrFind_of_vacant hf hnul (hlook.locate_none hh hu hlong hg), by simp,
      .of_open ?_ ?_⟩
    · simp [hpasses, Tree.isOpen, hshort, hg]
    · have hfilled := Tree.filled_insert hg (.dir h.modeOf)
      rw [hpasses]
      intro k
      have hk := hfilled k
      simpa [Tree.dirsAt] using hk
  | some node =>
    have hdir : h.leadsToDir p = node.isDir := by
      rw [leadsToDir_of_node (hlook.locate_some hh hu ht hlong hg), hg, Option.any_some]
    have hfind := mkdirOrFind_of_node hf hnul (hlook.locate_some hh hu ht hlong hg)
    rw [hdir] at hfind
    refine ⟨_, h.tree, hfind, by split <;> simp, ?_⟩
    cases hnd : node.isDir with
    | true =>
      refine .of_open (by simp [hpasses, Tree.isOpen, hshort, hg, hnd]) ?_
      rw [hpasses]
      exact Tree.filled_of_there (by simp [hg])
    | false =>
      refine .of_survey ?_ (by simp)
      rw [Tree.survey_entry hh hu hlong, hg]
      simp [hnd]

theorem mkdirOrFind_of_there (ht : h.tree.HasNoLinks) (hd : h.tree.HasDirs l) :
    ∃ r t', mkdirOrFind p h = (r, { h with tree := t' }) ∧ r ≠ .error (.os .noEntry) ∧
      h.tree.Paves h.modeOf l [n] r t' := by
  by_cases hn : n = Name.here ∨ n = Name.up
  · have hpasses : l.passes [n] = [] := by rw [Location.passes_singleton, Location.entered_silent hn]
    refine ⟨_, h.tree, mkdirOrFind_of_dots hf hnul hlook hn hd, by simp,
      .of_open (by simp [hpasses]) ?_⟩
    rw [hpasses]
    exact Tree.filled_of_there (by simp)
  · exact mkdirOrFind_of_entry hf hnul hlook ht (not_or.1 hn).1 (not_or.1 hn).2

end

/-- Paths that are looked up as one name more each, shortest last. What comes after all of them is
beside the point. -/
inductive Trail (h : Host) (d : Location) : List Name → List Path → Prop
  | start (ps : List Path) : Trail h d [] ps
  | here {ns : List Name} {ps : List Path} (hps : Trail h d ns ps) : Trail h d (ns ++ [Name.here]) ps
  | step {ns : List Name} {n : Name} {p : Path} {ps : List Path} (hps : Trail h d ns ps)
    (hempty : p.isEmpty = false) (hnul : p.hasNul = false)
    (hlook : ∀ h', h.Grows h' → h'.Looks p d (ns ++ [n])) : Trail h d (ns ++ [n]) (p :: ps)

theorem Trail.grows {h' : Host} (hps : h.Trail d ns ps) (hg : h.Grows h') : h'.Trail d ns ps := by
  induction hps with
  | start ps => exact .start ps
  | here hps ih => exact .here ih
  | step hps hempty hnul hlook ih =>
    exact .step ih hempty hnul fun h'' hg' => hlook h'' (trans_of Grows hg hg')

theorem grows_of_filled {t' : Tree} {more : Location → Option Node} (ht : h.tree.Filled more t') :
    h.Grows { h with tree := t' } where
  tree := ht.extends
  cwd := rfl
  cwdGone := rfl
  faults := fun f hf => ⟨f, hf, .refl f⟩

/-- Making a directory with all above it paves the way to it. -/
theorem mkdirs_of_trail (hf : h.faults = []) (ht : h.tree.HasNoLinks) (hd : h.tree.HasDirs d)
    (hps : h.Trail d ns ps) (hns : d.passes ns ≠ []) :
    ∃ r t', mkdirs ps h = (r, { h with tree := t' }) ∧ h.tree.Paves h.modeOf d ns r t' := by
  induction hps with
  | start ps => exact absurd rfl hns
  | here hps ih =>
    rw [Tree.passes_snoc rfl, Location.entered_silent (.inl rfl), List.append_nil] at hns
    obtain ⟨r, t', hm, hp⟩ := ih hns
    exact ⟨r, t', hm, hp.snoc_here⟩
  | @step ns n p ps hps hempty hnul hlook ih =>
    have hlook₀ := hlook h (refl_of Grows h)
    cases hs : h.tree.survey true d ns with
    | ok l =>
      obtain ⟨r, t', hm, hr, hp⟩ :=
        mkdirOrFind_of_there hf hnul (hlook₀.last ht hs) ht (hd.of_survey hs)
      exact ⟨r, t', mkdirs_of_stop hempty hm hr, .snoc_of_there hs hp⟩
    | error e =>
      have hm := mkdirOrFind_of_error hf hnul (hlook₀.locate_error ht hs)
      -- only a gap sends it further up and back again; any other failure is final
      by_cases he : e = .noEntry
      · subst he
        have hne : d.passes ns ≠ [] := fun hnil => by
          have hok : h.tree.survey true d ns = .ok (ns.foldl Location.follow d) :=
            Tree.survey_eq_ok.2 ⟨by simp [hnil], rfl⟩
          rw [hs] at hok
          cases hok
        obtain ⟨r₁, t₁, hm₁, hp₁⟩ := ih hne
        rw [mkdirs_of_gap hempty hm]
        cases r₁ with
        | error cause => exact ⟨_, t₁, Effect.bind_of_error hm₁, .snoc_of_stopped hs hp₁⟩
        | ok u =>
          have hs₁ := hp₁.survey
          have hd₁ := (hp₁.tree.extends.hasDirs hd).of_survey hs₁
          have ht₁ := hp₁.hasNoLinks ht
          obtain ⟨r, t', hm₂, -, hp⟩ := mkdirOrFind_of_there (h := { h with tree := t₁ }) hf hnul
            ((hlook _ (grows_of_filled hp₁.tree)).last ht₁ hs₁) ht₁ hd₁
          exact ⟨r, t', (Effect.bind_of_ok hm₁).trans hm₂, .snoc_of_paved hs hp₁ hp⟩
      · exact ⟨_, h.tree, mkdirs_of_stop hempty hm (by simp [he]), .snoc_of_obstacle hs he n⟩

end Host

end SandboxMounts
