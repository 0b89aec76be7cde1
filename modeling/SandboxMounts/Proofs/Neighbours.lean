import Mathlib.Data.List.Find
import SandboxMounts.Proofs.Groundwork

/-!
Two places below one shared directory. What is made for the one is no obstacle to the other and nothing
that it would make itself, but for directories that both need.
-/

set_option autoImplicit false

namespace SandboxMounts

namespace Tree

variable {t t' : Tree} {l : Location} {ls : List Location} {mode : Nat}

theorem takeWhile_isOpen_congr (hls : ∀ k ∈ ls, t'.isOpen k = t.isOpen k) :
    ls.takeWhile t'.isOpen = ls.takeWhile t.isOpen := by
  induction ls with
  | nil => rfl
  | cons l ls ih =>
    obtain ⟨hl, hrest⟩ := List.forall_mem_cons.1 hls
    rw [List.takeWhile_cons, List.takeWhile_cons, hl, ih hrest]

theorem stop?_congr (hls : ∀ k ∈ ls, t'.isOpen k = t.isOpen k) : t'.stop? ls = t.stop? ls :=
  List.find?_congr fun k hk => by rw [hls k hk]

theorem dirsAt_eq_some {node : Node} : dirsAt mode ls l = some node ↔ l ∈ ls ∧ node = .dir mode := by
  unfold dirsAt
  split <;> simp [*, eq_comm]

end Tree

namespace Site

structure Ignores (s : Site) (more : Location → Option Node) : Prop where
  way : ∀ l ∈ s.way, ∀ node, more l = some node → node.isDir = true
  spot : s.spot ∉ s.way → more s.spot = none

def IsClear (s : Site) (t : Tree) : Prop :=
  t.survey false s.base s.names = .error .noEntry →
    ∀ l ∈ s.way, t.isOpen l = false → l.isShort = false

section

variable {s s' : Site} {t t' : Tree} {mode : Nat} {more : Location → Option Node}
  {r r' : Except IoError Unit} {l : Location}

section

variable (hi : s.Ignores more) (hf : t.Filled more t')
include hi hf

theorem Ignores.isOpen_eq : ∀ k ∈ s.way, t'.isOpen k = t.isOpen k :=
  fun k hk => hf.isOpen_eq fun node hn => hi.way k hk node hn

theorem Ignores.gain_eq : s.gain mode t' = s.gain mode t := by
  have hopen := hi.isOpen_eq hf
  funext l
  simp only [gain, made, Tree.takeWhile_isOpen_congr hopen, Tree.stop?_congr hopen]

theorem Ignores.thereIsDir_eq (hstop : t.stop? s.way = none) :
    ((t'.get? s.spot).or (Tree.dirsAt mode s.way s.spot)).any Node.isDir =
      ((t.get? s.spot).or (Tree.dirsAt mode s.way s.spot)).any Node.isDir := by
  by_cases hspot : s.spot ∈ s.way
  · have hdirs : Tree.dirsAt mode s.way s.spot = some (.dir mode) := if_pos hspot
    have hall : ∀ t : Tree, t.isOpen s.spot = true →
        ((t.get? s.spot).or (Tree.dirsAt mode s.way s.spot)).any Node.isDir = true := by
      intro t hopen
      rw [Tree.isOpen, Bool.and_eq_true] at hopen
      rw [hdirs]
      cases hg : t.get? s.spot with
      | none => rfl
      | some node =>
        rw [hg] at hopen
        exact hopen.2
    have hopen := Tree.stop?_eq_none.1 hstop s.spot hspot
    rw [hall t hopen, hall t' (by rw [hi.isOpen_eq hf _ hspot, hopen])]
  · rw [hf s.spot, hi.spot hspot, Option.or_none]

theorem Ignores.says (hs : s.Says mode t' r) : s.Says mode t r := by
  have hstop := Tree.stop?_congr (hi.isOpen_eq hf)
  refine ⟨fun l hl => hs.stopped l (hstop.trans hl), fun hnone => ?_, fun e he hne => ?_⟩
  · rw [hs.through (hstop.trans hnone), hi.thereIsDir_eq hf hnone]
  · refine hs.surveyed e ?_ hne
    rw [hf.extends.survey_eq (by simp [he, hne]), he]

end

theorem Says.alike (hs : s.Says mode t r) (hs' : s.Says mode t r') :
    r = r' ∨
      ∃ e e' : Errno, e.IsObstacle ∧ e'.IsObstacle ∧ r = .error (.os e) ∧ r' = .error (.os e') := by
  cases hstop : t.stop? s.way with
  | none => exact .inl ((hs.through hstop).trans (hs'.through hstop).symm)
  | some l =>
    obtain ⟨e, rfl, he⟩ := hs.stopped l hstop
    obtain ⟨e', rfl, he'⟩ := hs'.stopped l hstop
    rw [Tree.Stops] at he he'
    cases hshort : l.isShort with
    | true =>
      rw [hshort] at he he'
      exact .inr ⟨e, e', he, he', rfl, rfl⟩
    | false =>
      rw [hshort] at he he'
      obtain rfl : e = .nameTooLong := he
      obtain rfl : e' = .nameTooLong := he'
      exact .inl rfl

theorem Says.unique (hclear : s.IsClear t) (hs : s.Says mode t r) (hs' : s.Says mode t r') :
    r = r' := by
  cases hstop : t.stop? s.way with
  | none => exact (hs.through hstop).trans (hs'.through hstop).symm
  | some l =>
    obtain ⟨hno, before, after, hsplit, -⟩ := Tree.stop?_eq_some.1 hstop
    have hl : l ∈ s.way := by simp [hsplit]
    cases hsurvey : t.survey false s.base s.names with
    | ok k =>
      have hopen := ((Tree.survey_eq_ok.1 hsurvey).1 l hl).1
      rw [hno] at hopen
      cases hopen
    | error e =>
      by_cases hne : e = .noEntry
      · subst hne
        obtain ⟨e, rfl, he⟩ := hs.stopped l hstop
        obtain ⟨e', rfl, he'⟩ := hs'.stopped l hstop
        rw [Tree.Stops, hclear hsurvey l hl hno] at he he'
        obtain rfl : e = .nameTooLong := he
        obtain rfl : e' = .nameTooLong := he'
        rfl
      · rw [hs.surveyed e hsurvey hne, hs'.surveyed e hsurvey hne]

theorem of_gain {node : Node} (hg : s.gain mode t l = some node) :
    l ∈ s.way.takeWhile t.isOpen ∧ node = .dir mode ∨
      l = s.spot ∧ s.spot ∉ s.way ∧ node = Bind.made s.isDir mode := by
  rcases Option.or_eq_some_iff.1 hg with hdir | ⟨hnone, hmade⟩
  · exact .inl (Tree.dirsAt_eq_some.1 hdir)
  · rw [made] at hmade
    split at hmade
    · rename_i hall
      obtain ⟨hstop, -, rfl⟩ := hall
      refine .inr ⟨rfl, fun hspot => ?_, (Option.some.inj hmade).symm⟩
      have hopen := List.takeWhile_eq_self_iff.2 (Tree.stop?_eq_none.1 hstop)
      rw [hopen, Tree.dirsAt, if_pos hspot] at hnone
      cases hnone
    · cases hmade

end

structure IsNamed (s : Site) : Prop where
  sandbox : s.sandbox.IsEntry
  container : s.container.IsEntry

def top (s : Site) : Location := s.shared.foldl Location.follow s.base

section

variable {s : Site} {t : Tree} (hn : s.IsNamed)
include hn

theorem IsNamed.way_eq :
    s.way = s.base.passes s.shared ++ [s.sandbox :: s.top, s.container :: s.sandbox :: s.top] := by
  have hs := hn.sandbox
  have hc := hn.container
  rw [way, names, Location.passes_append, ← top, Location.passes, Location.passes, Location.passes,
    Location.entered_entry hs.ne_here hs.ne_up, Location.follow_entry hs.ne_here hs.ne_up,
    Location.entered_entry hc.ne_here hc.ne_up]
  rfl

theorem IsNamed.spot_eq : s.spot = last :: s.container :: s.sandbox :: s.top := by
  have hs := hn.sandbox
  have hc := hn.container
  rw [spot, names, List.foldl_append, ← top, List.foldl_cons, List.foldl_cons, List.foldl_nil,
    Location.follow_entry hs.ne_here hs.ne_up, Location.follow_entry hc.ne_here hc.ne_up]

theorem IsNamed.isClear_of_no_up (ht : t.IsSound) (hup : Name.up ∉ s.shared) : s.IsClear t := by
  intro hs l hl hno
  refine ht.isShort_of_gap ?_ hs hl hno
  simp [names, hup, Ne.symm hn.sandbox.ne_up, Ne.symm hn.container.ne_up]

theorem IsNamed.isClear_of_survey (ht : t.IsSound) {k : Location}
    (hk : t.survey true s.base s.shared = .ok k) : s.IsClear t := by
  intro hs l hl hno
  obtain ⟨hthere, hfold⟩ := Tree.survey_eq_ok.1 hk
  rw [names, Tree.survey_append (by simp), hk] at hs
  rw [way, names, Location.passes_append, hfold] at hl
  rcases List.mem_append.1 hl with hl | hl
  · rw [(hthere l hl).1] at hno
    cases hno
  · refine ht.isShort_of_gap ?_ hs hl hno
    simp [Ne.symm hn.sandbox.ne_up, Ne.symm hn.container.ne_up]

end

/-- Sites of different containers below one directory. -/
structure Neighbours (s s' : Site) : Prop where
  named : s.IsNamed
  named' : s'.IsNamed
  base : s'.base = s.base
  shared : s'.shared = s.shared
  apart : s.sandbox = s'.sandbox → s.container ≠ s'.container

namespace Neighbours

variable {s s' : Site} {t : Tree} {mode : Nat} (hn : s.Neighbours s')
include hn

theorem symm : s'.Neighbours s where
  named := hn.named'
  named' := hn.named
  base := hn.base.symm
  shared := hn.shared.symm
  apart := fun hs hc => hn.apart hs.symm hc.symm

theorem top_eq : s'.top = s.top := by rw [top, top, hn.base, hn.shared]

theorem spot_ne : s'.spot ≠ s.spot := by
  rw [hn.named.spot_eq, hn.named'.spot_eq]
  intro hc
  simp only [List.cons.injEq, true_and] at hc
  exact hn.apart hc.2.1.symm hc.1.symm

/-- The way to the one site passes the spot of the other only where both ways are the same. -/
theorem spot_mem (hm : s'.spot ∈ s.way) : s'.spot ∈ s'.way := by
  rw [hn.named.way_eq] at hm
  rw [hn.named'.way_eq, hn.base, hn.shared]
  rcases List.mem_append.1 hm with hm | hm
  · exact List.mem_append_left _ hm
  · rw [hn.named'.spot_eq, hn.top_eq] at hm
    simp only [List.mem_cons, List.not_mem_nil, or_false] at hm
    -- one location is at one depth only
    rcases hm with hm | hm <;>
      exact absurd (congrArg List.length hm) (by simp only [List.length_cons]; omega)

theorem ignores : s.Ignores (s'.gain mode t) where
  way := fun l hl node hg => by
    rcases of_gain hg with ⟨-, rfl⟩ | ⟨rfl, hspot, -⟩
    · rfl
    · exact absurd (hn.spot_mem hl) hspot
  spot := fun hspot => by
    cases hg : s'.gain mode t s.spot with
    | none => rfl
    | some node =>
      rcases of_gain hg with ⟨hmem, -⟩ | ⟨heq, -, -⟩
      · exact absurd (hn.symm.spot_mem (List.takeWhile_subset _ hmem)) hspot
      · exact absurd heq.symm hn.spot_ne

theorem gain_agree {l : Location} {node node' : Node} (hg : s.gain mode t l = some node)
    (hg' : s'.gain mode t l = some node') : node = node' := by
  rcases of_gain hg with ⟨hl, rfl⟩ | ⟨rfl, hspot, rfl⟩ <;>
    rcases of_gain hg' with ⟨hl', rfl⟩ | ⟨hl', hspot', rfl⟩
  · rfl
  · subst hl'
    exact absurd (hn.spot_mem (List.takeWhile_subset _ hl)) hspot'
  · exact absurd (hn.symm.spot_mem (List.takeWhile_subset _ hl')) hspot
  · exact absurd hl'.symm hn.spot_ne

end Neighbours

end Site

end SandboxMounts
