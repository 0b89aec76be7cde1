import Mathlib.Data.List.Infix
import SandboxMounts.Proofs.Ascent
import SandboxMounts.Proofs.Looks

/-!
The lexical form of a path. It is reached by taking in one component after another, whether in text
or on the names; it has no dots and no slashes to spare, is its own form again, and a path goes on
from it as from the path that it was made of.
-/

set_option autoImplicit false

namespace SandboxMounts

namespace Path

variable {p q : Path} {n : Name}

/-! ### Components -/

theorem isEntry_of_mem_components (hn : .name n ∈ p.components) : n.IsEntry := by
  rw [components_eq, List.mem_append] at hn
  rcases hn with hn | hn
  · cases ha : p.anchored.1 <;> simp [ha, Anchor.components] at hn
  obtain ⟨m, hm, hc⟩ := List.mem_map.1 hn
  obtain ⟨hmem, hsilent⟩ := List.mem_filter.1 hm
  unfold Name.component at hc
  split at hc <;> cases hc
  simp only [Name.isSilent, Bool.not_eq_true', Bool.or_eq_false_iff, beq_eq_false_iff_ne] at hsilent
  exact ⟨hsilent.1, p.slash_notMem_anchored n hmem, hsilent.2, ‹_›⟩

theorem components_of_isAbsolute (hp : p.isAbsolute = true) : ∃ cs, p.components = .root :: cs := by
  rw [isAbsolute_eq_anchored, decide_eq_true_eq] at hp
  exact ⟨Name.components p.anchored.2, by rw [components_eq, hp]; rfl⟩

/-! ### A relative path after another -/

theorem normalize_join (cwd : Location) (p : Path) (hq : q.isAbsolute = false) :
    (p.join q).normalize cwd = q.normalize (p.normalize cwd) := by
  simp only [normalize_eq, steps_join_of_relative p hq, List.foldl_append, start,
    isAbsolute_join_of_relative p hq, hq, Bool.false_eq_true, if_false]

theorem normalize_of_isAbsolute (cwd cwd' : Location) (hp : p.isAbsolute = true) :
    p.normalize cwd = p.normalize cwd' := by
  rw [normalize_eq, normalize_eq, start, start, if_pos hp, if_pos hp]

/-! ### Text -/

/-- Absolute, without dots, and without a slash that separates nothing. -/
structure IsClean (p : Path) : Prop where
  absolute : p.isAbsolute = true
  no_here : Name.here ∉ p.segments
  no_up : Name.up ∉ p.segments
  no_double : ∀ before after, p.bytes ≠ before ++ slash :: slash :: after
  no_trailing : p.endsInSlash = true → p = ⟨[slash]⟩

def pop (p : Path) : Path := p.parents.headD p

def advance (p : Path) : Component → Path
  | .root => ⟨[slash]⟩
  | .here => p
  | .up => p.pop
  | .name n => p.join ⟨n⟩

end Path

namespace Location

variable {l : Location} {n : Name} {c : Component} {cs : List Component}

theorem isSpellable_nil : IsSpellable [] := List.forall_mem_nil _

theorem foldl_follow_reverse (hl : l.IsSpellable) : l.reverse.foldl follow [] = l := by
  induction l with
  | nil => rfl
  | cons n above ih =>
    have hn := hl n List.mem_cons_self
    rw [List.reverse_cons, List.foldl_append, ih hl.tail]
    exact follow_entry hn.ne_here hn.ne_up

theorem normalize_path (hl : l.IsSpellable) (cwd : Location) : l.path.normalize cwd = l := by
  rw [Path.normalize_eq, steps_path hl, Path.start, if_pos l.path_isAbsolute, foldl_follow_reverse hl]

theorem path_isClean (hl : l.IsSpellable) : l.path.IsClean := by
  have hsegments : ∃ ss, l.path.segments = [] :: ss ∧ ∀ n ∈ ss, n ≠ Name.here ∧ n ≠ Name.up ∧
      (n = [] → l = []) := by
    cases l with
    | nil => exact ⟨[[]], rfl, by simp [Name.here, Name.up]⟩
    | cons n above =>
      refine ⟨_, segments_spell hl, fun m hm => ?_⟩
      have hm := hl m (List.mem_reverse.1 hm)
      exact ⟨hm.ne_here, hm.ne_up, fun hnil => absurd hnil hm.ne_nil⟩
  obtain ⟨ss, hss, hentry⟩ := hsegments
  refine ⟨l.path_isAbsolute, fun hmem => ?_, fun hmem => ?_, fun before after hbytes => ?_,
    fun htrailing => ?_⟩
  · rw [hss] at hmem
    rcases List.mem_cons.1 hmem with hmem | hmem
    · cases hmem
    · exact (hentry _ hmem).1 rfl
  · rw [hss] at hmem
    rcases List.mem_cons.1 hmem with hmem | hmem
    · cases hmem
    · exact (hentry _ hmem).2.1 rfl
  · -- between the two slashes there would be an empty segment, and not the first one
    have hcut : l.path.segments = Bytes.splitWhen (· == slash) before ++
        [] :: Bytes.splitWhen (· == slash) after := by
      rw [Path.segments, hbytes, Bytes.splitWhen_append_cons before _ (by simp)]
      simp [Bytes.splitWhen]
    obtain ⟨s, rest, hs⟩ := List.exists_cons_of_ne_nil (Bytes.splitWhen_ne_nil (· == slash) before)
    rw [hss, hs, List.cons_append] at hcut
    have hmem : [] ∈ ss := by
      rw [(List.cons.inj hcut).2]
      simp
    obtain rfl := (hentry [] hmem).2.2 rfl
    have hlen := congrArg List.length hbytes
    simp only [path_nil, List.length_cons, List.length_nil, List.length_append] at hlen
    omega
  · by_cases hne : l = []
    · rw [hne]
      rfl
    · rw [path_endsInSlash hl hne] at htrailing
      cases htrailing

theorem join_path (hl : l.IsSpellable) (hn : n.IsEntry) : l.path.join ⟨n⟩ = path (n :: l) := by
  unfold Path.join
  rw [Path.isAbsolute_of_name hn.ne_nil hn.no_slash, l.path_not_isEmpty]
  cases l with
  | nil => rfl
  | cons m above =>
    rw [path_endsInSlash hl (List.cons_ne_nil m above)]
    rfl

theorem anchored_path (hl : l.IsSpellable) (hne : l ≠ []) :
    l.path.anchored = (.root, l.reverse) := by
  obtain ⟨n, above, rfl⟩ := List.exists_cons_of_ne_nil hne
  change (⟨spell (n :: above)⟩ : Path).anchored = _
  rw [Path.anchored_eq (segments_spell hl) (by simp)]
  rfl

theorem ofAnchored_reverse (hl : l.IsSpellable) : Path.ofAnchored .root l.reverse = l.path := by
  by_cases hne : l = []
  · rw [hne]
    rfl
  · rw [← Path.ofAnchored_anchored l.path, anchored_path hl hne]

theorem above_eq_tails (hl : l.IsSpellable) : Path.above .root l = l.tails.map path := by
  induction l with
  | nil => rfl
  | cons n above ih =>
    have hsilent := (hl n List.mem_cons_self).isSilent_eq_false
    rw [Path.above, hsilent, ofAnchored_reverse hl, ih hl.tail]
    rfl

theorem parents_path (hl : l.IsSpellable) : l.path.parents = l.tails.tail.map path := by
  cases l with
  | nil => rfl
  | cons n above =>
    have hsilent := (hl n List.mem_cons_self).isSilent_eq_false
    rw [Path.parents, anchored_path hl (List.cons_ne_nil n above), List.reverse_reverse,
      List.dropWhile_cons_of_neg (by simp [hsilent])]
    exact above_eq_tails hl.tail

/-- A path and those above it in text are the directories on the way down. -/
theorem mem_ancestors_iff {q : Path} (hl : l.IsSpellable) :
    q ∈ l.path :: l.path.parents ↔ ∃ m, m <:+ l ∧ path m = q := by
  have hall : l.path :: l.path.parents = l.tails.map path := by
    rw [parents_path hl]
    cases l <;> rfl
  simp only [hall, List.mem_map, List.mem_tails]

theorem path_eq_root_iff (hl : l.IsSpellable) : l.path = ⟨[slash]⟩ ↔ l = [] := by
  refine ⟨fun hroot => ?_, fun hnil => by rw [hnil]; rfl⟩
  cases l with
  | nil => rfl
  | cons n above =>
    have hlen := congrArg (fun p : Path => p.bytes.length) hroot
    have hn := List.length_pos_of_ne_nil (hl n List.mem_cons_self).ne_nil
    simp only [path, spell, List.length_append, List.length_cons, List.length_nil] at hlen
    omega

theorem pop_path (hl : l.IsSpellable) : l.path.pop = path l.tail := by
  rw [Path.pop, parents_path hl]
  cases l with
  | nil => rfl
  | cons n above => cases above <;> rfl

/-- One component changes the text as it changes the names. -/
theorem path_push (hl : l.IsSpellable) (hc : ∀ n, c = .name n → n.IsEntry) :
    (l.push c).IsSpellable ∧ (l.push c).path = l.path.advance c := by
  cases c with
  | root => exact ⟨isSpellable_nil, rfl⟩
  | here => exact ⟨hl, rfl⟩
  | up => exact ⟨hl.tail, (pop_path hl).symm⟩
  | name n => exact ⟨List.forall_mem_cons.2 ⟨hc n rfl, hl⟩, (join_path hl (hc n rfl)).symm⟩

theorem path_foldl_push (hl : l.IsSpellable) (hcs : ∀ n, .name n ∈ cs → n.IsEntry) :
    (cs.foldl push l).path = cs.foldl Path.advance l.path := by
  induction cs generalizing l with
  | nil => rfl
  | cons c cs ih =>
    obtain ⟨hpush, htext⟩ := path_push hl fun n hn => hcs n (hn ▸ List.mem_cons_self)
    rw [List.foldl_cons, List.foldl_cons, ← htext]
    exact ih hpush fun n hn => hcs n (List.mem_cons_of_mem c hn)

end Location

/-! ### The lexical form -/

def Path.anchoredComponents (cwd : Location) (p : Path) : List Component :=
  (if p.isAbsolute then [] else cwd.path.components) ++ p.components

section

variable {h : Host} {cwd : Location} {p q : Path}

theorem Path.foldl_anchoredComponents (hs : cwd.IsSpellable) (p : Path) :
    (p.anchoredComponents cwd).foldl Location.push [] = p.normalize cwd := by
  unfold anchoredComponents
  cases hp : p.isAbsolute with
  | true => exact normalize_of_isAbsolute [] cwd hp
  | false =>
    have hcwd := Location.normalize_path hs []
    unfold normalize at hcwd ⊢
    simp only [Bool.false_eq_true, if_false, List.foldl_append, hcwd]

theorem Path.exists_anchoredComponents (cwd : Location) (p : Path) :
    ∃ cs, p.anchoredComponents cwd = .root :: cs := by
  unfold anchoredComponents
  cases hp : p.isAbsolute with
  | true => exact components_of_isAbsolute hp
  | false =>
    obtain ⟨cs, hcs⟩ := components_of_isAbsolute cwd.path_isAbsolute
    exact ⟨cs ++ p.components, by simp [hcs]⟩

theorem Path.isEntry_of_mem_anchoredComponents {n : Name}
    (hn : .name n ∈ p.anchoredComponents cwd) : n.IsEntry := by
  unfold anchoredComponents at hn
  rcases List.mem_append.1 hn with hn | hn
  · split at hn
    · cases hn
    · exact isEntry_of_mem_components hn
  · exact isEntry_of_mem_components hn

theorem absolute_of_isAbsolute (h : Host) (hp : p.isAbsolute = true) :
    absolute p h = (.ok (p.normalize h.cwd), h) := by
  rw [absolute, if_pos hp, Path.normalize_of_isAbsolute h.cwd [] hp]
  rfl

theorem absolute_eq (hg : h.cwdGone = false) (p : Path) :
    absolute p h = (.ok (p.normalize h.cwd), h) := by
  cases hp : p.isAbsolute with
  | true => exact absolute_of_isAbsolute h hp
  | false =>
    have hlook : Host.look Host.workingDirectory h = (.ok h.cwd, h) := by
      rw [Host.look, Host.workingDirectory, hg]
      rfl
    rw [absolute, if_neg (by simp [hp]), Effect.bind_of_ok hlook]
    rfl

theorem Path.normalize_isSpellable (hs : cwd.IsSpellable) (p : Path) :
    (p.normalize cwd).IsSpellable := by
  have hstart : (p.start cwd).IsSpellable := by
    unfold start
    split
    · exact Location.isSpellable_nil
    · exact hs
  rw [normalize_eq]
  exact hstart.foldl fun n => mem_steps

/-- The lexical form of a path is clean, and is what the names leave when `..` drops the last one
that is kept; the same comes out in text. The working directory matters to a relative path only. The
form is its own form, and takes the place of the path in front of any relative one. -/
theorem absolute_lexical (hg : h.cwdGone = false) (hs : h.cwd.IsSpellable) (p : Path) :
    ∃ l, absolute p h = (.ok l, h) ∧ l.path.isEmpty = false ∧ l.path.IsClean ∧
      l = (p.anchoredComponents h.cwd).foldl Location.push [] ∧
      l.path = (p.anchoredComponents h.cwd).foldl Path.advance ⟨[]⟩ ∧
      (p.isAbsolute = true → ∀ h', absolute p h' = (.ok l, h')) ∧
      absolute l.path h = (.ok l, h) ∧
      ∀ q, q.isAbsolute = false → absolute (p.join q) h = absolute (l.path.join q) h := by
  have hl := Path.normalize_isSpellable hs p
  refine ⟨p.normalize h.cwd, absolute_eq hg p, Location.path_not_isEmpty _, Location.path_isClean hl,
    (Path.foldl_anchoredComponents hs p).symm, ?_, fun hp h' => ?_, ?_, fun q hq => ?_⟩
  · obtain ⟨cs, hcs⟩ := p.exists_anchoredComponents h.cwd
    have hentries : ∀ n, .name n ∈ cs → n.IsEntry := fun n hn =>
      Path.isEntry_of_mem_anchoredComponents (hcs ▸ List.mem_cons_of_mem Component.root hn)
    rw [← Path.foldl_anchoredComponents hs, hcs]
    -- the root comes first in any case, and from there on both hold the same
    change (cs.foldl Location.push []).path = cs.foldl Path.advance (Location.path [])
    exact Location.path_foldl_push Location.isSpellable_nil hentries
  · rw [absolute_of_isAbsolute h' hp, Path.normalize_of_isAbsolute h'.cwd h.cwd hp]
  · rw [absolute_eq hg, Location.normalize_path hl]
  · rw [absolute_eq hg, absolute_eq hg, Path.normalize_join _ p hq, Path.normalize_join _ _ hq,
      Location.normalize_path hl]

theorem absolute_lexical_above : ∃ l, (absolute (.ofString "..//b/./c/")
      { Host.initial with cwd := [[0x61]] }).1 = .ok l ∧
    l.path = .ofString "/b/c" ∧ l.path.IsClean ∧
    absolute (.ofString "..//b/./c/../d") { Host.initial with cwd := [[0x61]] } =
      absolute (.ofString "/b/c/../d") { Host.initial with cwd := [[0x61]] } := by
  have hs : Location.IsSpellable [[0x61]] := fun n hn => by
    obtain rfl := List.mem_singleton.1 hn
    exact ⟨by decide, by decide, by decide, by decide⟩
  obtain ⟨l, habs, -, hclean, hl, -, -, -, hjoin⟩ := absolute_lexical
    (h := { Host.initial with cwd := [[0x61]] }) rfl hs (.ofString "..//b/./c/")
  have hpath : l.path = .ofString "/b/c" := by
    rw [hl]
    decide
  refine ⟨l, by rw [habs], hpath, hclean, ?_⟩
  have hq := hjoin (.ofString "../d") (by decide)
  rw [hpath] at hq
  exact hq

end

end SandboxMounts
