import SandboxMounts.Proofs.DeviceAnswers

/-!
The system directories and what is below them. A path is judged by its first component, as it is
written. That is the outermost name of the place it leads to unless a `..` on the way comes to the
root; then the rest after the last such `..` leads to the same place, and its answer is the right one.
-/

set_option autoImplicit false

namespace SandboxMounts

namespace Location

def IsInSystemDir (l : Location) : Prop := ∃ d ∈ systemDirs, d.normalize [] <:+ l

instance (l : Location) : Decidable l.IsInSystemDir :=
  inferInstanceAs (Decidable (∃ d ∈ systemDirs, d.normalize [] <:+ l))

/-- From `l` on, some `..` among the components leads to the root. -/
def ComesToRoot : Location → List Component → Prop
  | _, [] => False
  | l, c :: cs => c = .up ∧ l.tail = [] ∨ ComesToRoot (l.push c) cs

instance decidableComesToRoot : (l : Location) → (cs : List Component) → Decidable (l.ComesToRoot cs)
  | _, [] => inferInstanceAs (Decidable False)
  | l, c :: cs =>
    have := decidableComesToRoot (l.push c) cs
    inferInstanceAs (Decidable (c = .up ∧ l.tail = [] ∨ ComesToRoot (l.push c) cs))

variable {l : Location} {cs : List Component}

/-- A way that starts below the root and never comes back to it keeps its outermost name. -/
theorem getLast?_foldl_push (hl : l ≠ []) (hroot : .root ∉ cs) (hback : ¬ l.ComesToRoot cs) :
    (cs.foldl push l).getLast? = l.getLast? := by
  induction cs generalizing l with
  | nil => rfl
  | cons c cs ih =>
    have hroot' : .root ∉ cs := fun hc => hroot (List.mem_cons_of_mem c hc)
    have hback' : ¬ (l.push c).ComesToRoot cs := fun hc => hback (.inr hc)
    obtain ⟨n, above, rfl⟩ := List.exists_cons_of_ne_nil hl
    rw [List.foldl_cons]
    cases c with
    | root => exact absurd List.mem_cons_self hroot
    | here => exact ih hl hroot' hback'
    | up =>
      have habove : above ≠ [] := fun hc => hback (.inl ⟨rfl, hc⟩)
      obtain ⟨m, rest, rfl⟩ := List.exists_cons_of_ne_nil habove
      exact ih habove hroot' hback'
    | name m => exact ih (List.cons_ne_nil m (n :: above)) hroot' hback'

theorem exists_last_return (l : Location) (cs : List Component) :
    ¬ l.ComesToRoot cs ∨ ∃ before after, cs = before ++ after ∧ before.foldl push l = [] ∧
      ¬ ComesToRoot [] after := by
  induction cs generalizing l with
  | nil => exact .inl id
  | cons c cs ih =>
    -- this step is a return that counts only if there is none after it
    rcases ih (l.push c) with hrest | ⟨before, after, rfl, hfold, hafter⟩
    · by_cases hc : c = .up ∧ l.tail = []
      · obtain ⟨rfl, hl⟩ := hc
        have hpush : l.push .up = [] := hl
        rw [hpush] at hrest
        exact .inr ⟨[.up], cs, rfl, hl, hrest⟩
      · exact .inl fun hcomes => hcomes.elim hc hrest
    · exact .inr ⟨c :: before, after, rfl, hfold, hafter⟩

end Location

namespace Name

variable {ns : List Name} {c : Component} {cs : List Component}

theorem mem_components (hc : c ∈ components ns) : c = .up ∨ ∃ n, c = .name n := by
  obtain ⟨n, -, rfl⟩ := List.mem_map.1 hc
  unfold component
  split
  · exact .inl rfl
  · exact .inr ⟨n, rfl⟩

theorem exists_of_components_suffix (hcs : cs <:+ components ns) :
    ∃ ms, ms <:+ ns ∧ components ms = cs := by
  induction ns with
  | nil =>
    obtain rfl := List.suffix_nil.1 hcs
    exact ⟨[], List.suffix_rfl, rfl⟩
  | cons n ns ih =>
    have hrest : cs <:+ components ns → ∃ ms, ms <:+ n :: ns ∧ components ms = cs := fun hsuffix => by
      obtain ⟨ms, hms, hcs⟩ := ih hsuffix
      exact ⟨ms, hms.trans (List.suffix_cons n ns), hcs⟩
    cases hn : n.isSilent with
    | true =>
      have hsame : components (n :: ns) = components ns := by simp [components, hn]
      exact hrest (hsame ▸ hcs)
    | false =>
      have hmore : components (n :: ns) = n.component :: components ns := by simp [components, hn]
      rw [hmore] at hcs
      rcases List.suffix_cons_iff.1 hcs with hcs | hcs
      · exact ⟨n :: ns, List.suffix_rfl, by rw [hcs, hmore]⟩
      · exact hrest hcs

end Name

namespace Path

variable {p d : Path} {n : Name} {ns : List Name} {cs : List Component}

theorem exists_names_of_isAbsolute (hp : p.isAbsolute = true) :
    ∃ ns, p.components = .root :: Name.components ns ∧ ∀ n ∈ ns, slash ∉ n := by
  rw [isAbsolute_eq_anchored, decide_eq_true_eq] at hp
  exact ⟨p.anchored.2, by rw [components_eq, hp]; rfl, p.slash_notMem_anchored⟩

theorem exists_rooted (hns : ∀ n ∈ ns, slash ∉ n) :
    ∃ q : Path, q.components = .root :: Name.components ns := by
  by_cases hne : ns = []
  · exact ⟨⟨[slash]⟩, by rw [hne]; rfl⟩
  · exact ⟨ofAnchored .root ns, components_ofAnchored hne hns fun hc => by cases hc⟩

theorem normalize_of_components (hp : p.components = .root :: cs) (cwd : Location) :
    p.normalize cwd = cs.foldl Location.push [] := by
  rw [normalize, hp]
  rfl

/-- A path that never comes back to the root begins with a directory of the root exactly if it leads
into that directory. -/
theorem startsWith_iff (hd : d.components = [.root, .name n])
    (hp : p.components = .root :: Name.components ns)
    (hback : ¬ Location.ComesToRoot [] (Name.components ns)) :
    p.startsWith d = true ↔ [n] <:+ p.normalize [] := by
  rw [normalize_of_components hp, startsWith, hd, hp, List.isPrefixOf_iff_prefix,
    List.cons_prefix_cons]
  cases hcs : Name.components ns with
  | nil => simp
  | cons c cs =>
    have hmem : ∀ c' ∈ c :: cs, c' = .up ∨ ∃ m, c' = .name m := fun c' hc' =>
      Name.mem_components (hcs ▸ hc')
    rw [hcs] at hback
    rcases hmem c List.mem_cons_self with rfl | ⟨m, rfl⟩
    · exact absurd (.inl ⟨rfl, rfl⟩) hback
    · have hroot : .root ∉ cs := fun hc => by
        rcases hmem .root (List.mem_cons_of_mem _ hc) with hc | ⟨m, hc⟩ <;> cases hc
      have htop := Location.getLast?_foldl_push (List.cons_ne_nil m []) hroot fun hc => hback (.inr hc)
      have hfold : (Component.name m :: cs).foldl Location.push [] = cs.foldl Location.push [m] := rfl
      rw [hfold, List.singleton_suffix_iff_getLast?_eq_some, htop]
      simp [eq_comm]

theorem isInSystemDir_iff (hp : p.components = .root :: Name.components ns)
    (hback : ¬ Location.ComesToRoot [] (Name.components ns)) :
    p.isInSystemDir = true ↔ (p.normalize []).IsInSystemDir := by
  have htop : ∀ d ∈ systemDirs, ∃ n, d.components = [.root, .name n] ∧ d.normalize [] = [n] := by
    intro d hd
    simp only [systemDirs, List.mem_cons, List.not_mem_nil, or_false] at hd
    rcases hd with rfl | rfl
    · exact ⟨Utf8.ofString "proc", rfl, rfl⟩
    · exact ⟨Utf8.ofString "sys", rfl, rfl⟩
  rw [isInSystemDir, List.any_eq_true]
  refine exists_congr fun d => and_congr_right fun hd => ?_
  obtain ⟨n, hcomponents, hnormal⟩ := htop d hd
  rw [hnormal]
  exact startsWith_iff hcomponents hp hback

/-- For an absolute path that never comes back to the root the test tells where it leads. Any other
leads where its end, from the last return on, leads from the root, and for that path the test tells. -/
theorem isInSystemDir_lexical (hp : p.isAbsolute = true) (h : Host) :
    ∃ l, absolute p h = (.ok l, h) ∧
      (¬ Location.ComesToRoot [] p.components → (p.isInSystemDir = true ↔ l.IsInSystemDir)) ∧
      ∃ (q : Path) (before after : List Component), p.components = .root :: (before ++ after) ∧
        before.foldl Location.push [] = [] ∧ ¬ Location.ComesToRoot [] after ∧
        q.components = .root :: after ∧ absolute q h = (.ok l, h) ∧
        (q.isInSystemDir = true ↔ l.IsInSystemDir) := by
  obtain ⟨ns, hcomponents, hns⟩ := exists_names_of_isAbsolute hp
  refine ⟨p.normalize [], ?_, fun hback => ?_, ?_⟩
  · rw [absolute_of_isAbsolute h hp, normalize_of_isAbsolute h.cwd [] hp]
  · rw [hcomponents] at hback
    exact isInSystemDir_iff hcomponents fun hc => hback (.inr hc)
  · obtain ⟨before, after, hsplit, hfold, hafter⟩ : ∃ before after,
        Name.components ns = before ++ after ∧ before.foldl Location.push [] = [] ∧
          ¬ Location.ComesToRoot [] after := by
      rcases Location.exists_last_return [] (Name.components ns) with hback | hreturn
      · exact ⟨[], _, rfl, rfl, hback⟩
      · exact hreturn
    have hsuffix : after <:+ Name.components ns := hsplit ▸ List.suffix_append before after
    obtain ⟨ms, hms, rfl⟩ := Name.exists_of_components_suffix hsuffix
    obtain ⟨q, hq⟩ := exists_rooted fun n hn => hns n (hms.subset hn)
    have hsame : q.normalize [] = p.normalize [] := by
      rw [normalize_of_components hq, normalize_of_components hcomponents, hsplit, List.foldl_append,
        hfold]
    refine ⟨q, before, _, by rw [hcomponents, hsplit], hfold, hafter, hq, ?_, ?_⟩
    · have habs : q.isAbsolute = true := isAbsolute_of_root_mem (hq ▸ List.mem_cons_self)
      rw [absolute_of_isAbsolute h habs, normalize_of_isAbsolute h.cwd [] habs, hsame]
    · rw [← hsame]
      exact isInSystemDir_iff hq hafter

theorem isInSystemDir_lexical_below :
    (ofString "/.//proc/1/../self").isAbsolute = true ∧
      ¬ Location.ComesToRoot [] (ofString "/.//proc/1/../self").components ∧
      ∃ l, absolute (ofString "/.//proc/1/../self") .initial = (.ok l, .initial) ∧
        l.IsInSystemDir := by
  have habs : (ofString "/.//proc/1/../self").isAbsolute = true := by decide
  have hback : ¬ Location.ComesToRoot [] (ofString "/.//proc/1/../self").components := by decide
  obtain ⟨l, hl, htest, -⟩ := isInSystemDir_lexical habs .initial
  exact ⟨habs, hback, l, hl, (htest hback).1 (by decide)⟩

/-- The path `/../proc` leads to `/proc` and is taken for none of its places; `/proc/../etc` leads to
`/etc` and is taken for one. -/
theorem isInSystemDir_lexical_return :
    ((ofString "/../proc").isInSystemDir = false ∧
      ∃ l, absolute (ofString "/../proc") .initial = (.ok l, .initial) ∧ l.IsInSystemDir) ∧
    (ofString "/proc/../etc").isInSystemDir = true ∧
      ∃ l, absolute (ofString "/proc/../etc") .initial = (.ok l, .initial) ∧ ¬ l.IsInSystemDir :=
  ⟨⟨by decide, _, rfl, by decide⟩, by decide, _, rfl, by decide⟩

end Path

end SandboxMounts
