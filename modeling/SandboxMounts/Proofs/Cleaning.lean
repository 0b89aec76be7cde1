import Mathlib.Data.List.Induction
import SandboxMounts.Proofs.Looks
import SandboxMounts.Proofs.Reach

/-!
A path and its normal form. They lead to the same place as long as no `..` leaves a link: the directory
above the place that a link leads to need not be the one that holds the link.
-/

set_option autoImplicit false

namespace SandboxMounts

namespace Tree

def IsLinkAt (t : Tree) (l : Location) : Prop :=
  ∃ m target, t.locate .kept maxLinks [] l.reverse false = .ok (.node m) ∧
    t.get? m = some (.link target)

/-- One of the `..` comes after a link: the names before it lead to one from `base`. -/
def LeavesLink (t : Tree) (base : Location) (names : List Name) : Prop :=
  ∃ before after, names = before ++ Name.up :: after ∧
    t.IsLinkAt (before.foldl Location.follow base)

inductive IsPlainDir (t : Tree) : Location → Prop
  | root : IsPlainDir t []
  | entry {n : Name} {above : Location} {mode : Nat} (ha : IsPlainDir t above) (hn : n.IsEntry)
    (hs : n.length ≤ maxName) (hg : t.get? (n :: above) = some (.dir mode)) :
    IsPlainDir t (n :: above)

section

variable {t : Tree} {j k : Nat} {base dir l m : Location} {n : Name} {names : List Name} {s : Bool}

theorem IsPlainDir.isSpellable (hd : t.IsPlainDir l) : l.IsSpellable := by
  induction hd with
  | root => exact fun n hn => by cases hn
  | entry ha hn hs hg ih =>
    intro m hm
    rcases List.mem_cons.1 hm with rfl | hm
    · exact hn
    · exact ih m hm

theorem IsPlainDir.reaches (hd : t.IsPlainDir l) : Reaches t 0 [] l.reverse l := by
  induction hd with
  | root => exact .nil
  | @entry n above mode ha hn hs hg ih =>
    rw [List.reverse_cons]
    exact ih.append (.dir ⟨hn.ne_here, hn.ne_up, hs⟩ hg .nil)

theorem LeavesLink.append (hl : t.LeavesLink base names) (ns : List Name) :
    t.LeavesLink base (names ++ ns) := by
  obtain ⟨before, after, rfl, hlink⟩ := hl
  exact ⟨before, after ++ ns, by simp, hlink⟩

theorem Reaches.nil_eq (hr : Reaches t k dir [] l) : k = 0 ∧ l = dir := by
  cases hr
  exact ⟨rfl, rfl⟩

theorem Reaches.here_eq (hr : Reaches t k dir [Name.here] l) : k = 0 ∧ l = dir := by
  cases hr with
  | here hr => exact hr.nil_eq
  | dir hn => exact absurd rfl hn.ne_here
  | link hn => exact absurd rfl hn.ne_here

theorem Reaches.up_eq (hr : Reaches t k dir [Name.up] l) : k = 0 ∧ l = dir.tail := by
  cases hr with
  | up hr => exact hr.nil_eq
  | dir hn => exact absurd rfl hn.ne_up
  | link hn => exact absurd rfl hn.ne_up

theorem isLinkAt_of_reaches {above : Location} {target : Path} (hr : Reaches t k [] above.reverse m)
    (hk : k ≤ maxLinks) (hn : n.IsPlain) (hg : t.get? (n :: m) = some (.link target)) :
    t.IsLinkAt (n :: above) := by
  refine ⟨n :: m, target, ?_, hg⟩
  obtain ⟨links, hlinks⟩ := Nat.exists_eq_add_of_le' hk
  rw [List.reverse_cons, hlinks, hr.locate_append (List.cons_ne_nil n [])]
  refine locate_place ?_
  have hshort : ¬ maxName < n.length := Nat.not_lt.2 hn.short
  rw [walk_last hn.ne_here hn.ne_up]
  simp [last, hshort, hg]

theorem Reaches.leave (hr : Reaches t k [] l.reverse m) (hk : k ≤ maxLinks) (hs : l.IsSpellable)
    (hl : ¬ t.IsLinkAt l) : Reaches t k [] l.tail.reverse m.tail := by
  cases l with
  | nil =>
    obtain ⟨rfl, rfl⟩ := hr.nil_eq
    exact .nil
  | cons n above =>
    have hn := hs n List.mem_cons_self
    rw [List.reverse_cons] at hr
    obtain ⟨i, j, dir, rfl, h₁, h₂⟩ := hr.split
    cases h₂ with
    | here => exact absurd rfl hn.ne_here
    | up => exact absurd rfl hn.ne_up
    | dir hn hg hr =>
      obtain ⟨rfl, rfl⟩ := hr.nil_eq
      exact h₁
    | link hn hg => exact absurd (isLinkAt_of_reaches h₁ (by omega) hn hg) hl

/-- The names lead where their normal form leads, through as many links. -/
theorem Reaches.clean (hb : t.IsPlainDir base) (hns : ∀ n ∈ names, n ≠ [] ∧ slash ∉ n)
    (hno : ¬ t.LeavesLink base names) (hk : k ≤ maxLinks) (hr : Reaches t k base names l) :
    Reaches t k [] (names.foldl Location.follow base).reverse l := by
  -- from the end, where `..` takes back what the names before it have reached
  induction names using List.reverseRecOn generalizing k l with
  | nil =>
    obtain ⟨rfl, rfl⟩ := hr.nil_eq
    exact hb.reaches
  | append_singleton names n ih =>
    have hns' : ∀ m ∈ names, m ≠ [] ∧ slash ∉ m := fun m hm => hns m (by simp [hm])
    obtain ⟨i, j, m, rfl, h₁, h₂⟩ := hr.split
    have hclean := ih hns' (fun hl => hno (hl.append [n])) (by omega) h₁
    rw [List.foldl_append, List.foldl_cons, List.foldl_nil]
    by_cases hhere : n = Name.here
    · subst hhere
      obtain ⟨rfl, rfl⟩ := h₂.here_eq
      rwa [Location.follow_here]
    by_cases hup : n = Name.up
    · subst hup
      obtain ⟨rfl, rfl⟩ := h₂.up_eq
      rw [Location.follow_up]
      exact hclean.leave hk (hb.isSpellable.foldl hns') fun hl => hno ⟨names, [], rfl, hl⟩
    · rw [Location.follow_entry hhere hup, List.reverse_cons]
      exact hclean.append h₂

theorem locate_clean {p : Place} {u : Bool} (hb : t.IsPlainDir base)
    (hns : ∀ n ∈ names, n ≠ [] ∧ slash ∉ n) (hno : ¬ t.LeavesLink base names)
    (hu : u = true → names.foldl Location.follow base = [])
    (hl : t.locate .followed maxLinks base names s = .ok p) :
    t.locate .followed maxLinks [] (names.foldl Location.follow base).reverse u = .ok p := by
  rcases List.eq_nil_or_concat names with rfl | ⟨before, n, rfl⟩
  · rw [locate_nil] at hl
    rw [← hl]
    exact hb.reaches.locate
  rw [List.concat_eq_append] at hns hno hu hl ⊢
  obtain ⟨k, m, hk, hr⟩ := exists_reaches (List.cons_ne_nil n []) hl
  obtain ⟨links, hlinks⟩ := Nat.exists_eq_add_of_le' hk
  rw [hlinks, hr.locate_append (List.cons_ne_nil n [])] at hl
  rw [hlinks]
  by_cases hhere : n = Name.here
  · subst hhere
    rw [locate_here, locate_nil] at hl
    rw [← hl]
    exact (Reaches.clean hb hns hno hk (hr.append (.here .nil))).locate
  by_cases hup : n = Name.up
  · subst hup
    rw [locate_up, locate_nil] at hl
    rw [← hl]
    exact (Reaches.clean hb hns hno hk (hr.append (.up .nil))).locate
  have hclean := hr.clean hb (fun m hm => hns m (by simp [hm])) (fun hl => hno (hl.append [n])) hk
  rw [List.foldl_append, List.foldl_cons, List.foldl_nil, Location.follow_entry hhere hup] at hu ⊢
  rw [List.reverse_cons, hclean.locate_append (List.cons_ne_nil n [])]
  refine locate_slash (fun hc => ?_) hl
  cases hu hc

end

end Tree

namespace Host

def LeavesLink (h : Host) (p : Path) : Prop := h.tree.LeavesLink (p.start h.cwd) p.steps

section

variable {h : Host} {how : LastName} {p q : Path} {place : Place}

theorem locate_eq (hlen : p.bytes.length < maxPath) (he : p.isEmpty = false)
    (hc : p.isAbsolute = false → h.cwdGone = false) :
    h.locate how p = h.tree.locate how maxLinks (p.start h.cwd) p.steps p.endsInSlash := by
  rw [locate, if_neg (Nat.not_le.2 hlen), he, Path.start]
  cases hp : p.isAbsolute with
  | true => simp
  | false => simp [hc hp]

theorem locate_ok (hl : h.locate how p = .ok place) :
    p.bytes.length < maxPath ∧ p.isEmpty = false := by
  unfold locate at hl
  by_cases hlen : maxPath ≤ p.bytes.length
  · rw [if_pos hlen] at hl
    cases hl
  · rw [if_neg hlen] at hl
    refine ⟨Nat.not_le.1 hlen, ?_⟩
    cases he : p.isEmpty with
    | false => rfl
    | true =>
      rw [he, if_pos rfl] at hl
      cases hl

theorem locate_path {l : Location} (hlen : l.path.bytes.length < maxPath) :
    h.locate how l.path = h.tree.locate how maxLinks [] l.path.steps l.path.endsInSlash := by
  have habs := l.path_isAbsolute
  rw [locate_eq hlen l.path_not_isEmpty (by simp [habs]), Path.start, if_pos habs]

/-- A path leads where its normal form leads, unless one of its `..` leaves a link. A relative path also
needs a working directory with a path of its own, and one short enough. -/
theorem locate_normalize (hl : h.locate .followed p = .ok place)
    (hc : p.isAbsolute = false → h.cwdGone = false ∧ h.tree.IsPlainDir h.cwd ∧
      (p.normalize h.cwd).path.bytes.length < maxPath)
    (hno : ¬ h.LeavesLink p) : h.locate .followed (p.normalize h.cwd).path = .ok place := by
  obtain ⟨hlen, he⟩ := locate_ok hl
  have hbase : h.tree.IsPlainDir (p.start h.cwd) := by
    unfold Path.start
    cases hp : p.isAbsolute with
    | true => exact .root
    | false => exact (hc hp).2.1
  have hlen' : (p.normalize h.cwd).path.bytes.length < maxPath := by
    cases hp : p.isAbsolute with
    | true => exact Nat.lt_of_le_of_lt (Path.length_normalize hp) hlen
    | false => exact (hc hp).2.2
  have hspell : (p.normalize h.cwd).IsSpellable := by
    rw [Path.normalize_eq]
    exact hbase.isSpellable.foldl fun n => Path.mem_steps
  rw [locate_eq hlen he fun hp => (hc hp).1] at hl
  rw [locate_path hlen', Location.steps_path hspell]
  rw [Path.normalize_eq] at hspell ⊢
  refine Tree.locate_clean hbase (fun n => Path.mem_steps) hno (fun hu => ?_) hl
  by_cases hroot : p.steps.foldl Location.follow (p.start h.cwd) = []
  · exact hroot
  · rw [Location.path_endsInSlash hspell hroot] at hu
    cases hu

theorem statOf_congr {how' : LastName} (hl : h.locate how p = h.locate how' q) :
    h.statOf how p = h.statOf how' q := by
  unfold statOf
  rw [hl]

theorem statOf_ok {st : Stat} (hs : h.statOf how p = .ok st) :
    ∃ place, h.locate how p = .ok place ∧
      ∀ l, place = .node l → h.tree.get? l = some st.node := by
  obtain ⟨place, hl, hs⟩ := except_bind_eq_ok.1 hs
  refine ⟨place, hl, fun l hp => ?_⟩
  subst hp
  cases hg : h.tree.get? l with
  | none =>
    simp only [hg] at hs
    cases hs
  | some n =>
    simp only [hg] at hs
    cases hs
    rfl

theorem statOf_normalize {st : Stat} (hs : h.statOf .followed p = .ok st)
    (hc : p.isAbsolute = false → h.cwdGone = false ∧ h.tree.IsPlainDir h.cwd ∧
      (p.normalize h.cwd).path.bytes.length < maxPath)
    (hno : ¬ h.LeavesLink p) : h.statOf .followed (p.normalize h.cwd).path = .ok st := by
  obtain ⟨place, hl, -⟩ := statOf_ok hs
  rw [← hs]
  exact statOf_congr ((locate_normalize hl hc hno).trans hl.symm)

theorem statOf_of_lstat {l : Location} {st : Stat} (hs : (lstat l.path h).1 = .ok st)
    (hn : ∀ target, st.node ≠ .link target) : h.statOf .followed l.path = .ok st := by
  obtain ⟨h', hs⟩ : ∃ h', lstat l.path h = (.ok st, h') := ⟨_, Prod.ext hs rfl⟩
  obtain ⟨hs, -⟩ := lstat_ok hs
  cases he : l.path.endsInSlash with
  | true => simpa [he] using hs
  | false =>
    simp only [he, Bool.false_eq_true, if_false] at hs
    obtain ⟨place, hl, hplace⟩ := statOf_ok hs
    obtain ⟨hlen, -⟩ := locate_ok hl
    rw [← hs]
    refine statOf_congr ?_
    rw [hl]
    rw [locate_path hlen, he] at hl ⊢
    refine Tree.locate_followed_of_kept hl fun m target hp hg => ?_
    rw [hplace m hp] at hg
    exact hn target (Option.some.inj hg)

end

end Host

end SandboxMounts
