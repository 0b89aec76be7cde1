import Mathlib.Order.Defs.Unbundled
import SandboxMounts.Proofs.Reach

/-!
Trees that only gain nodes. What a lookup has found it finds again in every larger tree, and a name that
was free is the only thing that it may find otherwise.
-/

set_option autoImplicit false

namespace SandboxMounts

def Place.location? : Place → Option Location
  | .node l => some l
  | .vacant dir n => some (n :: dir)
  | .adrift _ => none

def LastName.IsFor (how : LastName) (n : Node) : Prop :=
  n.isDir = true ∨ how = .created ∧ ∃ kind mode content, n = .leaf kind mode content

namespace Tree

def Extends (t t' : Tree) : Prop := ∀ l n, t.get? l = some n → t'.get? l = some n

instance : IsPreorder Tree Extends where
  refl _ _ _ hn := hn
  trans _ _ _ h₁ h₂ l n hn := h₂ l n (h₁ l n hn)

theorem extends_insert {t : Tree} {l : Location} (n : Node) (hv : t.get? l = none) :
    t.Extends (t.insert l n) := by
  intro k m hk
  have hne : k ≠ l := fun hc => by
    rw [hc, hv] at hk
    cases hk
  rw [get?_insert_of_ne t n hne, hk]

section

variable {t t' : Tree} {how : LastName} {links k : Nat} {dir l : Location} {n : Name}
  {names ns : List Name} {s : Bool}

namespace Extends

variable (he : t.Extends t')
include he

theorem last {stop : Stop} (hw : t.last how s dir n = .ok stop) :
    (∃ d m, stop = .place (.vacant d m) ∧ t.get? (m :: d) = none) ∨
      (∀ d m, stop ≠ .place (.vacant d m)) ∧ t'.last how s dir n = .ok stop := by
  cases hg : t.get? (n :: dir) with
  | none =>
    simp only [Tree.last, hg] at hw
    split at hw
    · cases hw
    split at hw <;> cases hw
    exact .inl ⟨dir, n, rfl, hg⟩
  | some node =>
    refine .inr ⟨?_, by rw [← hw, Tree.last, Tree.last, hg, he _ _ hg]⟩
    intro d m hc
    subst hc
    simp only [Tree.last, hg] at hw
    split at hw
    · cases hw
    split at hw
    · cases hw
    cases node with
    | dir mode => cases hw
    | link target =>
      simp only at hw
      split at hw <;> cases hw
    | leaf kind mode content =>
      simp only at hw
      split at hw <;> cases hw

theorem walk {stop : Stop} (hw : t.walk how s dir names = .ok stop) :
    (∃ d m, stop = .place (.vacant d m) ∧ t.get? (m :: d) = none) ∨
      (∀ d m, stop ≠ .place (.vacant d m)) ∧ t'.walk how s dir names = .ok stop := by
  replace hw := walks_of_walk hw
  induction hw with
  | nil => exact .inr ⟨fun d m hc => (by cases hc), rfl⟩
  | here hw ih => simpa only [walk_here] using ih
  | up hw ih => simpa only [walk_up] using ih
  | last hh hu hl =>
    rw [walk_last hh hu]
    exact he.last hl
  | dir hn hg hr hw ih =>
    rw [walk_into hn (he _ _ hg) hr]
    exact ih
  | link hn hg hr =>
    rw [walk_link hn (he _ _ hg) hr]
    exact .inr ⟨fun d m hc => (by cases hc), rfl⟩

theorem locate {p : Place} (hl : t.locate how links dir names s = .ok p) :
    (∃ d m, p = .vacant d m ∧ t.get? (m :: d) = none) ∨
      (∀ d m, p ≠ .vacant d m) ∧ t'.locate how links dir names s = .ok p := by
  induction links using Nat.strong_induction_on generalizing dir names s with
  | _ links ih =>
    rcases locate_ok hl with hw | ⟨k, dir', target, rest, s', rfl, hw, ht, hl'⟩
    · rcases he.walk hw with ⟨d, m, hp, hg⟩ | ⟨hp, hw'⟩
      · cases hp
        exact .inl ⟨d, m, rfl, hg⟩
      · exact .inr ⟨fun d m hc => hp d m (congrArg Stop.place hc), locate_place hw'⟩
    · rcases he.walk hw with ⟨d, m, hp, -⟩ | ⟨-, hw'⟩
      · cases hp
      · rw [locate_link hw' ht]
        exact ih k (Nat.lt_succ_self k) hl'

theorem locate_node (hl : t.locate how links dir names s = .ok (.node l)) :
    t'.locate how links dir names s = .ok (.node l) := by
  rcases he.locate hl with ⟨d, m, hp, -⟩ | ⟨-, hl'⟩
  · cases hp
  · exact hl'

theorem isDir_at (hd : (t.get? l).any Node.isDir = true) : (t'.get? l).any Node.isDir = true := by
  cases hg : t.get? l with
  | none =>
    rw [hg] at hd
    cases hd
  | some node => rwa [hg, ← he l node hg] at hd

theorem reaches (hr : Reaches t k dir names l) : Reaches t' k dir names l := by
  induction hr with
  | nil => exact .nil
  | here hr ih => exact .here ih
  | up hr ih => exact .up ih
  | dir hn hg hr ih => exact .dir hn (he _ _ hg) ih
  | link hn hg ht hr ih => exact .link hn (he _ _ hg) ht ih

end Extends

section

variable {node : Node} (hg : t'.get? l = some node) (hf : how.IsFor node)
include hg hf

theorem last_followed_of_isFor {p : Place} (hw : t.last how s dir n = .ok (.place p))
    (hp : p.location? = some l) : t'.last .followed s dir n = .ok (.place (.node l)) := by
  unfold Tree.last at hw
  split at hw
  · cases hw
  rename_i hslash
  split at hw
  · cases hw
  rename_i hlong
  have hl : l = n :: dir := by
    split at hw
    · cases hw
      exact (Option.some.inj hp).symm
    · cases hw
      exact (Option.some.inj hp).symm
    · split at hw <;> cases hw
      exact (Option.some.inj hp).symm
    · split at hw <;> cases hw
      exact (Option.some.inj hp).symm
  subst hl
  cases node with
  | dir mode => simp [Tree.last, hlong, hg]
  | link target =>
    rcases hf with hf | ⟨-, _, _, _, hf⟩ <;> cases hf
  | leaf kind mode content =>
    rcases hf with hf | ⟨rfl, -⟩
    · cases hf
    · have hs : s = false := Bool.eq_false_iff.2 fun hc => hslash ⟨rfl, hc⟩
      simp [Tree.last, hlong, hg, hs]

theorem Extends.walk_followed {p : Place} (he : t.Extends t')
    (hw : t.walk how s dir names = .ok (.place p)) (hp : p.location? = some l) :
    t'.walk .followed s dir names = .ok (.place (.node l)) := by
  replace hw := walks_of_walk hw
  generalize hstop : Stop.place p = stop at hw
  induction hw with
  | nil =>
    cases hstop
    cases hp
    rfl
  | here hw ih => simpa only [walk_here] using ih hstop
  | up hw ih => simpa only [walk_up] using ih hstop
  | last hh hu hl =>
    subst hstop
    rw [walk_last hh hu]
    exact last_followed_of_isFor hg hf hl hp
  | dir hn hd hr hw ih =>
    rw [walk_into hn (he _ _ hd) hr]
    exact ih hstop
  | link hn hlink hr => cases hstop

end

theorem last_followed_link {dir' : Location} {target : Path} {rest : List Name} {s' : Bool}
    (hw : t.last how s dir n = .ok (.link dir' target rest s')) :
    t.last .followed s dir n = .ok (.link dir' target rest s') := by
  unfold last at hw ⊢
  split at hw
  · cases hw
  rw [if_neg (by simp)]
  split at hw
  · cases hw
  rw [if_neg ‹_›]
  split at hw
  · cases hw
  · cases hw
  · split at hw <;> cases hw
    rfl
  · split at hw <;> cases hw

theorem walk_followed_link {dir' : Location} {target : Path} {rest : List Name} {s' : Bool}
    (hw : t.walk how s dir names = .ok (.link dir' target rest s')) :
    t.walk .followed s dir names = .ok (.link dir' target rest s') := by
  replace hw := walks_of_walk hw
  generalize hstop : Stop.link dir' target rest s' = stop at hw ⊢
  induction hw with
  | nil => cases hstop
  | here hw ih => simpa only [walk_here] using ih hstop
  | up hw ih => simpa only [walk_up] using ih hstop
  | last hh hu hl =>
    subst hstop
    rw [walk_last hh hu]
    exact last_followed_link hl
  | dir hn hd hr hw ih =>
    rw [walk_into hn hd hr]
    exact ih hstop
  | link hn hlink hr => rw [walk_link hn hlink hr]

theorem Extends.locate_followed {p : Place} {node : Node} (he : t.Extends t')
    (hg : t'.get? l = some node) (hf : how.IsFor node)
    (hl : t.locate how links dir names s = .ok p) (hp : p.location? = some l) :
    t'.locate .followed links dir names s = .ok (.node l) := by
  induction links using Nat.strong_induction_on generalizing dir names s with
  | _ links ih =>
    rcases locate_ok hl with hw | ⟨k, dir', target, rest, s', rfl, hw, ht, hl'⟩
    · exact locate_place (he.walk_followed hg hf hw hp)
    · rcases he.walk hw with ⟨d, m, hc, -⟩ | ⟨-, hw'⟩
      · cases hc
      · rw [locate_link (walk_followed_link hw') ht]
        exact ih k (Nat.lt_succ_self k) hl'

theorem vacant_of_locate {d : Location} {m : Name}
    (hl : t.locate how links dir names s = .ok (.vacant d m)) : t.get? (m :: d) = none := by
  rcases (refl_of Extends t).locate hl with ⟨d', m', hp, hg⟩ | ⟨hp, -⟩
  · cases hp
    exact hg
  · exact absurd rfl (hp d m)

/-- Of a path that ends in a name, all before it leads to the directory where the name is looked up. -/
theorem locate_entry {p : Place} (hh : n ≠ Name.here) (hu : n ≠ Name.up)
    (hl : t.locate how links dir (ns ++ [n]) s = .ok p) :
    ∃ k l, k ≤ links ∧ Reaches t k dir ns l ∧ n.IsPlain ∧
      (p = .vacant l n ∨ ∃ node, t.get? (n :: l) = some node) := by
  obtain ⟨k, l, hk, hr⟩ := exists_reaches (List.cons_ne_nil n []) hl
  obtain ⟨links, rfl⟩ := Nat.exists_eq_add_of_le' hk
  rw [hr.locate_append (List.cons_ne_nil n [])] at hl
  have hw : ∃ stop, t.last how s l n = .ok stop ∧ ∀ q, stop = .place q → q = p := by
    rw [← walk_last hh hu]
    rcases locate_ok hl with hw | ⟨_, _, _, _, _, -, hw, -⟩
    · exact ⟨_, hw, fun q hq => (by cases hq; rfl)⟩
    · exact ⟨_, hw, fun q hq => (by cases hq)⟩
  obtain ⟨stop, hw, hp⟩ := hw
  have hshort : ¬ maxName < n.length := fun hlong => by
    simp only [last, hlong, if_true] at hw
    split at hw <;> cases hw
  refine ⟨k, l, hk, hr, ⟨hh, hu, Nat.not_lt.1 hshort⟩, ?_⟩
  cases hg : t.get? (n :: l) with
  | none =>
    simp only [last, hg, hshort, if_false] at hw
    split at hw <;> cases hw
    exact .inl (hp _ rfl).symm
  | some node => exact .inr ⟨node, rfl⟩

theorem Reaches.locate_kept {node : Node} (hr : Reaches t k dir ns l) (hk : k ≤ links)
    (hn : n.IsPlain) (hg : t.get? (n :: l) = some node) :
    t.locate .kept links dir (ns ++ [n]) s = .ok (.node (n :: l)) := by
  obtain ⟨links, rfl⟩ := Nat.exists_eq_add_of_le' hk
  rw [hr.locate_append (List.cons_ne_nil n [])]
  refine locate_place ?_
  have hshort : ¬ maxName < n.length := Nat.not_lt.2 hn.short
  rw [walk_last hn.ne_here hn.ne_up]
  cases node <;> simp [last, hshort, hg]

theorem last_ne_alreadyExists : t.last how s dir n ≠ .error .alreadyExists := by
  unfold last
  split
  · simp
  split
  · simp
  split
  · simp
  · simp
  · split <;> simp
  · split <;> simp

theorem walk_ne_alreadyExists : t.walk how s dir names ≠ .error .alreadyExists := by
  induction names generalizing dir with
  | nil => simp [walk]
  | cons n rest ih =>
    unfold walk
    split
    · exact ih
    split
    · exact ih
    split
    · exact last_ne_alreadyExists
    split
    · simp
    split
    · simp
    · exact ih
    · simp
    · simp

theorem locate_ne_alreadyExists : t.locate how links dir names s ≠ .error .alreadyExists := by
  induction links using Nat.strong_induction_on generalizing dir names s with
  | _ links ih =>
    unfold locate
    split
    · rename_i e hw
      intro hc
      cases hc
      exact walk_ne_alreadyExists hw
    · simp
    · split
      · simp
      split
      · simp
      · exact ih _ (Nat.lt_succ_self _)

theorem locateAdrift_here :
    t.locateAdrift how s dir (Name.here :: names) = t.locateAdrift how s dir names := by
  rw [locateAdrift, if_pos rfl]

theorem locateAdrift_up :
    t.locateAdrift how s dir (Name.up :: names) =
      if (t.get? dir.tail).any Node.isDir then t.locate how maxLinks dir.tail names s
      else t.locateAdrift how s dir.tail names := by
  rw [locateAdrift, if_neg (by decide), if_pos rfl]

theorem locateAdrift_ne_alreadyExists :
    t.locateAdrift how s dir names ≠ .error .alreadyExists := by
  induction names generalizing dir with
  | nil => simp [locateAdrift]
  | cons n rest ih =>
    unfold locateAdrift
    split
    · exact ih
    split
    · split
      · exact locate_ne_alreadyExists
      · exact ih
    · simp

/-- A removed directory is on no way down, but on the way up from it all is found as if it were there. -/
theorem locateAdrift_ok {p : Place} (hl : t.locateAdrift how s dir names = .ok p) :
    (∃ l, p = .adrift l) ∨ t.locate how maxLinks dir names s = .ok p := by
  induction names generalizing dir with
  | nil =>
    cases hl
    exact .inl ⟨dir, rfl⟩
  | cons n rest ih =>
    by_cases hhere : n = Name.here
    · subst hhere
      rw [locateAdrift_here] at hl
      rw [locate_here]
      exact ih hl
    by_cases hup : n = Name.up
    · subst hup
      rw [locateAdrift_up] at hl
      rw [locate_up]
      split at hl
      · exact .inr hl
      · exact ih hl
    · rw [locateAdrift, if_neg hhere, if_neg hup] at hl
      cases hl

theorem vacant_of_locateAdrift {d : Location} {m : Name}
    (hl : t.locateAdrift how s dir names = .ok (.vacant d m)) : t.get? (m :: d) = none := by
  rcases locateAdrift_ok hl with ⟨l, hc⟩ | hl'
  · cases hc
  · exact vacant_of_locate hl'

/-- Where one lookup of an entry gets away from a removed directory, all of them do, in every larger tree. -/
theorem Extends.locateAdrift (he : t.Extends t') {p : Place}
    (hl : t.locateAdrift how s dir (ns ++ [n]) = .ok p) (hh : n ≠ Name.here) (hu : n ≠ Name.up) :
    t.locate how maxLinks dir (ns ++ [n]) s = .ok p ∧
      ∀ how', t'.locateAdrift how' s dir (ns ++ [n]) = t'.locate how' maxLinks dir (ns ++ [n]) s := by
  induction ns generalizing dir with
  | nil =>
    rw [List.nil_append, Tree.locateAdrift, if_neg hh, if_neg hu] at hl
    cases hl
  | cons m ns ih =>
    by_cases hhere : m = Name.here
    · subst hhere
      simp only [List.cons_append, locateAdrift_here, locate_here] at hl ⊢
      exact ih hl
    by_cases hup : m = Name.up
    · subst hup
      simp only [List.cons_append, locateAdrift_up, locate_up] at hl ⊢
      split at hl
      · rename_i hdir
        exact ⟨hl, fun how' => if_pos (he.isDir_at hdir)⟩
      · obtain ⟨hlocate, hback⟩ := ih hl
        -- a removed directory may have been made anew in `t'`
        refine ⟨hlocate, fun how' => ?_⟩
        rw [hback how', ite_self]
    · rw [List.cons_append, Tree.locateAdrift, if_neg hhere, if_neg hup] at hl
      cases hl

theorem Extends.locateAdrift_of {how' : LastName} {p q : Place} (he : t.Extends t')
    (hp : ∀ l, p ≠ .adrift l) (hq : ∀ l, q ≠ .adrift l)
    (hback : ∀ dir names, t.locate how maxLinks dir names s = .ok p →
      t'.locate how' maxLinks dir names s = .ok q)
    (hl : t.locateAdrift how s dir names = .ok p) : t'.locateAdrift how' s dir names = .ok q := by
  induction names generalizing dir with
  | nil =>
    cases hl
    exact absurd rfl (hp dir)
  | cons n rest ih =>
    by_cases hhere : n = Name.here
    · subst hhere
      rw [locateAdrift_here] at hl ⊢
      exact ih hl
    by_cases hup : n = Name.up
    · subst hup
      rw [locateAdrift_up] at hl ⊢
      split at hl
      · rename_i hdir
        rw [if_pos (he.isDir_at hdir)]
        exact hback _ _ hl
      · split
        · rcases locateAdrift_ok (ih hl) with ⟨l, hc⟩ | hl'
          · exact absurd hc (hq l)
          · exact hl'
        · exact ih hl
    · rw [Tree.locateAdrift, if_neg hhere, if_neg hup] at hl
      cases hl

end

end Tree

end SandboxMounts
