import SandboxMounts.Host.Call
import SandboxMounts.Proofs.Spelling

/-!
Lookups through links. What the names of a path but the last lead to is a relation of its own, so that
lookups can be cut in two and put together; what a link adds is counted.
-/

set_option autoImplicit false

namespace SandboxMounts

structure Name.IsPlain (n : Name) : Prop where
  ne_here : n ≠ Name.here
  ne_up : n ≠ Name.up
  short : n.length ≤ maxName

namespace Tree

/-- From `dir` the names lead to the directory `l`, through so many links. -/
inductive Reaches (t : Tree) : Nat → Location → List Name → Location → Prop
  | nil {dir : Location} : Reaches t 0 dir [] dir
  | here {k : Nat} {dir l : Location} {rest : List Name} (hr : Reaches t k dir rest l) :
    Reaches t k dir (Name.here :: rest) l
  | up {k : Nat} {dir l : Location} {rest : List Name} (hr : Reaches t k dir.tail rest l) :
    Reaches t k dir (Name.up :: rest) l
  | dir {k : Nat} {dir l : Location} {n : Name} {rest : List Name} {mode : Nat} (hn : n.IsPlain)
    (hg : t.get? (n :: dir) = some (.dir mode)) (hr : Reaches t k (n :: dir) rest l) :
    Reaches t k dir (n :: rest) l
  | link {k : Nat} {dir l : Location} {n : Name} {rest : List Name} {target : Path} (hn : n.IsPlain)
    (hg : t.get? (n :: dir) = some (.link target)) (ht : target.isEmpty = false)
    (hr : Reaches t k (target.start dir) (target.steps ++ rest) l) :
    Reaches t (k + 1) dir (n :: rest) l

section

variable {t : Tree} {how : LastName} {links : Nat} {dir dir' : Location} {n : Name}
  {names names' rest : List Name} {s s' : Bool} {mode : Nat} {target : Path}

theorem locate_congr (hw : t.walk how s dir names = t.walk how s' dir' names') :
    t.locate how links dir names s = t.locate how links dir' names' s' := by
  unfold locate
  rw [hw]

@[simp] theorem locate_nil : t.locate how links dir [] s = .ok (.node dir) := by
  unfold locate walk
  rfl

theorem walk_here : t.walk how s dir (Name.here :: rest) = t.walk how s dir rest := by
  rw [walk, if_pos rfl]

theorem walk_up : t.walk how s dir (Name.up :: rest) = t.walk how s dir.tail rest := by
  rw [walk, if_neg (by decide), if_pos rfl]

@[simp] theorem locate_here :
    t.locate how links dir (Name.here :: rest) s = t.locate how links dir rest s :=
  locate_congr walk_here

@[simp] theorem locate_up :
    t.locate how links dir (Name.up :: rest) s = t.locate how links dir.tail rest s :=
  locate_congr walk_up

theorem walk_into (hn : n.IsPlain) (hg : t.get? (n :: dir) = some (.dir mode)) (hr : rest ≠ []) :
    t.walk how s dir (n :: rest) = t.walk how s (n :: dir) rest := by
  have hshort : ¬ maxName < n.length := Nat.not_lt.2 hn.short
  rw [walk, if_neg hn.ne_here, if_neg hn.ne_up, if_neg hr, if_neg hshort, hg]

theorem walk_dir (hn : n.IsPlain) (hg : t.get? (n :: dir) = some (.dir mode)) (hh : how ≠ .created) :
    t.walk how s dir (n :: rest) = t.walk how s (n :: dir) rest := by
  have hshort : ¬ maxName < n.length := Nat.not_lt.2 hn.short
  cases rest with
  | nil => simp [walk, last, hn.ne_here, hn.ne_up, hh, hshort, hg]
  | cons m rest => exact walk_into hn hg (List.cons_ne_nil m rest)

theorem walk_link (hn : n.IsPlain) (hg : t.get? (n :: dir) = some (.link target)) (hr : rest ≠ []) :
    t.walk how s dir (n :: rest) = .ok (.link dir target rest s) := by
  have hshort : ¬ maxName < n.length := Nat.not_lt.2 hn.short
  rw [walk, if_neg hn.ne_here, if_neg hn.ne_up, if_neg hr, if_neg hshort, hg]

theorem walk_last (hh : n ≠ Name.here) (hu : n ≠ Name.up) :
    t.walk how s dir [n] = t.last how s dir n := by
  rw [walk, if_neg hh, if_neg hu, if_pos rfl]

theorem last_link (hn : n.IsPlain) (hg : t.get? (n :: dir) = some (.link target)) :
    t.last .followed s dir n = .ok (.link dir target [] (s || target.endsInSlash)) := by
  have hshort : ¬ maxName < n.length := Nat.not_lt.2 hn.short
  simp [last, hshort, hg]

theorem walk_ok {stop : Stop} (hw : t.walk how s dir (n :: rest) = .ok stop) (hr : rest ≠ [])
    (hh : n ≠ Name.here) (hu : n ≠ Name.up) :
    n.IsPlain ∧ ((∃ mode, t.get? (n :: dir) = some (.dir mode)) ∨
      ∃ target, t.get? (n :: dir) = some (.link target)) := by
  rw [walk, if_neg hh, if_neg hu, if_neg hr] at hw
  by_cases hlong : maxName < n.length
  · rw [if_pos hlong] at hw
    cases hw
  · rw [if_neg hlong] at hw
    refine ⟨⟨hh, hu, Nat.not_lt.1 hlong⟩, ?_⟩
    cases hg : t.get? (n :: dir) with
    | none =>
      rw [hg] at hw
      cases hw
    | some node =>
      cases node with
      | dir mode => exact .inl ⟨mode, rfl⟩
      | link target => exact .inr ⟨target, rfl⟩
      | leaf kind mode content =>
        rw [hg] at hw
        cases hw

inductive Walks (t : Tree) (how : LastName) (s : Bool) : Location → List Name → Stop → Prop
  | nil {dir : Location} : Walks t how s dir [] (.place (.node dir))
  | here {dir : Location} {rest : List Name} {stop : Stop} (hw : Walks t how s dir rest stop) :
    Walks t how s dir (Name.here :: rest) stop
  | up {dir : Location} {rest : List Name} {stop : Stop} (hw : Walks t how s dir.tail rest stop) :
    Walks t how s dir (Name.up :: rest) stop
  | last {dir : Location} {n : Name} {stop : Stop} (hh : n ≠ Name.here) (hu : n ≠ Name.up)
    (hl : t.last how s dir n = .ok stop) : Walks t how s dir [n] stop
  | dir {dir : Location} {n : Name} {rest : List Name} {mode : Nat} {stop : Stop} (hn : n.IsPlain)
    (hg : t.get? (n :: dir) = some (.dir mode)) (hr : rest ≠ [])
    (hw : Walks t how s (n :: dir) rest stop) : Walks t how s dir (n :: rest) stop
  | link {dir : Location} {n : Name} {rest : List Name} {target : Path} (hn : n.IsPlain)
    (hg : t.get? (n :: dir) = some (.link target)) (hr : rest ≠ []) :
    Walks t how s dir (n :: rest) (.link dir target rest s)

theorem walks_of_walk {stop : Stop} (hw : t.walk how s dir names = .ok stop) :
    Walks t how s dir names stop := by
  induction names generalizing dir with
  | nil =>
    cases hw
    exact .nil
  | cons n rest ih =>
    by_cases hhere : n = Name.here
    · subst hhere
      exact .here (ih (walk_here.symm.trans hw))
    by_cases hup : n = Name.up
    · subst hup
      exact .up (ih (walk_up.symm.trans hw))
    by_cases hrest : rest = []
    · subst hrest
      exact .last hhere hup ((walk_last hhere hup).symm.trans hw)
    obtain ⟨hn, ⟨mode, hg⟩ | ⟨target, hg⟩⟩ := walk_ok hw hrest hhere hup
    · exact .dir hn hg hrest (ih ((walk_into hn hg hrest).symm.trans hw))
    · rw [walk_link hn hg hrest] at hw
      cases hw
      exact .link hn hg hrest

theorem locate_place {p : Place} (hw : t.walk how s dir names = .ok (.place p)) :
    t.locate how links dir names s = .ok p := by
  rw [locate, hw]

theorem locate_link (hw : t.walk how s dir names = .ok (.link dir' target rest s'))
    (ht : target.isEmpty = false) :
    t.locate how (links + 1) dir names s =
      t.locate how links (target.start dir') (target.steps ++ rest) s' := by
  rw [locate, hw]
  simp only [ht, Bool.false_eq_true, if_false]
  rfl

/-- A lookup that succeeds ends its walk at a place, or goes on from a link that it can still spend. -/
theorem locate_ok {p : Place} (hl : t.locate how links dir names s = .ok p) :
    t.walk how s dir names = .ok (.place p) ∨
      ∃ k dir' target rest s', links = k + 1 ∧
        t.walk how s dir names = .ok (.link dir' target rest s') ∧ target.isEmpty = false ∧
        t.locate how k (target.start dir') (target.steps ++ rest) s' = .ok p := by
  cases hw : t.walk how s dir names with
  | error e =>
    rw [locate, hw] at hl
    cases hl
  | ok stop =>
    cases stop with
    | place q =>
      rw [locate_place hw] at hl
      cases hl
      exact .inl rfl
    | link dir' target rest s' =>
      cases links with
      | zero =>
        rw [locate, hw] at hl
        cases hl
      | succ k =>
        cases ht : target.isEmpty with
        | true =>
          rw [locate, hw] at hl
          simp only [ht, if_true] at hl
          cases hl
        | false =>
          rw [locate_link hw ht] at hl
          exact .inr ⟨k, dir', target, rest, s', rfl, rfl, ht, hl⟩

end

section

variable {t : Tree} {how : LastName} {i j k links : Nat} {dir l m : Location}
  {names ms rest : List Name} {s : Bool}

/-- Reaching a directory spends the links on the way, whatever is to be found from there. -/
theorem Reaches.locate_append (hr : Reaches t k dir names l) (hrest : rest ≠ []) :
    t.locate how (links + k) dir (names ++ rest) s = t.locate how links l rest s := by
  induction hr with
  | nil => rfl
  | here hr ih => rw [List.cons_append, locate_here, ih]
  | up hr ih => rw [List.cons_append, locate_up, ih]
  | dir hn hg hr ih =>
    rw [List.cons_append, locate_congr (walk_into hn hg (by simp [hrest])), ih]
  | link hn hg ht hr ih =>
    rw [List.cons_append, ← Nat.add_assoc, locate_link (walk_link hn hg (by simp [hrest])) ht,
      ← List.append_assoc, ih]

theorem Reaches.locate (hr : Reaches t k dir names l) :
    t.locate .followed (links + k) dir names s = .ok (.node l) := by
  induction hr generalizing s with
  | nil => exact locate_nil
  | here hr ih => rw [locate_here, ih]
  | up hr ih => rw [locate_up, ih]
  | dir hn hg hr ih => rw [locate_congr (walk_dir hn hg (by decide)), ih]
  | @link k dir l n rest target hn hg ht hr ih =>
    by_cases hrest : rest = []
    · subst hrest
      have hw := (walk_last hn.ne_here hn.ne_up).trans (last_link (s := s) hn hg)
      rw [← Nat.add_assoc, locate_link hw ht, ih]
    · rw [← Nat.add_assoc, locate_link (walk_link hn hg hrest) ht, ih]

theorem Reaches.append (hr : Reaches t i dir names m) (hs : Reaches t j m ms l) :
    Reaches t (i + j) dir (names ++ ms) l := by
  induction hr with
  | nil => rwa [Nat.zero_add]
  | here hr ih => exact .here (ih hs)
  | up hr ih => exact .up (ih hs)
  | dir hn hg hr ih => exact .dir hn hg (ih hs)
  | @link i dir m n rest target hn hg ht hr ih =>
    rw [Nat.add_right_comm]
    refine .link hn hg ht ?_
    have happ := ih hs
    rwa [List.append_assoc] at happ

theorem Reaches.split (hr : Reaches t k dir (names ++ ms) l) :
    ∃ i j m, k = i + j ∧ Reaches t i dir names m ∧ Reaches t j m ms l := by
  generalize hall : names ++ ms = all at hr
  induction hr generalizing names with
  | nil =>
    obtain ⟨rfl, rfl⟩ := List.append_eq_nil_iff.1 hall
    exact ⟨0, 0, _, rfl, .nil, .nil⟩
  | @here k dir l rest hr ih =>
    rcases List.append_eq_cons_iff.1 hall with ⟨rfl, rfl⟩ | ⟨names', rfl, hrest⟩
    · exact ⟨0, k, dir, (Nat.zero_add k).symm, .nil, .here hr⟩
    · obtain ⟨i, j, m, hk, h₁, h₂⟩ := ih hrest.symm
      exact ⟨i, j, m, hk, .here h₁, h₂⟩
  | @up k dir l rest hr ih =>
    rcases List.append_eq_cons_iff.1 hall with ⟨rfl, rfl⟩ | ⟨names', rfl, hrest⟩
    · exact ⟨0, k, dir, (Nat.zero_add k).symm, .nil, .up hr⟩
    · obtain ⟨i, j, m, hk, h₁, h₂⟩ := ih hrest.symm
      exact ⟨i, j, m, hk, .up h₁, h₂⟩
  | @dir k dir l n rest mode hn hg hr ih =>
    rcases List.append_eq_cons_iff.1 hall with ⟨rfl, rfl⟩ | ⟨names', rfl, hrest⟩
    · exact ⟨0, k, dir, (Nat.zero_add k).symm, .nil, .dir hn hg hr⟩
    · obtain ⟨i, j, m, hk, h₁, h₂⟩ := ih hrest.symm
      exact ⟨i, j, m, hk, .dir hn hg h₁, h₂⟩
  | @link k dir l n rest target hn hg ht hr ih =>
    rcases List.append_eq_cons_iff.1 hall with ⟨rfl, rfl⟩ | ⟨names', rfl, hrest⟩
    · exact ⟨0, k + 1, dir, (Nat.zero_add _).symm, .nil, .link hn hg ht hr⟩
    · obtain ⟨i, j, m, hk, h₁, h₂⟩ := ih (by rw [List.append_assoc, hrest])
      exact ⟨i + 1, j, m, by omega, .link hn hg ht h₁, h₂⟩

theorem exists_reaches {p : Place} (hrest : rest ≠ [])
    (hl : t.locate how links dir (names ++ rest) s = .ok p) :
    ∃ k l, k ≤ links ∧ Reaches t k dir names l := by
  induction links using Nat.strong_induction_on generalizing dir names with
  | _ links ihl =>
    induction names generalizing dir with
    | nil => exact ⟨0, dir, Nat.zero_le links, .nil⟩
    | cons n names ih =>
      rw [List.cons_append] at hl
      by_cases hhere : n = Name.here
      · subst hhere
        obtain ⟨k, l, hk, hr⟩ := ih (locate_here.symm.trans hl)
        exact ⟨k, l, hk, .here hr⟩
      by_cases hup : n = Name.up
      · subst hup
        obtain ⟨k, l, hk, hr⟩ := ih (locate_up.symm.trans hl)
        exact ⟨k, l, hk, .up hr⟩
      have hne : names ++ rest ≠ [] := by simp [hrest]
      obtain ⟨stop, hw⟩ : ∃ stop, t.walk how s dir (n :: (names ++ rest)) = .ok stop := by
        rcases locate_ok hl with hw | ⟨_, _, _, _, _, -, hw, -⟩ <;> exact ⟨_, hw⟩
      obtain ⟨hn, ⟨mode, hg⟩ | ⟨target, hg⟩⟩ := walk_ok hw hne hhere hup
      · rw [locate_congr (walk_into hn hg hne)] at hl
        obtain ⟨k, l, hk, hr⟩ := ih hl
        exact ⟨k, l, hk, .dir hn hg hr⟩
      · rcases locate_ok hl with hw | ⟨links', dir', target', rest', s', hlinks, hw, ht, hl'⟩
        · rw [walk_link hn hg hne] at hw
          cases hw
        · rw [walk_link hn hg hne] at hw
          cases hw
          rw [← List.append_assoc] at hl'
          obtain ⟨k, l, hk, hr⟩ := ihl links' (by omega) hl'
          exact ⟨k + 1, l, by omega, .link hn hg ht hr⟩

theorem last_slash {u : Bool} {n : Name} {stop : Stop} (hu : u = true → s = true)
    (hw : t.last .followed s dir n = .ok stop) :
    (∃ p, stop = .place p ∧ t.last .followed u dir n = .ok (.place p)) ∨
      ∃ dir' target rest s' u', stop = .link dir' target rest s' ∧ (u' = true → s' = true) ∧
        t.last .followed u dir n = .ok (.link dir' target rest u') := by
  by_cases hlong : maxName < n.length
  · simp [last, hlong] at hw
  cases hg : t.get? (n :: dir) with
  | none =>
    simp only [last, reduceCtorEq, false_and, if_false, hlong, hg] at hw ⊢
    cases hw
    exact .inl ⟨_, rfl, rfl⟩
  | some node =>
    cases node with
    | dir mode =>
      simp only [last, reduceCtorEq, false_and, if_false, hlong, hg] at hw ⊢
      cases hw
      exact .inl ⟨_, rfl, rfl⟩
    | link target =>
      simp only [last, reduceCtorEq, false_and, if_false, hlong, hg] at hw ⊢
      cases hw
      refine .inr ⟨_, _, _, _, _, rfl, ?_, rfl⟩
      intro hor
      rcases Bool.or_eq_true_iff.1 hor with hu' | ht
      · rw [hu hu', Bool.true_or]
      · rw [ht, Bool.or_true]
    | leaf kind mode content =>
      cases s with
      | true => simp [last, hlong, hg] at hw
      | false =>
        have hu' : u = false := Bool.eq_false_iff.2 fun hc => by cases hu hc
        subst hu'
        simp only [last, reduceCtorEq, and_false, if_false, hlong, hg, Bool.false_eq_true] at hw ⊢
        cases hw
        exact .inl ⟨_, rfl, rfl⟩

theorem walk_slash {u : Bool} {stop : Stop} (hu : u = true → s = true)
    (hw : t.walk .followed s dir names = .ok stop) :
    (∃ p, stop = .place p ∧ t.walk .followed u dir names = .ok (.place p)) ∨
      ∃ dir' target rest s' u', stop = .link dir' target rest s' ∧ (u' = true → s' = true) ∧
        t.walk .followed u dir names = .ok (.link dir' target rest u') := by
  replace hw := walks_of_walk hw
  induction hw with
  | nil => exact .inl ⟨_, rfl, rfl⟩
  | here hw ih => simpa only [walk_here] using ih
  | up hw ih => simpa only [walk_up] using ih
  | last hh hup hl =>
    rw [walk_last hh hup]
    exact last_slash hu hl
  | dir hn hg hr hw ih =>
    rw [walk_dir hn hg (by decide)]
    exact ih
  | link hn hg hr =>
    rw [walk_link hn hg hr]
    exact .inr ⟨_, _, _, _, _, rfl, hu, rfl⟩

theorem locate_slash {u : Bool} {p : Place} (hu : u = true → s = true)
    (hl : t.locate .followed links dir names s = .ok p) :
    t.locate .followed links dir names u = .ok p := by
  induction links using Nat.strong_induction_on generalizing dir names s u with
  | _ links ih =>
    rcases locate_ok hl with hw | ⟨k, dir', target, rest, s', rfl, hw, ht, hl'⟩
    · rcases walk_slash hu hw with ⟨q, hq, hw'⟩ | ⟨_, _, _, _, _, hq, -⟩
      · cases hq
        exact locate_place hw'
      · cases hq
    · rcases walk_slash hu hw with ⟨q, hq, -⟩ | ⟨_, _, _, _, u', hq, hu', hw'⟩
      · cases hq
      · cases hq
        rw [locate_link hw' ht]
        exact ih k (Nat.lt_succ_self k) hu' hl'

theorem last_kept_ne_link {n : Name} {dir' : Location} {target : Path} {s' : Bool} :
    t.last .kept s dir n ≠ .ok (.link dir' target rest s') := by
  unfold last
  split
  · exact fun hc => by cases hc
  split
  · exact fun hc => by cases hc
  split <;> simp

theorem last_followed_of_kept {n : Name} {p : Place}
    (hw : t.last .kept false dir n = .ok (.place p))
    (hg : ∀ l target, p = .node l → t.get? l ≠ some (.link target)) :
    t.last .followed false dir n = .ok (.place p) := by
  by_cases hlong : maxName < n.length
  · simp [last, hlong] at hw
  cases hn : t.get? (n :: dir) with
  | none => simpa [last, hlong, hn] using hw
  | some node =>
    cases node with
    | dir mode => simpa [last, hlong, hn] using hw
    | link target =>
      have hp : Place.node (n :: dir) = p := by simpa [last, hlong, hn] using hw
      exact absurd hn (hg (n :: dir) target hp.symm)
    | leaf kind mode content => simpa [last, hlong, hn] using hw

theorem locate_followed_of_kept {p : Place} (hl : t.locate .kept links dir names false = .ok p)
    (hg : ∀ l target, p = .node l → t.get? l ≠ some (.link target)) :
    t.locate .followed links dir names false = .ok p := by
  rcases List.eq_nil_or_concat names with rfl | ⟨names, n, rfl⟩
  · rw [locate_nil] at hl ⊢
    exact hl
  · rw [List.concat_eq_append] at hl ⊢
    obtain ⟨k, m, hk, hr⟩ := exists_reaches (List.cons_ne_nil n []) hl
    obtain ⟨links, rfl⟩ := Nat.exists_eq_add_of_le' hk
    rw [hr.locate_append (List.cons_ne_nil n [])] at hl ⊢
    by_cases hhere : n = Name.here
    · subst hhere
      rwa [locate_here, locate_nil] at hl ⊢
    by_cases hup : n = Name.up
    · subst hup
      rwa [locate_up, locate_nil] at hl ⊢
    refine locate_place ?_
    rcases locate_ok hl with hw | ⟨_, _, _, _, _, -, hw, -⟩
    · rw [walk_last hhere hup] at hw ⊢
      exact last_followed_of_kept hw hg
    · rw [walk_last hhere hup] at hw
      exact absurd hw last_kept_ne_link

end

end Tree

end SandboxMounts
