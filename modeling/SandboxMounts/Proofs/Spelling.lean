import Mathlib.Algebra.GroupWithZero.Nat
import Mathlib.Algebra.Order.BigOperators.Group.List
import Mathlib.Algebra.Order.Group.Nat
import SandboxMounts.Path.Location

/-!
Spellings and locations. The normal form of a path follows its names one after another; spelled out
again it gives the same names, and an absolute path does not grow.
-/

set_option autoImplicit false

namespace SandboxMounts

namespace Bytes

theorem splitWhen_cons_of_not {sep : UInt8 → Bool} {b : UInt8} {bs s : Bytes} {ss : List Bytes}
    (hb : sep b = false) (hs : splitWhen sep bs = s :: ss) :
    splitWhen sep (b :: bs) = (b :: s) :: ss := by
  simp [splitWhen, hb, hs]

theorem splitWhen_clean {sep : UInt8 → Bool} {bs s : Bytes} (hs : s ∈ splitWhen sep bs) :
    ∀ b ∈ s, sep b = false := by
  induction bs generalizing s with
  | nil =>
    obtain rfl := List.mem_singleton.1 hs
    intro b hb
    cases hb
  | cons c r ih =>
    cases hc : sep c with
    | true =>
      simp only [splitWhen, hc, if_true] at hs
      rcases List.mem_cons.1 hs with hs | hs
      · subst hs
        intro b hb
        cases hb
      · exact ih hs
    | false =>
      obtain ⟨u, us, hu⟩ := List.exists_cons_of_ne_nil (splitWhen_ne_nil sep r)
      rw [splitWhen_cons_of_not hc hu] at hs
      rcases List.mem_cons.1 hs with hs | hs
      · subst hs
        intro b hb
        rcases List.mem_cons.1 hb with hb | hb
        · rw [hb]
          exact hc
        · exact ih (by simp [hu]) b hb
      · exact ih (by simp [hu, hs])

theorem splitWhen_of_clean {sep : UInt8 → Bool} {s : Bytes} (hs : ∀ b ∈ s, sep b = false) :
    splitWhen sep s = [s] := by
  induction s with
  | nil => rfl
  | cons b r ih =>
    have hr := ih fun c hc => hs c (List.mem_cons_of_mem b hc)
    exact splitWhen_cons_of_not (hs b List.mem_cons_self) hr

theorem splitWhen_append_cons {sep : UInt8 → Bool} {x : UInt8} (bs rest : Bytes)
    (hx : sep x = true) : splitWhen sep (bs ++ x :: rest) = splitWhen sep bs ++ splitWhen sep rest := by
  induction bs with
  | nil => simp [splitWhen, hx]
  | cons b r ih =>
    obtain ⟨u, us, hu⟩ := List.exists_cons_of_ne_nil (splitWhen_ne_nil sep r)
    rw [hu] at ih
    cases hb : sep b with
    | true => simp [splitWhen, hb, ih, hu]
    | false =>
      rw [List.cons_append, splitWhen_cons_of_not hb ih, splitWhen_cons_of_not hb hu]
      rfl

theorem splitWhen_append {sep : UInt8 → Bool} {x : UInt8} {s : Bytes} (bs : Bytes)
    (hx : sep x = true) (hs : ∀ b ∈ s, sep b = false) :
    splitWhen sep (bs ++ x :: s) = splitWhen sep bs ++ [s] := by
  rw [splitWhen_append_cons bs s hx, splitWhen_of_clean hs]

theorem length_splitWhen (sep : UInt8 → Bool) (bs : Bytes) :
    ((splitWhen sep bs).map (·.length + 1)).sum = bs.length + 1 := by
  induction bs with
  | nil => rfl
  | cons b r ih =>
    obtain ⟨u, us, hu⟩ := List.exists_cons_of_ne_nil (splitWhen_ne_nil sep r)
    rw [hu] at ih
    cases hb : sep b with
    | true =>
      simp only [splitWhen, hb, if_true, hu, List.map_cons, List.sum_cons, List.length_cons,
        List.length_nil] at ih ⊢
      omega
    | false =>
      rw [splitWhen_cons_of_not hb hu]
      simp only [List.map_cons, List.sum_cons, List.length_cons] at ih ⊢
      omega

end Bytes

structure Name.IsEntry (n : Name) : Prop where
  ne_nil : n ≠ []
  no_slash : slash ∉ n
  ne_here : n ≠ Name.here
  ne_up : n ≠ Name.up

theorem Name.clean_of_no_slash {n : Name} (hno : slash ∉ n) : ∀ b ∈ n, (b == slash) = false := by
  intro b hb
  have hne : b ≠ slash := fun hc => hno (hc ▸ hb)
  simpa using hne

namespace Location

/-- One name further, without a look at any link. -/
def follow (l : Location) (n : Name) : Location :=
  if n = Name.here then l else if n = Name.up then l.tail else n :: l

@[simp] theorem follow_here (l : Location) : l.follow Name.here = l := if_pos rfl

@[simp] theorem follow_up (l : Location) : l.follow Name.up = l.tail := by
  simp [follow, Name.up, Name.here]

theorem follow_entry {l : Location} {n : Name} (hh : n ≠ Name.here) (hu : n ≠ Name.up) :
    l.follow n = n :: l := by
  simp [follow, hh, hu]

theorem foldl_push (l : Location) (ns : List Name) :
    ((ns.filter (!·.isSilent)).map Name.component).foldl push l =
      (ns.filter (· ≠ [])).foldl follow l := by
  induction ns generalizing l with
  | nil => rfl
  | cons n ns ih =>
    by_cases hn : n = []
    · rw [List.filter_cons_of_neg (by simp [hn, Name.isSilent]),
        List.filter_cons_of_neg (by simp [hn])]
      exact ih l
    rw [List.filter_cons_of_pos (p := (· ≠ [])) (by simp [hn]), List.foldl_cons]
    by_cases hh : n = Name.here
    · rw [List.filter_cons_of_neg (by simp [hh, Name.isSilent]), hh, follow_here]
      exact ih l
    rw [List.filter_cons_of_pos (by simp [hn, hh, Name.isSilent]), List.map_cons, List.foldl_cons]
    by_cases hu : n = Name.up
    · rw [hu, follow_up]
      exact ih l.tail
    · rw [Name.component, if_neg hu, follow_entry hh hu]
      exact ih (n :: l)

end Location

namespace Path

def start (p : Path) (cwd : Location) : Location := if p.isAbsolute then [] else cwd

theorem segments_of_absolute {p : Path} (hp : p.isAbsolute = true) :
    ∃ ss, ss ≠ [] ∧ p.segments = [] :: ss := by
  obtain ⟨bs⟩ := p
  cases bs with
  | nil => simp [isAbsolute] at hp
  | cons b r =>
    obtain rfl : b = slash := by simpa [isAbsolute] using hp
    exact ⟨_, Bytes.splitWhen_ne_nil (· == slash) r, by simp [segments, Bytes.splitWhen]⟩

theorem segments_of_relative {p : Path} (hp : p.isAbsolute = false) :
    ∃ s ss, p.segments = s :: ss ∧ (s = [] → ss = []) := by
  obtain ⟨bs⟩ := p
  cases bs with
  | nil => exact ⟨[], [], rfl, fun _ => rfl⟩
  | cons b r =>
    have hb : (b == slash) = false := by simpa [isAbsolute] using hp
    obtain ⟨u, us, hu⟩ := List.exists_cons_of_ne_nil (Bytes.splitWhen_ne_nil (· == slash) r)
    exact ⟨b :: u, us, Bytes.splitWhen_cons_of_not hb hu, fun hc => by cases hc⟩

theorem normalize_eq (cwd : Location) (p : Path) :
    p.normalize cwd = p.steps.foldl Location.follow (p.start cwd) := by
  unfold normalize components steps start
  cases hp : p.isAbsolute with
  | true =>
    obtain ⟨ss, hss, hs⟩ := segments_of_absolute hp
    simp [anchored, hs, hss, Location.push, Location.foldl_push]
  | false =>
    obtain ⟨s, ss, hs, hnil⟩ := segments_of_relative hp
    by_cases hn : s = []
    · simp [anchored, hs, hn, hnil hn, Name.here, Name.isSilent]
    by_cases hh : s = Name.here
    · subst hh
      simp [anchored, hs, hn, Location.push, Location.foldl_push]
    · simp only [anchored, hs, hn, hh, false_and, if_false]
      exact Location.foldl_push cwd (s :: ss)

theorem isAbsolute_of_name {n : Name} (hn : n ≠ []) (hno : slash ∉ n) :
    (⟨n⟩ : Path).isAbsolute = false := by
  obtain ⟨b, r, rfl⟩ := List.exists_cons_of_ne_nil hn
  have hb : b ≠ slash := fun hc => hno (by simp [hc])
  simp [isAbsolute, hb]

theorem empty_join (q : Path) : (⟨[]⟩ : Path).join q = q := by
  unfold join
  split
  · rfl
  · simp [isEmpty]

theorem join_of_relative {p q : Path} (hp : p.bytes ≠ []) (hq : q.isAbsolute = false) :
    ∃ bs, (p.join q).bytes = bs ++ slash :: q.bytes ∧ (p.bytes = bs ∨ p.bytes = bs ++ [slash]) := by
  unfold join
  rw [hq]
  cases hslash : p.endsInSlash with
  | true =>
    obtain ⟨bs, hbs⟩ := List.getLast?_eq_some_iff.1 (by simpa [endsInSlash] using hslash)
    exact ⟨bs, by simp [hbs], .inr hbs⟩
  | false => exact ⟨p.bytes, by simp [isEmpty, hp], .inl rfl⟩

theorem isAbsolute_join_of_relative {q : Path} (p : Path) (hq : q.isAbsolute = false) :
    (p.join q).isAbsolute = p.isAbsolute := by
  obtain ⟨bs⟩ := p
  cases bs with
  | nil => exact (congrArg isAbsolute (empty_join q)).trans hq
  | cons b r =>
    rw [join, hq]
    simp only [Bool.false_eq_true, if_false]
    split <;> rfl

theorem length_le_join {q : Path} (p : Path) (hq : q.isAbsolute = false) :
    q.bytes.length ≤ (p.join q).bytes.length := by
  by_cases hp : p.bytes = []
  · obtain rfl : p = ⟨[]⟩ := congrArg Path.mk hp
    rw [empty_join]
  obtain ⟨bs, hjoin, -⟩ := join_of_relative hp hq
  rw [hjoin, List.length_append, List.length_cons]
  omega

theorem steps_join_of_relative {q : Path} (p : Path) (hq : q.isAbsolute = false) :
    (p.join q).steps = p.steps ++ q.steps := by
  by_cases hp : p.bytes = []
  · obtain rfl : p = ⟨[]⟩ := congrArg Path.mk hp
    rw [empty_join]
    rfl
  unfold steps segments
  obtain ⟨bs, hjoin, hbs | hbs⟩ := join_of_relative hp hq
  · rw [hjoin, hbs, Bytes.splitWhen_append_cons bs _ (by simp), List.filter_append]
  · rw [hjoin, hbs, Bytes.splitWhen_append_cons bs _ (by simp),
      Bytes.splitWhen_append_cons bs [] (by simp)]
    simp [Bytes.splitWhen]

theorem steps_join {n : Name} (p : Path) (hn : n ≠ []) (hno : slash ∉ n) :
    (p.join ⟨n⟩).steps = p.steps ++ [n] := by
  have hname : (⟨n⟩ : Path).steps = [n] := by
    rw [steps, segments, Bytes.splitWhen_of_clean (Name.clean_of_no_slash hno)]
    simp [hn]
  rw [steps_join_of_relative p (isAbsolute_of_name hn hno), hname]

theorem endsInSlash_join_of_relative {q : Path} (p : Path) (hq : q.isAbsolute = false)
    (he : q.isEmpty = false) : (p.join q).endsInSlash = q.endsInSlash := by
  have hne : q.bytes ≠ [] := by simpa [isEmpty] using he
  by_cases hp : p.bytes = []
  · obtain rfl : p = ⟨[]⟩ := congrArg Path.mk hp
    rw [empty_join]
  obtain ⟨bs, hjoin, -⟩ := join_of_relative hp hq
  rw [endsInSlash, endsInSlash, hjoin, List.append_cons, List.getLast?_append_of_ne_nil _ hne]

theorem endsInSlash_append {n : Name} (bs : Bytes) (hn : n ≠ []) (hno : slash ∉ n) :
    (⟨bs ++ n⟩ : Path).endsInSlash = false := by
  have hne : n.getLast hn ≠ slash := fun hc => hno (hc ▸ List.getLast_mem hn)
  simp [endsInSlash, List.getLast?_append, List.getLast?_eq_some_getLast hn, hne]

theorem endsInSlash_join {n : Name} (p : Path) (hn : n ≠ []) (hno : slash ∉ n) :
    (p.join ⟨n⟩).endsInSlash = false := by
  rw [endsInSlash_join_of_relative p (isAbsolute_of_name hn hno) (by simpa [isEmpty] using hn)]
  exact endsInSlash_append [] hn hno

theorem mem_steps {p : Path} {n : Name} (hn : n ∈ p.steps) : n ≠ [] ∧ slash ∉ n := by
  obtain ⟨hs, hne⟩ := List.mem_filter.1 hn
  refine ⟨by simpa using hne, fun hc => ?_⟩
  have := Bytes.splitWhen_clean hs slash hc
  simp at this

end Path

namespace Location

def IsSpellable (l : Location) : Prop := ∀ n ∈ l, Name.IsEntry n

variable {l : Location}

theorem IsSpellable.tail (hl : l.IsSpellable) : Location.IsSpellable l.tail :=
  fun n hn => hl n (List.mem_of_mem_tail hn)

theorem IsSpellable.foldl {ns : List Name} (hl : l.IsSpellable)
    (hns : ∀ n ∈ ns, n ≠ [] ∧ slash ∉ n) : Location.IsSpellable (ns.foldl follow l) := by
  induction ns generalizing l with
  | nil => exact hl
  | cons n ns ih =>
    refine ih ?_ fun m hm => hns m (List.mem_cons_of_mem n hm)
    by_cases hh : n = Name.here
    · rw [hh, follow_here]
      exact hl
    by_cases hu : n = Name.up
    · rw [hu, follow_up]
      exact hl.tail
    · rw [follow_entry hh hu]
      intro m hm
      rcases List.mem_cons.1 hm with hm | hm
      · obtain ⟨hne, hno⟩ := hns n List.mem_cons_self
        rw [hm]
        exact ⟨hne, hno, hh, hu⟩
      · exact hl m hm

theorem segments_spell (hl : l.IsSpellable) :
    (⟨spell l⟩ : Path).segments = [] :: l.reverse := by
  induction l with
  | nil => rfl
  | cons n above ih =>
    have hn : ∀ b ∈ n, (b == slash) = false := fun b hb => by
      have hne : b ≠ slash := fun hc => (hl n List.mem_cons_self).no_slash (hc ▸ hb)
      simpa using hne
    have habove := ih fun m hm => hl m (List.mem_cons_of_mem n hm)
    rw [Path.segments] at habove ⊢
    rw [spell, Bytes.splitWhen_append (spell above) (by simp) hn, habove]
    simp

theorem steps_path (hl : l.IsSpellable) : l.path.steps = l.reverse := by
  cases l with
  | nil => rfl
  | cons n above =>
    rw [path, Path.steps, segments_spell hl]
    simp only [List.filter_cons, ne_eq, not_true, decide_false, Bool.false_eq_true, if_false]
    rw [List.filter_eq_self]
    intro m hm
    have := (hl m (List.mem_reverse.1 hm)).ne_nil
    simpa using this

theorem path_endsInSlash (hl : l.IsSpellable) (hne : l ≠ []) : l.path.endsInSlash = false := by
  obtain ⟨n, above, rfl⟩ := List.exists_cons_of_ne_nil hne
  have hn := hl n List.mem_cons_self
  have happ := Path.endsInSlash_append (spell above ++ [slash]) hn.ne_nil hn.no_slash
  rwa [List.append_assoc, List.singleton_append] at happ

theorem path_not_isEmpty (l : Location) : l.path.isEmpty = false := by
  cases l with
  | nil => rfl
  | cons n above => simp [path, Path.isEmpty, spell]

theorem length_spell_foldl (l : Location) (ns : List Name) :
    (spell (ns.foldl follow l)).length ≤ (spell l).length + (ns.map (·.length + 1)).sum := by
  induction ns generalizing l with
  | nil => simp
  | cons n ns ih =>
    have hstep : (spell (l.follow n)).length ≤ (spell l).length + (n.length + 1) := by
      by_cases hh : n = Name.here
      · rw [hh, follow_here]
        omega
      by_cases hu : n = Name.up
      · rw [hu, follow_up]
        cases l with
        | nil => simp
        | cons m above =>
          simp only [List.tail_cons, spell, List.length_append]
          omega
      · rw [follow_entry hh hu, spell, List.length_append, List.length_cons]
    have hrest := ih (l.follow n)
    simp only [List.foldl_cons, List.map_cons, List.sum_cons]
    omega

end Location

theorem Path.length_normalize {cwd : Location} {p : Path} (hp : p.isAbsolute = true) :
    (p.normalize cwd).path.bytes.length ≤ p.bytes.length := by
  obtain ⟨ss, hss, hs⟩ := segments_of_absolute hp
  have hcut : (p.segments.map (·.length + 1)).sum = p.bytes.length + 1 :=
    Bytes.length_splitWhen (· == slash) p.bytes
  have hsteps := ((List.filter_sublist (l := ss) (p := (· ≠ []))).map
    (fun n : Name => n.length + 1)).sum_le_sum fun k _ => Nat.zero_le k
  have hspell := Location.length_spell_foldl [] p.steps
  have hpos : 0 < p.bytes.length := by
    obtain ⟨bs⟩ := p
    cases bs with
    | nil => simp [isAbsolute] at hp
    | cons b r => simp
  rw [normalize_eq, start, if_pos hp]
  simp only [hs, List.map_cons, List.sum_cons, List.length_nil] at hcut
  have hsteps' : p.steps = ss.filter (· ≠ []) := by simp [steps, hs]
  rw [← hsteps'] at hsteps
  cases hl : p.steps.foldl Location.follow [] with
  | nil => exact hpos
  | cons n above =>
    rw [hl] at hspell
    simp only [Location.path, Location.spell, List.length_append, List.length_cons,
      List.length_nil] at hspell ⊢
    omega

end SandboxMounts
