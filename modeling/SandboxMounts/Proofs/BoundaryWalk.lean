import SandboxMounts.Proofs.Looks

/-!
The walk up to the mount point. It ends in one of three ways, each told by what single looks at the
directories above find; that these looks happen one after another makes no difference.
-/

set_option autoImplicit false

namespace SandboxMounts

def Host.deviceOf (h : Host) (l : Location) : Except IoError RawDevice :=
  (Host.lstat l.path h).1.map (·.device)

namespace Location

/-- `a` is a directory on the way from the root to `l`, and not `l`. -/
def IsAbove (a l : Location) : Prop := a <:+ l ∧ a ≠ l

theorem isAbove_cons {a : Location} {n : Name} {above : Location} :
    a.IsAbove (n :: above) ↔ a <:+ above := by
  unfold IsAbove
  rw [List.suffix_cons_iff]
  constructor
  · intro h
    rcases h.1 with ha | ha
    · exact absurd ha h.2
    · exact ha
  · intro ha
    refine ⟨.inr ha, fun he => ?_⟩
    subst he
    have hlen := ha.length_le
    simp only [List.length_cons] at hlen
    omega

theorem suffix_iff {a l : Location} : a <:+ l ↔ a = l ∨ a.IsAbove l := by
  unfold IsAbove
  by_cases ha : a = l
  · simp [ha]
  · simp [ha]

theorem forall_isAbove_cons {P : Location → Prop} {n : Name} {above : Location} (h : P above)
    (hall : ∀ a : Location, a.IsAbove above → P a) :
    ∀ a : Location, a.IsAbove (n :: above) → P a := by
  intro a ha
  rcases suffix_iff.1 (isAbove_cons.1 ha) with he | ha
  · rw [he]
    exact h
  · exact hall a ha

end Location

/-- `m` is where the way up from `l` leaves the device `d`. -/
structure IsBoundary (h : Host) (d : RawDevice) (l m : Location) : Prop where
  suffix : m <:+ l
  ne_root : m ≠ []
  inside : ∀ a : Location, a.IsAbove l → m <:+ a → h.deviceOf a = .ok d
  outside : ∃ d', h.deviceOf m.tail = .ok d' ∧ d' ≠ d

def IsAllInside (h : Host) (d : RawDevice) (l : Location) : Prop :=
  ∀ a : Location, a.IsAbove l → h.deviceOf a = .ok d

/-- `a` is the nearest directory above `l` that cannot be looked at; those before it are on `d`. -/
structure IsFirstFailure (h : Host) (d : RawDevice) (l a : Location) (c : IoError) : Prop where
  above : a.IsAbove l
  fails : h.deviceOf a = .error c
  before : ∀ b : Location, b.IsAbove l → a.IsAbove b → h.deviceOf b = .ok d

section

variable {h : Host} {d : RawDevice} {n : Name} {above : Location}

theorem IsBoundary.cons {m : Location} (hb : IsBoundary h d above m) (hd : h.deviceOf above = .ok d) :
    IsBoundary h d (n :: above) m where
  suffix := hb.suffix.trans (List.suffix_cons n above)
  ne_root := hb.ne_root
  inside := Location.forall_isAbove_cons (fun _ => hd) hb.inside
  outside := hb.outside

theorem IsAllInside.cons (hi : IsAllInside h d above) (hd : h.deviceOf above = .ok d) :
    IsAllInside h d (n :: above) :=
  Location.forall_isAbove_cons hd hi

theorem IsFirstFailure.cons {a : Location} {c : IoError} (hf : IsFirstFailure h d above a c)
    (hd : h.deviceOf above = .ok d) : IsFirstFailure h d (n :: above) a c where
  above := Location.isAbove_cons.2 hf.above.1
  fails := hf.fails
  before := Location.forall_isAbove_cons (fun _ => hd) hf.before

theorem IsBoundary.here {d' : RawDevice} (hd : h.deviceOf above = .ok d') (hne : d' ≠ d) :
    IsBoundary h d (n :: above) (n :: above) where
  suffix := List.suffix_rfl
  ne_root := List.cons_ne_nil n above
  inside a ha hm := by
    have h₁ := (Location.isAbove_cons.1 ha).length_le
    have h₂ := hm.length_le
    simp only [List.length_cons] at h₂
    omega
  outside := ⟨d', hd, hne⟩

theorem IsFirstFailure.here {c : IoError} (hd : h.deviceOf above = .error c) :
    IsFirstFailure h d (n :: above) above c where
  above := Location.isAbove_cons.2 List.suffix_rfl
  fails := hd
  before b hb hab := by
    have h₁ := (Location.isAbove_cons.1 hb).length_le
    have h₂ := hab.1.length_le
    exact absurd (hab.1.eq_of_length (by omega)) hab.2

end

inductive WalkEnd (path : Path) (h : Host) (d : RawDevice) (l : Location) :
    Except Error Location → Prop where
  | found {m : Location} (hb : IsBoundary h d l m) : WalkEnd path h d l (.ok m)
  | notFound (hi : IsAllInside h d l) : WalkEnd path h d l (.error (.mountPointNotFound path))
  | failed {a : Location} {c : IoError} (hf : IsFirstFailure h d l a c) :
    WalkEnd path h d l (.error (.stat a.path c))

theorem WalkEnd.cons {path : Path} {h : Host} {d : RawDevice} {n : Name} {above : Location}
    {r : Except Error Location} (he : WalkEnd path h d above r) (hd : h.deviceOf above = .ok d) :
    WalkEnd path h d (n :: above) r := by
  cases he with
  | found hb => exact .found (hb.cons hd)
  | notFound hi => exact .notFound (hi.cons hd)
  | failed hf => exact .failed (hf.cons hd)

theorem climb_end (path : Path) (h : Host) (d : RawDevice) (l : Location) :
    WalkEnd path h d l (climb path d l h).1 := by
  induction l with
  | nil =>
    refine .notFound fun a ha => ?_
    exact absurd (List.suffix_nil.1 ha.1) ha.2
  | cons n above ih =>
    obtain ⟨r, h₁, hl⟩ : ∃ r h₁, Host.lstat (Location.path above) h = (r, h₁) := ⟨_, _, rfl⟩
    have hdev : h.deviceOf above = r.map (·.device) := by rw [Host.deviceOf, hl]
    unfold climb
    cases r with
    | error c =>
      rw [Effect.bind_of_error (Effect.orFail_of_error hl)]
      exact .failed (.here hdev)
    | ok st =>
      obtain ⟨-, rfl⟩ := Host.lstat_ok hl
      rw [Effect.bind_of_ok (Effect.orFail_of_ok hl)]
      by_cases hd : st.device = d
      · subst hd
        simp only [if_true]
        exact ih.cons hdev
      · simp only [if_neg hd]
        exact .found (.here hdev hd)

structure IsFirstOff (h : Host) (d : RawDevice) (l a : Location) : Prop where
  above : a.IsAbove l
  off : h.deviceOf a ≠ .ok d
  before : ∀ b : Location, b.IsAbove l → a.IsAbove b → h.deviceOf b = .ok d

section

variable {h : Host} {d : RawDevice} {l a b m : Location}

theorem Location.isAbove_of_length_lt (ha : a <:+ l) (hb : b <:+ l) (hlen : a.length < b.length) :
    a.IsAbove b := by
  refine ⟨List.suffix_of_suffix_length_le ha hb (by omega), fun he => ?_⟩
  subst he
  omega

theorem IsFirstOff.unique (ha : IsFirstOff h d l a) (hb : IsFirstOff h d l b) : a = b := by
  have hle : ¬ a.length < b.length := fun hlt =>
    hb.off (ha.before b hb.above (Location.isAbove_of_length_lt ha.above.1 hb.above.1 hlt))
  have hge : ¬ b.length < a.length := fun hlt =>
    ha.off (hb.before a ha.above (Location.isAbove_of_length_lt hb.above.1 ha.above.1 hlt))
  have hsuffix := List.suffix_of_suffix_length_le ha.above.1 hb.above.1 (by omega)
  exact hsuffix.eq_of_length (by omega)

theorem IsAllInside.not_firstOff (hi : IsAllInside h d l) : ¬ IsFirstOff h d l a :=
  fun ha => ha.off (hi a ha.above)

theorem IsFirstFailure.firstOff {c : IoError} (hf : IsFirstFailure h d l a c) :
    IsFirstOff h d l a where
  above := hf.above
  off := by
    rw [hf.fails]
    exact fun hc => by cases hc
  before := hf.before

theorem IsBoundary.firstOff (hb : IsBoundary h d l m) : IsFirstOff h d l m.tail := by
  obtain ⟨n, r, rfl⟩ := List.exists_cons_of_ne_nil hb.ne_root
  obtain ⟨d', hd', hne⟩ := hb.outside
  refine ⟨?_, ?_, ?_⟩
  · refine Location.isAbove_of_length_lt ((List.suffix_cons n r).trans hb.suffix) List.suffix_rfl ?_
    have := hb.suffix.length_le
    simp only [List.length_cons] at this
    exact this
  · intro hc
    exact hne (Except.ok.inj (hd'.symm.trans hc))
  · intro b hbl hab
    refine hb.inside b hbl (List.suffix_of_suffix_length_le hb.suffix hbl.1 ?_)
    have hlt : r.length ≠ b.length := fun he => hab.2 (hab.1.eq_of_length he)
    have hle := hab.1.length_le
    simp only [List.tail_cons, List.length_cons] at hle ⊢
    omega

theorem IsBoundary.unique {m' : Location} (hb : IsBoundary h d l m) (hb' : IsBoundary h d l m') :
    m = m' := by
  have htail := hb.firstOff.unique hb'.firstOff
  obtain ⟨n, r, rfl⟩ := List.exists_cons_of_ne_nil hb.ne_root
  obtain ⟨n', r', rfl⟩ := List.exists_cons_of_ne_nil hb'.ne_root
  have hlen : r.length = r'.length := congrArg List.length htail
  have hsuffix := List.suffix_of_suffix_length_le hb.suffix hb'.suffix (by simp [hlen])
  exact hsuffix.eq_of_length (by simp [hlen])

theorem IsBoundary.not_firstFailure {c : IoError} (hb : IsBoundary h d l m) :
    ¬ IsFirstFailure h d l a c := by
  intro hf
  obtain ⟨d', hd', -⟩ := hb.outside
  rw [hb.firstOff.unique hf.firstOff, hf.fails] at hd'
  cases hd'

end

theorem WalkEnd.unique {path : Path} {h : Host} {d : RawDevice} {l : Location}
    {r r' : Except Error Location} (he : WalkEnd path h d l r) (he' : WalkEnd path h d l r') :
    r = r' := by
  cases he with
  | found hb =>
    cases he' with
    | found hb' => rw [hb.unique hb']
    | notFound hi => exact absurd hb.firstOff hi.not_firstOff
    | failed hf => exact absurd hf hb.not_firstFailure
  | notFound hi =>
    cases he' with
    | found hb => exact absurd hb.firstOff hi.not_firstOff
    | notFound _ => rfl
    | failed hf => exact absurd hf.firstOff hi.not_firstOff
  | failed hf =>
    cases he' with
    | found hb => exact absurd hf hb.not_firstFailure
    | notFound hi => exact absurd hf.firstOff hi.not_firstOff
    | failed hf' =>
      obtain rfl := hf.firstOff.unique hf'.firstOff
      rw [Except.error.inj (hf.fails.symm.trans hf'.fails)]

theorem boundary_eq_iff (h : Host) (d : RawDevice) (l : Location) (r : Except Error Location) :
    (boundary d l h).1 = r ↔ WalkEnd l.path h d l r := by
  have he := climb_end l.path h d l
  constructor
  · intro hr
    rw [← hr]
    exact he
  · exact he.unique

theorem climb_unchanged {path : Path} {d : RawDevice} {l m : Location} {h h' : Host}
    (hc : climb path d l h = (.ok m, h')) : h' = h := by
  induction l with
  | nil => cases hc
  | cons n above ih =>
    obtain ⟨st, h₁, hl, hrest⟩ := Effect.bind_eq_ok.1 hc
    obtain ⟨-, rfl⟩ := Host.lstat_ok (Effect.orFail_eq_ok.1 hl)
    split at hrest
    · exact ih hrest
    · cases hrest
      rfl

/-- What stands behind an answer: the stat of the path as it is written, and for the mount point either
the root or the end of the walk from the cleaned path. Every look has succeeded, so the host is as
before. -/
theorem Device.ofPath_found {p : Path} {h h' : Host} {d : Device} (hd : Device.ofPath p h = (.ok d, h')) :
    h' = h ∧ ∃ st, Host.stat p h = (.ok st, h) ∧
      (((namesDevice p h).1 = true ∧ d = ⟨.decode st.special, none⟩) ∨
        ((namesDevice p h).1 = false ∧ ∃ l, absolute p h = (.ok l, h) ∧
          (l = [] ∧ d = ⟨.decode st.device, some (Location.path [])⟩ ∨
            l ≠ [] ∧ ∃ m, IsBoundary h st.device l m ∧
              d = ⟨.decode st.device, some m.path⟩))) := by
  by_cases hp : p.isEmpty
  · simp only [Device.ofPath, hp, if_true] at hd
    cases hd
  simp only [Device.ofPath, hp, Bool.false_eq_true, if_false] at hd
  obtain ⟨st, h₁, hs, hd₁⟩ := Effect.bind_eq_ok.1 hd
  have hs := Effect.orFail_eq_ok.1 hs
  obtain ⟨-, rfl⟩ := Host.stat_ok hs
  rw [Effect.bind_of_ok (Effect.liftM_apply (namesDevice p) h₁), namesDevice_of_stat hs] at hd₁
  cases hdev : (namesDevice p h₁).1 with
  | true =>
    rw [hdev] at hd₁
    cases hd₁
    exact ⟨rfl, st, hs, .inl ⟨rfl, rfl⟩⟩
  | false =>
    rw [hdev] at hd₁
    obtain ⟨l, h₂, ha, hd₂⟩ := Effect.bind_eq_ok.1 hd₁
    have ha := Effect.orFail_eq_ok.1 ha
    obtain ⟨-, -, rfl⟩ := absolute_ok ha
    by_cases hl : l = []
    · rw [if_pos hl] at hd₂
      cases hd₂
      exact ⟨rfl, st, hs, .inr ⟨rfl, l, ha, .inl ⟨hl, rfl⟩⟩⟩
    · rw [if_neg hl] at hd₂
      obtain ⟨m, h₃, hb, hd₃⟩ := Effect.bind_eq_ok.1 hd₂
      cases hd₃
      have he := (boundary_eq_iff h₂ st.device l (.ok m)).1 (by rw [hb])
      cases he with
      | found hm => exact ⟨climb_unchanged hb, st, hs, .inr ⟨rfl, l, ha, .inr ⟨hl, m, hm, rfl⟩⟩⟩

theorem Device.ofPath_ok {p : Path} {h : Host} {d : Device} (hd : (Device.ofPath p h).1 = .ok d) :
    ∃ st, Host.stat p h = (.ok st, h) ∧
      (((namesDevice p h).1 = true ∧ d = ⟨.decode st.special, none⟩) ∨
        ((namesDevice p h).1 = false ∧ ∃ l, absolute p h = (.ok l, h) ∧
          (l = [] ∧ d = ⟨.decode st.device, some (Location.path [])⟩ ∨
            l ≠ [] ∧ ∃ m, IsBoundary h st.device l m ∧
              d = ⟨.decode st.device, some m.path⟩))) :=
  (Device.ofPath_found (Prod.ext hd rfl)).2

/-- The walk finds `m` exactly if `m` is the boundary, and the two failures say exactly what they name.
One of the three holds, and only one. An answer by the walk has this `m`, and the device of the path. -/
theorem boundary_correct (h : Host) :
    (∀ (d : RawDevice) (l : Location),
      (∀ m, (boundary d l h).1 = .ok m ↔ IsBoundary h d l m) ∧
      ((boundary d l h).1 = .error (.mountPointNotFound l.path) ↔ IsAllInside h d l) ∧
      (∀ q c, (boundary d l h).1 = .error (.stat q c) ↔
        ∃ a : Location, q = a.path ∧ IsFirstFailure h d l a c) ∧
      ((∃ m, IsBoundary h d l m) ∨ IsAllInside h d l ∨ ∃ a c, IsFirstFailure h d l a c) ∧
      (∀ m m', IsBoundary h d l m → IsBoundary h d l m' → m = m') ∧
      (∀ m, IsBoundary h d l m → ¬ IsAllInside h d l ∧ ∀ a c, ¬ IsFirstFailure h d l a c) ∧
      (IsAllInside h d l → ∀ a c, ¬ IsFirstFailure h d l a c)) ∧
    ∀ p dev l, (Device.ofPath p h).1 = .ok dev → (namesDevice p h).1 = false →
      (absolute p h).1 = .ok l → l ≠ [] →
      ∃ st m, (Host.stat p h).1 = .ok st ∧ IsBoundary h st.device l m ∧
        dev = ⟨.decode st.device, some m.path⟩ := by
  refine ⟨fun d l => ⟨fun m => ?_, ?_, fun q c => ?_, ?_, fun m m' => IsBoundary.unique,
    fun m hb => ⟨fun hi => hi.not_firstOff hb.firstOff, fun a c => hb.not_firstFailure⟩,
    fun hi a c hf => hi.not_firstOff hf.firstOff⟩, ?_⟩
  · rw [boundary_eq_iff]
    exact ⟨fun he => by cases he; assumption, .found⟩
  · rw [boundary_eq_iff]
    exact ⟨fun he => by cases he; assumption, .notFound⟩
  · rw [boundary_eq_iff]
    constructor
    · intro he
      cases he with
      | @failed a c hf => exact ⟨a, rfl, hf⟩
    · intro ha
      obtain ⟨a, rfl, hf⟩ := ha
      exact .failed hf
  · have he := climb_end l.path h d l
    generalize (climb l.path d l h).1 = r at he
    cases he with
    | found hb => exact .inl ⟨_, hb⟩
    | notFound hi => exact .inr (.inl hi)
    | failed hf => exact .inr (.inr ⟨_, _, hf⟩)
  · intro p dev l hdev hn ha hl
    obtain ⟨st, hs, hcase⟩ := Device.ofPath_ok hdev
    rcases hcase with ⟨hn', -⟩ | ⟨-, l', ha', hroot | ⟨-, m, hb, hd⟩⟩
    · rw [hn'] at hn
      cases hn
    · rw [ha'] at ha
      cases ha
      exact absurd hroot.1 hl
    · rw [ha'] at ha
      cases ha
      exact ⟨st, m, by rw [hs], hb, hd⟩

def Host.nested : Host :=
  { Host.initial with
    tree := ⟨[([[0x61]], .dir 0o755), ([[0x66], [0x61]], .leaf .regular 0o644 [])]⟩
    devices := [([[0x61]], 2064)] }

theorem boundary_correct_nested :
    ∃ (st : Host.Stat) (m : Location),
      (Device.ofPath ⟨[slash, 0x61, slash, 0x66]⟩ .nested).1 = .ok ⟨⟨8, 16⟩, some ⟨[slash, 0x61]⟩⟩ ∧
      (Host.stat ⟨[slash, 0x61, slash, 0x66]⟩ .nested).1 = .ok st ∧
      IsBoundary .nested st.device [[0x66], [0x61]] m ∧
      (⟨⟨8, 16⟩, some ⟨[slash, 0x61]⟩⟩ : Device) = ⟨.decode st.device, some m.path⟩ := by
  have hd : (Device.ofPath ⟨[slash, 0x61, slash, 0x66]⟩ .nested).1 =
      .ok ⟨⟨8, 16⟩, some ⟨[slash, 0x61]⟩⟩ := by rfl
  have hn : (namesDevice ⟨[slash, 0x61, slash, 0x66]⟩ .nested).1 = false := by rfl
  have ha : (absolute ⟨[slash, 0x61, slash, 0x66]⟩ .nested).1 = .ok [[0x66], [0x61]] := by rfl
  obtain ⟨st, m, hs, hb, hm⟩ := (boundary_correct .nested).2 _ _ _ hd hn ha (by decide)
  exact ⟨st, m, hd, hs, hb, hm⟩

end SandboxMounts
