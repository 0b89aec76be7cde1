import SandboxMounts.Proofs.FirstMatch

/-!
The table as a kernel writes it. Spaces, tabs, line feeds and backslashes in the name of a mount point
are written as octal numbers, so the name stands in one field. It is looked up as it is written: a name
with one of these bytes answers to its spelling and not to itself. Form feeds and carriage returns are
written as they are and cut the field.
-/

set_option autoImplicit false

namespace SandboxMounts.MountTable

def space : UInt8 := 0x20

def tab : UInt8 := 0x09

def backslash : UInt8 := 0x5C

def isEscaped (b : UInt8) : Bool := b == space || b == tab || b == lineFeed || b == backslash

def octal (b : UInt8) : Bytes := [backslash, 0x30 + b / 64, 0x30 + b / 8 % 8, 0x30 + b % 8]

def escape (bs : Bytes) : Bytes := bs.flatMap fun b => if isEscaped b then octal b else [b]

structure Listed where
  device : Bytes
  point : Path
  fsType : Bytes
  options : Bytes
  dump : Bytes
  pass : Bytes
  deriving DecidableEq, Repr

namespace Listed

def spelling (m : Listed) : Path := ⟨escape m.point.bytes⟩

def others (m : Listed) : List Bytes := [m.device, m.fsType, m.options, m.dump, m.pass]

def row (m : Listed) : List Bytes :=
  [m.device, m.spelling.bytes, m.fsType, m.options, m.dump, m.pass]

def line (m : Listed) : Bytes := Bytes.joinWith space m.row ++ [lineFeed]

/-- The fields can be told apart by the spaces between them, and the lines by their line feeds. -/
structure IsWritable (m : Listed) : Prop where
  point : m.point.isEmpty = false
  others : ∀ f ∈ m.others, f ≠ [] ∧ space ∉ f ∧ lineFeed ∉ f

def IsWhole (m : Listed) : Prop := ∀ f ∈ m.row, ∀ b ∈ f, isBlank b = false

instance (m : Listed) : Decidable m.IsWhole :=
  inferInstanceAs (Decidable (∀ f ∈ m.row, ∀ b ∈ f, isBlank b = false))

end Listed

def write (ms : List Listed) : Bytes := ms.flatMap Listed.line

/-- The numbers are 040, 011, 012 and 134. -/
example : escape [space, tab, lineFeed, backslash] =
    [backslash, 0x30, 0x34, 0x30, backslash, 0x30, 0x31, 0x31,
      backslash, 0x30, 0x31, 0x32, backslash, 0x31, 0x33, 0x34] := by decide

theorem isEscaped_iff {b : UInt8} :
    isEscaped b = true ↔ b = space ∨ b = tab ∨ b = lineFeed ∨ b = backslash := by
  simp [isEscaped, or_assoc]

@[simp] theorem escape_nil : escape [] = [] := rfl

theorem escape_cons (b : UInt8) (bs : Bytes) :
    escape (b :: bs) = (if isEscaped b then octal b else [b]) ++ escape bs := rfl

theorem octal_injective {a b : UInt8} (ha : isEscaped a = true) (hb : isEscaped b = true)
    (h : octal a = octal b) : a = b := by
  rcases isEscaped_iff.1 ha with rfl | rfl | rfl | rfl <;>
    rcases isEscaped_iff.1 hb with rfl | rfl | rfl | rfl <;> first | rfl | exact absurd h (by decide)

theorem octal_append_ne_cons {a b : UInt8} {x y : Bytes} (hb : isEscaped b = false) :
    octal a ++ x ≠ b :: y := by
  intro h
  have hhead : backslash = b := (List.cons.inj h).1
  rw [← hhead] at hb
  exact absurd hb (by decide)

theorem escape_injective {x y : Bytes} (h : escape x = escape y) : x = y := by
  induction x generalizing y with
  | nil =>
    cases y with
    | nil => rfl
    | cons b y =>
      rw [escape_cons] at h
      cases hb : isEscaped b <;> simp [hb, octal] at h
  | cons a x ih =>
    cases y with
    | nil =>
      rw [escape_cons] at h
      cases ha : isEscaped a <;> simp [ha, octal] at h
    | cons b y =>
      rw [escape_cons, escape_cons] at h
      cases ha : isEscaped a <;> cases hb : isEscaped b <;>
        simp only [ha, hb, if_true, Bool.false_eq_true, if_false, List.singleton_append] at h
      · obtain ⟨hab, hxy⟩ := List.cons.inj h
        rw [hab, ih hxy]
      · exact absurd h.symm (octal_append_ne_cons ha)
      · exact absurd h (octal_append_ne_cons hb)
      · obtain ⟨hab, hxy⟩ := List.append_inj h rfl
        rw [octal_injective ha hb hab, ih hxy]

theorem escape_of_plain {bs : Bytes} (h : ∀ b ∈ bs, isEscaped b = false) : escape bs = bs := by
  induction bs with
  | nil => rfl
  | cons b bs ih =>
    rw [escape_cons, h b List.mem_cons_self, ih fun c hc => h c (List.mem_cons_of_mem b hc)]
    rfl

theorem lineFeed_notMem_escape (bs : Bytes) : lineFeed ∉ escape bs := by
  intro h
  obtain ⟨b, -, hb⟩ := List.mem_flatMap.1 h
  cases he : isEscaped b with
  | true =>
    simp only [he, if_true] at hb
    rcases isEscaped_iff.1 he with rfl | rfl | rfl | rfl <;> exact absurd hb (by decide)
  | false =>
    simp only [he, Bool.false_eq_true, if_false, List.mem_singleton] at hb
    rw [← hb] at he
    exact absurd he (by decide)

theorem escape_ne_nil {bs : Bytes} (h : bs ≠ []) : escape bs ≠ [] := fun he => h (escape_injective he)

theorem mem_joinWith {x b : UInt8} {ss : List Bytes} (h : b ∈ Bytes.joinWith x ss) :
    b = x ∨ ∃ s ∈ ss, b ∈ s := by
  induction ss with
  | nil => cases h
  | cons s ss ih =>
    cases ss with
    | nil => exact .inr ⟨s, List.mem_cons_self, h⟩
    | cons t ss =>
      rcases List.mem_append.1 h with hs | hrest
      · exact .inr ⟨s, List.mem_cons_self, hs⟩
      · rcases List.mem_cons.1 hrest with hx | hrest
        · exact .inl hx
        · rcases ih hrest with hx | ⟨u, hu, hb⟩
          · exact .inl hx
          · exact .inr ⟨u, List.mem_cons_of_mem s hu, hb⟩

theorem fields_joinWith {x : UInt8} (hx : isBlank x = true) (ss : List Bytes) :
    fields (Bytes.joinWith x ss) = ss.flatMap fields := by
  induction ss with
  | nil => rfl
  | cons s ss ih =>
    cases ss with
    | nil => simp [Bytes.joinWith]
    | cons t ss =>
      rw [Bytes.joinWith, fields_append_cons _ _ hx, ih, List.flatMap_cons (x := s)]
      simp

theorem flatMap_fields {ss : List Bytes} (h : ∀ s ∈ ss, s ≠ [] ∧ ∀ b ∈ s, isBlank b = false) :
    ss.flatMap fields = ss := by
  induction ss with
  | nil => rfl
  | cons s ss ih =>
    obtain ⟨hne, hs⟩ := h s List.mem_cons_self
    rw [List.flatMap_cons, fields_of_clean hne hs, ih fun t ht => h t (List.mem_cons_of_mem s ht),
      List.singleton_append]

section

variable {m : Listed} {ms : List Listed} {q : Path}

theorem Listed.IsWritable.row (hm : m.IsWritable) : ∀ f ∈ m.row, f ≠ [] ∧ lineFeed ∉ f := by
  have hpoint : m.spelling.bytes ≠ [] ∧ lineFeed ∉ m.spelling.bytes := by
    refine ⟨escape_ne_nil fun he => ?_, lineFeed_notMem_escape m.point.bytes⟩
    have hp := hm.point
    rw [Path.isEmpty, he] at hp
    cases hp
  intro f hf
  by_cases hs : f = m.spelling.bytes
  · rw [hs]
    exact hpoint
  · obtain ⟨hne, -, hlf⟩ := hm.others f (by simpa [Listed.row, Listed.others, hs] using hf)
    exact ⟨hne, hlf⟩

theorem lines_write (hms : ∀ m ∈ ms, m.IsWritable) : Lines (write ms) (ms.map Listed.line) := by
  induction ms with
  | nil => exact .nil
  | cons m ms ih =>
    have hlf : lineFeed ∉ Bytes.joinWith space m.row := by
      intro h
      rcases mem_joinWith h with hs | ⟨f, hf, hb⟩
      · exact absurd hs (by decide)
      · exact ((hms m List.mem_cons_self).row f hf).2 hb
    have hwrite : write (m :: ms) = Bytes.joinWith space m.row ++ lineFeed :: write ms := by
      simp [write, Listed.line]
    rw [hwrite]
    exact .feed hlf (ih fun k hk => hms k (List.mem_cons_of_mem m hk))

theorem Listed.IsWhole.runs (hm : m.IsWhole) (hw : m.IsWritable) : Runs m.line m.row := by
  rw [fields_iff, Listed.line, fields_append_cons _ _ (by decide), fields_joinWith (by decide),
    flatMap_fields fun f hf => ⟨(hw.row f hf).1, hm f hf⟩, fields_nil, List.append_nil]

theorem Listed.IsWhole.isOther (hm : m.IsWhole) (hw : m.IsWritable) (hq : m.spelling ≠ q) :
    IsOther q m.line := by
  refine ⟨m.row, hm.runs hw, rfl, fun hc => hq ?_⟩
  have hbytes : m.spelling.bytes = q.bytes := Option.some.inj hc
  exact congrArg Path.mk hbytes

theorem Listed.IsWhole.isEntryOf (hm : m.IsWhole) (hw : m.IsWritable) :
    IsEntryOf m.line ⟨Utf8.lossy m.device, m.spelling, Utf8.lossy m.fsType⟩ :=
  ⟨m.device, m.fsType, m.options, m.dump, m.pass, hm.runs hw, rfl, rfl⟩

theorem forall_isOther {before : List Listed} (hms : ∀ m ∈ before, m.IsWritable)
    (hb : ∀ m ∈ before, m.IsWhole ∧ m.spelling ≠ q) :
    ∀ l ∈ before.map Listed.line, IsOther q l := by
  intro l hl
  obtain ⟨m, hm, rfl⟩ := List.mem_map.1 hl
  exact (hb m hm).1.isOther (hms m hm) (hb m hm).2

end

/-- By its spelling each mount point is found, as the first mount there, and nothing else is found, as
long as no line before has a field cut by a blank; where the cut makes more fields of a line than there
should be, the lookup ends. A name without a byte to be escaped is spelled as itself, and by no other. -/
theorem lookup_write {ms : List Listed} (hms : ∀ m ∈ ms, m.IsWritable) {table : Path} {h h' : Host}
    (hr : Host.read table h = (.ok (write ms), h')) :
    (∀ before m after, ms = before ++ m :: after → (∀ b ∈ before, b.IsWhole ∧ b.point ≠ m.point) →
      m.IsWhole → lookup table m.spelling h =
        (.ok ⟨Utf8.lossy m.device, m.spelling, Utf8.lossy m.fsType⟩, h')) ∧
    (∀ q, q.isEmpty = false → (∀ m ∈ ms, m.IsWhole ∧ m.spelling ≠ q) →
      lookup table q h = (.error (.mountEntryNotFound q.display), h')) ∧
    (∀ q before m after, q.isEmpty = false → ms = before ++ m :: after →
      (∀ b ∈ before, b.IsWhole ∧ b.spelling ≠ q) → (fields m.line).length ≠ fieldCount →
      lookup table q h = (.error (.malformedMountTable fieldCount (fields m.line).length
        (Utf8.lossy (trimEnd m.line))), h')) ∧
    ∀ q : Path, (∀ b ∈ q.bytes, isEscaped b = false) → ∀ m : Listed, m.spelling = q ↔ m.point = q := by
  have hlines : lines (write ms) = ms.map Listed.line := (lines_iff.1 (lines_write hms)).symm
  have hlookup : ∀ {q : Path} {r}, q.isEmpty = false → SearchEnd q (ms.map Listed.line) r →
      lookup table q h = (r, h') := by
    intro q r hq he
    rw [lookup_of_read hq hr, hlines, search_iff.2 he]
  refine ⟨fun before m after hcut hb hm => ?_, fun q hq hall => ?_,
    fun q before m after hq hcut hb hm => ?_, fun q hq m => ?_⟩
  · subst hcut
    have hwrite := hms m (by simp)
    have hne : m.spelling.isEmpty = false := by
      have hspell := (hwrite.row m.spelling.bytes (by simp [Listed.row])).1
      simpa [Path.isEmpty] using hspell
    refine hlookup hne ?_
    rw [List.map_append, List.map_cons]
    refine .found (forall_isOther (fun b hmem => hms b (by simp [hmem])) fun b hmem => ?_)
      (hm.isEntryOf hwrite) rfl
    refine ⟨(hb b hmem).1, fun hs => (hb b hmem).2 ?_⟩
    exact congrArg Path.mk (escape_injective (congrArg Path.bytes hs))
  · exact hlookup hq (.notFound (forall_isOther hms hall))
  · subst hcut
    refine hlookup hq ?_
    rw [List.map_append, List.map_cons]
    exact .malformed (forall_isOther (fun b hmem => hms b (by simp [hmem])) hb)
      ⟨_, _, fields_cut m.line, rfl, hm, trimEnd_isTrimmed m.line, rfl⟩
  · have hself : (⟨escape q.bytes⟩ : Path) = q := congrArg Path.mk (escape_of_plain hq)
    constructor
    · intro hs
      rw [← hself] at hs
      exact congrArg Path.mk (escape_injective (congrArg Path.bytes hs))
    · intro hp
      rw [Listed.spelling, hp]
      exact hself

def Listed.onDevice (device : UInt8) (point : Bytes) : Listed :=
  ⟨[device], ⟨point⟩, [0x74], [0x6F], [0x30], [0x30]⟩

def formFeed : UInt8 := 0x0C

def spaced : Listed := .onDevice 0x78 [slash, 0x61, space, 0x62]

def plain : Listed := .onDevice 0x79 [slash, 0x63]

def torn : Listed := .onDevice 0x7A [slash, 0x61, formFeed, 0x62]

theorem Listed.isWritable_onDevice {device : UInt8} {point : Bytes} (hp : point.isEmpty = false)
    (hs : device ≠ space) (hf : device ≠ lineFeed) : (Listed.onDevice device point).IsWritable where
  point := hp
  others := by
    simp only [Listed.onDevice, Listed.others, List.mem_cons, List.not_mem_nil, or_false]
    intro f hm
    rcases hm with rfl | rfl | rfl | rfl | rfl
    · exact ⟨List.cons_ne_nil _ _, by simpa using hs.symm, by simpa using hf.symm⟩
    · decide
    · decide
    · decide
    · decide

theorem isWritable_spaced_plain_torn : ∀ m ∈ [spaced, plain, torn], m.IsWritable := by
  intro m hm
  simp only [List.mem_cons, List.not_mem_nil, or_false] at hm
  rcases hm with rfl | rfl | rfl
  · exact Listed.isWritable_onDevice rfl (by decide) (by decide)
  · exact Listed.isWritable_onDevice rfl (by decide) (by decide)
  · exact Listed.isWritable_onDevice rfl (by decide) (by decide)

theorem lookup_write_spaced :
    Host.read ⟨[slash, 0x74]⟩ (hostOf (write [spaced, plain, torn])) =
      (.ok (write [spaced, plain, torn]), hostOf (write [spaced, plain, torn])) ∧
    (lookup ⟨[slash, 0x74]⟩ spaced.spelling (hostOf (write [spaced, plain, torn]))).1 =
      .ok ⟨"x", ⟨[slash, 0x61, backslash, 0x30, 0x34, 0x30, 0x62]⟩, "t"⟩ ∧
    (lookup ⟨[slash, 0x74]⟩ ⟨[slash, 0x63]⟩ (hostOf (write [spaced, plain, torn]))).1 =
      .ok ⟨"y", ⟨[slash, 0x63]⟩, "t"⟩ ∧
    (lookup ⟨[slash, 0x74]⟩ ⟨[slash, 0x64]⟩ (hostOf (write [spaced, plain, torn]))).1 =
      .error (.malformedMountTable 6 7 (Utf8.lossy (trimEnd torn.line))) := by
  have hread : Host.read ⟨[slash, 0x74]⟩ (hostOf (write [spaced, plain, torn])) =
      (.ok (write [spaced, plain, torn]), hostOf (write [spaced, plain, torn])) := by rfl
  obtain ⟨hfound, -, htorn, hself⟩ := lookup_write isWritable_spaced_plain_torn hread
  have hplain := hfound [spaced] plain [torn] rfl (by decide +kernel) (by decide +kernel)
  rw [(hself ⟨[slash, 0x63]⟩ (by decide +kernel) plain).2 rfl] at hplain
  refine ⟨hread, ?_, by rw [hplain]; rfl, ?_⟩
  · rw [hfound [] spaced [plain, torn] rfl (by decide +kernel) (by decide +kernel)]
    rfl
  · rw [htorn ⟨[slash, 0x64]⟩ [spaced, plain] torn [] rfl rfl (by decide +kernel) (by decide +kernel)]
    rfl

/-- `/a b` is listed and not found, its spelling is not listed and found, and one name with a form feed
makes the lookup of another mount fail. -/
theorem lookup_write_escaped :
    (∀ m ∈ [spaced, plain, torn], m.IsWritable ∧ m.point.isAbsolute ∧ m.point.hasNul = false) ∧
    (lookup ⟨[slash, 0x74]⟩ spaced.point (hostOf (write [spaced]))).1 =
      .error (.mountEntryNotFound "/a b") ∧
    (lookup ⟨[slash, 0x74]⟩ spaced.spelling (hostOf (write [spaced]))).1 =
      .ok ⟨"x", spaced.spelling, "t"⟩ ∧ spaced.spelling ≠ spaced.point ∧
    ∃ text, (lookup ⟨[slash, 0x74]⟩ plain.point (hostOf (write [torn, plain]))).1 =
      .error (.malformedMountTable 6 7 text) := by
  refine ⟨fun m hm => ⟨isWritable_spaced_plain_torn m hm, ?_⟩, by rfl, by rfl, by decide, _, by rfl⟩
  simp only [List.mem_cons, List.not_mem_nil, or_false] at hm
  rcases hm with rfl | rfl | rfl <;> decide

end SandboxMounts.MountTable
