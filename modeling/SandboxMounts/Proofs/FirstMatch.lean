import SandboxMounts.Proofs.Effects
import SandboxMounts.Proofs.TableShape

/-!
Which line of a mount table answers. The lines are read in order, and the first that is not a whole
line of another mount point settles the lookup: it is the entry, or it is malformed.
-/

set_option autoImplicit false

namespace SandboxMounts.MountTable

/-- A line of as many fields as there should be, for another mount point. -/
def IsOther (mountPoint : Path) (line : Bytes) : Prop :=
  ∃ row, Runs line row ∧ row.length = fieldCount ∧ row[1]? ≠ some mountPoint.bytes

def IsEntryOf (line : Bytes) (e : Entry) : Prop :=
  ∃ device fsType options dump pass, Runs line [device, e.mountPath.bytes, fsType, options, dump, pass] ∧
    e.devicePath = Utf8.lossy device ∧ e.fsType = Utf8.lossy fsType

def IsMalformed (line : Bytes) (found : Nat) (text : String) : Prop :=
  ∃ row kept, Runs line row ∧ row.length = found ∧ found ≠ fieldCount ∧ IsTrimmed line kept ∧
    text = Utf8.lossy kept

/-- How a search ends: at the first line that is not of another mount point, or after all lines. -/
inductive SearchEnd (mountPoint : Path) : List Bytes → Except Error Entry → Prop
  | found {before after : List Bytes} {line : Bytes} {e : Entry}
    (hb : ∀ l ∈ before, IsOther mountPoint l) (he : IsEntryOf line e) (hm : e.mountPath = mountPoint) :
    SearchEnd mountPoint (before ++ line :: after) (.ok e)
  | malformed {before after : List Bytes} {line : Bytes} {found : Nat} {text : String}
    (hb : ∀ l ∈ before, IsOther mountPoint l) (hl : IsMalformed line found text) :
    SearchEnd mountPoint (before ++ line :: after)
      (.error (.malformedMountTable fieldCount found text))
  | notFound {ls : List Bytes} (hb : ∀ l ∈ ls, IsOther mountPoint l) :
    SearchEnd mountPoint ls (.error (.mountEntryNotFound mountPoint.display))

theorem exists_of_length {row : List Bytes} (h : row.length = fieldCount) :
    ∃ device path fsType options dump pass, row = [device, path, fsType, options, dump, pass] :=
  match row, h with
  | [device, path, fsType, options, dump, pass], _ =>
    ⟨device, path, fsType, options, dump, pass, rfl⟩

section

variable {mountPoint : Path} {line : Bytes}

theorem judge_of_other (h : IsOther mountPoint line) : judge mountPoint line = .ok none := by
  obtain ⟨row, hrow, hlen, hother⟩ := h
  obtain ⟨device, path, fsType, options, dump, pass, rfl⟩ := exists_of_length hlen
  have hne : path ≠ mountPoint.bytes := by simpa using hother
  simp [judge, ← fields_iff.1 hrow, hne]

theorem judge_of_entry {e : Entry} (h : IsEntryOf line e) :
    judge e.mountPath line = .ok (some e) := by
  obtain ⟨device, fsType, options, dump, pass, hrow, hd, ht⟩ := h
  simp [judge, ← fields_iff.1 hrow, ← hd, ← ht]

theorem judge_of_malformed {found : Nat} {text : String} (h : IsMalformed line found text) :
    judge mountPoint line = .error (.malformedMountTable fieldCount found text) := by
  obtain ⟨row, kept, hrow, rfl, hlen, hkept, rfl⟩ := h
  rw [isTrimmed_iff.1 hkept]
  obtain rfl := fields_iff.1 hrow
  unfold judge
  split
  · exact absurd (by simp [*, fieldCount]) hlen
  · rfl

theorem judge_cases (mountPoint : Path) (line : Bytes) :
    IsOther mountPoint line ∨ (∃ e, IsEntryOf line e ∧ e.mountPath = mountPoint) ∨
      ∃ found text, IsMalformed line found text := by
  have hrow := fields_cut line
  by_cases hlen : (fields line).length = fieldCount
  · obtain ⟨device, path, fsType, options, dump, pass, hfs⟩ := exists_of_length hlen
    rw [hfs] at hrow
    by_cases hp : path = mountPoint.bytes
    · subst hp
      exact .inr (.inl ⟨⟨Utf8.lossy device, mountPoint, Utf8.lossy fsType⟩,
        ⟨device, fsType, options, dump, pass, hrow, rfl, rfl⟩, rfl⟩)
    · exact .inl ⟨_, hrow, rfl, by simpa using hp⟩
  · exact .inr (.inr ⟨_, _, _, _, hrow, rfl, hlen, trimEnd_isTrimmed line, rfl⟩)

/-- Lines of other mount points make no difference to what comes after them. -/
theorem search_append {before : List Bytes} (rest : List Bytes)
    (hb : ∀ l ∈ before, IsOther mountPoint l) :
    search mountPoint (before ++ rest) = search mountPoint rest := by
  induction before with
  | nil => rfl
  | cons l ls ih =>
    rw [List.cons_append, search, judge_of_other (hb l List.mem_cons_self)]
    exact ih fun k hk => hb k (List.mem_cons_of_mem l hk)

theorem SearchEnd.cons {ls : List Bytes} {r : Except Error Entry} (hl : IsOther mountPoint line)
    (he : SearchEnd mountPoint ls r) : SearchEnd mountPoint (line :: ls) r := by
  cases he with
  | found hb he hm => exact .found (List.forall_mem_cons.2 ⟨hl, hb⟩) he hm
  | malformed hb hk => exact .malformed (List.forall_mem_cons.2 ⟨hl, hb⟩) hk
  | notFound hb => exact .notFound (List.forall_mem_cons.2 ⟨hl, hb⟩)

theorem search_end (mountPoint : Path) (ls : List Bytes) :
    SearchEnd mountPoint ls (search mountPoint ls) := by
  induction ls with
  | nil => exact .notFound fun l hl => by cases hl
  | cons line ls ih =>
    rcases judge_cases mountPoint line with hl | ⟨e, he, rfl⟩ | ⟨found, text, hl⟩
    · rw [search, judge_of_other hl]
      exact ih.cons hl
    · rw [search, judge_of_entry he]
      exact .found (List.forall_mem_nil _) he rfl
    · rw [search, judge_of_malformed hl]
      exact .malformed (List.forall_mem_nil _) hl

theorem search_iff {ls : List Bytes} {r : Except Error Entry} :
    search mountPoint ls = r ↔ SearchEnd mountPoint ls r := by
  constructor
  · intro h
    rw [← h]
    exact search_end mountPoint ls
  · intro h
    cases h with
    | found hb he hm => rw [search_append _ hb, search, ← hm, judge_of_entry he]
    | malformed hb hl => rw [search_append _ hb, search, judge_of_malformed hl]
    | notFound hb =>
      have h := search_append [] hb
      rwa [List.append_nil] at h

end

section

variable {table mountPoint : Path} {h h' : Host}

theorem lookup_of_isEmpty (hm : mountPoint.isEmpty = true) :
    lookup table mountPoint h = (.error (.emptyArgument "mount point"), h) := by
  unfold lookup
  rw [hm]
  rfl

theorem lookup_of_unreadable {c : IoError} (hm : mountPoint.isEmpty = false)
    (hr : Host.read table h = (.error c, h')) :
    lookup table mountPoint h = (.error (.mountTable table c), h') := by
  unfold lookup
  rw [hm]
  exact Effect.bind_of_error (Effect.orFail_of_error hr)

theorem lookup_of_read {content : Bytes} (hm : mountPoint.isEmpty = false)
    (hr : Host.read table h = (.ok content, h')) :
    lookup table mountPoint h = (search mountPoint (lines content), h') := by
  have ho : (MonadExcept.ofExcept (lookupIn content mountPoint) : Action Entry) h' =
      (search mountPoint (lines content), h') := by
    unfold lookupIn
    cases search mountPoint (lines content) <;> rfl
  unfold lookup
  rw [hm, ← ho]
  exact Effect.bind_of_ok (Effect.orFail_of_ok hr)

end

/-- An empty mount point is refused before the table is looked at, and a table that cannot be read is an
error of its own. Else there is one cut of the table into lines, and it is told from the lines alone
whether the lookup finds an entry, meets a malformed line or comes to the end. -/
theorem lookup_correct (table mountPoint : Path) (h : Host) :
    (mountPoint.isEmpty = true →
      lookup table mountPoint h = (.error (.emptyArgument "mount point"), h)) ∧
    (mountPoint.isEmpty = false → ∀ c h', Host.read table h = (.error c, h') →
      lookup table mountPoint h = (.error (.mountTable table c), h')) ∧
    (mountPoint.isEmpty = false → ∀ content h', Host.read table h = (.ok content, h') →
      ∃ ls r, (∀ ls', Lines content ls' ↔ ls' = ls) ∧ lookup table mountPoint h = (r, h') ∧
        (∀ e, r = .ok e ↔ e.mountPath = mountPoint ∧ ∃ before line after,
          ls = before ++ line :: after ∧ (∀ l ∈ before, IsOther mountPoint l) ∧ IsEntryOf line e) ∧
        (∀ expected found text, r = .error (.malformedMountTable expected found text) ↔
          expected = fieldCount ∧ ∃ before line after, ls = before ++ line :: after ∧
            (∀ l ∈ before, IsOther mountPoint l) ∧ IsMalformed line found text) ∧
        (∀ name, r = .error (.mountEntryNotFound name) ↔
          name = mountPoint.display ∧ ∀ l ∈ ls, IsOther mountPoint l)) := by
  refine ⟨lookup_of_isEmpty, fun hm c h' => lookup_of_unreadable hm, fun hm content h' hr => ?_⟩
  refine ⟨lines content, search mountPoint (lines content), fun ls' => lines_iff,
    lookup_of_read hm hr, fun e => ?_, fun expected found text => ?_, fun name => ?_⟩
  · rw [search_iff]
    constructor
    · intro he
      generalize lines content = ls at he
      cases he with
      | found hb he hm => exact ⟨hm, _, _, _, rfl, hb, he⟩
    · intro he
      obtain ⟨hm, before, line, after, hls, hb, he⟩ := he
      rw [hls]
      exact .found hb he hm
  · rw [search_iff]
    constructor
    · intro he
      generalize lines content = ls at he
      cases he with
      | malformed hb hl => exact ⟨rfl, _, _, _, rfl, hb, hl⟩
    · intro hl
      obtain ⟨rfl, before, line, after, hls, hb, hl⟩ := hl
      rw [hls]
      exact .malformed hb hl
  · rw [search_iff]
    constructor
    · intro he
      generalize lines content = ls at he ⊢
      cases he with
      | notFound hb => exact ⟨rfl, hb⟩
    · intro hn
      obtain ⟨rfl, hb⟩ := hn
      exact .notFound hb

def blankTable : Bytes :=
  -- `p /p p o 0 0`, then `/d` on a device that is no text, then blanks
  [0x70, 0x20, slash, 0x70, 0x20, 0x70, 0x20, 0x6F, 0x20, 0x30, 0x20, 0x30, lineFeed,
    0xE9, 0x20, slash, 0x64, 0x09, 0x78, 0x20, 0x6F, 0x20, 0x30, 0x20, 0x30, 0x0D, lineFeed,
    0x20, 0x0D]

def hostOf (content : Bytes) : Host :=
  { Host.initial with tree := ⟨[([[0x74]], .leaf .regular 0o644 content)]⟩ }

theorem lookup_correct_blanks :
    lookup ⟨[slash, 0x74]⟩ ⟨[]⟩ (hostOf blankTable) =
      (.error (.emptyArgument "mount point"), hostOf blankTable) ∧
    lookup ⟨[slash]⟩ ⟨[slash, 0x64]⟩ (hostOf blankTable) =
      (.error (.mountTable ⟨[slash]⟩ (.os .isDirectory)), hostOf blankTable) ∧
    (∃ before line after, lines blankTable = before ++ line :: after ∧
      (∀ l ∈ before, IsOther ⟨[slash, 0x64]⟩ l) ∧
      IsEntryOf line ⟨"\uFFFD", ⟨[slash, 0x64]⟩, "x"⟩) ∧
    ∃ before line after, lines blankTable = before ++ line :: after ∧
      (∀ l ∈ before, IsOther ⟨[slash, 0x71]⟩ l) ∧ IsMalformed line 0 "" := by
  have hread : Host.read ⟨[slash, 0x74]⟩ (hostOf blankTable) =
      (.ok blankTable, hostOf blankTable) := by rfl
  have hdir : Host.read ⟨[slash]⟩ (hostOf blankTable) =
      (.error (.os .isDirectory), hostOf blankTable) := by rfl
  obtain ⟨hempty, -, -⟩ := lookup_correct ⟨[slash, 0x74]⟩ ⟨[]⟩ (hostOf blankTable)
  obtain ⟨-, hunreadable, -⟩ := lookup_correct ⟨[slash]⟩ ⟨[slash, 0x64]⟩ (hostOf blankTable)
  obtain ⟨-, -, hd⟩ := lookup_correct ⟨[slash, 0x74]⟩ ⟨[slash, 0x64]⟩ (hostOf blankTable)
  obtain ⟨-, -, hq⟩ := lookup_correct ⟨[slash, 0x74]⟩ ⟨[slash, 0x71]⟩ (hostOf blankTable)
  have hentry : (lookup ⟨[slash, 0x74]⟩ ⟨[slash, 0x64]⟩ (hostOf blankTable)).1 =
      .ok ⟨"\uFFFD", ⟨[slash, 0x64]⟩, "x"⟩ := by rfl
  have hblank : (lookup ⟨[slash, 0x74]⟩ ⟨[slash, 0x71]⟩ (hostOf blankTable)).1 =
      .error (.malformedMountTable fieldCount 0 "") := by rfl
  obtain ⟨ls, r, hls, hr, hfound, -, -⟩ := hd rfl _ _ hread
  obtain ⟨ls', r', hls', hr', -, hmalformed, -⟩ := hq rfl _ _ hread
  obtain rfl := (hls _).1 (lines_cut blankTable)
  obtain rfl := (hls' _).1 (lines_cut blankTable)
  rw [hr] at hentry
  rw [hr'] at hblank
  exact ⟨hempty rfl, hunreadable rfl _ _ hdir, ((hfound _).1 hentry).2,
    ((hmalformed fieldCount _ _).1 hblank).2⟩

end SandboxMounts.MountTable
